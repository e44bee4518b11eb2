/-!
# Paths

A path is what was written, cut at its slashes. Nothing is dropped, so the text can be had back
(`text_ofText`); empty segments and single points are passed over where a path is followed. A
parent has fewer segments (`length_parent?`).
-/

namespace JsonCabinet.Files

/-- The pieces between slashes. -/
def cut : List Char → List (List Char)
  | [] => [[]]
  | c :: rest =>
    if c = '/' then [] :: cut rest
    else match cut rest with
      | [] => [[c]]
      | s :: segments => (c :: s) :: segments

/-- The pieces with slashes between them. -/
def join : List (List Char) → List Char
  | [] => []
  | [s] => s
  | s :: segments => s ++ '/' :: join segments

theorem cut_ne_nil (s : List Char) : cut s ≠ [] := by
  cases s with
  | nil => simp [cut]
  | cons c s =>
    rw [cut]
    split
    · simp
    · split <;> simp

theorem join_cut (s : List Char) : join (cut s) = s := by
  induction s with
  | nil => rfl
  | cons c s ih =>
    rw [cut]
    split
    · next hc =>
      cases h : cut s with
      | nil => exact absurd h (cut_ne_nil s)
      | cons x xs =>
        rw [h] at ih
        simp [join, ih, hc]
    · cases h : cut s with
      | nil => exact absurd h (cut_ne_nil s)
      | cons x xs =>
        rw [h] at ih
        cases xs with
        | nil => simpa [join] using ih
        | cons y ys => simpa [join] using ih

structure Path where
  /-- The path begins with a slash. -/
  rooted : Bool
  /-- What follows that slash, or the whole path, cut at slashes. -/
  segments : List String
  deriving DecidableEq, Repr

namespace Path

def ofText (text : String) : Path :=
  match text.toList with
  | '/' :: rest => ⟨true, (cut rest).map String.ofList⟩
  | chars => ⟨false, (cut chars).map String.ofList⟩

def text (p : Path) : String :=
  String.ofList ((if p.rooted then ['/'] else []) ++ join (p.segments.map String.toList))

theorem text_ofText (s : String) : (ofText s).text = s := by
  unfold ofText
  split
  · next h => simp [text, join_cut, ← h]
  · simp [text, join_cut]

def isEmpty (p : Path) : Bool := !p.rooted && (p.segments == [] || p.segments == [""])

/-- The working directory. -/
def here : Path := ⟨false, ["."]⟩

/-- A segment that names nothing. -/
def isBlank (s : String) : Bool := s == "" || s == "."

/-- The segments that the parent is found in; a point in front of all is kept. -/
def frontAndBody (p : Path) : List String × List String :=
  match p.segments with
  | "." :: rest => if p.rooted then ([], p.segments) else (["."], rest)
  | segments => ([], segments)

/-- The path without its last name, as a text: nothing is looked up. A path without a name has no
parent. -/
def parent? (p : Path) : Option Path :=
  match p.frontAndBody.2.reverse.dropWhile isBlank with
  | [] => if p.frontAndBody.1.isEmpty then none else some ⟨false, []⟩
  | _ :: rest => some ⟨p.rooted, p.frontAndBody.1 ++ (rest.dropWhile isBlank).reverse⟩

theorem length_frontAndBody (p : Path) :
    p.frontAndBody.1.length + p.frontAndBody.2.length = p.segments.length := by
  unfold frontAndBody
  split
  · next h => split <;> simp [h]; omega
  · simp

theorem length_parent? {p q : Path} (h : p.parent? = some q) :
    q.segments.length < p.segments.length := by
  have hp := length_frontAndBody p
  have hd := (List.dropWhile_sublist isBlank (l := p.frontAndBody.2.reverse)).length_le
  unfold parent? at h
  split at h
  · split at h
    · cases h
    · next hne =>
      cases h
      cases hf : p.frontAndBody.1 with
      | nil => simp [hf] at hne
      | cons s front =>
        rw [hf, List.length_cons] at hp
        simp only [List.length_nil]
        omega
  · next s rest hr =>
    cases h
    have hs := (List.dropWhile_sublist isBlank (l := rest)).length_le
    rw [hr, List.length_cons, List.length_reverse] at hd
    simp only [List.length_append, List.length_reverse]
    omega

end Path

end JsonCabinet.Files
