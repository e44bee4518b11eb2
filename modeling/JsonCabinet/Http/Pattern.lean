import JsonCabinet.Http.Target

/-!
# Patterns of paths

A pattern is written like a path in which a colon opens a parameter: the name of the parameter goes
on to the next slash, and so does what the parameter takes of a path. Every other byte of a pattern
stands for itself, so a pattern without a colon is matched by the paths that begin with it.
-/

namespace JsonCabinet.Http

inductive Piece
  | literal (b : UInt8)
  | parameter (name : String)
  deriving DecidableEq, Repr

abbrev Pattern := List Piece

/-- What a parameter takes of a path, as it was sent. -/
structure Capture where
  name : String
  value : Bytes
  deriving DecidableEq, Repr

/-- The beginnings of reserved names. A parameter with such a name matches like any other, but what
it takes is not kept. -/
def reservedBeginnings : List String :=
  ["__private__axum_fallback", "__private__axum_nest_tail_param"]

def isReservedName (name : String) : Bool :=
  reservedBeginnings.any fun beginning => beginning.toList.isPrefixOf name.toList

def colon : UInt8 := 0x3A

namespace Pattern

/-- The pattern that is written so. A name ends at ASCII bytes, so in a text it is a text. -/
def ofBytes : Bytes → Pattern
  | [] => []
  | b :: rest =>
    if b == colon then
      let name := Bytes.toString? (rest.takeWhile (· != slash))
      .parameter (name.getD "") :: ofBytes (rest.dropWhile (· != slash))
    else .literal b :: ofBytes rest
termination_by s => s.length
decreasing_by
  · exact Nat.lt_succ_of_le (List.dropWhile_sublist _).length_le
  · exact Nat.lt_succ_self _

/-- What is kept of what the parameters take, and what follows the pattern in a path. A parameter
takes as much as it can; that may be nothing between two slashes, but not at the end of the path. -/
def match? : Pattern → Bytes → Option (List Capture × Bytes)
  | [], path => some ([], path)
  | _ :: _, [] => none
  | .literal b :: pieces, c :: path => if b == c then match? pieces path else none
  | .parameter name :: pieces, c :: path =>
    let value := (c :: path).takeWhile (· != slash)
    (match? pieces ((c :: path).dropWhile (· != slash))).map fun (captures, rest) =>
      (if isReservedName name then captures else ⟨name, value⟩ :: captures, rest)

theorem ofBytes_eq_map {s : Bytes} (h : colon ∉ s) : ofBytes s = s.map .literal := by
  induction s with
  | nil => rw [ofBytes, List.map_nil]
  | cons b s ih =>
    have hb : (b == colon) = false := by
      rw [beq_eq_false_iff_ne]
      exact fun e => h (e ▸ List.mem_cons_self)
    rw [ofBytes, hb, if_neg Bool.false_ne_true, ih (fun e => h (List.mem_cons_of_mem b e)),
      List.map_cons]

theorem match?_literal_append (s rest : Bytes) :
    match? (s.map .literal) (s ++ rest) = some ([], rest) := by
  induction s with
  | nil => rfl
  | cons b s ih => simp [match?, ih]

theorem eq_append_of_match?_literal {s path rest : Bytes} {captures : List Capture}
    (h : match? (s.map .literal) path = some (captures, rest)) :
    captures = [] ∧ path = s ++ rest := by
  induction s generalizing path with
  | nil =>
    simp only [List.map_nil, match?, Option.some.injEq, Prod.mk.injEq] at h
    exact ⟨h.1.symm, h.2⟩
  | cons b s ih =>
    cases path with
    | nil => simp [match?] at h
    | cons c path =>
      rw [List.map_cons, match?] at h
      split at h
      · next hbc =>
        obtain ⟨h₁, h₂⟩ := ih h
        exact ⟨h₁, by rw [h₂, eq_of_beq hbc, List.cons_append]⟩
      · cases h

end Pattern

end JsonCabinet.Http
