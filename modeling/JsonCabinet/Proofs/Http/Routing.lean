import JsonCabinet.Proofs.Http.Plans
import JsonCabinet.Proofs.Text.Utf8

/-!
# What a path addresses

The base path counts without the slashes around it (`normalBase_eq_basePrefix`), so a binding has
one prefix for all its paths. A base without parameters is met by the paths that begin with the
prefix and go on, if at all, with a slash (`match?_collection`, `match?_item`), and by no others
(`match?_elsewhere`). What follows that slash, once it has been decoded, addresses its last piece
(`lastPiece_lastSegment`).
-/

namespace JsonCabinet.Http

/-! ## Slashes around a text -/

def slashes (n : Nat) : String := String.ofList (List.replicate n '/')

/-- The text with slashes in front and behind, if any. -/
def Between (core base : String) : Prop := ∃ i j, base = slashes i ++ core ++ slashes j

/-- No slash is in front or behind. -/
def Bare (core : String) : Prop :=
  core.toList.head? ≠ some '/' ∧ core.toList.getLast? ≠ some '/'

instance (core : String) : Decidable (Bare core) := inferInstanceAs (Decidable (_ ∧ _))

theorem exists_between_slashes (l : List Char) : ∃ i core j,
    l = List.replicate i '/' ++ core ++ List.replicate j '/' ∧
      core.head? ≠ some '/' ∧ core.getLast? ≠ some '/' := by
  induction hl : l.length generalizing l with
  | zero =>
    obtain rfl := List.length_eq_zero_iff.1 hl
    exact ⟨0, [], 0, rfl, by simp, by simp⟩
  | succ n ih =>
    by_cases hhead : l.head? = some '/'
    · obtain ⟨rest, rfl⟩ := List.head?_eq_some_iff.1 hhead
      obtain ⟨i, core, j, rfl, hbare⟩ := ih rest (Nat.succ.inj hl)
      exact ⟨i + 1, core, j, rfl, hbare⟩
    by_cases hlast : l.getLast? = some '/'
    · obtain ⟨rest, rfl⟩ := List.getLast?_eq_some_iff.1 hlast
      rw [List.length_append, List.length_singleton] at hl
      obtain ⟨i, core, j, rfl, hbare⟩ := ih rest (Nat.succ.inj hl)
      refine ⟨i, core, j + 1, ?_, hbare⟩
      rw [List.replicate_succ', List.append_assoc]
    · exact ⟨0, l, 0, by simp, hhead, hlast⟩

theorem exists_bare (base : String) : ∃ core, Bare core ∧ Between core base := by
  obtain ⟨i, core, j, hbase, hbare⟩ := exists_between_slashes base.toList
  refine ⟨String.ofList core, by rwa [Bare, String.toList_ofList], i, j, ?_⟩
  rw [slashes, slashes, ← String.ofList_append, ← String.ofList_append, ← hbase,
    String.ofList_toList]

theorem ofString_slashes (n : Nat) : Bytes.ofString (slashes n) = List.replicate n slash := by
  rw [slashes, Bytes.ofString_ofList]
  induction n with
  | zero => rfl
  | succ n ih =>
    rw [List.replicate_succ, List.flatMap_cons, ih]
    rfl

theorem dropWhile_replicate_append (i : Nat) (s : Bytes) :
    (List.replicate i slash ++ s).dropWhile (· == slash) = s.dropWhile (· == slash) := by
  induction i with
  | zero => rfl
  | succ i ih => rw [List.replicate_succ, List.cons_append, List.dropWhile_cons_of_pos rfl, ih]

theorem trimSlashes_between (i j : Nat) (core : Bytes) :
    trimSlashes (List.replicate i slash ++ core ++ List.replicate j slash) = trimSlashes core := by
  have hbehind : ∀ s : Bytes, (s ++ List.replicate j slash).reverse.dropWhile (· == slash) =
      s.reverse.dropWhile (· == slash) := fun s => by
    rw [List.reverse_append, List.reverse_replicate, dropWhile_replicate_append]
  rw [trimSlashes, trimSlashes, List.append_assoc, dropWhile_replicate_append,
    List.dropWhile_append]
  split
  · next hall =>
    rw [List.isEmpty_iff.1 hall]
    have hslashes := dropWhile_replicate_append j []
    rw [List.append_nil] at hslashes
    rw [hslashes]
    rfl
  · rw [hbehind]

theorem trimSlashes_of_bare {core : Bytes} (hhead : core.head? ≠ some slash)
    (hlast : core.getLast? ≠ some slash) : trimSlashes core = core := by
  have hdrop : ∀ s : Bytes, s.head? ≠ some slash → s.dropWhile (· == slash) = s := by
    intro s hs
    cases s with
    | nil => rfl
    | cons b s => exact List.dropWhile_cons_of_neg (by simpa using hs)
  rw [trimSlashes, hdrop core hhead, hdrop _ (by rwa [List.head?_reverse]), List.reverse_reverse]

/-- The prefix that all paths have where this is the base between its slashes. -/
def basePrefix (core : String) : Bytes := if core = "" then [] else slash :: Bytes.ofString core

theorem normalBase_eq_of_between {core base base' : String} (h : Between core base)
    (h' : Between core base') : normalBase base' = normalBase base := by
  have htrim : ∀ {base}, Between core base →
      trimSlashes (Bytes.ofString base) = trimSlashes (Bytes.ofString core) := by
    rintro _ ⟨i, j, rfl⟩
    rw [Bytes.ofString_append, Bytes.ofString_append, ofString_slashes, ofString_slashes,
      trimSlashes_between]
  rw [normalBase, normalBase, htrim h, htrim h']

theorem Bare.trimSlashes_eq {core : String} (h : Bare core) :
    trimSlashes (Bytes.ofString core) = Bytes.ofString core := by
  have hslash : slash < 0x80 := by decide
  refine trimSlashes_of_bare (fun hhead => h.1 ?_) (fun hlast => h.2 ?_)
  · obtain ⟨rest, hrest⟩ := List.head?_eq_some_iff.1 hhead
    obtain ⟨before, behind, hcore, hbefore, -⟩ :=
      Bytes.exists_of_ofString_eq_append (p := []) hslash hrest
    rw [hcore, Bytes.eq_nil_of_ofString hbefore]
    rfl
  · obtain ⟨rest, hrest⟩ := List.getLast?_eq_some_iff.1 hlast
    obtain ⟨before, behind, hcore, -, hbehind⟩ :=
      Bytes.exists_of_ofString_eq_append (s := []) hslash hrest
    rw [hcore, Bytes.eq_nil_of_ofString hbehind, List.getLast?_concat]
    rfl

theorem Bare.normalBase_eq {core : String} (h : Bare core) :
    normalBase core = basePrefix core := by
  rw [normalBase, h.trimSlashes_eq, basePrefix]
  split
  · next hnil =>
    rw [if_pos (Bytes.ofString_injective hnil)]
  · next hne =>
    rw [if_neg]
    rintro rfl
    exact hne rfl

theorem normalBase_eq_basePrefix {core base : String} (h : Bare core) (hb : Between core base) :
    normalBase base = basePrefix core := by
  have hcore : Between core core := ⟨0, 0, by simp [slashes]⟩
  rw [normalBase_eq_of_between hcore hb, h.normalBase_eq]

/-! ## Bases without parameters -/

/-- Nothing in the base has a meaning of its own in a pattern. -/
def IsLiteral (base : String) : Prop := ':' ∉ base.toList ∧ '*' ∉ base.toList

instance (base : String) : Decidable (IsLiteral base) := inferInstanceAs (Decidable (_ ∧ _))

theorem colon_not_mem_normalBase {base : String} (h : IsLiteral base) :
    colon ∉ normalBase base := by
  have htext : colon ∉ Bytes.ofString base := fun hmem => by
    obtain ⟨p, s, hcut⟩ := List.append_of_mem hmem
    obtain ⟨before, behind, hbase, -⟩ := Bytes.exists_of_ofString_eq_append (by decide) hcut
    refine h.1 ?_
    rw [hbase]
    exact List.mem_append_right _ List.mem_cons_self
  have htrim : colon ∉ trimSlashes (Bytes.ofString base) := fun hmem => by
    rw [trimSlashes, List.mem_reverse] at hmem
    have hmem := List.mem_reverse.1 ((List.dropWhile_sublist _).mem hmem)
    exact htext ((List.dropWhile_sublist _).mem hmem)
  rw [normalBase]
  split
  · exact List.not_mem_nil
  · rw [List.mem_cons, not_or]
    exact ⟨by decide, htrim⟩

section Matching

variable {B path r : Bytes}

theorem match?_collection (hB : colon ∉ B) (hpath : path = B ++ [slash] ∨ B ≠ [] ∧ path = B) :
    Route.match? B path = some .collection := by
  rw [Route.match?, Pattern.ofBytes_eq_map hB]
  rcases hpath with rfl | ⟨hne, rfl⟩
  · rw [Pattern.match?_literal_append]
    rfl
  · have hmatch := Pattern.match?_literal_append path []
    rw [List.append_nil] at hmatch
    rw [hmatch]
    simp [hne]

theorem match?_item (hB : colon ∉ B) (hr : r ≠ []) :
    Route.match? B (B ++ slash :: r) = some (.item [⟨restName, r⟩]) := by
  rw [Route.match?, Pattern.ofBytes_eq_map hB, Pattern.match?_literal_append]
  simp [hr]

theorem match?_elsewhere (hB : colon ∉ B) (hbase : B = [] ∨ path ≠ B)
    (hbelow : ∀ r, path ≠ B ++ slash :: r) : Route.match? B path = none := by
  rw [Route.match?, Pattern.ofBytes_eq_map hB]
  cases hmatch : Pattern.match? (B.map .literal) path with
  | none => rfl
  | some found =>
    obtain ⟨captures, rest⟩ := found
    obtain ⟨-, hpath⟩ := Pattern.eq_append_of_match?_literal hmatch
    cases rest with
    | nil =>
      rw [List.append_nil] at hpath
      simp [hbase.resolve_right (not_not_intro hpath)]
    | cons b rest =>
      have hb : b ≠ slash := by
        rintro rfl
        exact hbelow rest hpath
      simp [hb]

end Matching

/-! ## What an item is -/

/-- The text is this piece, with no slash in it, or ends in a slash and this piece. -/
def LastPiece (text piece : String) : Prop :=
  '/' ∉ piece.toList ∧ (text = piece ∨ ∃ before, text = before ++ "/" ++ piece)

theorem lastPiece_lastSegment (text : String) : LastPiece text (lastSegment text) := by
  have hcut := List.takeWhile_append_dropWhile (p := (· ≠ '/')) (l := text.toList.reverse)
  refine ⟨fun hmem => ?_, ?_⟩
  · rw [lastSegment, String.toList_ofList, List.mem_reverse] at hmem
    simpa using List.mem_takeWhile_imp hmem
  cases hdrop : text.toList.reverse.dropWhile (· ≠ '/') with
  | nil =>
    left
    rw [hdrop, List.append_nil] at hcut
    rw [lastSegment, hcut, List.reverse_reverse, String.ofList_toList]
  | cons c front =>
    right
    have hne : text.toList.reverse.dropWhile (· ≠ '/') ≠ [] := by
      rw [hdrop]
      exact List.cons_ne_nil c front
    have hc : c = '/' := by
      have hhead := List.head_dropWhile_not (· ≠ '/') hne
      simp only [hdrop, List.head_cons] at hhead
      simpa using hhead
    refine ⟨String.ofList front.reverse, ?_⟩
    have htext := congrArg List.reverse hcut
    rw [hdrop, List.reverse_append, List.reverse_cons, List.reverse_reverse, hc] at htext
    apply String.toList_injective
    rw [← htext]
    simp [lastSegment]

theorem LastPiece.eq_lastSegment {text piece : String} (h : LastPiece text piece) :
    piece = lastSegment text := by
  obtain ⟨hpiece, htext⟩ := h
  have hall : ∀ c ∈ piece.toList.reverse, decide (c ≠ '/') = true := fun c hc => by
    rw [decide_eq_true_eq]
    rintro rfl
    exact hpiece (List.mem_reverse.1 hc)
  have htake : text.toList.reverse.takeWhile (· ≠ '/') = piece.toList.reverse := by
    rcases htext with rfl | ⟨before, rfl⟩
    · exact List.takeWhile_eq_self_iff.2 hall
    · rw [String.toList_append, List.reverse_append, List.takeWhile_append_of_pos hall]
      simp
  rw [lastSegment, htake, List.reverse_reverse, String.ofList_toList]

/-! ## Routes below a base -/

def Request.path (request : Request) : Bytes := (Target.ofBytes request.target).path

/-- What requests are about where all paths have this prefix. -/
structure RoutesBelow (s : HttpSettings) (B : Bytes) (request : Request) : Prop where
  collection : request.path = B ++ [slash] ∨ B ≠ [] ∧ request.path = B →
    plan s request = planFor s none request request.query
  item : ∀ r text, r ≠ [] → request.path = B ++ slash :: r →
    percentDecode r = Bytes.ofString text → ∃ piece, LastPiece text piece ∧
      plan s request = planFor s (if piece = "" then none else some piece) request request.query
  undecodable : ∀ r, r ≠ [] → request.path = B ++ slash :: r →
    ¬Bytes.IsUtf8 (percentDecode r) →
    plan s request = .respond (.plain 400 "Invalid URL: Invalid UTF-8 in `path`")
  elsewhere : (B = [] ∨ request.path ≠ B) → (∀ r, request.path ≠ B ++ slash :: r) →
    plan s request = .respond (.empty 404)

theorem plan_of_route {s : HttpSettings} {request : Request} :
    plan s request = match Route.match? (normalBase s.basePath) request.path with
      | none => .respond (.empty 404)
      | some .collection => planFor s none request request.query
      | some (.item captures) => match decodeCaptures captures with
        | .error name => .respond (.plain 400 s!"Invalid URL: Invalid UTF-8 in `{name}`")
        | .ok [rest] => planFor s (addresseeOf rest) request request.query
        | .ok values => .respond (.plain 500 (captureCountText values.length)) := rfl

theorem decodeCaptures_rest {r : Bytes} {text : String}
    (h : percentDecode r = Bytes.ofString text) : decodeCaptures [⟨restName, r⟩] = .ok [text] := by
  rw [decodeCaptures, h, Bytes.toString?_ofString]
  rfl

theorem decodeCaptures_rest_error {r : Bytes} (h : ¬Bytes.IsUtf8 (percentDecode r)) :
    decodeCaptures [⟨restName, r⟩] = .error restName := by
  rw [decodeCaptures]
  cases htext : Bytes.toString? (percentDecode r) with
  | none => rfl
  | some text => exact absurd ⟨text, (Bytes.eq_ofString_of_toString? htext).symm⟩ h

theorem routesBelow_normalBase (s : HttpSettings) (hbase : colon ∉ normalBase s.basePath)
    (request : Request) : RoutesBelow s (normalBase s.basePath) request where
  collection hpath := by
    rw [plan_of_route, match?_collection hbase hpath]
  item r text hr hpath htext := by
    refine ⟨lastSegment text, lastPiece_lastSegment text, ?_⟩
    rw [plan_of_route, hpath, match?_item hbase hr]
    simp only [decodeCaptures_rest htext]
    rfl
  undecodable r hr hpath htext := by
    rw [plan_of_route, hpath, match?_item hbase hr]
    simp only [decodeCaptures_rest_error htext]
    rfl
  elsewhere hpath hbelow := by
    rw [plan_of_route, match?_elsewhere hbase hpath hbelow]

/-- Only the prefix of a base counts. -/
theorem plan_congr_basePath {s : HttpSettings} {base : String} (request : Request)
    (h : normalBase base = normalBase s.basePath) :
    plan { s with basePath := base } request = plan s request := by
  rw [plan_of_route, plan_of_route, h]
  rfl

/-- A base without parameters is read without the slashes around it, and paths are told apart by
the prefix that it gives. -/
theorem paths_are_told_apart_by_base (s : HttpSettings) (h : IsLiteral s.basePath) :
    (∃ core, Bare core ∧ Between core s.basePath) ∧
      ∀ core, Bare core → Between core s.basePath →
        (∀ request, RoutesBelow s (basePrefix core) request) ∧
        ∀ base, Between core base → ∀ request,
          plan { s with basePath := base } request = plan s request := by
  refine ⟨exists_bare s.basePath, fun core hcore hbase => ⟨fun request => ?_, ?_⟩⟩
  · rw [← normalBase_eq_basePrefix hcore hbase]
    exact routesBelow_normalBase s (colon_not_mem_normalBase h) request
  · intro base hbase' request
    exact plan_congr_basePath request (normalBase_eq_of_between hbase hbase')

/-! ### A base with slashes around it -/

def shelf : HttpSettings := .ofChoices [.basePath "//db/"]

theorem paths_of_shelf :
    IsLiteral shelf.basePath ∧ Bare "db" ∧ Between "db" shelf.basePath ∧
      (∀ request : Request, request.path = Bytes.ofString "/db/a%2Fk" →
        plan shelf request = planFor shelf (some "k") request request.query) ∧
      (∀ request : Request, request.path = Bytes.ofString "/dbx/k" →
        plan shelf request = .respond (.empty 404)) ∧
      ∀ request : Request, plan { shelf with basePath := "db" } request = plan shelf request := by
  have hliteral : IsLiteral shelf.basePath := by decide
  have hbare : Bare "db" := by decide
  have hbetween : Between "db" shelf.basePath := ⟨2, 1, by decide⟩
  obtain ⟨hroutes, hsame⟩ := (paths_are_told_apart_by_base shelf hliteral).2 "db" hbare hbetween
  refine ⟨hliteral, hbare, hbetween, fun request hpath => ?_, fun request hpath => ?_, ?_⟩
  · obtain ⟨piece, hpiece, hplan⟩ := (hroutes request).item (Bytes.ofString "a%2Fk") "a/k"
      (by decide) hpath (by decide)
    obtain rfl : piece = "k" := hpiece.eq_lastSegment
    exact hplan
  · refine (hroutes request).elsewhere (.inr ?_) fun r => ?_
    · rw [hpath]
      decide
    · rw [hpath]
      intro h
      have hbyte : (0x78 : UInt8) = slash := congrArg (fun s => s.getD 3 0) h
      exact absurd hbyte (by decide)
  · exact hsame "db" ⟨0, 0, by decide⟩

end JsonCabinet.Http
