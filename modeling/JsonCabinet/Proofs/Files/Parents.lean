import JsonCabinet.Proofs.Files.Places

/-!
# The directory of a path

The directory of a path is found in its text, and the place of the path by following its names.
Both agree, because blank segments lead nowhere: the names that lead somewhere are, for the
directory of a path, all but the last one of the path (`steps_directoryOf`). Hence the directory
that holds the last name of a path is the one that its parent spells
(`Reaches.eq_along_directoryOf`), and it passes every check that the path passes
(`check_directoryOf`).
-/

namespace JsonCabinet.Files

namespace Location

variable {loc : Location}

/-- A single point leads nowhere. -/
theorem along_filter_ne_here (names : List String) :
    loc.along (names.filter (· ≠ ".")) = loc.along names := by
  induction names generalizing loc with
  | nil => rfl
  | cons name names ih =>
    by_cases hd : name = "."
    · simpa [hd, along, enter] using @ih loc
    · simpa [hd, along] using @ih (loc.enter name)

/-- Following the names meets this location. -/
def Meets (loc : Location) (names : List String) (met : Location) : Prop :=
  ∃ before, before <+: names ∧ met = loc.along before

theorem Meets.mono {names more : List String} {met : Location} (h : loc.Meets names met)
    (hmore : names <+: more) : loc.Meets more met := by
  obtain ⟨before, hbefore, rfl⟩ := h
  exact ⟨before, hbefore.trans hmore, rfl⟩

theorem meets_along (loc : Location) (names : List String) : loc.Meets names (loc.along names) :=
  ⟨names, List.prefix_rfl, rfl⟩

theorem meets_filter_ne_here {names : List String} {met : Location} :
    loc.Meets (names.filter (· ≠ ".")) met ↔ loc.Meets names met := by
  constructor
  · rintro ⟨filtered, hfiltered, rfl⟩
    obtain ⟨before, hbefore, rfl⟩ := List.prefix_filter_iff.1 hfiltered
    exact ⟨before, hbefore, along_filter_ne_here before⟩
  · rintro ⟨before, hbefore, rfl⟩
    exact ⟨_, hbefore.filter _, (along_filter_ne_here before).symm⟩

end Location

namespace FileSystem

variable {fs : FileSystem} {p q : Path} {loc dir : Location} {last : String}

theorem passesAll_filter_ne_here {names : List String} :
    fs.PassesAll loc (names.filter (· ≠ ".")) ↔ fs.PassesAll loc names := by
  induction names generalizing loc with
  | nil => rfl
  | cons name names ih =>
    by_cases hd : name = "."
    · simpa [hd, PassesAll, Passes, Location.enter] using @ih loc
    · simpa [hd, PassesAll] using fun _ => @ih (loc.enter name)

theorem passesAll_append {names more : List String} :
    fs.PassesAll loc (names ++ more) ↔
      fs.PassesAll loc names ∧ fs.PassesAll (loc.along names) more := by
  induction names generalizing loc with
  | nil => simp [PassesAll, Location.along]
  | cons name names ih =>
    rw [List.cons_append, PassesAll, ih, PassesAll, and_assoc]
    rfl

/-- Names that are passed from a directory lead to a directory. -/
theorem directory_along {names : List String} (hloc : fs.node? loc = some .directory)
    (hpass : fs.PassesAll loc names) : fs.node? (loc.along names) = some .directory := by
  induction names generalizing loc with
  | nil => exact hloc
  | cons name names ih =>
    obtain ⟨hname, hrest⟩ := hpass
    refine ih ?_ hrest
    rw [Location.enter]
    split
    · exact hloc
    · next hd =>
      split
      · rcases List.eq_nil_or_concat loc with rfl | ⟨before, name, rfl⟩
        · rfl
        · rw [List.concat_eq_append] at hloc ⊢
          rw [List.dropLast_concat]
          exact Entries.directory_of_node?_append hloc (by simp)
      · next hu => exact ((hname.resolve_left hd).resolve_left hu).2

/-! ## Steps -/

/-- The names of a path that lead somewhere. -/
def steps (p : Path) : List String := p.segments.filter (!Path.isBlank ·)

theorem filter_names (p : Path) : (names p).filter (· ≠ ".") = steps p := by
  rw [names, steps, List.filter_filter]
  refine List.filter_congr fun s _ => ?_
  by_cases he : s = "" <;> by_cases hd : s = "." <;> simp [Path.isBlank, he, hd]

theorem place_eq_along_steps (fs : FileSystem) (p : Path) :
    fs.place p = (fs.start p).along (steps p) := by
  rw [place, ← filter_names, Location.along_filter_ne_here]

theorem Reaches.steps_eq (h : fs.Reaches p dir last) :
    steps p = (names p).dropLast.filter (· ≠ ".") ++ [last] := by
  obtain ⟨before, hnames⟩ := List.getLast?_eq_some_iff.1 h.last_eq
  rw [← filter_names, hnames, List.dropLast_concat, List.filter_append]
  simp [h.notHere]

theorem Reaches.dropLast_steps (h : fs.Reaches p dir last) :
    (steps p).dropLast = (names p).dropLast.filter (· ≠ ".") := by
  rw [h.steps_eq, List.dropLast_concat]

theorem frontAndBody_eq (p : Path) :
    p.segments = p.frontAndBody.1 ++ p.frontAndBody.2 ∧
      p.frontAndBody.1.filter (!Path.isBlank ·) = [] ∧
      (p.frontAndBody.1.isEmpty = false → p.rooted = false) := by
  unfold Path.frontAndBody
  split
  · next hp => split <;> simp_all [Path.isBlank]
  · exact ⟨rfl, rfl, fun h => nomatch h⟩

theorem filter_dropWhile_isBlank (segments : List String) :
    (segments.dropWhile Path.isBlank).filter (!Path.isBlank ·) =
      segments.filter (!Path.isBlank ·) := by
  induction segments with
  | nil => rfl
  | cons s segments ih => by_cases hs : Path.isBlank s <;> simp [hs, ih]

/-- Blank segments behind the last name are no steps. -/
theorem reverse_steps (p : Path) :
    (steps p).reverse =
      (p.frontAndBody.2.reverse.dropWhile Path.isBlank).filter (!Path.isBlank ·) := by
  obtain ⟨hsegments, hfront, -⟩ := frontAndBody_eq p
  rw [filter_dropWhile_isBlank, List.filter_reverse, steps, hsegments, List.filter_append, hfront,
    List.nil_append]

theorem steps_of_parent?_eq_none (h : p.parent? = none) : steps p = [] := by
  unfold Path.parent? at h
  split at h
  · next hbody =>
    rw [← List.reverse_eq_nil_iff, reverse_steps, hbody]
    rfl
  · cases h

/-- A parent has all steps of the path but the last. -/
theorem steps_parent? (h : p.parent? = some q) :
    steps q = (steps p).dropLast ∧ q.rooted = p.rooted := by
  obtain ⟨-, hfront, hrooted⟩ := frontAndBody_eq p
  have hsteps := reverse_steps p
  unfold Path.parent? at h
  split at h
  · next hbody =>
    split at h
    · cases h
    · next hne =>
      cases h
      rw [hbody, List.filter_nil, List.reverse_eq_nil_iff] at hsteps
      rw [hsteps]
      exact ⟨rfl, (hrooted (Bool.eq_false_iff.2 hne)).symm⟩
  · next last rest hbody =>
    cases h
    have hlast : Path.isBlank last = false := by
      have hhead := List.head?_dropWhile_not Path.isBlank p.frontAndBody.2.reverse
      simpa [hbody] using hhead
    rw [hbody, List.filter_cons_of_pos (by simp [hlast]), List.reverse_eq_iff,
      List.reverse_cons] at hsteps
    refine ⟨?_, rfl⟩
    rw [hsteps, List.dropLast_concat, steps, List.filter_append, hfront, List.nil_append,
      List.filter_reverse, filter_dropWhile_isBlank]

/-- The text of a parent is the beginning of that of the path. -/
theorem segments_parent? (h : p.parent? = some q) : q.segments <+: p.segments := by
  unfold Path.parent? at h
  split at h
  · split at h
    · cases h
    · cases h
      exact List.nil_prefix
  · next last rest hbody =>
    cases h
    have hrest : last :: rest <:+ p.frontAndBody.2.reverse :=
      hbody ▸ List.dropWhile_suffix Path.isBlank
    have hsuffix : rest.dropWhile Path.isBlank <:+ p.frontAndBody.2.reverse :=
      ((List.dropWhile_suffix Path.isBlank).trans (List.suffix_cons last rest)).trans hrest
    rw [(frontAndBody_eq p).1, List.prefix_append_right_inj, ← List.reverse_suffix,
      List.reverse_reverse]
    exact hsuffix

/-! ## The directory of a path -/

theorem isEmpty_iff :
    p.isEmpty = true ↔ p.rooted = false ∧ (p.segments = [] ∨ p.segments = [""]) := by
  simp [Path.isEmpty]

theorem steps_of_isEmpty (h : p.isEmpty = true) : steps p = [] := by
  obtain ⟨-, hp | hp⟩ := isEmpty_iff.1 h <;> rw [steps, hp] <;> rfl

theorem steps_directoryOf (p : Path) : steps (directoryOf p) = (steps p).dropLast := by
  unfold directoryOf
  split
  · next parent hp =>
    rw [← (steps_parent? hp).1]
    split
    · next he => rw [steps_of_isEmpty he]; rfl
    · rfl
  · next hp => rw [steps_of_parent?_eq_none hp]; rfl

theorem start_directoryOf (fs : FileSystem) (h : steps p ≠ []) :
    fs.start (directoryOf p) = fs.start p := by
  unfold directoryOf
  split
  · next parent hp =>
    have hrooted := (steps_parent? hp).2
    split
    · next he => rw [start, start, ← hrooted, (isEmpty_iff.1 he).1]; rfl
    · rw [start, start, hrooted]
  · next hp => exact absurd (steps_of_parent?_eq_none hp) h

theorem Reaches.start_directoryOf (h : fs.Reaches p dir last) :
    fs.start (directoryOf p) = fs.start p :=
  FileSystem.start_directoryOf fs (by simp [h.steps_eq])

/-- The directory that holds the last name of a path is the one that its parent spells. -/
theorem Reaches.eq_along_directoryOf (h : fs.Reaches p dir last) :
    dir = (fs.start (directoryOf p)).along (names (directoryOf p)) := by
  rw [h.dir_eq, h.start_directoryOf, ← Location.along_filter_ne_here (names (directoryOf p)),
    filter_names, steps_directoryOf, h.dropLast_steps, Location.along_filter_ne_here]

theorem Reaches.passes_directoryOf (h : fs.Reaches p dir last) :
    fs.PassesAll (fs.start (directoryOf p)) (names (directoryOf p)) := by
  rw [h.start_directoryOf, ← passesAll_filter_ne_here, filter_names, steps_directoryOf,
    h.dropLast_steps, passesAll_filter_ne_here]
  exact h.passes

/-! ## The text of the directory -/

theorem join_prefix_join {segments more : List (List Char)} (h : segments <+: more) :
    join segments <+: join more := by
  obtain ⟨rest, rfl⟩ := h
  induction segments with
  | nil => exact List.nil_prefix
  | cons s segments ih =>
    cases segments with
    | nil =>
      cases rest with
      | nil => exact List.prefix_rfl
      | cons r rest => exact List.prefix_append _ _
    | cons s' segments =>
      exact (List.prefix_append_right_inj s).2 (List.cons_prefix_cons.2 ⟨rfl, ih⟩)

theorem text_parent? (h : p.parent? = some q) : q.text.toList <+: p.text.toList := by
  have hjoin := join_prefix_join ((segments_parent? h).map String.toList)
  rw [Path.text, Path.text, String.toList_ofList, String.toList_ofList, (steps_parent? h).2,
    List.prefix_append_right_inj]
  exact hjoin

theorem utf8ByteSize_le_of_beginning {s t : String} (h : s.toList <+: t.toList) :
    s.utf8ByteSize ≤ t.utf8ByteSize := by
  obtain ⟨rest, hrest⟩ := h
  have ht : t = s ++ String.ofList rest := by
    rw [← String.toList_inj, String.toList_append, String.toList_ofList, hrest]
  rw [ht, String.utf8ByteSize_append]
  exact Nat.le_add_right _ _

theorem check_eq_ok_iff : check p = .ok () ↔
    '\x00' ∉ p.text.toList ∧ p.text.utf8ByteSize ≤ longestPath ∧ p.isEmpty = false := by
  simp only [check, String.contains_char_eq]
  by_cases hnul : '\x00' ∈ p.text.toList
  · simp [hnul]
  · by_cases hlong : longestPath < p.text.utf8ByteSize
    · simp [hnul, hlong, Nat.not_le.2 hlong]
    · cases p.isEmpty <;> simp [hnul, hlong, Nat.not_lt.1 hlong]

theorem check_parent? (h : p.parent? = some q) (hp : check p = .ok ())
    (he : q.isEmpty = false) : check q = .ok () := by
  obtain ⟨hnul, hlong, -⟩ := check_eq_ok_iff.1 hp
  have htext := text_parent? h
  exact check_eq_ok_iff.2
    ⟨fun hq => hnul (htext.subset hq), (utf8ByteSize_le_of_beginning htext).trans hlong, he⟩

theorem check_directoryOf (hp : check p = .ok ()) : check (directoryOf p) = .ok () := by
  have hhere : check Path.here = .ok () := check_eq_ok_iff.2 ⟨by decide, by decide, rfl⟩
  unfold directoryOf
  split
  · next parent h =>
    split
    · exact hhere
    · next he => exact check_parent? h hp (Bool.eq_false_iff.2 he)
  · exact hhere

end FileSystem

end JsonCabinet.Files
