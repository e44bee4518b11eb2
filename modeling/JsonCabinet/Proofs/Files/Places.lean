import JsonCabinet.Files.System
import JsonCabinet.Proofs.Files.Entries

/-!
# Where paths lead

The names of a path spell a location, its place, whatever is there (`place`). A path reaches its
place if the names before the last one lead through directories (`Reaches`), and the content of a
path is that of the file at its place (`contentOf_eq_ok_iff`). So it is found again wherever the
directories have stayed (`contentOf_of_keeps`).
-/

namespace JsonCabinet.Files

/-! ## Locations that names spell -/

namespace Location

/-- Where a name leads from a directory, if it leads anywhere. -/
def enter (loc : Location) (name : String) : Location :=
  if name = "." then loc else if name = ".." then loc.dropLast else loc ++ [name]

def along (loc : Location) (names : List String) : Location := names.foldl enter loc

theorem along_concat (loc : Location) {names : List String} {last : String}
    (hl : names.getLast? = some last) (hd : last ≠ ".") (hu : last ≠ "..") :
    loc.along names = loc.along names.dropLast ++ [last] := by
  obtain ⟨before, rfl⟩ := List.getLast?_eq_some_iff.1 hl
  simp [along, enter, hd, hu]

end Location

namespace FileSystem

variable {fs fs' : FileSystem} {p : Path} {loc : Location} {name : String}

/-- The location that the names of a path spell. -/
def place (fs : FileSystem) (p : Path) : Location := (fs.start p).along (names p)

/-- The name leads from the directory into another one. -/
def Passes (fs : FileSystem) (loc : Location) (name : String) : Prop :=
  name = "." ∨ name = ".." ∨
    (name.utf8ByteSize ≤ longestName ∧ fs.node? (loc ++ [name]) = some .directory)

def PassesAll (fs : FileSystem) : Location → List String → Prop
  | _, [] => True
  | loc, name :: names => fs.Passes loc name ∧ fs.PassesAll (loc.enter name) names

/-! ## Trails -/

theorem location_foldl_descend (trail : Trail) :
    (loc.foldl fs.descend trail).location = trail.location ++ loc := by
  induction loc generalizing trail with
  | nil => simp
  | cons name loc ih =>
    rw [List.foldl_cons, ih]
    simp [descend, Trail.location]

theorem location_trailTo (fs : FileSystem) (loc : Location) : (fs.trailTo loc).location = loc :=
  location_foldl_descend []

theorem inside_foldl_descend (trail : Trail) :
    fs.inside (loc.foldl fs.descend trail) = (fs.inside trail).within loc := by
  induction loc generalizing trail with
  | nil => rfl
  | cons name loc ih =>
    rw [List.foldl_cons, ih]
    rfl

theorem get?_inside_trailTo (fs : FileSystem) (loc : Location) (name : String) :
    (fs.inside (fs.trailTo loc)).get? name = fs.node? (loc ++ [name]) := by
  rw [trailTo, inside_foldl_descend]
  exact fs.get?_eq_node? loc name

theorem descend_trailTo (fs : FileSystem) (loc : Location) (name : String) :
    fs.descend (fs.trailTo loc) name = fs.trailTo (loc ++ [name]) := by
  simp [trailTo]

theorem tail_trailTo (fs : FileSystem) (loc : Location) :
    (fs.trailTo loc).tail = fs.trailTo loc.dropLast := by
  rcases List.eq_nil_or_concat loc with rfl | ⟨before, name, rfl⟩
  · rfl
  · rw [List.concat_eq_append, ← descend_trailTo, List.dropLast_concat]
    rfl

theorem enter_trailTo_eq_ok_iff {trail : Trail} :
    fs.enter (fs.trailTo loc) name = .ok trail ↔
      fs.Passes loc name ∧ trail = fs.trailTo (loc.enter name) := by
  unfold enter Passes Location.enter
  rw [tail_trailTo, descend_trailTo, get?_inside_trailTo]
  by_cases hd : name = "."
  · simp [hd, eq_comm]
  by_cases hu : name = ".."
  · simp [hu, eq_comm]
  by_cases hl : longestName < name.utf8ByteSize
  · simp [hd, hu, hl, Nat.not_le.2 hl]
  · cases hn : fs.node? (loc ++ [name]) with
    | none => simp [hd, hu, hl]
    | some node => cases node <;> simp [hd, hu, hl, Nat.not_lt.1 hl, eq_comm]

theorem enterAll_trailTo_eq_ok_iff {names : List String} {trail : Trail} :
    fs.enterAll (fs.trailTo loc) names = .ok trail ↔
      fs.PassesAll loc names ∧ trail = fs.trailTo (loc.along names) := by
  induction names generalizing loc with
  | nil => simp [enterAll, PassesAll, Location.along, eq_comm]
  | cons name names ih =>
    rw [enterAll, PassesAll]
    cases he : fs.enter (fs.trailTo loc) name with
    | error e =>
      have hno : ¬ fs.Passes loc name := by
        intro h
        have hok := enter_trailTo_eq_ok_iff.2 ⟨h, rfl⟩
        rw [he] at hok
        cases hok
      simp [hno]
    | ok next =>
      obtain ⟨hpass, rfl⟩ := enter_trailTo_eq_ok_iff.1 he
      simp only [ih, hpass, true_and]
      rfl

theorem follow_eq_ok_iff {names : List String} :
    fs.follow p names = .ok loc ↔
      fs.PassesAll (fs.start p) names ∧ loc = (fs.start p).along names := by
  unfold follow
  constructor
  · intro h
    cases ht : fs.enterAll (fs.trailTo (fs.start p)) names with
    | error e => rw [ht] at h; cases h
    | ok trail =>
      obtain ⟨hpass, rfl⟩ := enterAll_trailTo_eq_ok_iff.1 ht
      rw [ht] at h
      cases h
      exact ⟨hpass, location_trailTo _ _⟩
  · rintro ⟨hpass, rfl⟩
    rw [enterAll_trailTo_eq_ok_iff.2 ⟨hpass, rfl⟩, Except.map, location_trailTo]

/-! ## Paths of files -/

/-- The names before the last one lead through directories, and the last one may be that of a
file. -/
structure Reaches (fs : FileSystem) (p : Path) (dir : Location) (last : String) : Prop where
  checked : check p = .ok ()
  last_eq : (names p).getLast? = some last
  notHere : last ≠ "."
  notUp : last ≠ ".."
  passes : fs.PassesAll (fs.start p) (names p).dropLast
  dir_eq : dir = (fs.start p).along (names p).dropLast

variable {dir : Location} {last : String}

theorem Reaches.place_eq (h : fs.Reaches p dir last) : fs.place p = dir ++ [last] := by
  rw [place, Location.along_concat _ h.last_eq h.notHere h.notUp, h.dir_eq]

theorem holder_eq_ok_iff {slash : Bool} :
    fs.holder p = .ok (dir, .name last slash) ↔
      fs.Reaches p dir last ∧ slash = endsInSlash p := by
  unfold holder
  constructor
  · intro h
    split at h
    · cases h
    · next hc =>
      split at h
      · cases h
      · next hl =>
        split at h
        · cases h
        · next hf =>
          obtain ⟨hpass, hdir⟩ := follow_eq_ok_iff.1 hf
          split at h
          · cases h
          · next hd =>
            split at h
            · cases h
            · next hu =>
              cases h
              exact ⟨⟨hc, hl, hd, hu, hpass, hdir⟩, rfl⟩
  · rintro ⟨⟨hc, hl, hd, hu, hpass, hdir⟩, rfl⟩
    simp only [hc, hl, follow_eq_ok_iff.2 ⟨hpass, hdir⟩, hd, hu, if_false]

theorem locate_eq_ok_iff {slash : Bool} :
    fs.locate p = .ok (dir, .name last slash) ↔
      fs.Reaches p dir last ∧ slash = endsInSlash p ∧ last.utf8ByteSize ≤ longestName := by
  unfold locate
  constructor
  · intro h
    split at h
    · cases h
    · next hh =>
      obtain ⟨hr, hs⟩ := holder_eq_ok_iff.1 hh
      split at h
      · cases h
      · next hl =>
        cases h
        exact ⟨hr, hs, Nat.not_lt.1 hl⟩
    · next hn hh =>
      cases h
      exact absurd rfl (hn _ _ _)
  · rintro ⟨hr, rfl, hl⟩
    simp only [holder_eq_ok_iff.2 ⟨hr, rfl⟩, Nat.not_lt.2 hl, if_false]

/-- The path may be that of a file. -/
def NamesFile (fs : FileSystem) (p : Path) : Prop :=
  endsInSlash p = false ∧ ∃ dir last, fs.Reaches p dir last ∧ last.utf8ByteSize ≤ longestName

theorem find_eq_ok_file_iff {content : Bytes} :
    fs.find p = .ok (.file content) ↔
      fs.NamesFile p ∧ fs.node? (fs.place p) = some (.file content) := by
  unfold find
  constructor
  · intro h
    split at h
    · cases h
    · cases h
    · cases h
    · cases h
    · next hl =>
      obtain ⟨hr, hs, hlen⟩ := locate_eq_ok_iff.1 hl
      rw [get?_eq_node?, ← hr.place_eq] at h
      split at h
      · cases h
      · cases h
      · next hn =>
        split at h
        · cases h
        · next hslash =>
          cases h
          exact ⟨⟨hs ▸ Bool.eq_false_iff.2 hslash, _, _, hr, hlen⟩, hn⟩
  · rintro ⟨⟨hs, dir, last, hr, hlen⟩, hn⟩
    rw [hr.place_eq, ← get?_eq_node?] at hn
    simp only [locate_eq_ok_iff.2 ⟨hr, rfl, hlen⟩, hn, hs, Bool.false_eq_true, if_false]

/-- The content of a path is that of the file at its place. -/
theorem contentOf_eq_ok_iff {content : Bytes} :
    fs.contentOf p = .ok content ↔
      fs.NamesFile p ∧ fs.node? (fs.place p) = some (.file content) := by
  rw [← find_eq_ok_file_iff, contentOf]
  constructor
  · intro h
    split at h
    · next hf =>
      cases h
      exact hf
    · cases h
    · cases h
  · intro h
    rw [h]

/-! ## Directories that stay -/

/-- Every directory is still there, and the working one is the same. -/
structure Keeps (fs fs' : FileSystem) : Prop where
  working : fs'.working = fs.working
  directory : ∀ loc, fs.node? loc = some .directory → fs'.node? loc = some .directory

theorem Keeps.refl (fs : FileSystem) : fs.Keeps fs := ⟨rfl, fun _ h => h⟩

theorem Keeps.trans {fs'' : FileSystem} (h : fs.Keeps fs') (h' : fs'.Keeps fs'') :
    fs.Keeps fs'' where
  working := h'.working.trans h.working
  directory loc hd := h'.directory loc (h.directory loc hd)

theorem Keeps.start_eq (h : fs.Keeps fs') (p : Path) : fs'.start p = fs.start p := by
  rw [start, start, h.working]

theorem Keeps.place_eq (h : fs.Keeps fs') (p : Path) : fs'.place p = fs.place p := by
  rw [place, place, h.start_eq]

theorem Keeps.passesAll (h : fs.Keeps fs') {names : List String}
    (hp : fs.PassesAll loc names) : fs'.PassesAll loc names := by
  induction names generalizing loc with
  | nil => trivial
  | cons name names ih =>
    obtain ⟨hname, hrest⟩ := hp
    refine ⟨?_, ih hrest⟩
    rcases hname with hd | hu | ⟨hl, hn⟩
    · exact .inl hd
    · exact .inr (.inl hu)
    · exact .inr (.inr ⟨hl, h.directory _ hn⟩)

theorem Keeps.reaches (h : fs.Keeps fs') (hr : fs.Reaches p dir last) :
    fs'.Reaches p dir last where
  checked := hr.checked
  last_eq := hr.last_eq
  notHere := hr.notHere
  notUp := hr.notUp
  passes := h.start_eq p ▸ h.passesAll hr.passes
  dir_eq := h.start_eq p ▸ hr.dir_eq

theorem Keeps.namesFile (h : fs.Keeps fs') (hn : fs.NamesFile p) : fs'.NamesFile p := by
  obtain ⟨hs, dir, last, hr, hl⟩ := hn
  exact ⟨hs, dir, last, h.reaches hr, hl⟩

/-- A path that had a content has the one of the file that is at its place now. -/
theorem contentOf_of_keeps {before now : Bytes} (h : fs.Keeps fs')
    (hc : fs.contentOf p = .ok before) (hn : fs'.node? (fs.place p) = some (.file now)) :
    fs'.contentOf p = .ok now := by
  rw [contentOf_eq_ok_iff, h.place_eq]
  exact ⟨h.namesFile (contentOf_eq_ok_iff.1 hc).1, hn⟩

end FileSystem

end JsonCabinet.Files
