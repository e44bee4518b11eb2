import JsonCabinet.Proofs.Files.Parents

/-!
# What changes of files leave

A file that is replaced as a whole has the new content, and nothing else in the file system is
different: the staged copy is gone (`rewrites_of_replaceFile`), because data that has been staged is
moved within one directory (`Stages.rewrites`). If it cannot be replaced, nothing at all is
different (`unchanged_of_replaceFile`). Whatever is made on the way to a file, nothing that was
there is lost and no content appears (`grows_prepareFile`).
-/

namespace JsonCabinet.Files.FileSystem

variable {fs fs' fs'' : FileSystem} {p : Path} {dir loc : Location} {name : String}
  {node : Node} {content : Bytes}

/-! ## Nodes after one change -/

theorem node?_put_of_ne (node : Node) (hn : fs.node? (dir ++ [name]) ≠ some .directory)
    (hne : loc ≠ dir ++ [name]) : (fs.put dir name node).node? loc = fs.node? loc :=
  Entries.node?_put_of_ne node hn hne

theorem node?_put_self (node : Node) (h : fs.node? dir = some .directory) :
    (fs.put dir name node).node? (dir ++ [name]) = some node :=
  Entries.node?_put_self name node h

/-- No directory is lost by placing something where none is. -/
theorem keeps_put (node : Node) (hn : fs.node? (dir ++ [name]) ≠ some .directory) :
    fs.Keeps (fs.put dir name node) where
  working := rfl
  directory loc hloc := by
    have hne : loc ≠ dir ++ [name] := fun he => hn (he ▸ hloc)
    rwa [node?_put_of_ne node hn hne]

/-- A file that is placed is no directory, and it is placed where none is. -/
theorem directory_put_iff (hdir : fs.node? dir = some .directory)
    (hn : fs.node? (dir ++ [name]) ≠ some .directory) :
    (fs.put dir name (.file content)).node? loc = some .directory ↔
      fs.node? loc = some .directory := by
  by_cases hne : loc = dir ++ [name]
  · rw [hne, node?_put_self _ hdir]
    simp [hn]
  · rw [node?_put_of_ne _ hn hne]

theorem directory_of_node?_concat (h : fs.node? (dir ++ [name]) = some node) :
    fs.node? dir = some .directory :=
  Entries.directory_of_node?_append h (by simp)

/-- What is placed at a new location and removed again leaves no trace. -/
theorem node?_remove_put (node : Node) (hd : fs.node? dir = some .directory)
    (hn : fs.node? (dir ++ [name]) = none) (hnode : node ≠ .directory) (loc : Location) :
    ((fs.put dir name node).remove dir name).node? loc = fs.node? loc := by
  have hfree : fs.node? (dir ++ [name]) ≠ some .directory := by simp [hn]
  have hself : (fs.put dir name node).node? (dir ++ [name]) = some node := node?_put_self node hd
  by_cases hne : loc = dir ++ [name]
  · have hdir : (fs.put dir name node).node? dir = some .directory := by
      rw [node?_put_of_ne node hfree (by simp), hd]
    rw [hne, hn]
    exact Entries.node?_remove_self name hdir
  · have hput : (fs.put dir name node).node? (dir ++ [name]) ≠ some .directory := by
      rw [hself]
      simpa using hnode
    rw [← node?_put_of_ne node hfree hne]
    exact Entries.node?_remove_of_ne hput hne

/-! ## Replacing -/

/-- One file has this content now, and everything else is as it was. -/
structure Rewrites (fs fs' : FileSystem) (loc : Location) (content : Bytes) : Prop where
  working : fs'.working = fs.working
  here : fs'.node? loc = some (.file content)
  elsewhere : ∀ other, other ≠ loc → fs'.node? other = fs.node? other

theorem Rewrites.keeps_of_free (h : fs.Rewrites fs' loc content)
    (hfree : fs.node? loc ≠ some .directory) : fs.Keeps fs' where
  working := h.working
  directory other hd := by
    have hne : other ≠ loc := fun he => hfree (he ▸ hd)
    rw [h.elsewhere other hne, hd]

theorem Rewrites.keeps {old : Bytes} (h : fs.Rewrites fs' loc content)
    (hold : fs.node? loc = some (.file old)) : fs.Keeps fs' :=
  h.keeps_of_free (by simp [hold])

theorem create_eq_ok_iff :
    fs.create dir name node = .ok fs' ↔
      fs.node? dir = some .directory ∧ fs.refusal = none ∧ fs' = fs.put dir name node := by
  unfold create
  split
  · next hdir hroom => simp [hdir, hroom, eq_comm]
  · next hroom => simp [hroom]
  · next hnone hrefused =>
    constructor
    · exact fun h => nomatch h
    · rintro ⟨hdir, hroom, -⟩
      cases h : fs.refusal with
      | none => exact (hnone hdir h).elim
      | some e => exact (hrefused e hdir h).elim

theorem node?_of_spareName? (h : fs.spareName? dir p = some name) :
    fs.node? (dir ++ [name]) = none := by
  have hfree : name ∉ (fs.root.within dir).names := by
    have hspare := List.find?_some h
    simp only [Bool.and_eq_true, Bool.not_eq_true', List.contains_eq_mem,
      decide_eq_false_iff_not] at hspare
    exact hspare.1
  rw [← get?_eq_node?]
  exact Entries.get?_of_not_mem_names hfree

/-- New data can be staged beside the path, in this directory and under this name. -/
structure Stages (fs : FileSystem) (p : Path) (dir : Location) (name : String) : Prop where
  checked : check (directoryOf p) = .ok ()
  fits : fs.absoluteLength (directoryOf p) + stagingMargin ≤ longestPath
  passes : fs.PassesAll (fs.start (directoryOf p)) (names (directoryOf p))
  dir_eq : dir = (fs.start (directoryOf p)).along (names (directoryOf p))
  spare : fs.spareName? dir p = some name
  directory : fs.node? dir = some .directory
  room : fs.refusal = none

theorem stage_eq_ok_iff :
    fs.stage p content = .ok (dir, name, fs') ↔
      fs.Stages p dir name ∧ fs' = fs.put dir name (.file content) := by
  unfold stage
  constructor
  · intro h
    split at h
    · cases h
    · next hc =>
      split at h
      · cases h
      · next hl =>
        split at h
        · cases h
        · next hf =>
          obtain ⟨hpass, hdir⟩ := follow_eq_ok_iff.1 hf
          split at h
          · cases h
          · next hs =>
            split at h
            · cases h
            · next hcreate =>
              cases h
              obtain ⟨hthere, hroom, hput⟩ := create_eq_ok_iff.1 hcreate
              exact ⟨⟨hc, Nat.not_lt.1 hl, hpass, hdir, hs, hthere, hroom⟩, hput⟩
  · rintro ⟨⟨hc, hl, hpass, hdir, hs, hthere, hroom⟩, rfl⟩
    simp only [hc, Nat.not_lt.2 hl, follow_eq_ok_iff.2 ⟨hpass, hdir⟩, hs,
      create_eq_ok_iff.2 ⟨hthere, hroom, rfl⟩, if_false]

/-- A file that is moved leaves its former name and stands at the place of the path, where no
directory was. -/
theorem move_eq_ok_iff :
    fs.move dir name p = .ok fs' ↔
      ∃ holder last node, fs.Reaches p holder last ∧ endsInSlash p = false ∧
        last.utf8ByteSize ≤ longestName ∧ fs.node? (holder ++ [last]) ≠ some .directory ∧
        fs.node? (dir ++ [name]) = some node ∧
        fs' = (fs.remove dir name).put holder last node := by
  unfold move
  constructor
  · intro h
    split at h
    · cases h
    split at h
    · cases h
    · cases h
    · cases h
    · cases h
    · cases h
    · next hl =>
      obtain ⟨hr, hs, hlen⟩ := locate_eq_ok_iff.1 hl
      split at h
      · cases h
      · cases h
      · next node hn hd =>
        cases h
        rw [get?_eq_node?] at hn
        refine ⟨_, _, node, hr, hs.symm, hlen, fun hdir => hd ?_, hn, rfl⟩
        rw [get?_eq_node?, hdir]
  · rintro ⟨holder, last, node, hr, hs, hlen, hd, hn, rfl⟩
    have hnul : p.text.contains '\x00' = false := by
      rw [String.contains_char_eq, decide_eq_false_iff_not]
      exact (check_eq_ok_iff.1 hr.checked).1
    have hl := locate_eq_ok_iff.2 ⟨hr, hs.symm, hlen⟩
    rw [← get?_eq_node?] at hd hn
    simp only [hnul, hl, hn, Bool.false_eq_true, if_false]

theorem Stages.free (h : fs.Stages p dir name) : fs.node? (dir ++ [name]) = none :=
  node?_of_spareName? h.spare

theorem Stages.not_directory (h : fs.Stages p dir name) :
    fs.node? (dir ++ [name]) ≠ some .directory := by simp [h.free]

/-- Every directory that is found while data is staged is there without that data. -/
theorem Stages.keeps (h : fs.Stages p dir name) :
    (fs.put dir name (.file content)).Keeps fs :=
  ⟨rfl, fun _ => (directory_put_iff h.directory h.not_directory).1⟩

/-- Data that has been staged and moved within its directory is found at its place alone. -/
theorem Stages.rewrites {last : String} (h : fs.Stages p dir name)
    (hlast : fs.node? (dir ++ [last]) ≠ some .directory) :
    fs.Rewrites (((fs.put dir name (.file content)).remove dir name).put dir last (.file content))
      (dir ++ [last]) content := by
  have hgone := node?_remove_put (.file content) h.directory h.free (by simp)
  refine ⟨rfl, node?_put_self _ (by rw [hgone, h.directory]), fun other hne => ?_⟩
  rw [node?_put_of_ne _ (by rwa [hgone]) hne, hgone]

/-- The path may be that of a file, in a directory that is there, with room for new data. -/
structure Replaceable (fs : FileSystem) (p : Path) : Prop where
  named : fs.NamesFile p
  directory : fs.node? (fs.place p).dropLast = some .directory
  free : fs.node? (fs.place p) ≠ some .directory
  fits : fs.absoluteLength (directoryOf p) + stagingMargin ≤ longestPath
  room : fs.refusal = none

/-- A file that is replaced gets its new content, and nothing else is changed. -/
theorem rewrites_of_replaceFile (h : fs.replaceFile p content = (.ok (), fs')) :
    fs.Replaceable p ∧ fs.Rewrites fs' (fs.place p) content := by
  unfold replaceFile at h
  split at h
  · cases h
  · next dir name staged hs =>
    obtain ⟨hstages, rfl⟩ := stage_eq_ok_iff.1 hs
    split at h
    · next hm =>
      cases h
      obtain ⟨holder, last, node, hstaged, hslash, hlen, hplace, hnode, rfl⟩ :=
        move_eq_ok_iff.1 hm
      have hr := hstages.keeps.reaches hstaged
      obtain rfl : holder = dir := hr.eq_along_directoryOf.trans hstages.dir_eq.symm
      obtain rfl : node = .file content := by
        rw [node?_put_self _ hstages.directory] at hnode
        exact (Option.some.inj hnode).symm
      have hlast : fs.node? (holder ++ [last]) ≠ some .directory :=
        mt (directory_put_iff hstages.directory hstages.not_directory).2 hplace
      refine ⟨⟨⟨hslash, _, _, hr, hlen⟩, ?_, ?_, hstages.fits, hstages.room⟩, ?_⟩
      · rw [hr.place_eq, List.dropLast_concat, hstages.directory]
      · rwa [hr.place_eq]
      · rw [hr.place_eq]
        exact hstages.rewrites hlast
    · cases h

/-- Every file and every directory is as it was, and there is as much room. -/
structure Unchanged (fs fs' : FileSystem) : Prop where
  working : fs'.working = fs.working
  refusal : fs'.refusal = fs.refusal
  node : ∀ loc, fs'.node? loc = fs.node? loc

theorem Unchanged.refl (fs : FileSystem) : fs.Unchanged fs := ⟨rfl, rfl, fun _ => rfl⟩

theorem Unchanged.symm (h : fs.Unchanged fs') : fs'.Unchanged fs :=
  ⟨h.working.symm, h.refusal.symm, fun loc => (h.node loc).symm⟩

theorem Unchanged.keeps (h : fs.Unchanged fs') : fs.Keeps fs' :=
  ⟨h.working, fun loc hd => by rw [h.node, hd]⟩

/-- A path that has a content keeps it. -/
theorem Unchanged.contentOf_eq (h : fs.Unchanged fs') (hc : fs.contentOf p = .ok content) :
    fs'.contentOf p = .ok content :=
  contentOf_of_keeps h.keeps hc (by rw [h.node, (contentOf_eq_ok_iff.1 hc).2])

/-- A file that is placed as it was is no change. -/
theorem unchanged_put (hn : fs.node? (dir ++ [name]) = some (.file content)) :
    fs.Unchanged (fs.put dir name (.file content)) := by
  refine ⟨rfl, rfl, fun loc => ?_⟩
  by_cases hne : loc = dir ++ [name]
  · rw [hne, hn]
    exact node?_put_self _ (directory_of_node?_concat hn)
  · exact node?_put_of_ne _ (by simp [hn]) hne

/-- New data that could not be moved to its place is taken away without a trace. -/
theorem unchanged_of_replaceFile {e : FileError}
    (h : fs.replaceFile p content = (.error e, fs')) : fs.Unchanged fs' := by
  unfold replaceFile at h
  split at h
  · cases h
    exact .refl fs
  · next dir name staged hs =>
    obtain ⟨hstages, rfl⟩ := stage_eq_ok_iff.1 hs
    split at h
    · cases h
    · cases h
      exact ⟨rfl, rfl, node?_remove_put _ hstages.directory hstages.free (by simp)⟩

/-! ## Making what is missing -/

/-- Nothing that was there is different, and what is new is empty. -/
structure Grows (fs fs' : FileSystem) : Prop where
  working : fs'.working = fs.working
  node : ∀ loc, fs'.node? loc = fs.node? loc ∨ fs.node? loc = none ∧
    (fs'.node? loc = some .directory ∨ fs'.node? loc = some (.file []))

theorem Grows.refl (fs : FileSystem) : fs.Grows fs := ⟨rfl, fun _ => .inl rfl⟩

theorem Grows.trans (h : fs.Grows fs') (h' : fs'.Grows fs'') : fs.Grows fs'' := by
  refine ⟨h'.working.trans h.working, fun loc => ?_⟩
  rcases h'.node loc with hsame | ⟨hnone, hnew⟩
  · rw [hsame]
    exact h.node loc
  · rcases h.node loc with hsame | ⟨-, hnew'⟩
    · exact .inr ⟨hsame ▸ hnone, hnew⟩
    · simp [hnone] at hnew'

theorem Grows.node?_eq (h : fs.Grows fs') (hn : fs.node? loc = some node) :
    fs'.node? loc = some node := by
  rcases h.node loc with hsame | ⟨hnone, -⟩
  · rw [hsame, hn]
  · rw [hn] at hnone
    cases hnone

theorem Grows.keeps (h : fs.Grows fs') : fs.Keeps fs' := ⟨h.working, fun _ => h.node?_eq⟩

/-- A content that is found is one that was there, or it is empty. -/
theorem Grows.content_eq (h : fs.Grows fs') (hn : fs'.node? loc = some (.file content)) :
    fs.node? loc = some (.file content) ∨ fs.node? loc = none ∧ content = [] := by
  rcases h.node loc with hsame | ⟨hnone, hd | hf⟩
  · exact .inl (hsame ▸ hn)
  · rw [hn] at hd
    cases hd
  · rw [hn] at hf
    cases hf
    exact .inr ⟨hnone, rfl⟩

/-- A path that has a content keeps it. -/
theorem Grows.contentOf_eq (h : fs.Grows fs') (hc : fs.contentOf p = .ok content) :
    fs'.contentOf p = .ok content :=
  contentOf_of_keeps h.keeps hc (h.node?_eq (contentOf_eq_ok_iff.1 hc).2)

/-- Nothing is new but directories, each at such a location. -/
structure Builds (fs fs' : FileSystem) (Way : Location → Prop) : Prop where
  working : fs'.working = fs.working
  refusal : fs'.refusal = fs.refusal
  node : ∀ loc, fs'.node? loc = fs.node? loc ∨
    Way loc ∧ fs.node? loc = none ∧ fs'.node? loc = some .directory

variable {Way Way' : Location → Prop}

theorem Builds.refl (fs : FileSystem) (Way : Location → Prop) : fs.Builds fs Way :=
  ⟨rfl, rfl, fun _ => .inl rfl⟩

theorem Builds.trans (h : fs.Builds fs' Way) (h' : fs'.Builds fs'' Way) : fs.Builds fs'' Way := by
  refine ⟨h'.working.trans h.working, h'.refusal.trans h.refusal, fun loc => ?_⟩
  rcases h'.node loc with hsame | ⟨hway, hnone, hnew⟩
  · rw [hsame]
    exact h.node loc
  · rcases h.node loc with hsame | ⟨-, -, hnew'⟩
    · exact .inr ⟨hway, hsame ▸ hnone, hnew⟩
    · simp [hnone] at hnew'

theorem Builds.mono (h : fs.Builds fs' Way) (hway : ∀ loc, Way loc → Way' loc) :
    fs.Builds fs' Way' :=
  ⟨h.working, h.refusal, fun loc => (h.node loc).imp_right fun hnew => ⟨hway loc hnew.1, hnew.2⟩⟩

theorem Builds.grows (h : fs.Builds fs' Way) : fs.Grows fs' :=
  ⟨h.working, fun loc => (h.node loc).imp_right fun hnew => ⟨hnew.2.1, .inl hnew.2.2⟩⟩

theorem builds_makeDirectory (h : fs.makeDirectory p = .ok fs') :
    fs.Builds fs' ((fs.start p).Meets (steps p)) := by
  unfold makeDirectory at h
  split at h
  · cases h
  · cases h
  · cases h
  · cases h
  · next dir last _ hl =>
    obtain ⟨hr, -, -⟩ := locate_eq_ok_iff.1 hl
    split at h
    · cases h
    · next hn =>
      obtain ⟨hdir, -, rfl⟩ := create_eq_ok_iff.1 h
      rw [get?_eq_node?] at hn
      refine ⟨rfl, rfl, fun loc => ?_⟩
      by_cases hne : loc = dir ++ [last]
      · subst hne
        refine .inr ⟨?_, hn, node?_put_self _ hdir⟩
        rw [← hr.place_eq, place_eq_along_steps]
        exact Location.meets_along _ _
      · exact .inl (node?_put_of_ne _ (by simp [hn]) hne)

/-- Only the steps of the path are made, because its ancestors have no others. -/
theorem builds_makeDirectories (fs : FileSystem) (p : Path) :
    fs.Builds (fs.makeDirectories p).2 ((fs.start p).Meets (steps p)) := by
  have hparent : ∀ {fs' : FileSystem} {p parent : Path}, p.parent? = some parent →
      fs.Builds fs' ((fs.start parent).Meets (steps parent)) →
      fs.Builds fs' ((fs.start p).Meets (steps p)) := by
    intro fs' p parent hp h
    obtain ⟨hsteps, hrooted⟩ := steps_parent? hp
    rw [start, hrooted, hsteps] at h
    exact h.mono fun _ hmet => hmet.mono (List.dropLast_prefix _)
  fun_induction makeDirectories fs p with
  | case1 | case3 | case7 => exact .refl _ _
  | case2 p _ made hm => exact builds_makeDirectory hm
  | case4 p _ _ parent hp e made hmade ih =>
    rw [hmade] at ih
    exact hparent hp ih
  | case5 p _ _ parent hp _ way hway made hm ih =>
    rw [hway] at ih
    have hbuilds := hparent hp ih
    have hmade := builds_makeDirectory hm
    rw [start, hbuilds.working] at hmade
    exact hbuilds.trans hmade
  | case6 p _ _ parent hp _ way hway e _ ih =>
    rw [hway] at ih
    exact hparent hp ih

/-- The path is that of a file with these bytes, or of one that can be created empty. -/
structure Touches (fs : FileSystem) (p : Path) (dir : Location) (last : String) (bytes : Bytes) :
    Prop where
  reaches : fs.Reaches p dir last
  noSlash : endsInSlash p = false
  short : last.utf8ByteSize ≤ longestName
  directory : fs.node? dir = some .directory
  found : fs.node? (dir ++ [last]) = some (.file bytes) ∨
    fs.node? (dir ++ [last]) = none ∧ fs.refusal = none ∧ bytes = []

theorem touch_eq_ok_iff :
    fs.touch p = .ok fs' ↔
      ∃ dir last bytes, fs.Touches p dir last bytes ∧ fs' = fs.put dir last (.file bytes) := by
  unfold touch openForWriting
  constructor
  · intro h
    split at h
    · cases h
    · cases h
    · cases h
    · cases h
    · cases h
    · next dir last hh =>
      obtain ⟨hr, hs⟩ := holder_eq_ok_iff.1 hh
      split at h
      · cases h
      · next hlen =>
        rw [Nat.not_lt] at hlen
        split at h
        · cases h
        · next bytes hn =>
          cases h
          rw [get?_eq_node?] at hn
          exact ⟨dir, last, bytes, ⟨hr, hs.symm, hlen, directory_of_node?_concat hn, .inl hn⟩, rfl⟩
        · next hn =>
          obtain ⟨hdir, hroom, rfl⟩ := create_eq_ok_iff.1 h
          rw [get?_eq_node?] at hn
          exact ⟨dir, last, [], ⟨hr, hs.symm, hlen, hdir, .inr ⟨hn, hroom, rfl⟩⟩, rfl⟩
  · rintro ⟨dir, last, bytes, ⟨hr, hs, hlen, hdir, hn⟩, rfl⟩
    simp only [holder_eq_ok_iff.2 ⟨hr, hs.symm⟩, Nat.not_lt.2 hlen, if_false, get?_eq_node?]
    rcases hn with hn | ⟨hn, hroom, rfl⟩
    · simp only [hn, id]
    · simp only [hn, id, create_eq_ok_iff.2 ⟨hdir, hroom, rfl⟩]

theorem Touches.free {last : String} (h : fs.Touches p dir last content) :
    fs.node? (dir ++ [last]) ≠ some .directory := by
  rcases h.found with hn | ⟨hn, -⟩ <;> simp [hn]

theorem grows_touch (h : fs.touch p = .ok fs') : fs.Grows fs' := by
  obtain ⟨dir, last, bytes, htouches, rfl⟩ := touch_eq_ok_iff.1 h
  refine ⟨rfl, fun loc => ?_⟩
  by_cases hne : loc = dir ++ [last]
  · rw [hne, node?_put_self _ htouches.directory]
    rcases htouches.found with hn | ⟨hn, -, rfl⟩
    · exact .inl hn.symm
    · exact .inr ⟨hn, .inr rfl⟩
  · exact .inl (node?_put_of_ne _ htouches.free hne)

theorem builds_makeWay (fs : FileSystem) (p : Path) :
    fs.Builds (fs.makeWay p).2 ((fs.start p).Meets (steps p).dropLast) := by
  unfold makeWay
  split
  · next parent hp =>
    split
    · exact .refl fs _
    · obtain ⟨hsteps, hrooted⟩ := steps_parent? hp
      have hbuilds := builds_makeDirectories fs parent
      rwa [start, hrooted, hsteps] at hbuilds
  · exact .refl fs _

/-- Making sure of a file loses nothing and invents no content. -/
theorem grows_prepareFile (fs : FileSystem) (p : Path) : fs.Grows (fs.prepareFile p).2 := by
  have hway := (builds_makeWay fs p).grows
  unfold prepareFile
  split
  · next hm => rwa [hm] at hway
  · next hm =>
    rw [hm] at hway
    split
    · next ht => exact hway.trans (grows_touch ht)
    · exact hway

end JsonCabinet.Files.FileSystem
