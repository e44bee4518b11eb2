import JsonCabinet.Proofs.Files.Changes

/-!
# Replacing a file as a whole

A file is replaced exactly when its path may be that of a file and there is room beside it
(`exists_replaceFile_iff`): a name for the staged data is always free, because there are more
candidates than names that are taken (`exists_spareName`). What comes of a replacement is all or
nothing: the content of the path and nothing else, or nothing at all.
-/

namespace JsonCabinet.Files.FileSystem

variable {fs fs' : FileSystem} {p : Path} {dir loc : Location} {name last : String}
  {content : Bytes}

/-! ## A name for staged data -/

theorem stagingName_injective {m n : Nat} (h : stagingName m = stagingName n) : m = n := by
  rw [stagingName, stagingName, String.append_right_inj, Nat.toString_eq_repr,
    Nat.toString_eq_repr] at h
  exact Nat.repr_injective h

theorem exists_spareName (fs : FileSystem) (dir : Location) (p : Path) :
    ∃ name, fs.spareName? dir p = some name := by
  rw [← Option.isSome_iff_exists]
  by_contra hnone
  have hused : ∀ n < (fs.root.within dir).names.length + p.segments.length + 1,
      stagingName n ∈ (fs.root.within dir).names ++ p.segments := by
    intro n hn
    by_contra hfree
    refine hnone (List.find?_isSome.2 ⟨stagingName n, ?_, ?_⟩)
    · exact List.mem_map_of_mem (List.mem_range.2 hn)
    · rw [List.mem_append, not_or] at hfree
      simp [hfree]
  -- as many names as there are candidates would have to be taken
  have hnodup : ((List.range ((fs.root.within dir).names.length + p.segments.length + 1)).map
      stagingName).Nodup :=
    List.Nodup.map (fun _ _ => stagingName_injective) List.nodup_range
  have hsubset : (List.range ((fs.root.within dir).names.length + p.segments.length + 1)).map
      stagingName ⊆ (fs.root.within dir).names ++ p.segments := fun name hname => by
    obtain ⟨n, hn, rfl⟩ := List.mem_map.1 hname
    exact hused n (List.mem_range.1 hn)
  have hlength := hnodup.length_le_of_subset hsubset
  simp only [List.length_map, List.length_range, List.length_append] at hlength
  omega

/-! ## When a file is replaced -/

theorem Replaceable.exists_replaceFile (h : fs.Replaceable p) (content : Bytes) :
    ∃ fs', fs.replaceFile p content = (.ok (), fs') := by
  obtain ⟨⟨hslash, dir, last, hr, hlen⟩, hdir, hplace, hfits, hroom⟩ := h
  rw [hr.place_eq] at hdir hplace
  rw [List.dropLast_concat] at hdir
  obtain ⟨name, hspare⟩ := fs.exists_spareName dir p
  have hstages : fs.Stages p dir name :=
    ⟨check_directoryOf hr.checked, hfits, hr.passes_directoryOf, hr.eq_along_directoryOf, hspare,
      hdir, hroom⟩
  have hself : (fs.put dir name (.file content)).node? (dir ++ [name]) = some (.file content) :=
    node?_put_self _ hdir
  have hlast : (fs.put dir name (.file content)).node? (dir ++ [last]) ≠ some .directory :=
    mt (directory_put_iff hdir hstages.not_directory).1 hplace
  have hmove := move_eq_ok_iff.2 ⟨dir, last, .file content,
    (keeps_put _ hstages.not_directory).reaches hr, hslash, hlen, hlast, hself, rfl⟩
  rw [replaceFile, stage_eq_ok_iff.2 ⟨hstages, rfl⟩]
  simp only [hmove]
  exact ⟨_, rfl⟩

theorem exists_replaceFile_iff :
    (∃ fs', fs.replaceFile p content = (.ok (), fs')) ↔ fs.Replaceable p :=
  ⟨fun ⟨_, h⟩ => (rewrites_of_replaceFile h).1, fun h => h.exists_replaceFile content⟩

theorem contentOf_of_replaceFile (h : fs.replaceFile p content = (.ok (), fs')) :
    fs'.contentOf p = .ok content := by
  obtain ⟨hp, hr⟩ := rewrites_of_replaceFile h
  have hk := hr.keeps_of_free hp.free
  rw [contentOf_eq_ok_iff, hk.place_eq]
  exact ⟨hk.namesFile hp.named, hr.here⟩

/-! ## All or nothing -/

/-- A replacement is all or nothing: either the path has the new content, and whatever else there
is or is not is as it was, or the whole file system is as it was. In neither case is staged data
left. -/
theorem replacement_is_all_or_nothing (fs : FileSystem) (p : Path) (content : Bytes) :
    match fs.replaceFile p content with
    | (.ok _, fs') => fs.Replaceable p ∧ fs'.contentOf p = .ok content ∧
        fs.Rewrites fs' (fs.place p) content
    | (.error _, fs') => ¬fs.Replaceable p ∧ fs.Unchanged fs' := by
  split
  · next fs' h =>
    obtain ⟨hp, hr⟩ := rewrites_of_replaceFile h
    exact ⟨hp, contentOf_of_replaceFile h, hr⟩
  · next e fs' h =>
    refine ⟨fun hp => ?_, unchanged_of_replaceFile h⟩
    obtain ⟨fs'', hok⟩ := hp.exists_replaceFile content
    rw [h] at hok
    cases hok

end JsonCabinet.Files.FileSystem
