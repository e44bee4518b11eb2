import JsonCabinet.Proofs.Files.Replacing

/-!
# Preparing a file

A path whose names all lead to directories that are there needs nothing made
(`makeDirectories_of_passes`), so a file that is there needs no preparation
(`prepareFile_of_content`). Preparation makes what is missing on the way and the file, and nothing
else (`Prepares`); as the way is the one on which new data is staged, whatever has been prepared can
be written (`Touches.replaceable`).
-/

namespace JsonCabinet.Files.FileSystem

variable {fs fs' made : FileSystem} {p : Path} {dir loc : Location} {last : String}
  {content : Bytes}

/-! ## What is there already -/

theorem locate_of_passes (hc : check p = .ok ()) (hpass : fs.PassesAll (fs.start p) (names p)) :
    ∃ dir last, fs.locate p = .ok (dir, last) ∧
      ∀ name slash, last = .name name slash → fs.node? (dir ++ [name]) = some .directory := by
  unfold locate holder
  simp only [hc]
  cases hl : (names p).getLast? with
  | none => exact ⟨[], .root, rfl, fun _ _ h => nomatch h⟩
  | some last =>
    obtain ⟨before, hnames⟩ := List.getLast?_eq_some_iff.1 hl
    rw [hnames] at hpass ⊢
    obtain ⟨hbefore, hlast, -⟩ := passesAll_append.1 hpass
    simp only [List.dropLast_concat, follow_eq_ok_iff.2 ⟨hbefore, rfl⟩]
    refine ⟨(fs.start p).along before, ?_⟩
    by_cases hd : last = "."
    · exact ⟨.here, by simp [hd], fun _ _ h => nomatch h⟩
    by_cases hu : last = ".."
    · exact ⟨.up, by simp [hu], fun _ _ h => nomatch h⟩
    obtain ⟨hlen, hdir⟩ := (hlast.resolve_left hd).resolve_left hu
    refine ⟨.name last (endsInSlash p), ?_, ?_⟩
    · simp only [hd, hu, if_false, Nat.not_lt.2 hlen]
    · rintro _ _ h
      cases h
      exact hdir

theorem isDirectory_of_passes (hc : check p = .ok ())
    (hpass : fs.PassesAll (fs.start p) (names p)) : fs.isDirectory p = true := by
  obtain ⟨dir, last, hl, hdir⟩ := locate_of_passes hc hpass
  unfold isDirectory find
  cases last with
  | root | here | up => simp only [hl]
  | name last slash => simp only [hl, get?_eq_node?, hdir last slash rfl]

theorem makeDirectory_of_passes (hc : check p = .ok ())
    (hpass : fs.PassesAll (fs.start p) (names p)) :
    fs.makeDirectory p = .error .alreadyExists := by
  obtain ⟨dir, last, hl, hdir⟩ := locate_of_passes hc hpass
  unfold makeDirectory
  cases last with
  | root | here | up => simp only [hl]
  | name last slash => simp only [hl, get?_eq_node?, hdir last slash rfl]

theorem makeDirectories_of_passes (hc : check p = .ok ())
    (hpass : fs.PassesAll (fs.start p) (names p)) : fs.makeDirectories p = (.ok (), fs) := by
  rw [makeDirectories, makeDirectory_of_passes hc hpass]
  simp only [isDirectory_of_passes hc hpass, if_true, ite_self]

/-- Nothing need be made on the way of a path that reaches its place. -/
theorem Reaches.makeWay_eq (h : fs.Reaches p dir last) : fs.makeWay p = (.ok (), fs) := by
  have hpass := h.passes_directoryOf
  unfold directoryOf at hpass
  unfold makeWay
  split
  · next parent hp =>
    simp only [hp] at hpass
    split
    · rfl
    · next he =>
      rw [if_neg he] at hpass
      exact makeDirectories_of_passes
        (check_parent? hp h.checked (Bool.eq_false_iff.2 he)) hpass
  · rfl

/-- A file that is there is prepared, and nothing is changed by preparing it. -/
theorem prepareFile_of_content (h : fs.contentOf p = .ok content) :
    ∃ fs', fs.prepareFile p = (.ok (), fs') ∧ fs.Unchanged fs' := by
  obtain ⟨⟨hslash, dir, last, hr, hlen⟩, hn⟩ := contentOf_eq_ok_iff.1 h
  rw [hr.place_eq] at hn
  have htouches : fs.Touches p dir last content :=
    ⟨hr, hslash, hlen, directory_of_node?_concat hn, .inl hn⟩
  refine ⟨fs.put dir last (.file content), ?_, unchanged_put hn⟩
  simp only [prepareFile, hr.makeWay_eq, touch_eq_ok_iff.2 ⟨dir, last, content, htouches, rfl⟩]

/-! ## A file that has been opened -/

theorem Touches.contentOf (h : fs.Touches p dir last content) :
    (fs.put dir last (.file content)).contentOf p = .ok content := by
  have hkeeps := keeps_put (.file content) h.free
  rw [contentOf_eq_ok_iff, hkeeps.place_eq, h.reaches.place_eq]
  exact ⟨hkeeps.namesFile ⟨h.noSlash, dir, last, h.reaches, h.short⟩,
    node?_put_self _ h.directory⟩

theorem Touches.replaceable (h : fs.Touches p dir last content) (hroom : fs.refusal = none)
    (hfits : fs.absoluteLength (directoryOf p) + stagingMargin ≤ longestPath) :
    (fs.put dir last (.file content)).Replaceable p := by
  have hkeeps := keeps_put (.file content) h.free
  obtain ⟨hnamed, hplace⟩ := contentOf_eq_ok_iff.1 h.contentOf
  refine ⟨hnamed, ?_, ?_, hfits, hroom⟩
  · rw [hkeeps.place_eq, h.reaches.place_eq, List.dropLast_concat]
    exact hkeeps.directory dir h.directory
  · rw [hplace]
    simp

/-! ## What is made -/

/-- The location is a directory on the way to a path: the names of its directory meet it. -/
def OnWay (fs : FileSystem) (p : Path) (loc : Location) : Prop :=
  (fs.start p).Meets (names (directoryOf p)) loc

theorem onWay_iff : fs.OnWay p loc ↔ (fs.start p).Meets (steps p).dropLast loc := by
  rw [OnWay, ← Location.meets_filter_ne_here, filter_names, steps_directoryOf]

/-- What comes of preparing the file of a path. -/
structure Prepares (fs fs' : FileSystem) (p : Path) : Prop where
  /-- The file is as it was, or it is new and empty. -/
  content : (∃ old, fs.node? (fs.place p) = some (.file old) ∧ fs'.contentOf p = .ok old) ∨
    fs.node? (fs.place p) = none ∧ fs'.contentOf p = .ok []
  kept : ∀ loc node, fs.node? loc = some node → fs'.node? loc = some node
  /-- Nothing is new but the file and directories on the way to it. -/
  added : ∀ loc, fs.node? loc = none → fs'.node? loc ≠ none →
    loc = fs.place p ∨ fs.OnWay p loc ∧ fs'.node? loc = some .directory
  way : fs.node? (fs.start p) = some .directory →
    ∀ loc, fs.OnWay p loc → fs'.node? loc = some .directory
  /-- Another preparation changes nothing. -/
  again : ∃ fs'', fs'.prepareFile p = (.ok (), fs'') ∧ fs'.Unchanged fs''
  /-- The file can be replaced, if there is room and the path of new data is not too long. -/
  writable : fs.refusal = none →
    fs.absoluteLength (directoryOf p) + stagingMargin ≤ longestPath →
    ∀ content, ∃ fs'', fs'.replaceFile p content = (.ok (), fs'') ∧
      fs''.contentOf p = .ok content

theorem Reaches.directory_of_onWay (h : fs.Reaches p dir last)
    (hstart : fs.node? (fs.start p) = some .directory) (hloc : fs.OnWay p loc) :
    fs.node? loc = some .directory := by
  obtain ⟨before, ⟨more, hmore⟩, rfl⟩ := onWay_iff.1 hloc
  have hpass := h.passes
  rw [← passesAll_filter_ne_here, ← h.dropLast_steps, ← hmore] at hpass
  exact directory_along hstart (passesAll_append.1 hpass).1

theorem Builds.prepares (hbuilds : fs.Builds made ((fs.start p).Meets (steps p).dropLast))
    (htouch : made.touch p = .ok fs') : fs.Prepares fs' p := by
  have hgrows := hbuilds.grows.trans (grows_touch htouch)
  have hstart := hbuilds.grows.keeps.start_eq p
  obtain ⟨dir, last, bytes, htouches, rfl⟩ := touch_eq_ok_iff.1 htouch
  have hr := htouches.reaches
  have hplace : fs.place p = dir ++ [last] := by
    rw [← hbuilds.grows.keeps.place_eq, hr.place_eq]
  -- where a directory has been made there is none to be opened as a file
  have hbefore : fs.node? (dir ++ [last]) = made.node? (dir ++ [last]) :=
    ((hbuilds.node _).resolve_right fun hnew => htouches.free hnew.2.2).symm
  refine ⟨?_, fun _ _ => hgrows.node?_eq, fun loc hnone hnew => ?_, fun hthere loc hloc => ?_,
    prepareFile_of_content htouches.contentOf, fun hroom hfits content => ?_⟩
  · rw [hplace, hbefore]
    rcases htouches.found with hn | ⟨hn, -, rfl⟩
    · exact .inl ⟨bytes, hn, htouches.contentOf⟩
    · exact .inr ⟨hn, htouches.contentOf⟩
  · rw [hplace]
    by_cases hne : loc = dir ++ [last]
    · exact .inl hne
    · rw [node?_put_of_ne _ htouches.free hne] at hnew ⊢
      rcases hbuilds.node loc with hsame | ⟨hway, -, hmade⟩
      · exact absurd (hsame.trans hnone) hnew
      · exact .inr ⟨onWay_iff.2 hway, hmade⟩
  · refine (keeps_put _ htouches.free).directory loc (hr.directory_of_onWay ?_ ?_)
    · rw [hstart]
      exact hbuilds.grows.node?_eq hthere
    · rwa [OnWay, hstart]
  · have hp := htouches.replaceable (hbuilds.refusal.trans hroom)
      (by rwa [absoluteLength, hbuilds.working])
    obtain ⟨fs'', h⟩ := hp.exists_replaceFile content
    exact ⟨fs'', h, contentOf_of_replaceFile h⟩

/-- Preparing a file destroys nothing, whether it succeeds or fails. If it succeeds, there is the
file that was there or an empty one, nothing else is new but directories on the way to it, and it
can be replaced. -/
theorem prepared_file_is_writable (fs : FileSystem) (p : Path) :
    match fs.prepareFile p with
    | (.ok _, fs') => fs.Prepares fs' p
    | (.error _, fs') => ∀ loc node, fs.node? loc = some node → fs'.node? loc = some node := by
  have hgrows := grows_prepareFile fs p
  have hbuilds := builds_makeWay fs p
  split
  · next fs' h =>
    unfold prepareFile at h
    split at h
    · cases h
    · next hm =>
      rw [hm] at hbuilds
      split at h
      · next ht =>
        cases h
        exact hbuilds.prepares ht
      · cases h
  · next h =>
    rw [h] at hgrows
    exact fun _ _ => hgrows.node?_eq

end JsonCabinet.Files.FileSystem
