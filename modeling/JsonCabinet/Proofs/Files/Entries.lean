import Mathlib
import JsonCabinet.Files.Entries

/-!
# What placing and removing leave

A location at which something is leads through directories only, so nothing is below a file. Hence
what is placed or removed at a location that is no directory changes that location alone
(`node?_put_of_ne`, `node?_remove_of_ne`).
-/

namespace JsonCabinet.Files.Entries

variable {e : Entries} {dir loc more : Location} {name : String}

/-- Where something is found below a location, the location is a directory. -/
theorem directory_of_node?_append {node : Node} (h : e.node? (loc ++ more) = some node)
    (hm : more ≠ []) : e.node? loc = some .directory := by
  induction loc generalizing e with
  | nil => rfl
  | cons here loc ih =>
    have hne : loc ++ more ≠ [] := by simp [hm]
    rw [List.cons_append, node?_cons, if_neg hne] at h
    have hd : e.get? here = some .directory := by
      by_cases hd : e.get? here = some .directory
      · exact hd
      · rw [inside_of_get?_ne hd, node?_nil_of_ne hne] at h
        cases h
    rw [node?_cons]
    split
    · exact hd
    · exact ih h

theorem node?_append_of_not_directory (h : e.node? loc ≠ some .directory) (hm : more ≠ []) :
    e.node? (loc ++ more) = none := by
  cases hn : e.node? (loc ++ more) with
  | none => rfl
  | some node => exact absurd (directory_of_node?_append hn hm) h

theorem node?_append (hm : more ≠ []) : e.node? (loc ++ more) = (e.within loc).node? more := by
  induction loc generalizing e with
  | nil => rfl
  | cons here loc ih =>
    have hne : loc ++ more ≠ [] := by simp [hm]
    rw [List.cons_append, node?_cons, if_neg hne, ih]
    rfl

/-- A change of what is no directory changes nothing. -/
theorem node?_alter_of_not_directory (change : Entries → Entries)
    (h : e.node? dir ≠ some .directory) : (e.alter change dir).node? loc = e.node? loc := by
  induction dir generalizing e loc with
  | nil => exact absurd rfl h
  | cons here dir ih =>
    simp only [alter]
    split
    · next hd =>
      have hinner : (e.inside here).node? dir ≠ some .directory := by
        rw [node?_cons] at h
        split at h
        · exact absurd hd h
        · exact h
      exact node?_setInside_of_eq hd fun _ _ => ih hinner
    · rfl

/-- Nothing is below what has just been placed. -/
theorem node?_put_below (node : Node) (h : e.node? dir = some .directory) (hm : more ≠ []) :
    (e.put dir name node).node? (dir ++ [name] ++ more) = none := by
  cases node with
  | file content =>
    refine node?_append_of_not_directory ?_ hm
    rw [node?_put_self name _ h]
    simp
  | directory =>
    have hinside : (insert name .directory (e.within dir)).inside name = .nil :=
      inside_setInside_self name _ _
    rw [List.append_assoc, node?_append (by simp), put, within_alter _ h, List.singleton_append,
      node?_cons, if_neg hm, hinside, node?_nil_of_ne hm]

/-- What is placed where no directory is changes nothing but its own place. -/
theorem node?_put_of_ne (node : Node) (hn : e.node? (dir ++ [name]) ≠ some .directory)
    (hne : loc ≠ dir ++ [name]) : (e.put dir name node).node? loc = e.node? loc := by
  by_cases hd : e.node? dir = some .directory
  · by_cases hp : dir ++ [name] <+: loc
    · obtain ⟨more, rfl⟩ := hp
      have hm : more ≠ [] := fun hm => hne (by simp [hm])
      rw [node?_put_below node hd hm, node?_append_of_not_directory hn hm]
    · exact node?_put_of_not_prefix node hp e
  · exact node?_alter_of_not_directory _ hd

/-- What is removed, if it is no directory, leaves everything but its own place. -/
theorem node?_remove_of_ne (hn : e.node? (dir ++ [name]) ≠ some .directory)
    (hne : loc ≠ dir ++ [name]) : (e.remove dir name).node? loc = e.node? loc := by
  by_cases hd : e.node? dir = some .directory
  · by_cases hp : dir ++ [name] <+: loc
    · obtain ⟨more, rfl⟩ := hp
      have hm : more ≠ [] := fun hm => hne (by simp [hm])
      have hgone : (e.remove dir name).node? (dir ++ [name]) ≠ some .directory := by
        rw [node?_remove_self name hd]
        simp
      rw [node?_append_of_not_directory hgone hm, node?_append_of_not_directory hn hm]
    · exact node?_remove_of_not_prefix hp e
  · exact node?_alter_of_not_directory _ hd

theorem get?_of_not_mem_names (h : name ∉ e.names) : e.get? name = none := by
  induction e with
  | nil => rfl
  | file here content others ih =>
    have hne : here ≠ name := fun hn => h (hn ▸ List.mem_cons_self)
    rw [get?, if_neg hne, ih fun hm => h (List.mem_cons_of_mem _ hm)]
  | directory here inner others _ ih =>
    have hne : here ≠ name := fun hn => h (hn ▸ List.mem_cons_self)
    rw [get?, if_neg hne, ih fun hm => h (List.mem_cons_of_mem _ hm)]

end JsonCabinet.Files.Entries
