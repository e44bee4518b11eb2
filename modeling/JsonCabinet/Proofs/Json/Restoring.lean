import JsonCabinet.Json.Layout
import JsonCabinet.Proofs.Contents
import JsonCabinet.Proofs.Json.Objects

/-!
# Reading what was written

A layout of spaces writes an object of the grammar, in which each key is spelled by its escaped
form (`object_writeObject`). So a reader of objects restores what was written, if the reader of the
members' values restores these, and a table comes back, since its names are all different
(`restores_table`).
-/

namespace JsonCabinet.Json

open Grammar

/-! ## Layouts of spaces -/

/-- Only spaces stand between the parts of an object, but for the colon. -/
structure Layout.IsBlank (layout : Layout) : Prop where
  lead : Spaces layout.lead
  colon : ∃ a, Spaces a ∧ layout.colon = 0x3A :: a
  tail : Spaces layout.tail

theorem Layout.isBlank_compact : compact.IsBlank :=
  ⟨spaces_nil, ⟨[], spaces_nil, rfl⟩, spaces_nil⟩

theorem Layout.spaces_indentation (depth : Nat) : Spaces (indentation depth) := by
  intro b hb
  rw [List.eq_of_mem_replicate hb]
  rfl

theorem Layout.isBlank_indented (depth : Nat) : (indented depth).IsBlank :=
  ⟨(spaces_indentation (depth + 1)).cons rfl, ⟨[0x20], spaces_nil.cons rfl, rfl⟩,
    (spaces_indentation depth).cons rfl⟩

/-! ## What is written -/

section Objects

variable {α : Type} {V : α → Bytes → Prop} {layout : Layout} {write : α → Bytes}
  {l : List (String × α)}

theorem pair_writeMember {m : String × α} (hl : layout.IsBlank) (hv : V m.2 (write m.2)) :
    Pair Key V m (layout.writeMember (m.1, write m.2)) := by
  obtain ⟨a, ha, hcolon⟩ := hl.colon
  have hkey : Key m.1 (Quoted.escape (Bytes.ofString m.1)) := Quoted.spelled_escape _
  have hpair := Pair.mk hl.lead hkey spaces_nil ha hv
  simpa [Layout.writeMember, Quoted.write, hcolon] using hpair

/-- The form of a list of members, each with its value written. -/
def writtenMembers (write : α → Bytes) (l : List (String × α)) : List (String × Bytes) :=
  l.map fun m => (m.1, write m.2)

/-- The form of members behind the first one, up to the closing brace. -/
def writtenMore (layout : Layout) (ms : List (String × Bytes)) : Bytes :=
  (ms.map layout.writeMember).flatMap (fun p => 0x2C :: p) ++ layout.tail

theorem more_writtenMore (hl : layout.IsBlank) (h : ∀ m ∈ l, V m.2 (write m.2)) :
    More Key V l (writtenMore layout (writtenMembers write l)) := by
  induction l with
  | nil => exact .none hl.tail
  | cons m l ih =>
    obtain ⟨hm, hrest⟩ := List.forall_mem_cons.1 h
    have hmore := More.cons spaces_nil (pair_writeMember hl hm) (ih hrest)
    simpa [writtenMore, writtenMembers] using hmore

/-- What a layout of spaces writes is an object with just the members that were written. -/
theorem object_writeObject (hl : layout.IsBlank) (h : ∀ m ∈ l, V m.2 (write m.2)) :
    Object Key V l (layout.writeObject (writtenMembers write l)) := by
  cases l with
  | nil => exact .empty spaces_nil
  | cons m l =>
    obtain ⟨hm, hrest⟩ := List.forall_mem_cons.1 h
    have hobject := Object.filled (pair_writeMember hl hm) (more_writtenMore hl hrest)
    simpa [Layout.writeObject, commaSeparated, writtenMore, writtenMembers] using hobject

end Objects

/-! ## What is read back -/

/-- A table is read back, since its names are all different. -/
theorem Reader.restores_table {α : Type} {reader : Reader α} {layout : Layout}
    {write : α → Bytes} {t : Table α} (hl : layout.IsBlank)
    (h : ∀ m ∈ t.entries, reader.Restores m.2 (write m.2)) :
    (table reader).Restores t (layout.writeObject (writtenMembers write t.entries)) := by
  have hgives : reader.Gives reader.Restores := fun _ _ h => h
  exact hgives.table _ _ ⟨t.entries, Table.ofList_entries t, object_writeObject hl h⟩

end JsonCabinet.Json
