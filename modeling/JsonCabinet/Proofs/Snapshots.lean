import JsonCabinet.Proofs.Documents
import JsonCabinet.Proofs.Json.Restoring
import JsonCabinet.Snapshot

/-!
# Snapshots can be read back

A snapshot decodes to the contents it was taken of, in either format and whatever the names and the
documents are (`decode_snapshot`): each reader restores what the layout wrote, and a document ends
where the reader of documents stops, however deep it nests.
-/

namespace JsonCabinet

open Json Grammar Reader

namespace Snapshot

theorem isBlank_layout (format : Format) (depth : Nat) : (format.layout depth).IsBlank := by
  cases format with
  | pretty => exact Layout.isBlank_indented depth
  | compact => exact Layout.isBlank_compact

theorem restores_encodeCollection (format : Format) (c : Collection) :
    (table Document.reader).Restores c (encodeCollection format c) :=
  restores_table (isBlank_layout format 1) fun m _ => Document.gives_reader m.2 _ rfl

theorem restores_encode (format : Format) (t : Contents) :
    reader.Restores t (encode format t) :=
  restores_table (isBlank_layout format 0) fun m _ => restores_encodeCollection format m.2

/-- A snapshot begins with a brace, so it is not taken for a blank file. -/
theorem not_all_isBlank_encode (format : Format) (t : Contents) :
    ¬ (encode format t).all isBlank = true := by
  intro h
  have hbrace : isBlank 0x7B = true := List.all_eq_true.1 h _ List.mem_cons_self
  cases hbrace

theorem decode_of_restores {s : Bytes} {t : Contents} (hs : ¬ s.all isBlank = true)
    (h : reader.Restores t s) : decode s = .ok t := by
  rw [decode, if_neg hs]
  have hgives : reader.Gives reader.Restores := fun _ _ h => h
  exact hgives.readAll ⟨[], s, [], spaces_nil, h, spaces_nil, by simp⟩

/-- Decoding gives back just the contents that were encoded. -/
theorem decode_snapshot (format : Format) (t : Contents) : decode (encode format t) = .ok t :=
  decode_of_restores (not_all_isBlank_encode format t) (restores_encode format t)

theorem decode_encode (format : Format) (t : Contents) : decode (encode format t) = .ok t :=
  decode_snapshot format t

end Snapshot

end JsonCabinet
