import JsonCabinet.Operation
import JsonCabinet.Proofs.Decoding

/-!
# Snapshots are canonical

A snapshot is told by its format and by what is found in the contents, and tells both: two stores
of one format have the same snapshot just if they have the same collections and the same documents,
whatever has been done to them (`Store.snapshot_eq_iff`). A text is a snapshot in one way only
(`Snapshot.IsSnapshot.unique`), and in the snapshot of a store names and keys stand in strictly
increasing order (`Snapshot.ordered_of_isSnapshot`).
-/

namespace JsonCabinet

open Json Grammar

theorem Table.pairwise_view {α β : Type} (t : Table α) (g : α → β) :
    (t.entries.map (viewMember Bytes.ofString g)).Pairwise fun a b =>
      a.1.precedes b.1 = true := by
  refine List.pairwise_map.2 (t.sorted.imp fun h => ?_)
  rwa [Text.precedes_eq] at h

namespace Snapshot

variable {s : Bytes} {ms ms' : Members} {t u : Contents} {format : Format}

/-! ## One reading of a text -/

theorem around_lists_unique {l l' : Listing} (h : Around Lists l s) (h' : Around Lists l' s) :
    l = l' := by
  have hgives : (Reader.object (Reader.object Document.reader)).Gives Lists :=
    Document.gives_reader.object.object
  -- Reading as a table would lose what is written twice.
  have hread := hgives.readAll h
  rw [hgives.readAll h'] at hread
  exact (Except.ok.inj hread).symm

/-- A text has one list of members. -/
theorem IsSnapshot.unique (h : IsSnapshot ms s) (h' : IsSnapshot ms' s) : ms = ms' := by
  obtain ⟨l, rfl, hl⟩ := isSnapshot_iff.1 h
  obtain ⟨l', rfl, hl'⟩ := isSnapshot_iff.1 h'
  rw [around_lists_unique hl hl']

/-! ## The text of a snapshot -/

/-- What is listed in a snapshot of the contents. -/
def listing (t : Contents) : Listing := t.entries.map (viewMember id Table.entries)

/-- The form of a collection with these documents. -/
def encodeEntries (format : Format) (ds : List (String × Document)) : Bytes :=
  (format.layout 1).writeObject (writtenMembers Document.bytes ds)

theorem lists_encode (format : Format) (t : Contents) : Lists (listing t) (encode format t) := by
  have hwrite (ds : List (String × Document)) :
      Object Key (fun d v => v = Document.bytes d) ds (encodeEntries format ds) :=
    object_writeObject (isBlank_layout format 1) fun _ _ => rfl
  have hobject : Lists (listing t)
      ((format.layout 0).writeObject (writtenMembers (encodeEntries format) (listing t))) :=
    object_writeObject (isBlank_layout format 0) fun c _ => hwrite c.2
  have hencode : writtenMembers (encodeEntries format) (listing t) =
      t.entries.map fun c => (c.1, encodeCollection format c.2) := by
    simp only [writtenMembers, listing, List.map_map]
    rfl
  rw [hencode] at hobject
  exact hobject

/-- The snapshot of contents is a text of the format, in which they are listed. -/
theorem isSnapshot_encode (format : Format) (t : Contents) :
    IsSnapshot (listing t).members (encode format t) :=
  isSnapshot_iff.2 ⟨listing t, rfl, [], encode format t, [], spaces_nil, lists_encode format t,
    spaces_nil, (List.append_nil _).symm⟩

/-- Names, and the keys under each name, increase in the order of their bytes. -/
structure Ordered (ms : Members) : Prop where
  names : ms.Pairwise fun a b => a.1.precedes b.1 = true
  keys : ∀ c ∈ ms, c.2.Pairwise fun a b => a.1.precedes b.1 = true

theorem ordered_listing (t : Contents) : Ordered (listing t).members := by
  have hmembers : (listing t).members = t.entries.map (viewMember Bytes.ofString fun c =>
      c.entries.map (viewMember Bytes.ofString Document.bytes)) := by
    simp only [Listing.members, listing, List.map_map]
    rfl
  rw [hmembers]
  refine ⟨Table.pairwise_view t _, fun c hc => ?_⟩
  obtain ⟨e, -, rfl⟩ := List.mem_map.1 hc
  exact Table.pairwise_view e.2 _

theorem ordered_of_isSnapshot (h : IsSnapshot ms (encode format t)) : Ordered ms := by
  rw [h.unique (isSnapshot_encode format t)]
  exact ordered_listing t

/-! ## Contents and their snapshots -/

theorem encode_injective (h : encode format t = encode format u) : t = u := by
  have hdecode := decode_snapshot format t
  rw [h, decode_snapshot] at hdecode
  exact (Except.ok.inj hdecode).symm

end Snapshot

/-- The same is found in both contents. -/
structure Contents.Alike (t u : Contents) : Prop where
  collections : ∀ c, t.contains c = u.contains c
  documents : ∀ c k, (t.document? c k).map Document.text = (u.document? c k).map Document.text

theorem Contents.alike_iff {t u : Contents} : t.Alike u ↔ t = u := by
  constructor
  · intro h
    refine eq_of_document? h.collections fun c k => ?_
    exact Option.map_injective (fun _ _ => Document.eq_of_text) (h.documents c k)
  · rintro rfl
    exact ⟨fun _ => rfl, fun _ _ => rfl⟩

namespace Store

theorem snapshot_eq_iff {s s' : Store} (h : s.settings.format = s'.settings.format) :
    s.snapshot = s'.snapshot ↔ s.contents.Alike s'.contents := by
  rw [Contents.alike_iff, snapshot, snapshot, h]
  exact ⟨Snapshot.encode_injective, fun h => by rw [h]⟩

/-- Two stores of one format, whatever they have been through, have the same snapshot just if the
same is found in them. Names and keys stand in it in increasing order, and what any bytes decode to
has a snapshot that stays the same when it is decoded and taken again. -/
theorem snapshots_are_canonical {s s' : Store} (h : s.settings.format = s'.settings.format) :
    (s.snapshot = s'.snapshot ↔ s.contents.Alike s'.contents) ∧
    (∃ ms, Snapshot.IsSnapshot ms s.snapshot) ∧
    (∀ ms, Snapshot.IsSnapshot ms s.snapshot → Snapshot.Ordered ms) ∧
    ∀ b t format, Snapshot.decode b = .ok t →
      (Snapshot.decode (Snapshot.encode format t)).map (Snapshot.encode format) =
        .ok (Snapshot.encode format t) := by
  refine ⟨snapshot_eq_iff h, ⟨_, Snapshot.isSnapshot_encode _ _⟩,
    fun ms hms => Snapshot.ordered_of_isSnapshot hms, fun b t format _ => ?_⟩
  rw [Snapshot.decode_snapshot]
  rfl

/-- Two ways to the same contents; on the second one, entries come in another order, and one is
overwritten and one removed. -/
def straight : Store := (inMemory.run .fresh [.set "c" "k" one, .set "a" "j" one]).2.1

def roundabout : Store :=
  (inMemory.run .fresh [.set "a" "x" one, .set "a" "j" one, .set "c" "k" one, .set "c" "k" one,
    .delete "a" "x"]).2.1

theorem roundabout_snapshot_eq :
    straight.snapshot = roundabout.snapshot ∧
      ∀ ms, Snapshot.IsSnapshot ms straight.snapshot → Snapshot.Ordered ms := by
  have hsame : straight = roundabout := by cbv
  have hformat : straight.settings.format = roundabout.settings.format := by rw [hsame]
  have halike : straight.contents.Alike roundabout.contents := by
    rw [hsame]
    exact ⟨fun _ => rfl, fun _ _ => rfl⟩
  obtain ⟨hiff, -, hordered, -⟩ := snapshots_are_canonical hformat
  exact ⟨hiff.2 halike, hordered⟩

end Store

end JsonCabinet
