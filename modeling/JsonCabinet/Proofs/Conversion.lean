import JsonCabinet.Proofs.Documents
import JsonCabinet.Proofs.Json.Recoding
import JsonCabinet.Proofs.Steps

/-!
# Documents and values

A value of integers that nests at most 127 deep becomes a document and comes back from it
(`converted_value_of_renders`). A document whose numbers are such integers has a value exactly if it
nests no deeper and no surrogate in it is unpaired (`exists_value_iff`); one without a value is kept
all the same, as a document is only scanned when it is stored and read (`isKept`). What is made of
the value of a document again has its keys in order, and stays as it is from then on
(`conversion_round_trips`).
-/

namespace JsonCabinet

open Json Grammar Files

/-! ## What is stored comes back -/

namespace Store

variable {s : Store} {fs : FileSystem} {op : Operation} {c k : String} {d : Document}

/-- The file of the store, if it has one, can be read. -/
def Readable (s : Store) (fs : FileSystem) : Prop :=
  ∀ p, s.settings.backing = .file p → ∃ b, fs.contentOf p = .ok b

/-- Unless the file system fails, what an operation means is what it does. -/
theorem perform_of_clear (hop : ∀ c k, op ≠ .get c k)
    (h : NoFileError (s.perform fs op).result) :
    (s.perform fs op).result = (s.settings.effect s.contents op).answer ∧ (s.perform fs op).store =
      { s with contents := (s.settings.effect s.contents op).contents } := by
  have heq : s.perform fs op = s.conclude fs op := perform_eq fun c k h => absurd h (hop c k)
  rw [heq] at h ⊢
  refine ⟨?_, conclude_store s fs op⟩
  cases hb : s.settings.backing with
  | memory => rw [← heq, perform_memory hb]
  | file p => exact (conclude_eq hb h).1

theorem Readable.perform (hs : s.Readable fs) (hop : ∀ c k, op ≠ .get c k)
    (h : NoFileError (s.perform fs op).result) :
    (s.perform fs op).store.Readable (s.perform fs op).files := by
  intro p hp
  have hb : s.settings.backing = .file p := by
    rw [← hp, (perform_of_clear hop h).2]
  obtain ⟨b, hb'⟩ := hs p hb
  have hmoves := perform_moves hb h
  cases hw : op.writes s.settings.flush (s.perform fs op).result with
  | true => exact ⟨_, hmoves.contentOf_eq hb' hw⟩
  | false =>
    rw [hmoves.unwritten hw]
    exact ⟨b, hb'⟩

/-- What has been flushed is read. -/
theorem get_of_flush (hs : s.Readable fs) (hc : c ≠ "") (hk : k ≠ "")
    (h : NoFileError (s.perform fs .flush).result) (hd : s.contents.document? c k = some d) :
    ((s.perform fs .flush).store.perform (s.perform fs .flush).files (.get c k)).result =
      .ok (.document (some d)) := by
  obtain ⟨hresult, hstore⟩ := perform_of_clear (fun _ _ h => by cases h) h
  cases hb : s.settings.backing with
  | memory =>
    have hm : (s.perform fs .flush).store.settings.backing = .memory := by rw [hstore, hb]
    rw [perform_memory hm, hstore, effect_get (address_of_ne hc hk)]
    have hcontains : s.contents.contains c = true := Contents.contains_of_document? hd
    simp only [Settings.effect, hcontains, hd, if_true]
  | file p =>
    obtain ⟨b, hb'⟩ := hs p hb
    have hcontent := (perform_moves hb h).contentOf_eq hb' (by rw [hresult]; rfl)
    have hload := Snapshot.load_of_content hcontent
    have hp : (s.perform fs .flush).store.settings.backing = .file p := by rw [hstore, hb]
    refine (perform_get_of_load hp hc hk hload).2 d ?_
    rw [Contents.merge_self, hstore]
    exact hd

end Store

namespace Document

open Json.Tree (IsPlain IsPaired IsOrdered InUtf8)

/-- In any store it can be stored and flushed, unless the file system fails, and is read then. -/
def IsKept (d : Document) : Prop :=
  ∀ (s : Store) (fs : FileSystem) (c k : String), s.Readable fs → c ≠ "" → k ≠ "" →
    (∀ r ∈ (s.run fs [.set c k d, .flush]).1, NoFileError r) →
    (s.run fs [.set c k d, .flush, .get c k]).1 = [.ok .done, .ok .done, .ok (.document (some d))]

theorem isKept (d : Document) : d.IsKept := by
  intro s fs c k hs hc hk hclear
  simp only [Store.run, List.forall_mem_cons] at hclear ⊢
  obtain ⟨hset, hflush, -⟩ := hclear
  have heffect : (s.settings.effect s.contents (.set c k d)).answer = .ok .done := by
    simp only [Settings.effect, Settings.setEffect, Store.address_of_ne hc hk]
  have hset' : (s.perform fs (.set c k d)).result = .ok .done :=
    (Store.perform_of_clear (fun _ _ h => by cases h) hset).1.trans heffect
  have hflush' := (Store.perform_of_clear (fun _ _ h => by cases h) hflush).1
  have hreadable := hs.perform (fun _ _ h => by cases h) hset
  have hd := (Store.document?_perform_set hc hset').2
  rw [Store.get_of_flush hreadable hc hk hflush hd, hflush', hset']
  rfl

/-! ## From documents to values -/

theorem value_eq_ok_iff {d : Document} {t : Json.Tree} {v : Value} (hw : t.Written d.bytes)
    (ht : t.Throughout IsPlain) : d.value = .ok v ↔ t.Within 127 v := by
  have hsettles : (Reader.value (Reader.quotedValue d.bytes.length) 127).Settles d.bytes
      (t.Within 127) := Reader.settles_value hw ht 127
  exact hsettles.readAll_eq_ok_iff

theorem converted_eq_ok_iff {α : Type} {r : Except Malformed α} {x : α} :
    converted r = .ok x ↔ r = .ok x := by
  cases r <;> simp [converted, Except.mapError]

theorem exists_value_iff {d : Document} {t : Json.Tree} (hw : t.Written d.bytes)
    (ht : t.Throughout IsPlain) :
    (∃ v, d.value = .ok v) ↔ t.depth ≤ 127 ∧ t.Throughout IsPaired := by
  have hutf : t.Throughout InUtf8 := hw.isUtf8_iff.1 (Bytes.isUtf8_ofString d.text)
  simp only [value_eq_ok_iff hw ht, Json.Tree.Within, exists_and_left,
    Json.Tree.exists_denotes_iff hw ht hutf]

theorem converted_of_ne_ok {α : Type} {r : Except Malformed α} (h : ¬∃ x, r = .ok x) :
    ∃ e, converted r = .error (.serialization (.value e)) := by
  cases r with
  | error e => exact ⟨e, rfl⟩
  | ok x => exact absurd ⟨x, rfl⟩ h

/-! ## From values to documents -/

/-- The text of a tree that is written for a value is a document. -/
theorem ofValue_of_renders {n : Nat} {v : Value} {t : Json.Tree} (h : t.Renders n v) :
    ∃ d, ofValue v = .ok d ∧ d.bytes = v.write := by
  obtain ⟨text, htext⟩ := h.written.isUtf8_iff.2 (Json.Tree.inUtf8_of_denotes h.within.2)
  obtain ⟨d, rfl⟩ := exists_document (htext ▸ h.written.isValue)
  exact ⟨d, ofBytes_eq_ok_iff.2 ⟨[], [], spaces_nil, spaces_nil, by simp [bytes, htext]⟩, htext⟩

/-- Such a value becomes a document, whose text is accepted as it is, and comes back from it. -/
theorem converted_value_of_renders {v : Value} {t : Json.Tree} (h : t.Renders 127 v) :
    ∃ d, ofValue v = .ok d ∧ d.bytes = v.write ∧ d.value = .ok v := by
  obtain ⟨d, hd, hbytes⟩ := ofValue_of_renders h
  have hw : t.Written d.bytes := hbytes ▸ h.written
  exact ⟨d, hd, hbytes, (value_eq_ok_iff hw h.plain).2 h.within⟩

/-- The document that is made of the value of a document. -/
def recoded (d : Document) : Except StoreError Document :=
  (converted d.value).bind fun v => converted (ofValue v)

theorem recoded_of_value {d e : Document} {v : Value} (hd : d.value = .ok v)
    (he : ofValue v = .ok e) : d.recoded = .ok e := by
  rw [recoded, hd, converted, Except.mapError, Except.bind, he, converted, Except.mapError]

/-! ## Two documents -/

/-- A key twice. -/
def twice : Document := ⟨"\x7b\"a\":1,\"a\":[]\x7d", by cbv, by cbv⟩

def twiceTree : Json.Tree := .object [([0x61], .number [0x31]), ([0x61], .list [])]

/-- One half of a surrogate pair. -/
def half : Document := ⟨"\"\\ud800\"", by cbv, by cbv⟩

def halfTree : Json.Tree := .string [0x5C, 0x75, 0x64, 0x38, 0x30, 0x30]

theorem key_a : Key "a" [0x61] := .plain (by decide) (by decide) (by decide) .nil

theorem codeUnit_half : CodeUnit [0x64, 0x38, 0x30, 0x30] 0xD800 :=
  ⟨rfl, .cons rfl (.cons rfl (.cons rfl (.cons rfl .nil)))⟩

theorem written_twice : twiceTree.Written twice.bytes := by
  have hbytes : twice.bytes =
      [0x7B, 0x22, 0x61, 0x22, 0x3A, 0x31, 0x2C, 0x22, 0x61, 0x22, 0x3A, 0x5B, 0x5D, 0x7D] := by
    cbv
  have hkey : Json.Tree.Between [0x61] [0x61] := ⟨rfl, key_a.inner⟩
  have hfirst := Pair.mk (V := Json.Tree.Written) spaces_nil hkey spaces_nil spaces_nil
    (.number (Text.number_toString 1))
  have hsecond := Pair.mk (V := Json.Tree.Written) spaces_nil hkey spaces_nil spaces_nil
    (.list (.empty spaces_nil))
  rw [hbytes]
  exact .object (Object.filled hfirst (.cons spaces_nil hsecond (.none spaces_nil)))

theorem written_half : halfTree.Written half.bytes := by
  have hbytes : half.bytes = [0x22, 0x5C, 0x75, 0x64, 0x38, 0x30, 0x30, 0x22] := by cbv
  have hinner := Inner.escape codeUnit_half.escape .nil
  rw [hbytes]
  exact .string hinner

theorem isPlain_twice : twiceTree.Throughout IsPlain := by
  have hinteger : IsInteger [0x31] := isInteger_toString (n := 1) (by decide) (by decide)
  have hkey : ¬Key Reader.reservedKey [0x61] := fun h => absurd (key_a.unique h) (by decide)
  simp [twiceTree, Json.Tree.Throughout, IsPlain, hinteger, hkey]

theorem isPaired_twice : twiceTree.Throughout IsPaired := by
  have hkey : ¬Unpaired [0x61] := (exists_spelled_iff key_a.inner).1 ⟨_, key_a⟩
  simp [twiceTree, Json.Tree.Throughout, IsPaired, hkey]

theorem not_isPaired_half : ¬halfTree.Throughout IsPaired := by
  have hhigh : IsHighHalf 0xD800 := ⟨by decide, by decide⟩
  rw [halfTree, Json.Tree.Throughout, IsPaired, not_not]
  exact ⟨_, .code codeUnit_half .nil, hasLoneHalf_high hhigh fun _ h => by cases h⟩

/-! ## There and back -/

/-- Values of integers become documents and come back. A document has a value exactly if it nests
at most 127 deep and has no unpaired surrogate; it fails to be converted otherwise, but is stored
and read all the same. What is made of its value has the keys of each object in order, of members
with one key the last one, and is made of its own value again. -/
theorem conversion_round_trips :
    (∀ v : Value, v.Fits 127 → ∃ d, converted (ofValue v) = .ok d ∧ d.bytes = v.write ∧
      accept (parse d.text) = .ok d ∧ converted d.value = .ok v) ∧
    (∀ d : Document, ∃ t : Json.Tree, t.Written d.bytes) ∧
    ∀ (d : Document) (t : Json.Tree), t.Written d.bytes → t.Throughout IsPlain →
      ((∃ v, converted d.value = .ok v) ↔ t.depth ≤ 127 ∧ t.Throughout IsPaired) ∧
      ((∀ v, converted d.value ≠ .ok v) →
        (∃ e, converted d.value = .error (.serialization (.value e))) ∧ d.IsKept) ∧
      ∀ v, converted d.value = .ok v → t.Denotes v ∧
        ∃ (e : Document) (u : Json.Tree), converted (ofValue v) = .ok e ∧ u.Written e.bytes ∧
          u.Denotes v ∧ u.Throughout IsOrdered ∧ e.recoded = .ok e := by
  refine ⟨fun v hv => ?_, fun d => Json.Tree.exists_written d.isValue,
    fun d t hw ht => ⟨?_, ?_, ?_⟩⟩
  · obtain ⟨t, ht⟩ := Json.Tree.exists_renders hv
    obtain ⟨d, hd, hbytes, hvalue⟩ := converted_value_of_renders ht
    exact ⟨d, converted_eq_ok_iff.2 hd, hbytes, accept_eq_ok_iff.2 d.parse_text,
      converted_eq_ok_iff.2 hvalue⟩
  · simp only [converted_eq_ok_iff]
    exact exists_value_iff hw ht
  · intro h
    exact ⟨converted_of_ne_ok fun ⟨v, hv⟩ => h v (converted_eq_ok_iff.2 hv), d.isKept⟩
  · intro v hv
    have hwithin := (value_eq_ok_iff hw ht).1 (converted_eq_ok_iff.1 hv)
    obtain ⟨u, hu⟩ := Json.Tree.exists_renders (Json.Tree.fits_of_within ht hwithin)
    obtain ⟨e, he, hbytes, hvalue⟩ := converted_value_of_renders hu
    exact ⟨hwithin.2, e, u, converted_eq_ok_iff.2 he, hbytes ▸ hu.written, hu.within.2,
      hu.ordered, recoded_of_value hvalue he⟩

theorem conversion_round_trips_twice_and_half :
    (∃ d, converted (ofValue (.array [.number (.integer 1)])) = .ok d ∧
      converted d.value = .ok (.array [.number (.integer 1)])) ∧
    (∃ v e, converted twice.value = .ok v ∧ converted (ofValue v) = .ok e ∧
      e.recoded = .ok e) ∧
    (∃ e, converted half.value = .error (.serialization (.value e))) ∧
    (Store.run ⟨Store.inDatabase, .empty⟩ Store.withDatabase
      [.set "c" "k" half, .flush, .get "c" "k"]).1 =
        [.ok .done, .ok .done, .ok (.document (some half))] := by
  have hfits : (Value.array [.number (.integer 1)]).Fits 127 := by
    refine .array fun v hv => ?_
    rw [List.mem_singleton.1 hv]
    exact .integer (by decide) (by decide)
  have hplain : halfTree.Throughout IsPlain := by
    rw [halfTree, Json.Tree.Throughout]
    trivial
  obtain ⟨hvalues, -, hdocuments⟩ := conversion_round_trips
  obtain ⟨d, hd, -, -, hvalue⟩ := hvalues _ hfits
  obtain ⟨htwice, -, hrecoded⟩ := hdocuments twice twiceTree written_twice isPlain_twice
  obtain ⟨v, hv⟩ := htwice.2 ⟨by simp [twiceTree, Json.Tree.depth], isPaired_twice⟩
  obtain ⟨-, e, -, he, -, -, -, hfixed⟩ := hrecoded v hv
  obtain ⟨hhalf, hfailed, -⟩ := hdocuments half halfTree written_half hplain
  obtain ⟨herror, hkept⟩ := hfailed fun v hv => not_isPaired_half (hhalf.1 ⟨v, hv⟩).2
  refine ⟨⟨d, hd, hvalue⟩, ⟨v, e, hv, he, hfixed⟩, herror, ?_⟩
  refine hkept _ _ _ _ (fun p hp => ?_) (by decide) (by decide) fun r hr => ?_
  · cases hp
    exact ⟨[], by cbv⟩
  · have hall : (Store.run ⟨Store.inDatabase, .empty⟩ Store.withDatabase
        [.set "c" "k" half, .flush]).1.all (·.isOk) = true := by cbv
    exact noFileError_of_isOk (List.all_eq_true.1 hall r hr)

end Document

end JsonCabinet
