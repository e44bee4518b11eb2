import JsonCabinet.Proofs.Steps

/-!
# What decodes

Which bytes hold contents, and which contents these are. A blank text holds nothing; any other one
has to be a snapshot, that is one object of objects in UTF-8 whose names and keys spell strings
(`IsSnapshot`), and so a text of JSON (`IsSnapshot.derives`). Of several collections or documents of
one name the last one counts, and documents are kept as they stand (`Tells`). Decoding accepts just
these texts (`decode_eq_ok_iff`), and what it does not accept is reported as it is to the caller
(`decode_accepts_exactly_snapshots`).
-/

namespace JsonCabinet

open Json Grammar

/-! ## Members by their views -/

theorem Table.last?_map {κ κ' α β : Type} [DecidableEq κ] [DecidableEq κ'] {f : κ' → κ}
    (hf : Function.Injective f) (g : α → β) (name : κ') (ms : List (κ' × α)) :
    last? (f name) (ms.map (viewMember f g)) = (last? name ms).map g := by
  induction ms with
  | nil => rfl
  | cons m ms ih =>
    rw [List.map_cons, last?_cons, last?_cons, ih, Option.map_or]
    simp only [viewMember, hf.eq_iff]
    by_cases h : name = m.1
    · simp [h]
    · simp [h]

theorem Bytes.ofString_inj : Function.Injective ofString := fun _ _ h => ofString_injective h

theorem Document.bytes_injective : Function.Injective bytes :=
  fun _ _ h => eq_of_text (Bytes.ofString_injective h)

namespace Snapshot

/-! ## Texts -/

/-- Nothing but blanks, tabs, line feeds, carriage returns and form feeds. -/
def Blank (s : Bytes) : Prop := ∀ b ∈ s, b = 0x20 ∨ b = 0x09 ∨ b = 0x0A ∨ b = 0x0D ∨ b = 0x0C

/-- The collections of a text by their names, each with its documents by their keys, in order. -/
abbrev Members := List (Bytes × List (Bytes × Bytes))

/-- The document is this value as it stands. -/
def Verbatim (d v : Bytes) : Prop := v = d ∧ IsValue v

/-- The text is one object of objects of documents in UTF-8, with these members. -/
def IsSnapshot (ms : Members) (s : Bytes) : Prop :=
  Bytes.IsUtf8 s ∧ Around (Object Spelled (Object Spelled Verbatim)) ms s

/-- The contents are those of the last collection of each name, with the last document of each
key. -/
structure Tells (ms : Members) (t : Contents) : Prop where
  contains_eq : ∀ c, t.contains c = (Table.last? (Bytes.ofString c) ms).isSome
  document?_eq : ∀ c k, (t.document? c k).map Document.bytes =
    (Table.last? (Bytes.ofString c) ms).bind (Table.last? (Bytes.ofString k))

variable {s : Bytes} {ms : Members} {t u : Contents}

theorem all_isBlank_iff : s.all isBlank = true ↔ Blank s := by
  simp [Blank, isBlank, Bytes.isSpace, or_assoc]

/-- A snapshot is a JSON text. -/
theorem IsSnapshot.derives (h : IsSnapshot ms s) : Derives .text s := by
  obtain ⟨-, a, v, b, ha, hv, hb, rfl⟩ := h
  have hnames : ∀ n q, Spelled n q → Inner q := fun _ _ hq => hq.inner
  exact .text ha (hv.isValue hnames fun _ _ hc => hc.isValue hnames fun _ _ hd => hd.2) hb

theorem IsSnapshot.not_blank (h : IsSnapshot ms s) : ¬Blank s := by
  obtain ⟨-, a, v, b, -, hv, -, rfl⟩ := h
  intro hblank
  have hbrace : (0x7B : UInt8) ∈ a ++ (v ++ b) := by cases hv <;> simp
  exact absurd (hblank _ hbrace) (by decide)

theorem Tells.unique (ht : Tells ms t) (hu : Tells ms u) : t = u := by
  refine Contents.eq_of_document? (fun c => ?_) fun c k => ?_
  · rw [ht.contains_eq, hu.contains_eq]
  · refine Option.map_injective Document.bytes_injective ?_
    rw [ht.document?_eq, hu.document?_eq]

/-! ## Reading -/

/-- The collections of a text by their names, each with its documents by their keys, in order. -/
abbrev Listing := List (String × List (String × Document))

/-- The text has these collections and documents. -/
def Lists : Listing → Bytes → Prop := Object Key (Object Key fun d v => v = d.bytes)

namespace Listing

def members (l : Listing) : Members :=
  l.map (viewMember Bytes.ofString (List.map (viewMember Bytes.ofString Document.bytes)))

def contents (l : Listing) : Contents := Table.ofList (l.map (viewMember id Table.ofList))

theorem tells (l : Listing) : Tells l.members l.contents := by
  have hmembers (c : String) : Table.last? (Bytes.ofString c) l.members =
      (Table.last? c l).map (List.map (viewMember Bytes.ofString Document.bytes)) :=
    Table.last?_map Bytes.ofString_inj _ c l
  have hcontents (c : String) : l.contents.get? c = (Table.last? c l).map Table.ofList := by
    rw [contents, Table.get?_ofList]
    exact Table.last?_map Function.injective_id _ c l
  refine ⟨fun c => ?_, fun c k => ?_⟩
  · rw [Table.contains, hcontents, hmembers, Option.isSome_map, Option.isSome_map]
  · rw [Contents.document?, hcontents, hmembers]
    cases Table.last? c l with
    | none => rfl
    | some ds =>
      show ((Table.ofList ds).get? k).map Document.bytes =
        Table.last? (Bytes.ofString k) (ds.map (viewMember Bytes.ofString Document.bytes))
      rw [Table.get?_ofList, Table.last?_map Bytes.ofString_inj]

end Listing

/-- A value in UTF-8 is a document. -/
theorem views_document :
    Views Document.bytes (fun d v => v = d.bytes) (WellFormed Verbatim) := by
  intro y v
  constructor
  · rintro ⟨⟨rfl, hv⟩, t, rfl⟩
    obtain ⟨d, rfl⟩ := Document.exists_document hv
    exact ⟨d, rfl, rfl⟩
  · rintro ⟨d, rfl, rfl⟩
    exact ⟨⟨rfl, d.isValue⟩, Bytes.isUtf8_ofString d.text⟩

theorem isSnapshot_iff : IsSnapshot ms s ↔ ∃ l : Listing, l.members = ms ∧ Around Lists l s := by
  have hviews : Views Listing.members Lists
      (WellFormed (Object Spelled (Object Spelled Verbatim))) := by
    rw [wellFormed_object, wellFormed_object]
    exact views_key.object (views_key.object views_document)
  rw [IsSnapshot, and_comm, ← WellFormed, ← around_wellFormed_iff]
  exact hviews.around ms s

/-- A table of tables is written as an object of objects. -/
theorem listed_iff {v : Bytes} :
    Reader.Listed (Reader.Listed fun d v => v = Document.bytes d) t v ↔
      ∃ l : Listing, l.contents = t ∧ Lists l v := by
  have hkey : Views id Key Key := fun k q => by simp
  have htables : Views Table.ofList (Object Key fun d v => v = Document.bytes d)
      (Reader.Listed fun d v => v = Document.bytes d) := fun _ _ => Iff.rfl
  have hviews := hkey.object htables
  constructor
  · rintro ⟨cs, rfl, hcs⟩
    obtain ⟨l, rfl, hl⟩ := (hviews _ _).1 hcs
    exact ⟨l, rfl, hl⟩
  · rintro ⟨l, rfl, hl⟩
    exact ⟨_, rfl, (hviews _ _).2 ⟨l, rfl, hl⟩⟩

theorem readAll_eq_ok_iff :
    reader.readAll s = .ok t ↔ ∃ l : Listing, l.contents = t ∧ Around Lists l s := by
  have htakes : reader.Takes _ := Document.takes_reader.table.table
  have hgives : reader.Gives _ := Document.gives_reader.table.table
  have hviews : Views Listing.contents Lists
      (Reader.Listed (Reader.Listed fun d v => v = Document.bytes d)) := fun _ _ => listed_iff
  rw [Reader.readAll_eq_ok_iff htakes hgives]
  exact hviews.around t s

/-! ## Decoding -/

theorem decode_of_isSnapshot (h : IsSnapshot ms s) : ∃ t, decode s = .ok t ∧ Tells ms t := by
  obtain ⟨l, rfl, hl⟩ := isSnapshot_iff.1 h
  refine ⟨l.contents, ?_, l.tells⟩
  rw [decode, if_neg (mt all_isBlank_iff.1 h.not_blank)]
  exact readAll_eq_ok_iff.2 ⟨l, rfl, hl⟩

/-- A blank text and a snapshot are decoded, and nothing else is. -/
theorem decode_eq_ok_iff :
    decode s = .ok t ↔ (Blank s ∧ t = .empty) ∨ ∃ ms, IsSnapshot ms s ∧ Tells ms t := by
  constructor
  · intro h
    unfold decode at h
    split at h
    · next hblank =>
      cases h
      exact .inl ⟨all_isBlank_iff.1 hblank, rfl⟩
    · obtain ⟨l, rfl, hl⟩ := readAll_eq_ok_iff.1 h
      exact .inr ⟨l.members, isSnapshot_iff.2 ⟨l, rfl, hl⟩, l.tells⟩
  · rintro (⟨hblank, rfl⟩ | ⟨ms, hms, ht⟩)
    · rw [decode, if_pos (all_isBlank_iff.2 hblank)]
    · obtain ⟨u, hu, htells⟩ := decode_of_isSnapshot hms
      rw [hu, htells.unique ht]

theorem load_of_decode_error {fs : Files.FileSystem} {p : Files.Path} {e : Malformed}
    (hb : fs.contentOf p = .ok s) (h : decode s = .error e) :
    load fs p = .error (.serialization (.snapshot e)) := by
  simp only [load, hb, h]

/-- Bytes are decoded exactly if they are blank, which means nothing, or a snapshot, whose last
collection of each name counts with its last document of each key, each document as it stands.
Anything else is a fault of the file that it is loaded from. -/
theorem decode_accepts_exactly_snapshots :
    (∀ s t, decode s = .ok t ↔ (Blank s ∧ t = .empty) ∨ ∃ ms, IsSnapshot ms s ∧ Tells ms t) ∧
    (∀ s ms, IsSnapshot ms s → ∃ t, decode s = .ok t ∧ Tells ms t) ∧
    (∀ s, ¬Blank s → (¬∃ ms, IsSnapshot ms s) →
      ∃ e, decode s = .error e ∧ ∀ (fs : Files.FileSystem) (p : Files.Path),
        fs.contentOf p = .ok s → load fs p = .error (.serialization (.snapshot e))) := by
  refine ⟨fun s t => decode_eq_ok_iff, fun s ms h => decode_of_isSnapshot h,
    fun s hblank hnone => ?_⟩
  cases h : decode s with
  | error e => exact ⟨e, rfl, fun fs p hb => load_of_decode_error hb h⟩
  | ok t =>
    rcases decode_eq_ok_iff.1 h with ⟨hb, -⟩ | ⟨ms, hms, -⟩
    · exact absurd hb hblank
    · exact absurd ⟨ms, hms⟩ hnone

end Snapshot

end JsonCabinet
