import JsonCabinet.Error
import JsonCabinet.Proofs.Json.Objects

/-!
# Documents and the grammar

A document is a value of the grammar, byte for byte (`Document.isValue`), and every text that is
one is a document (`exists_document`). A reader of documents takes just the document off a text
(`gives_reader`, `takes_reader`), so what is handed in as a document is accepted exactly if it
is one value with spaces around it, and nothing but those spaces is dropped.
-/

namespace JsonCabinet

open Json Grammar

/-! ## Strings and bytes -/

namespace Bytes

/-- What is left of a text without the spaces around it. -/
def trim (s : Bytes) : Bytes := (trimStart (trimStart s).reverse).reverse

end Bytes

namespace Document

theorem isValue (d : Document) : IsValue d.bytes := by
  obtain ⟨a, v, ha, hv, h⟩ := Scan.run_eq_ok_nil_iff.1 d.whole
  obtain ⟨b, t, rfl, hb, -⟩ := Scan.exists_cons_of_isValue hv
  have htight : b :: t = Bytes.ofString d.text := by
    rw [← d.tight, h, trimStart_append ha, trimStart_cons hb]
  rw [bytes, ← htight]
  exact hv

theorem trimStart_isValue {v : Bytes} (hv : IsValue v) (s : Bytes) :
    Bytes.trimStart (v ++ s) = v ++ s := by
  obtain ⟨b, t, rfl, hb, -⟩ := Scan.exists_cons_of_isValue hv
  exact trimStart_cons hb

theorem exists_document {t : String} (h : IsValue (Bytes.ofString t)) :
    ∃ d : Document, d.text = t := by
  have hrun : Scan.run .value [] (Bytes.ofString t) = .ok [] := by
    simpa using Scan.run_isValue h (s := []) trivial
  have htrim : Bytes.trimStart (Bytes.ofString t) = Bytes.ofString t := by
    simpa using trimStart_isValue h []
  exact ⟨⟨t, hrun, htrim⟩, rfl⟩

theorem cut_append (d : Document) {s : Bytes} (hs : Scan.EndsNumber s) :
    Scan.cut .value [] [] (d.bytes ++ s) = .ok (d.bytes, s) := by
  rw [Scan.cut_eq, Scan.run_isValue d.isValue hs]
  simp [Except.map]

/-- A document is read off a text that cannot go on with it. -/
theorem read_append (d : Document) {a s : Bytes} (ha : Spaces a) (hs : Scan.EndsNumber s) :
    read (a ++ (d.bytes ++ s)) = .ok (d, s) := by
  have hcut : Scan.cut .value [] [] (Bytes.trimStart (a ++ (d.bytes ++ s))) = .ok (d.bytes, s) := by
    rw [trimStart_append ha, trimStart_isValue d.isValue, cut_append d hs]
  unfold read
  split
  · next h => rw [hcut] at h; cases h
  · next h =>
    rw [hcut] at h
    cases h
    split
    · next ht => rw [bytes, Bytes.toString?_ofString] at ht; cases ht
    · next ht =>
      rw [bytes, Bytes.toString?_ofString] at ht
      cases ht
      rfl

theorem gives_reader : reader.Gives fun d v => v = d.bytes := by
  rintro d _ rfl a s ha hs
  exact d.read_append ha hs

/-- Just the document is taken off a text. -/
theorem takes_reader : reader.Takes fun d v => v = d.bytes := by
  intro s d rest h
  have h : read s = .ok (d, rest) := h
  obtain ⟨a, ha, hs⟩ := exists_spaces_append s
  refine ⟨a, d.bytes, ha, rfl, hs.trans ?_⟩
  unfold read at h
  split at h
  · cases h
  · next hcut =>
    split at h
    · cases h
    · next ht =>
      cases h
      have happ := Scan.append_of_cut hcut
      rw [Bytes.eq_ofString_of_toString? ht] at happ
      exact congrArg (a ++ ·) happ

/-- Spaces around a document are dropped and nothing else. -/
theorem ofBytes_eq_ok_iff {s : Bytes} {d : Document} :
    ofBytes s = .ok d ↔ ∃ a b, Spaces a ∧ Spaces b ∧ s = a ++ (d.bytes ++ b) := by
  rw [ofBytes, Reader.readAll_eq_ok_iff takes_reader gives_reader]
  constructor
  · rintro ⟨a, _, b, ha, rfl, hb, rfl⟩
    exact ⟨a, b, ha, hb, rfl⟩
  · rintro ⟨a, b, ha, hb, rfl⟩
    exact ⟨a, d.bytes, b, ha, rfl, hb, rfl⟩

theorem trim_append (d : Document) {a b : Bytes} (ha : Spaces a) (hb : Spaces b) :
    Bytes.trim (a ++ (d.bytes ++ b)) = d.bytes := by
  obtain ⟨w, c, hd, hc⟩ := closed_of_isValue d.isValue
  have hfront : Bytes.trimStart (a ++ (d.bytes ++ b)) = d.bytes ++ b := by
    rw [trimStart_append ha, trimStart_isValue d.isValue]
  have hback : Spaces b.reverse := fun c hc => hb c (List.mem_reverse.1 hc)
  rw [Bytes.trim, hfront, hd, List.reverse_append, trimStart_append hback, List.reverse_append,
    List.reverse_singleton, List.singleton_append, trimStart_cons hc]
  simp

/-- The bytes are a JSON document: one value in UTF-8, with spaces around it. -/
def Written (s : Bytes) : Prop :=
  ∃ (t : String) (a b : Bytes), IsValue (Bytes.ofString t) ∧ Spaces a ∧ Spaces b ∧
    s = a ++ (Bytes.ofString t ++ b)

theorem written_iff {s : Bytes} : Written s ↔ ∃ d, ofBytes s = .ok d := by
  constructor
  · rintro ⟨t, a, b, ht, ha, hb, hs⟩
    obtain ⟨d, rfl⟩ := exists_document ht
    exact ⟨d, ofBytes_eq_ok_iff.2 ⟨a, b, ha, hb, hs⟩⟩
  · rintro ⟨d, hd⟩
    obtain ⟨a, b, ha, hb, hs⟩ := ofBytes_eq_ok_iff.1 hd
    exact ⟨d.text, a, b, d.isValue, ha, hb, hs⟩

theorem bytes_of_ofBytes {s : Bytes} {d : Document} (h : ofBytes s = .ok d) : d.bytes = s.trim := by
  obtain ⟨a, b, ha, hb, rfl⟩ := ofBytes_eq_ok_iff.1 h
  exact (d.trim_append ha hb).symm

theorem accept_eq_ok_iff {r : Except Malformed Document} {d : Document} :
    accept r = .ok d ↔ r = .ok d := by
  cases r <;> simp [accept, Except.mapError]

theorem accept_of_ne_ok {r : Except Malformed Document} (h : ∀ d, accept r ≠ .ok d) :
    ∃ why, accept r = .error (.validation why) := by
  cases r with
  | error e => exact ⟨.notADocument e, rfl⟩
  | ok d => exact absurd rfl (h d)

/-! ## What is accepted -/

/-- The text is this one with spaces around it. -/
def Surrounds (s t : String) : Prop :=
  ∃ a b : String, Spaces (Bytes.ofString a) ∧ Spaces (Bytes.ofString b) ∧ s = a ++ (t ++ b)

theorem parse_eq_ok_iff {s : String} {d : Document} : parse s = .ok d ↔ Surrounds s d.text := by
  rw [parse, ofBytes_eq_ok_iff]
  constructor
  · rintro ⟨a, b, ha, hb, h⟩
    obtain ⟨a, rfl⟩ := Bytes.isUtf8_of_ascii ha.ascii
    obtain ⟨b, rfl⟩ := Bytes.isUtf8_of_ascii hb.ascii
    refine ⟨a, b, ha, hb, Bytes.ofString_injective ?_⟩
    rw [h, Bytes.ofString_append, Bytes.ofString_append, bytes]
  · rintro ⟨a, b, ha, hb, rfl⟩
    refine ⟨_, _, ha, hb, ?_⟩
    rw [Bytes.ofString_append, Bytes.ofString_append, bytes]

theorem parse_text (d : Document) : parse d.text = .ok d :=
  parse_eq_ok_iff.2 ⟨"", "", spaces_nil, spaces_nil, by simp⟩

/-- A document out of bytes is one out of the string they encode. -/
theorem ofBytes_eq_ok_iff_parse {b : Bytes} {d : Document} :
    ofBytes b = .ok d ↔ ∃ s, Bytes.toString? b = some s ∧ parse s = .ok d := by
  constructor
  · intro h
    obtain ⟨a, c, ha, hc, rfl⟩ := ofBytes_eq_ok_iff.1 h
    obtain ⟨a, rfl⟩ := Bytes.isUtf8_of_ascii ha.ascii
    obtain ⟨c, rfl⟩ := Bytes.isUtf8_of_ascii hc.ascii
    refine ⟨a ++ (d.text ++ c), ?_, parse_eq_ok_iff.2 ⟨a, c, ha, hc, rfl⟩⟩
    rw [← Bytes.toString?_ofString, Bytes.ofString_append, Bytes.ofString_append, bytes]
  · rintro ⟨s, hs, h⟩
    rwa [Bytes.eq_ofString_of_toString? hs]

theorem parse_accepts_iff {s t : String} :
    (∃ d, accept (parse s) = .ok d ∧ d.text = t) ↔ IsValue (Bytes.ofString t) ∧ Surrounds s t := by
  constructor
  · rintro ⟨d, hd, rfl⟩
    exact ⟨d.isValue, parse_eq_ok_iff.1 (accept_eq_ok_iff.1 hd)⟩
  · rintro ⟨ht, hs⟩
    obtain ⟨d, rfl⟩ := exists_document ht
    exact ⟨d, accept_eq_ok_iff.2 (parse_eq_ok_iff.2 hs), rfl⟩

/-- What is handed in is accepted as a document exactly if it is one value of the grammar with
spaces around it, and the document is that value, verbatim; anything else is the caller's fault.
Bytes are accepted exactly if they are the UTF-8 form of an accepted text. -/
theorem accepts_exactly_one_value :
    (∀ s t, (∃ d, accept (parse s) = .ok d ∧ d.text = t) ↔
      IsValue (Bytes.ofString t) ∧ Surrounds s t) ∧
    (∀ d : Document, accept (parse d.text) = .ok d) ∧
    (∀ s, (¬ ∃ t, IsValue (Bytes.ofString t) ∧ Surrounds s t) →
      ∃ why, accept (parse s) = .error (.validation why)) ∧
    (∀ b d, accept (ofBytes b) = .ok d ↔
      ∃ s, Bytes.toString? b = some s ∧ accept (parse s) = .ok d) ∧
    (∀ b, (∀ d, accept (ofBytes b) ≠ .ok d) →
      ∃ why, accept (ofBytes b) = .error (.validation why)) := by
  refine ⟨fun s t => parse_accepts_iff, fun d => ?_, fun s hs => ?_, fun b d => ?_,
    fun b hb => accept_of_ne_ok hb⟩
  · rw [accept_eq_ok_iff]
    exact parse_text d
  · refine accept_of_ne_ok fun d hd => hs ⟨d.text, ?_⟩
    exact parse_accepts_iff.1 ⟨d, hd, rfl⟩
  · simp only [accept_eq_ok_iff]
    exact ofBytes_eq_ok_iff_parse

end Document

end JsonCabinet
