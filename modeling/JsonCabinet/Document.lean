import JsonCabinet.Json.Scan
import JsonCabinet.Json.Typed

/-!
# Documents

A document is the text of exactly one JSON value, with no spaces around it. It is checked once,
when it is made, and kept byte for byte; equality is equality of texts. Since a value is
recognised whatever follows it, a document read out of a larger text is one on its own
(`proofs_of_cut`).
-/

namespace JsonCabinet

open Json

structure Document where
  text : String
  /-- The text is one value, which ends where the text ends. -/
  whole : Scan.run .value [] (Bytes.ofString text) = .ok []
  /-- The value begins where the text begins. -/
  tight : Bytes.trimStart (Bytes.ofString text) = Bytes.ofString text

namespace Document

@[ext]
theorem eq_of_text {d e : Document} (h : d.text = e.text) : d = e := by
  cases d; cases e; cases h; rfl

instance : DecidableEq Document := fun d e =>
  if h : d.text = e.text then isTrue (eq_of_text h) else isFalse fun he => h (he ▸ rfl)

def bytes (d : Document) : Bytes := Bytes.ofString d.text

def isNull (d : Document) : Bool := d.text == "null"

/-! ## Making documents -/

theorem trimStart_append_of_ne_nil {p rest : Bytes} (hp : p ≠ [])
    (h : Bytes.trimStart (p ++ rest) = p ++ rest) : Bytes.trimStart p = p := by
  cases p with
  | nil => exact absurd rfl hp
  | cons b p =>
    have hb : Bytes.isSpace b = false := Bytes.isSpace_eq_false_of_trimStart h
    simp [Bytes.trimStart, hb]

theorem trimStart_idem (s : Bytes) :
    Bytes.trimStart (Bytes.trimStart s) = Bytes.trimStart s := by
  cases h : Bytes.trimStart s with
  | nil => rfl
  | cons b rest => simp [Bytes.trimStart, Bytes.isSpace_eq_false_of_trimStart h]

/-- What is cut off a text without leading spaces makes a document, if it is UTF-8. -/
theorem proofs_of_cut {s value rest : Bytes} {text : String} (hs : Bytes.trimStart s = s)
    (h : Scan.cut .value [] [] s = .ok (value, rest)) (ht : Bytes.toString? value = some text) :
    Scan.run .value [] (Bytes.ofString text) = .ok [] ∧
      Bytes.trimStart (Bytes.ofString text) = Bytes.ofString text := by
  obtain ⟨p, rfl, hrun⟩ := Scan.run_cut (Scan.run_of_cut h)
  obtain rfl : p = value := List.append_cancel_right (Scan.append_of_cut h)
  have hne : p ≠ [] := by
    rintro rfl
    simp [Scan.run, Scan.finish] at hrun
  obtain rfl := Bytes.eq_ofString_of_toString? ht
  exact ⟨hrun, trimStart_append_of_ne_nil hne hs⟩

/-- Takes a document off the front of a text, which may begin with spaces. -/
def read (s : Bytes) : Except Fault (Document × Bytes) :=
  match h : Scan.cut .value [] [] (Bytes.trimStart s) with
  | .error fault => .error fault
  | .ok (value, rest) =>
    match ht : Bytes.toString? value with
    | none => .error ⟨.invalidUtf8, Utf8.afterIllFormed (Bytes.trimStart s)⟩
    | some text =>
      have proofs := proofs_of_cut (trimStart_idem s) h ht
      .ok (⟨text, proofs.1, proofs.2⟩, rest)

theorem length_read {s rest : Bytes} {d : Document} (h : read s = .ok (d, rest)) :
    rest.length < s.length := by
  unfold read at h
  split at h
  · cases h
  · next hr =>
    split at h
    · cases h
    · cases h
      exact Nat.lt_of_lt_of_le (Scan.length_lt_of_run_value (Scan.run_of_cut hr))
        (Bytes.length_trimStart_le s)

def reader : Reader Document := ⟨read, length_read⟩

/-- The document of a text of bytes; spaces around the value are dropped. -/
def ofBytes (s : Bytes) : Except Malformed Document := reader.readAll s

/-- The document of a text; spaces around the value are dropped. -/
def parse (text : String) : Except Malformed Document := ofBytes (Bytes.ofString text)

/-! ## Conversion -/

/-- The typed value of a document. -/
def convert {α : Type} (d : Document) (reader : Reader α) : Except Malformed α :=
  reader.readAll d.bytes

def value (d : Document) : Except Malformed Value := Value.ofText d.bytes

/-- The value as a document of its own. -/
def ofValue (v : Value) : Except Malformed Document := ofBytes v.write

/-- The document as a message shows it. -/
def display (d : Document) : String := "Document(" ++ Text.display d.text ++ ")"

end Document

end JsonCabinet
