import Mathlib
import JsonCabinet.Bytes

/-!
# Characters within bytes

Bytes that are the UTF-8 form of a string may be taken apart in front of any whole character, and
put together again: the form of a character within a text leaves the text well-formed just if what
stands in front of it and what stands behind it are (`isUtf8_append_char`). A byte below 0x80 is
such a character, so quotes, brackets and spaces separate texts that are well-formed on their own.
-/

namespace JsonCabinet.Bytes

/-- The bytes are the UTF-8 form of a string. -/
def IsUtf8 (s : Bytes) : Prop := ∃ t, ofString t = s

theorem isUtf8_ofString (t : String) : IsUtf8 (ofString t) := ⟨t, rfl⟩

theorem ofString_append (s t : String) : ofString (s ++ t) = ofString s ++ ofString t := by
  simp [ofString, String.toByteArray_append]

theorem ofString_ofList (l : List Char) :
    ofString (String.ofList l) = l.flatMap String.utf8EncodeChar := by
  simp [ofString, List.utf8Encode, List.data_toByteArray]

theorem eq_nil_of_ofString {l : List Char} (h : ofString (String.ofList l) = []) : l = [] := by
  have hl : String.ofList l = "" := ofString_injective h
  rw [← String.toList_ofList (l := l), hl]
  rfl

theorem isUtf8_iff {s : Bytes} :
    IsUtf8 s ↔ ∃ l : List Char, l.flatMap String.utf8EncodeChar = s := by
  constructor
  · rintro ⟨t, rfl⟩
    exact ⟨t.toList, by rw [← ofString_ofList, String.ofList_toList]⟩
  · rintro ⟨l, rfl⟩
    exact ⟨String.ofList l, ofString_ofList l⟩

theorem isUtf8_nil : IsUtf8 [] := ⟨"", rfl⟩

theorem IsUtf8.append {s t : Bytes} (hs : IsUtf8 s) (ht : IsUtf8 t) : IsUtf8 (s ++ t) := by
  obtain ⟨s, rfl⟩ := hs
  obtain ⟨t, rfl⟩ := ht
  exact ⟨s ++ t, ofString_append s t⟩

theorem isUtf8_iff_toByteArray {s : Bytes} : IsUtf8 s ↔ s.toByteArray.IsValidUTF8 := by
  rw [isUtf8_iff]
  constructor
  · rintro ⟨l, rfl⟩
    exact ByteArray.isValidUTF8_utf8Encode
  · rintro ⟨l, hl⟩
    exact ⟨l, List.toByteArray_inj.1 hl.symm⟩

theorem isUtf8_char_append {c : Char} {s : Bytes} :
    IsUtf8 (String.utf8EncodeChar c ++ s) ↔ IsUtf8 s := by
  rw [isUtf8_iff_toByteArray, isUtf8_iff_toByteArray, List.toByteArray_append,
    ← List.utf8Encode_singleton, ByteArray.isValidUTF8_utf8Encode_singleton_append_iff]

/-- A well-formed text in front of another one does not matter. -/
theorem IsUtf8.append_iff {p s : Bytes} (hp : IsUtf8 p) : IsUtf8 (p ++ s) ↔ IsUtf8 s := by
  obtain ⟨l, rfl⟩ := isUtf8_iff.1 hp
  induction l with
  | nil => rfl
  | cons c l ih =>
    rw [List.flatMap_cons, List.append_assoc, isUtf8_char_append]
    exact ih (isUtf8_iff.2 ⟨l, rfl⟩)

/-- What stands in front of a character is well-formed, as the string can be cut there. -/
theorem isUtf8_of_append_char {p s : Bytes} {c : Char}
    (h : IsUtf8 (p ++ (String.utf8EncodeChar c ++ s))) : IsUtf8 p := by
  obtain ⟨t, ht⟩ := h
  have hbytes : t.toByteArray = (p ++ (String.utf8EncodeChar c ++ s)).toByteArray := by
    rw [← ht, toByteArray_ofString]
  have hpos : 0 < (String.utf8EncodeChar c).length :=
    List.length_pos_iff.2 String.utf8EncodeChar_ne_nil
  -- The position behind `p` is one of the string, as the first byte of a character is there.
  have hlt : (⟨p.length⟩ : String.Pos.Raw) < t.rawEndPos := by
    simp only [String.Pos.Raw.lt_iff, String.byteIdx_rawEndPos, ← String.size_toByteArray, hbytes,
      List.size_toByteArray, List.length_append]
    omega
  have hbyte : (t.getUTF8Byte ⟨p.length⟩ hlt).IsUTF8FirstByte := by
    have hfirst : t.getUTF8Byte ⟨p.length⟩ hlt = (String.utf8EncodeChar c)[0] := by
      simp only [String.getUTF8Byte_eq_getElem, hbytes, List.getElem_toByteArray]
      rw [List.getElem_append_right (Nat.le_refl _), List.getElem_append_left (by omega)]
      simp only [Nat.sub_self]
    rw [hfirst]
    exact UInt8.isUTF8FirstByte_getElem_zero_utf8EncodeChar
  have hvalid : String.Pos.Raw.IsValid t ⟨p.length⟩ :=
    String.Pos.Raw.isValid_iff_isUTF8FirstByte.2 (.inr ⟨hlt, hbyte⟩)
  have hcut := (String.Pos.Raw.isValid_iff_isValidUTF8_extract_zero.1 hvalid).2
  rw [hbytes, List.toByteArray_append,
    ByteArray.extract_append_eq_left List.size_toByteArray.symm] at hcut
  exact isUtf8_iff_toByteArray.2 hcut

theorem isUtf8_append_char {p s : Bytes} {c : Char} :
    IsUtf8 (p ++ (String.utf8EncodeChar c ++ s)) ↔ IsUtf8 p ∧ IsUtf8 s := by
  constructor
  · intro h
    have hp := isUtf8_of_append_char h
    exact ⟨hp, isUtf8_char_append.1 (hp.append_iff.1 h)⟩
  · rintro ⟨hp, hs⟩
    exact hp.append (isUtf8_char_append.2 hs)

/-! ## Characters of one byte -/

theorem utf8EncodeChar_ofNat {b : UInt8} (hb : b < 0x80) :
    String.utf8EncodeChar (Char.ofNat b.toNat) = [b] := by
  have hlt : b.toNat < 0x80 := UInt8.lt_iff_toNat_lt.1 hb
  have hnat : (Char.ofNat b.toNat).toNat = b.toNat := by
    rw [Char.toNat_ofNat, if_pos (.inl (by omega))]
  have hval : (Char.ofNat b.toNat).val.toNat = b.toNat := hnat
  rw [String.utf8EncodeChar, hval, if_pos (by omega), UInt8.ofNat_toNat]

theorem isUtf8_append_cons {p s : Bytes} {b : UInt8} (hb : b < 0x80) :
    IsUtf8 (p ++ b :: s) ↔ IsUtf8 p ∧ IsUtf8 s := by
  have h := @isUtf8_append_char p s (Char.ofNat b.toNat)
  rwa [utf8EncodeChar_ofNat hb] at h

/-- A text can be cut at a byte of ASCII, which is a character of it. -/
theorem exists_of_ofString_eq_append {t : String} {p s : Bytes} {b : UInt8} (hb : b < 0x80)
    (h : ofString t = p ++ b :: s) :
    ∃ before behind, t.toList = before ++ Char.ofNat b.toNat :: behind ∧
      ofString (String.ofList before) = p ∧ ofString (String.ofList behind) = s := by
  have hutf8 : IsUtf8 (p ++ b :: s) := ⟨t, h⟩
  obtain ⟨hp, hs⟩ := (isUtf8_append_cons hb).1 hutf8
  obtain ⟨before, rfl⟩ := isUtf8_iff.1 hp
  obtain ⟨behind, rfl⟩ := isUtf8_iff.1 hs
  refine ⟨before, behind, ?_, ofString_ofList before, ofString_ofList behind⟩
  have ht : ofString t = ofString (String.ofList (before ++ Char.ofNat b.toNat :: behind)) := by
    rw [h, ofString_ofList, List.flatMap_append, List.flatMap_cons, utf8EncodeChar_ofNat hb]
    rfl
  rw [ofString_injective ht, String.toList_ofList]

theorem isUtf8_cons {s : Bytes} {b : UInt8} (hb : b < 0x80) : IsUtf8 (b :: s) ↔ IsUtf8 s := by
  simpa [isUtf8_nil] using isUtf8_append_cons (p := []) (s := s) hb

theorem isUtf8_of_ascii {a : Bytes} (ha : ∀ b ∈ a, b < 0x80) : IsUtf8 a := by
  induction a with
  | nil => exact isUtf8_nil
  | cons b a ih =>
    obtain ⟨hb, ha⟩ := List.forall_mem_cons.1 ha
    exact (isUtf8_cons hb).2 (ih ha)

theorem isUtf8_append_ascii {p a : Bytes} (ha : ∀ b ∈ a, b < 0x80) :
    IsUtf8 (p ++ a) ↔ IsUtf8 p := by
  cases a with
  | nil => rw [List.append_nil]
  | cons b a =>
    obtain ⟨hb, ha⟩ := List.forall_mem_cons.1 ha
    rw [isUtf8_append_cons hb, and_iff_left (isUtf8_of_ascii ha)]

theorem lt_of_isSpace {b : UInt8} (hb : isSpace b = true) : b < 0x80 := by
  have hb : b = 0x20 ∨ b = 0x09 ∨ b = 0x0A ∨ b = 0x0D := by
    simpa [isSpace, or_assoc] using hb
  rcases hb with rfl | rfl | rfl | rfl <;> decide

end JsonCabinet.Bytes
