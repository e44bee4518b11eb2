/-!
# Bytes

A text in transit, a file's contents and a request's body are lists of bytes. A string is read as
the bytes of its UTF-8 form, and the two views determine each other.
-/

namespace JsonCabinet

abbrev Bytes := List UInt8

namespace Bytes

/-! ## Strings as bytes -/

/-- The UTF-8 form of a string. -/
def ofString (s : String) : Bytes := s.toByteArray.data.toList

/-- The string with this UTF-8 form, if the bytes are well-formed UTF-8. -/
def toString? (b : Bytes) : Option String := String.fromUTF8? b.toByteArray

theorem toByteArray_ofString (s : String) : (ofString s).toByteArray = s.toByteArray := by
  apply ByteArray.ext
  simp [ofString, List.data_toByteArray]

theorem toString?_ofString (s : String) : toString? (ofString s) = some s := by
  have h : (ofString s).toByteArray.IsValidUTF8 := toByteArray_ofString s ▸ s.isValidUTF8
  rw [toString?, String.fromUTF8?, dif_pos h]
  exact congrArg some (String.toByteArray_inj.1 (toByteArray_ofString s))

theorem eq_ofString_of_toString? {b : Bytes} {s : String} (h : toString? b = some s) :
    b = ofString s := by
  rw [toString?, String.fromUTF8?] at h
  split at h
  · obtain rfl := Option.some.inj h
    simp [ofString, String.fromUTF8, List.data_toByteArray]
  · cases h

theorem ofString_injective {s t : String} (h : ofString s = ofString t) : s = t :=
  Option.some.inj (by rw [← toString?_ofString s, h, toString?_ofString])

/-! ## Classes of bytes -/

/-- Blank, tab, line feed and carriage return: the spaces of a JSON text. -/
def isSpace (b : UInt8) : Bool := b == 0x20 || b == 0x09 || b == 0x0A || b == 0x0D

def isDigit (b : UInt8) : Bool := 0x30 ≤ b && b ≤ 0x39

def digitValue (b : UInt8) : Nat := b.toNat - 0x30

/-- The value of a hexadecimal digit in either case. -/
def hexValue? (b : UInt8) : Option Nat :=
  if isDigit b then some (b.toNat - 0x30)
  else if 0x61 ≤ b && b ≤ 0x66 then some (b.toNat - 0x57)
  else if 0x41 ≤ b && b ≤ 0x46 then some (b.toNat - 0x37)
  else none

def trimStart (s : Bytes) : Bytes := s.dropWhile isSpace

theorem isSpace_eq_false_of_trimStart {s rest : Bytes} {b : UInt8} (h : trimStart s = b :: rest) :
    isSpace b = false := by
  induction s with
  | nil => simp [trimStart] at h
  | cons c s ih =>
    rw [trimStart, List.dropWhile_cons] at h
    split at h
    · exact ih h
    · next hc => cases h; simpa using hc

theorem length_trimStart_le (s : Bytes) : (trimStart s).length ≤ s.length :=
  (List.dropWhile_sublist isSpace).length_le

end Bytes

end JsonCabinet
