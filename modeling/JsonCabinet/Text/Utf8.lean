import JsonCabinet.Bytes

/-!
# Well-formed UTF-8

Where a list of bytes first leaves the encoding. A character takes one to four bytes; overlong
forms, surrogates and values past the last code point are no characters.
-/

namespace JsonCabinet.Utf8

def isContinuation (b : UInt8) : Bool := 0x80 ≤ b && b ≤ 0xBF

/-- The two bytes open a character of three bytes. -/
def opensThree (b₀ b₁ : UInt8) : Bool :=
  if b₀ == 0xE0 then 0xA0 ≤ b₁ && b₁ ≤ 0xBF
  else if b₀ == 0xED then 0x80 ≤ b₁ && b₁ ≤ 0x9F
  else 0xE1 ≤ b₀ && b₀ ≤ 0xEF && isContinuation b₁

/-- The two bytes open a character of four bytes. -/
def opensFour (b₀ b₁ : UInt8) : Bool :=
  if b₀ == 0xF0 then 0x90 ≤ b₁ && b₁ ≤ 0xBF
  else if b₀ == 0xF4 then 0x80 ≤ b₁ && b₁ ≤ 0x8F
  else 0xF1 ≤ b₀ && b₀ ≤ 0xF3 && isContinuation b₁

/-- What follows the first byte that begins no character; nothing if every byte belongs to one. -/
def afterIllFormed : Bytes → Bytes
  | [] => []
  | b₀ :: rest =>
    if b₀ < 0x80 then afterIllFormed rest
    else match rest with
      | [] => rest
      | b₁ :: rest₁ =>
        if 0xC2 ≤ b₀ && b₀ ≤ 0xDF && isContinuation b₁ then afterIllFormed rest₁
        else match rest₁ with
          | [] => rest
          | b₂ :: rest₂ =>
            if opensThree b₀ b₁ && isContinuation b₂ then afterIllFormed rest₂
            else match rest₂ with
              | [] => rest
              | b₃ :: rest₃ =>
                if opensFour b₀ b₁ && isContinuation b₂ && isContinuation b₃ then
                  afterIllFormed rest₃
                else rest

end JsonCabinet.Utf8
