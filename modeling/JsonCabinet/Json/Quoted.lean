import JsonCabinet.Json.Fault
import JsonCabinet.Text.Utf8

/-!
# Quoted strings

Writing a string between quotes, and reading one back. Quotes, backslashes and control characters
are escaped and nothing else is; any escape is understood when reading, and the halves of a
surrogate pair have to follow each other.
-/

namespace JsonCabinet.Json.Quoted

/-! ## Writing -/

def hexDigit (n : Nat) : UInt8 :=
  if n < 10 then UInt8.ofNat (0x30 + n) else UInt8.ofNat (0x57 + n)

/-- A byte of a string as it stands between quotes. -/
def escapeByte (b : UInt8) : Bytes :=
  if b == 0x22 then [0x5C, 0x22]
  else if b == 0x5C then [0x5C, 0x5C]
  else if b == 0x08 then [0x5C, 0x62]
  else if b == 0x0C then [0x5C, 0x66]
  else if b == 0x0A then [0x5C, 0x6E]
  else if b == 0x0D then [0x5C, 0x72]
  else if b == 0x09 then [0x5C, 0x74]
  else if b < 0x20 then
    [0x5C, 0x75, 0x30, 0x30, hexDigit (b.toNat / 16), hexDigit (b.toNat % 16)]
  else [b]

def escape (s : Bytes) : Bytes := s.flatMap escapeByte

/-- The string between quotes. -/
def write (s : String) : Bytes := 0x22 :: (escape (Bytes.ofString s) ++ [0x22])

/-! ## Reading -/

inductive Control
  | plain
  | escape
  | hex (high : Option Nat) (left : Nat) (value : Nat) (sound : Bool)
  | lowEscape (high : Nat)
  | lowMark (high : Nat)
  deriving DecidableEq, Repr

inductive Step
  | goOn (control : Control) (content : Bytes)
  | done
  | fault (cause : Cause)
  deriving DecidableEq, Repr

def encodeChar (n : Nat) : Bytes := String.utf8EncodeChar (Char.ofNat n)

def isHighSurrogate (n : Nat) : Bool := 0xD800 ≤ n && n ≤ 0xDBFF

def isLowSurrogate (n : Nat) : Bool := 0xDC00 ≤ n && n ≤ 0xDFFF

/-- Four hexadecimal digits name a code point, or half of one. -/
def codeUnit (high : Option Nat) (n : Nat) : Step :=
  match high with
  | none =>
    if isLowSurrogate n then .fault .loneSurrogate
    else if isHighSurrogate n then .goOn (.lowEscape n) []
    else .goOn .plain (encodeChar n)
  | some high =>
    if isLowSurrogate n then
      .goOn .plain (encodeChar (0x10000 + (high - 0xD800) * 0x400 + (n - 0xDC00)))
    else .fault .loneSurrogate

def simpleEscape? (b : UInt8) : Option UInt8 :=
  if b == 0x22 then some 0x22
  else if b == 0x5C then some 0x5C
  else if b == 0x2F then some 0x2F
  else if b == 0x62 then some 0x08
  else if b == 0x66 then some 0x0C
  else if b == 0x6E then some 0x0A
  else if b == 0x72 then some 0x0D
  else if b == 0x74 then some 0x09
  else none

def step (control : Control) (b : UInt8) : Step :=
  match control with
  | .plain =>
    if b == 0x22 then .done
    else if b == 0x5C then .goOn .escape []
    else if b < 0x20 then .fault .controlCharacter
    else .goOn .plain [b]
  | .escape =>
    match simpleEscape? b with
    | some c => .goOn .plain [c]
    | none => if b == 0x75 then .goOn (.hex none 3 0 true) [] else .fault .invalidEscape
  | .hex high left value sound =>
    let digit := Bytes.hexValue? b
    let value := value * 16 + digit.getD 0
    let sound := sound && digit.isSome
    match left with
    | left + 1 => .goOn (.hex high left value sound) []
    | 0 => if sound then codeUnit high value else .fault .invalidEscape
  | .lowEscape high =>
    if b == 0x5C then .goOn (.lowMark high) [] else .fault .unfinishedSurrogate
  | .lowMark high =>
    if b == 0x75 then .goOn (.hex (some high) 3 0 true) [] else .fault .unfinishedSurrogate

/-- Reads on to the closing quote; the content so far is kept last byte first. -/
def run (control : Control) (content : Bytes) : Bytes → Except Fault (Bytes × Bytes)
  | [] => .error ⟨.endInString, []⟩
  | b :: rest =>
    match step control b with
    | .goOn control more => run control (more.reverseAux content) rest
    | .done => .ok (content.reverse, rest)
    | .fault cause => .error ⟨cause, rest⟩

/-- The string that stands behind an opening quote, and what follows its closing quote. A content
that is not UTF-8 is noticed at the closing quote, and the place is counted back from there by what
is left of the content, in which an escape is as long as the character that it stands for. -/
def read (s : Bytes) : Except Fault (String × Bytes) := do
  let (content, rest) ← run .plain [] s
  match Bytes.toString? content with
  | some text => .ok (text, rest)
  | none =>
    let left := (Utf8.afterIllFormed content).length + 1
    .error ⟨.invalidUtf8, s.drop (s.length - (rest.length + left))⟩

theorem length_lt_of_run {control : Control} {acc content s rest : Bytes}
    (h : run control acc s = .ok (content, rest)) : rest.length < s.length := by
  induction s generalizing control acc with
  | nil => cases h
  | cons b s ih =>
    rw [run] at h
    split at h
    · exact Nat.lt_succ_of_lt (ih h)
    · cases h
      simp
    · cases h

/-- What is read up to the closing quote is well-formed UTF-8. -/
theorem exists_content_of_read {s rest : Bytes} {text : String} (h : read s = .ok (text, rest)) :
    ∃ content, run .plain [] s = .ok (content, rest) ∧ Bytes.toString? content = some text := by
  unfold read at h
  cases hr : run .plain [] s with
  | error f => simp [hr, bind, Except.bind] at h
  | ok p =>
    simp only [hr, bind, Except.bind] at h
    split at h
    · next htext =>
      cases h
      exact ⟨_, rfl, htext⟩
    · cases h

theorem length_lt_of_read {s rest : Bytes} {text : String} (h : read s = .ok (text, rest)) :
    rest.length < s.length := by
  obtain ⟨content, hr, -⟩ := exists_content_of_read h
  exact length_lt_of_run hr

end JsonCabinet.Json.Quoted
