import JsonCabinet.Bytes

/-!
# Faults in a JSON text

A reader stops at the first fault of a text. A fault is a cause together with the bytes that were
left unread, so that readers need not count; the line and the column are found once, from the
whole text, when the fault is reported.
-/

namespace JsonCabinet.Json

/-- What a typed reader asked for. -/
inductive Wanted
  | signed
  | unsigned
  | boolean
  | string
  | sequence
  | map
  | rawValue
  deriving DecidableEq, Repr

/-- What a typed reader met instead. Numbers and strings are shown as they are written. -/
inductive Found
  | null
  | boolean (b : Bool)
  | integer (n : Int)
  | float (shown : String)
  | string (shown : String)
  | sequence
  | map
  deriving DecidableEq, Repr

inductive Cause
  | endInValue
  | endInString
  | endInList
  | endInObject
  | expectedValue
  | expectedWord
  | expectedColon
  | expectedCommaInList
  | expectedCommaInObject
  | keyNotString
  | trailingComma
  | trailingCharacters
  | invalidNumber
  | numberOutOfRange
  | invalidEscape
  | loneSurrogate
  | unfinishedSurrogate
  | controlCharacter
  | invalidUtf8
  | tooDeep
  | wrongType (found : Found) (wanted : Wanted)
  | wrongValue (found : Found) (wanted : Wanted)
  | embedded (cause : Cause) (line column : Nat)
  deriving DecidableEq, Repr

/-- A cause, and the bytes that follow the place where it was noticed. -/
structure Fault where
  cause : Cause
  unread : Bytes
  deriving DecidableEq, Repr

/-! ## Places in a text -/

/-- A line counts from one; a column is the number of bytes of the line that were read. -/
structure Place where
  line : Nat
  column : Nat
  deriving DecidableEq, Repr

namespace Place

def start : Place := ⟨1, 0⟩

def advance (p : Place) (b : UInt8) : Place :=
  if b == 0x0A then ⟨p.line + 1, 0⟩ else ⟨p.line, p.column + 1⟩

/-- The place after the last of the given bytes. -/
def after (read : Bytes) : Place := read.foldl advance start

end Place

/-- A fault as it is reported. -/
structure Malformed where
  cause : Cause
  place : Place
  deriving DecidableEq, Repr

/-- The fault of a text within the text keeps the place that it has there. -/
def Fault.locate (whole : Bytes) (f : Fault) : Malformed :=
  match f.cause with
  | .embedded cause line column => ⟨cause, line, column⟩
  | cause => ⟨cause, Place.after (whole.take (whole.length - f.unread.length))⟩

/-! ## Wording -/

def Wanted.text : Wanted → String
  | .signed => "i64"
  | .unsigned => "u64"
  | .boolean => "a boolean"
  | .string => "a string"
  | .sequence => "a sequence"
  | .map => "a map"
  | .rawValue => "raw value"

def Found.text : Found → String
  | .null => "null"
  | .boolean b => s!"boolean `{b}`"
  | .integer n => s!"integer `{n}`"
  | .float shown => s!"floating point `{shown}`"
  | .string shown => s!"string {shown}"
  | .sequence => "sequence"
  | .map => "map"

def Cause.text : Cause → String
  | .endInValue => "EOF while parsing a value"
  | .endInString => "EOF while parsing a string"
  | .endInList => "EOF while parsing a list"
  | .endInObject => "EOF while parsing an object"
  | .expectedValue => "expected value"
  | .expectedWord => "expected ident"
  | .expectedColon => "expected `:`"
  | .expectedCommaInList => "expected `,` or `]`"
  | .expectedCommaInObject => "expected `,` or `\x7d`"
  | .keyNotString => "key must be a string"
  | .trailingComma => "trailing comma"
  | .trailingCharacters => "trailing characters"
  | .invalidNumber => "invalid number"
  | .numberOutOfRange => "number out of range"
  | .invalidEscape => "invalid escape"
  | .loneSurrogate => "lone leading surrogate in hex escape"
  | .unfinishedSurrogate => "unexpected end of hex escape"
  | .controlCharacter => "control character (\\u0000-\\u001F) found while parsing a string"
  | .invalidUtf8 => "invalid unicode code point"
  | .tooDeep => "recursion limit exceeded"
  | .wrongType found wanted => s!"invalid type: {found.text}, expected {wanted.text}"
  | .wrongValue found wanted => s!"invalid value: {found.text}, expected {wanted.text}"
  | .embedded cause _ _ => cause.text

def Malformed.message (e : Malformed) : String :=
  s!"{e.cause.text} at line {e.place.line} column {e.place.column}"

end JsonCabinet.Json
