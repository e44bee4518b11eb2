import JsonCabinet.Bytes
import JsonCabinet.Word

/-!
# Integers of 64 bits in a text

A sign, which may be missing, and decimal digits. The digits are taken one by one, so the first
byte that is no digit or that leaves the range decides how a bad text is told.
-/

namespace JsonCabinet.Text

inductive BadInteger
  | empty
  | invalidDigit
  | tooLarge
  | tooSmall
  deriving DecidableEq, Repr

def BadInteger.message : BadInteger → String
  | .empty => "cannot parse integer from empty string"
  | .invalidDigit => "invalid digit found in string"
  | .tooLarge => "number too large to fit in target type"
  | .tooSmall => "number too small to fit in target type"

/-- Takes further digits onto a number that is not negative. -/
def takeUp (n : Int) : Bytes → Except BadInteger Int
  | [] => .ok n
  | b :: rest =>
    if !Bytes.isDigit b then .error .invalidDigit
    else if Word.greatestSigned < n * 10 + Bytes.digitValue b then .error .tooLarge
    else takeUp (n * 10 + Bytes.digitValue b) rest

/-- Takes further digits onto a number that is not positive. -/
def takeDown (n : Int) : Bytes → Except BadInteger Int
  | [] => .ok n
  | b :: rest =>
    if !Bytes.isDigit b then .error .invalidDigit
    else if n * 10 - Bytes.digitValue b < Word.leastSigned then .error .tooSmall
    else takeDown (n * 10 - Bytes.digitValue b) rest

def readInteger : Bytes → Except BadInteger Int
  | [] => .error .empty
  | b :: rest =>
    if b == 0x2B then if rest.isEmpty then .error .invalidDigit else takeUp 0 rest
    else if b == 0x2D then if rest.isEmpty then .error .invalidDigit else takeDown 0 rest
    else takeUp 0 (b :: rest)

end JsonCabinet.Text
