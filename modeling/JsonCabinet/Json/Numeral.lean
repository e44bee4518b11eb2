import JsonCabinet.Decimal
import JsonCabinet.Json.Fault
import JsonCabinet.Word

/-!
# Numbers as values

A numeral is a number as it is written: sign, digits, fraction, exponent. Its value is an integer
when it is written as one and fits into 64 bits, and a floating-point number otherwise. Of the
digits only as many count as fit into 64 bits; the others scale the number.
-/

namespace JsonCabinet.Json

/-- The fraction is empty when there is no point. -/
structure Numeral where
  negative : Bool
  whole : Bytes
  fraction : Bytes
  exponent : Option (Bool × Bytes)
  deriving DecidableEq, Repr

inductive Number
  | integer (n : Int)
  | float (x : Float)
  deriving Repr

/-- Decimal exponents from `-5` to `15` are written positionally. -/
def floatStyle : Decimal.Notation := ⟨-5, 15⟩

def writeFloat (x : Float) : String :=
  let sign := if x.toBits.toNat ≤ Word.greatestSigned then "" else "-"
  sign ++ (Decimal.Binary.ofBits x.toBits).shortest.write floatStyle

namespace Numeral

/-! ## Reading -/

def isMark (b : UInt8) : Bool := b == 0x65 || b == 0x45

def takeDigits (s : Bytes) : Bytes × Bytes :=
  (s.takeWhile Bytes.isDigit, s.dropWhile Bytes.isDigit)

/-- A zero stands alone in front of the point. -/
def readWhole : Bytes → Except Fault (Bytes × Bytes)
  | [] => .error ⟨.endInValue, []⟩
  | b :: rest =>
    if b == 0x30 then
      match rest with
      | d :: tail => if Bytes.isDigit d then .error ⟨.invalidNumber, tail⟩ else .ok ([b], rest)
      | [] => .ok ([b], rest)
    else if Bytes.isDigit b then .ok (b :: (takeDigits rest).1, (takeDigits rest).2)
    else .error ⟨.invalidNumber, rest⟩

/-- At least one digit. -/
def readDigits : Bytes → Except Fault (Bytes × Bytes)
  | [] => .error ⟨.endInValue, []⟩
  | b :: rest =>
    if Bytes.isDigit b then .ok (b :: (takeDigits rest).1, (takeDigits rest).2)
    else .error ⟨.invalidNumber, rest⟩

def readFraction : Bytes → Except Fault (Bytes × Bytes)
  | [] => .ok ([], [])
  | b :: rest => if b == 0x2E then readDigits rest else .ok ([], b :: rest)

def readSign : Bytes → Bool × Bytes
  | [] => (false, [])
  | b :: rest =>
    if b == 0x2D then (true, rest) else if b == 0x2B then (false, rest) else (false, b :: rest)

def readExponent : Bytes → Except Fault (Option (Bool × Bytes) × Bytes)
  | [] => .ok (none, [])
  | b :: rest =>
    if isMark b then
      match readDigits (readSign rest).2 with
      | .ok (digits, rest') => .ok (some ((readSign rest).1, digits), rest')
      | .error fault => .error fault
    else .ok (none, b :: rest)

def isNegative (s : Bytes) : Bool := s.head? == some 0x2D

def read (s : Bytes) : Except Fault (Numeral × Bytes) :=
  match readWhole (if isNegative s then s.tail else s) with
  | .error fault => .error fault
  | .ok (whole, s₁) => match readFraction s₁ with
    | .error fault => .error fault
    | .ok (fraction, s₂) => match readExponent s₂ with
      | .error fault => .error fault
      | .ok (exponent, rest) => .ok (⟨isNegative s, whole, fraction, exponent⟩, rest)

/-! ## The value -/

/-- Takes digits onto a number as long as it fits into 64 bits, and counts those left over. -/
def accumulate (n : Nat) : Bytes → Nat × Nat
  | [] => (n, 0)
  | b :: rest =>
    let next := n * 10 + Bytes.digitValue b
    if next ≤ Word.greatest then accumulate next rest else (n, rest.length + 1)

/-- The greatest decimal exponent that is counted. -/
def greatestExponent : Nat := 0x7FFFFFFF

/-- The decimal exponent, or the digits that are left when it is too great. -/
def accumulateExponent (n : Nat) : Bytes → Except Bytes Nat
  | [] => .ok n
  | b :: rest =>
    let next := n * 10 + Bytes.digitValue b
    if next ≤ greatestExponent then accumulateExponent next rest else .error rest

/-- The powers of ten from `1` to `10 ^ 308`, above which there is no number. -/
def powersOfTen : Vector Float 309 := Vector.ofFn fun e => Float.ofScientific 1 false e

/-- `10 ^ e`, and `10 ^ 308` for a greater one. -/
def power (e : Nat) : Float := powersOfTen.get ⟨min e 308, by omega⟩

/-- `x · 10 ^ e`, by one multiplication or division as far as the powers of ten reach; `none`
when it is too large. -/
def scale (x : Float) (e : Int) : Option Float :=
  if e.natAbs ≤ 308 then
    if 0 ≤ e then if (x * power e.natAbs).isInf then none else some (x * power e.natAbs)
    else some (x / power e.natAbs)
  else if x == 0 then some x
  else if 0 ≤ e then none
  else scale (x / power 308) (e + 308)
termination_by e.natAbs

def signed (negative : Bool) (x : Float) : Float := if negative then -x else x

/-- The value of a numeral that stands in front of `rest`. -/
def value (a : Numeral) (rest : Bytes) : Except Fault Number :=
  let (n, dropped) := accumulate 0 a.whole
  let asFloat (significand : Nat) (e : Int) : Except Fault Number :=
    match scale significand.toUInt64.toFloat e with
    | some x => .ok (.float (signed a.negative x))
    | none => .error ⟨.numberOutOfRange, rest⟩
  if a.fraction.isEmpty && a.exponent.isNone && dropped == 0 then
    if !a.negative then .ok (.integer n)
    else if 0 < n ∧ Word.leastSigned ≤ -n then .ok (.integer (-n))
    else asFloat n 0
  else
    let (significand, ignored) := accumulate n a.fraction
    let e : Int := dropped - (a.fraction.length - ignored : Nat)
    match a.exponent with
    | none => asFloat significand e
    | some (down, digits) =>
      match accumulateExponent 0 digits with
      | .ok m => asFloat significand (if down then e - m else e + m)
      | .error left =>
        if significand ≠ 0 ∧ !down then .error ⟨.numberOutOfRange, left ++ rest⟩
        else .ok (.float (signed a.negative 0))

/-! ## Reading takes something -/

theorem length_dropWhile_le (s : Bytes) : (takeDigits s).2.length ≤ s.length :=
  (List.dropWhile_sublist Bytes.isDigit).length_le

theorem length_readWhole {s whole rest : Bytes} (h : readWhole s = .ok (whole, rest)) :
    rest.length < s.length := by
  cases s with
  | nil => cases h
  | cons b s =>
    simp only [readWhole] at h
    repeat' split at h
    all_goals cases h
    · simp
    · simp
    · exact Nat.lt_succ_of_le (length_dropWhile_le _)

theorem length_readDigits {s digits rest : Bytes} (h : readDigits s = .ok (digits, rest)) :
    rest.length < s.length := by
  cases s with
  | nil => cases h
  | cons b s =>
    simp only [readDigits] at h
    split at h
    · cases h
      exact Nat.lt_succ_of_le (length_dropWhile_le _)
    · cases h

theorem length_readFraction {s fraction rest : Bytes} (h : readFraction s = .ok (fraction, rest)) :
    rest.length ≤ s.length := by
  cases s with
  | nil => cases h; simp
  | cons b s =>
    simp only [readFraction] at h
    split at h
    · exact Nat.le_succ_of_le (Nat.le_of_lt (length_readDigits h))
    · cases h; simp

theorem length_readSign_le (s : Bytes) : (readSign s).2.length ≤ s.length := by
  cases s with
  | nil => simp [readSign]
  | cons b s =>
    simp only [readSign]
    repeat' split
    all_goals simp

theorem length_readExponent {s rest : Bytes} {exponent : Option (Bool × Bytes)}
    (h : readExponent s = .ok (exponent, rest)) : rest.length ≤ s.length := by
  cases s with
  | nil => cases h; simp
  | cons b s =>
    simp only [readExponent] at h
    split at h
    · split at h
      · next hd =>
        cases h
        have := length_readDigits hd
        have := length_readSign_le s
        simp only [List.length_cons]
        omega
      · cases h
    · cases h; simp

theorem length_read {s rest : Bytes} {a : Numeral} (h : read s = .ok (a, rest)) :
    rest.length < s.length := by
  unfold read at h
  split at h
  · cases h
  · next hw =>
    split at h
    · cases h
    · next hf =>
      split at h
      · cases h
      · next he =>
        cases h
        have h₁ := length_readWhole hw
        have h₂ := length_readFraction hf
        have h₃ := length_readExponent he
        have h₄ : (if isNegative s then s.tail else s).length ≤ s.length := by
          split <;> simp
        omega

end Numeral

end JsonCabinet.Json
