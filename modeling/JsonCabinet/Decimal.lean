import JsonCabinet.Bytes

/-!
# Shortest decimals

The decimal with the fewest digits that reads back as a given floating-point number, and of those
the nearest. A finite number is `m · 2 ^ q`; the reals that round to it form an interval, closed
when `m` is even. The ends are counted once, in units finer than the last digit that can be needed;
for one digit, two, and so on, the two neighbours of the number on that decimal grid are then
tested in whole units.
-/

namespace JsonCabinet.Decimal

/-- The magnitude `mantissa · 2 ^ exponent`. -/
structure Binary where
  mantissa : Nat
  exponent : Int
  /-- The next number below is only half as far away as the next above. -/
  narrowBelow : Bool
  deriving DecidableEq, Repr

/-- The leading bit of a mantissa, which is not written, above the 52 that are. -/
def hidden : Nat := 0x10000000000000

/-- The magnitude with these bits, for a finite number. -/
def Binary.ofBits (bits : UInt64) : Binary :=
  let fraction := bits.toNat % hidden
  let field := bits.toNat / hidden % 2048
  if field = 0 then ⟨fraction, -1074, false⟩
  else ⟨fraction + hidden, (field : Int) - 1075, fraction = 0 && 1 < field⟩

/-- The decimal `digits · 10 ^ exponent`. -/
structure Digits where
  digits : Nat
  exponent : Int
  deriving DecidableEq, Repr

/-- `a · 2 ^ i` as a quotient, written with a common factor `10 ^ j`. -/
def scaled (a : Nat) (i j : Int) : Nat × Nat :=
  (a * Nat.pow 2 i.toNat * Nat.pow 10 (-j).toNat, Nat.pow 2 (-i).toNat * Nat.pow 10 j.toNat)

/-- The number of decimal digits. -/
def length (n : Nat) : Nat := (Nat.toDigits 10 n).length

/-- The exponent of the leading digit of a magnitude other than zero. The quotient is `log₁₀ 2`
from below, near enough that a power of two is put right at once, and other numbers lie less
than one power of ten above. -/
def Binary.leading (x : Binary) : Int :=
  let least := (x.mantissa.log2 + x.exponent) * 78913 / 262144
  let (num, den) := scaled x.mantissa x.exponent (least + 1)
  if den ≤ num then least + 1 else least

/-- The reals that round to a number lie between these multiples of a quarter of its unit. -/
def Binary.bounds (x : Binary) : Nat × Nat :=
  (4 * x.mantissa - (if x.narrowBelow then 1 else 2), 4 * x.mantissa + 2)

/-- A number and what rounds to it, counted in units of a power of ten. -/
structure Window where
  /-- The exponent of the unit. -/
  exponent : Int
  /-- The units in the number. -/
  whole : Nat
  /-- The number is not above them. -/
  exact : Bool
  /-- The fewest units that round to the number. -/
  least : Nat
  /-- The most units that round to the number. -/
  greatest : Nat
  deriving DecidableEq, Repr

def Binary.window (x : Binary) (exponent : Int) : Window :=
  let (unit, den) := scaled 1 (x.exponent - 2) exponent
  let (low, high) := x.bounds
  let num := 4 * x.mantissa * unit
  let closed := x.mantissa % 2 = 0
  { exponent := exponent
    whole := num / den
    exact := num % den = 0
    least := if closed then (low * unit + den - 1) / den else low * unit / den + 1
    greatest := if closed then high * unit / den else (high * unit - 1) / den }

/-- The better of the two neighbours of the number among the multiples of `10 ^ places` units,
for at least one place: a half of them is then whole. -/
def Window.onGrid? (w : Window) (places : Nat) : Option Digits :=
  let step := Nat.pow 10 places
  let below := w.whole / step
  let rest := w.whole % step
  let nearer :=
    if 2 * rest < step || (2 * rest = step && w.exact && below % 2 = 0) then below else below + 1
  let farther := if nearer = below then below + 1 else below
  let readsBack (n : Nat) : Bool := w.least ≤ n * step && n * step ≤ w.greatest
  if readsBack nearer then some ⟨nearer, w.exponent + places⟩
  else if readsBack farther then some ⟨farther, w.exponent + places⟩
  else none

/-- Seventeen digits are always enough, so that the unit is the place of the eighteenth. -/
def Binary.shortest (x : Binary) : Digits :=
  if x.mantissa = 0 then ⟨0, 0⟩
  else
    let w := x.window (x.leading - 17)
    let found := (List.range 17).findSome? fun (n : Nat) => w.onGrid? (17 - n)
    found.getD ⟨w.whole, w.exponent⟩

/-! ## Notation -/

/-- Where positional notation ends. -/
structure Notation where
  /-- The least leading exponent written positionally. -/
  least : Int
  /-- The greatest leading exponent written positionally. -/
  greatest : Int

/-- The significant digits, without zeros at the end. -/
def Digits.significant (d : Digits) : List Char :=
  let digits := Nat.toDigits 10 d.digits
  (digits.reverse.dropWhile (· == '0')).reverse

/-- A decimal in positional notation always has a point; an exponent always has its sign. -/
def Digits.write (style : Notation) (d : Digits) : String :=
  if d.digits = 0 then "0.0"
  else
    let leading : Int := (length d.digits : Int) - 1 + d.exponent
    let digits := d.significant
    if style.least ≤ leading && leading ≤ style.greatest then
      if leading < 0 then
        String.ofList ("0.".toList ++ List.replicate (-leading - 1).toNat '0' ++ digits)
      else
        let whole := leading.toNat + 1
        let padded := digits ++ List.replicate (whole - digits.length) '0'
        let fraction := padded.drop whole
        String.ofList
          (padded.take whole ++ ['.'] ++ (if fraction.isEmpty then ['0'] else fraction))
    else
      let fraction := digits.drop 1
      let mantissa := digits.take 1 ++ (if fraction.isEmpty then [] else '.' :: fraction)
      let sign := if leading < 0 then "e-" else "e+"
      String.ofList mantissa ++ sign ++ toString leading.natAbs

end JsonCabinet.Decimal
