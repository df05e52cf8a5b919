import TypeDescription.Number.Double

/-!
# The fewest digits that read back

The numbers that round to a finite double form an interval around it.  The
decimal written for the double is the shortest one inside that interval, and
among the shortest the one nearest to the double.

* `Decimal` is a significand and a power of ten.
* `RoundingRange` is the interval, as integers over a common unit.
* `Double.shortest` tries one digit, two digits, and so on.  On each decimal
  grid it tests only the two neighbours of the double: if any point of the
  grid lies in the interval, one of these two does.
-/

namespace TypeDescription

/-- The decimal number `significand * 10 ^ exponent`. -/
structure Decimal where
  significand : Nat
  exponent : Int
deriving DecidableEq

namespace Decimal

/-- The decimal digits of the significand. -/
def digits (d : Decimal) : List Char :=
  Nat.toDigits 10 d.significand

/-- The power of ten of the first digit. -/
def leadingExponent (d : Decimal) : Int :=
  d.exponent + d.digits.length - 1

/-- Move trailing zeros of the significand into the exponent, at most `fuel`
of them. -/
def trim : Nat → Decimal → Decimal
  | 0, d => d
  | fuel + 1, d =>
      if d.significand ≠ 0 ∧ d.significand % 10 = 0 then
        trim fuel ⟨d.significand / 10, d.exponent + 1⟩
      else
        d

end Decimal

/-- What to do when two decimals of one length are equally near. -/
inductive Tie where
  | up
  | even
deriving DecidableEq

/-- The interval of numbers that round to a double.  The double, the low end
and the high end are integers times `unitNumerator / unitDenominator`; the
ends belong to the interval when `closed` is true. -/
structure RoundingRange where
  low : Nat
  value : Nat
  high : Nat
  unitNumerator : Nat
  unitDenominator : Nat
  closed : Bool

/-- A quarter of the gap between neighbours is the unit.  Below a power of two
the gap is half as wide, so the low end is one unit away, not two. -/
def Double.roundingRange (x : Double) : RoundingRange :=
  let unit := x.scale - 2
  let narrow := x.fraction == 0 && 1 < x.exponentField
  { low := 4 * x.mantissa - (if narrow then 1 else 2)
    value := 4 * x.mantissa
    high := 4 * x.mantissa + 2
    unitNumerator := Nat.pow 2 unit.toNat
    unitDenominator := Nat.pow 2 (-unit).toNat
    closed := x.mantissa % 2 == 0 }

namespace RoundingRange

/-- Whether `candidate * 10 ^ exponent` lies in the interval. -/
def contains (r : RoundingRange) (candidate : Nat) (exponent : Int) : Bool :=
  let point := candidate * Nat.pow 10 exponent.toNat * r.unitDenominator
  let unit := r.unitNumerator * Nat.pow 10 (-exponent).toNat
  if r.closed then
    r.low * unit ≤ point && point ≤ r.high * unit
  else
    r.low * unit < point && point < r.high * unit

/-- The power of ten of the first digit of the double itself. -/
def leadingExponent (r : RoundingRange) : Int :=
  let numerator := r.value * r.unitNumerator
  let whole := numerator / r.unitDenominator
  if whole ≠ 0 then
    (Nat.toDigits 10 whole).length - 1
  else
    let inverse := (r.unitDenominator + numerator - 1) / numerator
    Int.negOfNat (Nat.toDigits 10 (inverse - 1)).length

/-- The grid point of `10 ^ exponent` that is written for the double, if a
neighbour of the double on that grid lies in the interval. -/
def onGrid (tie : Tie) (r : RoundingRange) (exponent : Int) : Option Decimal :=
  let numerator := r.value * r.unitNumerator * Nat.pow 10 (-exponent).toNat
  let denominator := r.unitDenominator * Nat.pow 10 exponent.toNat
  let below := numerator / denominator
  let above := below + 1
  let twice := 2 * (numerator % denominator)
  let takeAbove :=
    denominator < twice ||
      (twice == denominator && (tie == .up || below % 2 == 1))
  match r.contains below exponent, r.contains above exponent with
  | true, true => some ⟨if takeAbove then above else below, exponent⟩
  | true, false => some ⟨below, exponent⟩
  | false, true => some ⟨above, exponent⟩
  | false, false => none

/-- The point of the first grid with a hit, of one digit, two digits, and so
on up to seventeen, which always suffice. -/
def shortest (tie : Tie) (r : RoundingRange) : Option Decimal :=
  (List.range 17).findSome? fun more =>
    r.onGrid tie (r.leadingExponent - Int.ofNat more)

end RoundingRange

/-- The shortest decimal that reads back as `x`, for a finite `x` that is not
zero.  Its significand does not end in a zero. -/
def Double.shortest (tie : Tie) (x : Double) : Decimal :=
  ((x.roundingRange.shortest tie).map (Decimal.trim 20)).getD ⟨0, 0⟩

end TypeDescription
