/-!
# Binary64 numbers

A `Double` is its 64 bits, so equality of numbers is decidable and every
operation below is exact natural-number arithmetic.

* The fields: `Double.mantissa` and `Double.scale` give the magnitude of a
  finite number as `mantissa * 2 ^ scale`.
* Two comparisons: `Double.equal` is numeric equality, where a NaN equals
  nothing and the two zeros agree; `Double.same` lets a NaN equal a NaN.
* Rounding: `Double.ofRatio` takes a ratio of natural numbers to the nearest
  double, a tie to the even mantissa.
-/

namespace TypeDescription

/-- An IEEE 754 binary64 number, given by its bits. -/
structure Double where
  bits : UInt64
deriving DecidableEq, Inhabited

namespace Double

/-! ## The fields of a number -/

/-- The sign bit. -/
def negative (x : Double) : Bool :=
  x.bits.toNat / 0x8000000000000000 == 1

/-- The eleven exponent bits. -/
def exponentField (x : Double) : Nat :=
  x.bits.toNat / 0x10000000000000 % 0x800

/-- The fifty-two fraction bits. -/
def fraction (x : Double) : Nat :=
  x.bits.toNat % 0x10000000000000

def isNaN (x : Double) : Bool :=
  x.exponentField == 2047 && x.fraction != 0

def isInfinite (x : Double) : Bool :=
  x.exponentField == 2047 && x.fraction == 0

/-- Neither infinite nor a NaN. -/
def isFinite (x : Double) : Bool :=
  x.exponentField != 2047

/-- Either zero. -/
def isZero (x : Double) : Bool :=
  x.bits.toNat % 0x8000000000000000 == 0

/-- The fraction with the leading bit that normal numbers leave out. -/
def mantissa (x : Double) : Nat :=
  if x.exponentField = 0 then x.fraction else x.fraction + 0x10000000000000

/-- The power of two that the mantissa counts. -/
def scale (x : Double) : Int :=
  (max x.exponentField 1 : Int) - 1075

/-- The magnitude of a finite number as a numerator over a denominator. -/
def magnitude (x : Double) : Nat × Nat :=
  (x.mantissa * Nat.pow 2 x.scale.toNat, Nat.pow 2 (-x.scale).toNat)

/-! ## Constants -/

def zero : Double := ⟨0⟩

def nan : Double := ⟨0x7ff8000000000000⟩

def infinity : Double := ⟨0x7ff0000000000000⟩

/-- The same number with the other sign. -/
def neg (x : Double) : Double :=
  ⟨x.bits ^^^ 0x8000000000000000⟩

/-! ## Comparison -/

/-- Numeric equality: no NaN equals anything, and `0` equals `-0`. -/
def equal (x y : Double) : Bool :=
  !x.isNaN && !y.isNaN && (x == y || x.isZero && y.isZero)

/-- Numeric equality that also lets any two NaNs agree. -/
def same (x y : Double) : Bool :=
  x.equal y || x.isNaN && y.isNaN

/-! ## Integers -/

/-- The integer a number is, if it is one.  Both zeros are `0`. -/
def integer? (x : Double) : Option Int :=
  let (numerator, denominator) := x.magnitude
  if x.isFinite && numerator % denominator == 0 then
    let n : Int := numerator / denominator
    some (if x.negative then -n else n)
  else
    none

/-- The integer a number is, if its magnitude is below `2 ^ 53`: there each
integer is one double and the doubles between integers still exist. -/
def safeInteger? (x : Double) : Option Int :=
  x.integer?.filter fun n => n.natAbs < 0x20000000000000

/-! ## Rounding -/

/-- The exponent of the leading bit of `numerator / denominator`. -/
def leadingExponent (numerator denominator : Nat) : Int :=
  let estimate : Int := (numerator.log2 : Int) - denominator.log2
  if denominator * Nat.pow 2 estimate.toNat ≤ numerator * Nat.pow 2 (-estimate).toNat then
    estimate
  else
    estimate - 1

/-- The quotient rounded to the nearest integer, a tie to the even one. -/
def roundQuotient (numerator denominator : Nat) : Nat :=
  let quotient := numerator / denominator
  let rest := numerator % denominator
  if denominator < 2 * rest ∨ (denominator = 2 * rest ∧ quotient % 2 = 1) then
    quotient + 1
  else
    quotient

/-- The bits, sign apart, of the double nearest to a positive ratio.  A
mantissa that rounds up to the next power of two carries into the exponent
field, which is the right answer there. -/
def magnitudeBits (numerator denominator : Nat) : Nat :=
  let unit : Int := max (leadingExponent numerator denominator - 52) (-1074)
  let mantissa :=
    roundQuotient (numerator * Nat.pow 2 (-unit).toNat) (denominator * Nat.pow 2 unit.toNat)
  min ((unit + 1074).toNat * 0x10000000000000 + mantissa) 0x7ff0000000000000

/-- The double nearest to a ratio, infinite when it is too large. -/
def ofRatio (negative : Bool) (numerator denominator : Nat) : Double :=
  let magnitude :=
    if numerator = 0 ∨ denominator = 0 then 0
    else magnitudeBits numerator denominator
  ⟨UInt64.ofNat ((if negative then 0x8000000000000000 else 0) + magnitude)⟩

/-- The double nearest to an integer. -/
def ofInt (n : Int) : Double :=
  ofRatio (n < 0) n.natAbs 1

/-- The double nearest to a natural number. -/
def ofNat (n : Nat) : Double :=
  ofRatio false n 1

/-- The product, rounded, of the magnitude of `x` and a positive `y`. -/
def times (x y : Double) : Double :=
  ofRatio x.negative (x.magnitude.1 * y.magnitude.1) (x.magnitude.2 * y.magnitude.2)

/-- The quotient, rounded, of `x` and a positive finite `y`. -/
def dividedBy (x y : Double) : Double :=
  ofRatio x.negative (x.magnitude.1 * y.magnitude.2) (x.magnitude.2 * y.magnitude.1)

end Double

end TypeDescription
