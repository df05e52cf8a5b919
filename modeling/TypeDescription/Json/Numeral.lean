import TypeDescription.Json.Basic
import TypeDescription.Json.Fault

/-!
# Reading numbers

The digits of a number give a significand below `2 ^ 64` and a power of ten;
digits that no longer fit count as zeros before the point and are dropped
after it.  The value is the significand, rounded to a double, times or divided
by the power of ten, rounded again.  A number without point and exponent that
fits into 64 bits stays an integer.
-/

namespace TypeDescription.Json

/-- The value of a decimal digit. -/
def digitValue (c : Char) : Nat :=
  c.toNat - '0'.toNat

/-- Append digits to a significand as long as it stays below `2 ^ 64`: the
significand, and how many digits are left. -/
def takeDigits (significand : Nat) : List Char → Nat × Nat
  | [] => (significand, 0)
  | c :: rest =>
      let next := significand * 10 + digitValue c
      if next < 0x10000000000000000 then takeDigits next rest
      else (significand, rest.length + 1)

/-- The largest power of ten that is a finite double. -/
def maxPower : Nat := 308

/-- Divide by a power of ten, at most `10 ^ 308` at a time. -/
def divideByPower : Nat → Double → Nat → Double
  | 0, x, _ => x
  | fuel + 1, x, power =>
      if power ≤ maxPower then
        x.dividedBy (Double.ofNat (Nat.pow 10 power))
      else if x.isZero then
        x
      else
        divideByPower fuel (x.dividedBy (Double.ofNat (Nat.pow 10 maxPower))) (power - maxPower)

/-- A significand times a power of ten, unless it is too large. -/
def scaled (significand : Nat) (exponent : Int) : Except Fault Double :=
  let x := Double.ofNat significand
  if exponent < 0 then
    .ok (divideByPower exponent.natAbs x exponent.natAbs)
  else if x.isZero then
    .ok x
  else if exponent.toNat ≤ maxPower then
    let product := x.times (Double.ofNat (Nat.pow 10 exponent.toNat))
    if product.isFinite then .ok product else .error .malformed
  else
    .error .malformed

namespace Numeral

/-- The number of a sign and digits alone.  Negative zero is a double, since
no integer is. -/
def ofWhole (negative : Bool) (significand : Nat) : Numeral :=
  if negative then
    if significand = 0 ∨ 0x8000000000000000 < significand then
      .double (Double.ofNat significand).neg
    else
      .integer (-(significand : Int))
  else
    .integer significand

/-- The number of a sign, the digits before the point, the digits after it and
the exponent. -/
def ofParts (negative : Bool) (whole : List Char) (fraction : Option (List Char))
    (exponent : Option Int) : Except Fault Numeral :=
  let (significand, left) := takeDigits 0 whole
  if left = 0 ∧ fraction.isNone ∧ exponent.isNone then
    .ok (ofWhole negative significand)
  else
    let digits := fraction.getD []
    let (significand, dropped) := takeDigits significand digits
    let power : Int := (left : Int) - (digits.length - dropped : Nat) + exponent.getD 0
    match scaled significand power with
    | .error fault => .error fault
    | .ok x => .ok (.double (if negative then x.neg else x))

end Numeral

end TypeDescription.Json
