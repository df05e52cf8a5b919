import TypeDescription.Number.Shortest

/-!
# Numbers as text

All texts of a double share the shortest digits.  They differ in the choices
that `NumberStyle` lists: where positional writing ends, how an exponent is
signed, whether an integral number keeps a fraction, and the words for the
special numbers.

The four styles in use are `NumberStyle.source`, `NumberStyle.json`,
`NumberStyle.debug` and `NumberStyle.plain`.
-/

namespace TypeDescription

/-- The choices that a number format makes. -/
structure NumberStyle where
  /-- Which of two equally near shortest decimals is written. -/
  tie : Tie
  /-- Whether a number whose first digit counts `10 ^ e` is positional. -/
  positional : Int → Bool
  /-- Whether a positional integral number ends in `.0`. -/
  pointZero : Bool
  /-- What stands before an exponent that is not negative. -/
  exponentSign : String
  /-- The text of negative zero. -/
  negativeZero : String
  nan : String
  infinity : String
  negativeInfinity : String

namespace NumberStyle

/-- Numbers in generated source: positional from `1e-6` up to below `1e21`,
else with a signed exponent; negative zero is written as zero. -/
def source : NumberStyle where
  tie := .up
  positional e := -6 ≤ e && e < 21
  pointZero := false
  exponentSign := "+"
  negativeZero := "0"
  nan := "NaN"
  infinity := "Infinity"
  negativeInfinity := "-Infinity"

/-- Numbers in JSON text: positional from `1e-5` up to below `1e16`, always
with a fraction; JSON has no special numbers, so they are null. -/
def json : NumberStyle where
  tie := .even
  positional e := -5 ≤ e && e < 16
  pointZero := true
  exponentSign := "+"
  negativeZero := "-0.0"
  nan := "null"
  infinity := "null"
  negativeInfinity := "null"

/-- Numbers in debug output: positional from `1e-4` up to below `1e16`. -/
def debug : NumberStyle where
  tie := .up
  positional e := -4 ≤ e && e < 16
  pointZero := true
  exponentSign := ""
  negativeZero := "-0.0"
  nan := "NaN"
  infinity := "inf"
  negativeInfinity := "-inf"

/-- Numbers in displayed types: always positional. -/
def plain : NumberStyle where
  tie := .up
  positional _ := true
  pointZero := false
  exponentSign := ""
  negativeZero := "-0"
  nan := "NaN"
  infinity := "inf"
  negativeInfinity := "-inf"

/-- The text of a positive decimal without an exponent. -/
def positionalText (style : NumberStyle) (d : Decimal) : List Char :=
  let digits := d.digits
  let fraction := (-d.exponent).toNat
  if 0 ≤ d.exponent then
    digits ++ List.replicate d.exponent.toNat '0' ++
      (if style.pointZero then ['.', '0'] else [])
  else if fraction < digits.length then
    digits.take (digits.length - fraction) ++
      '.' :: digits.drop (digits.length - fraction)
  else
    '0' :: '.' :: (List.replicate (fraction - digits.length) '0' ++ digits)

/-- The text of a positive decimal with one digit before the point and an
exponent. -/
def exponentText (style : NumberStyle) (d : Decimal) : List Char :=
  let mantissa :=
    match d.digits with
    | first :: second :: rest => first :: '.' :: second :: rest
    | digits => digits
  let e := d.leadingExponent
  let sign := if e < 0 then ['-'] else style.exponentSign.toList
  mantissa ++ 'e' :: (sign ++ Nat.toDigits 10 e.natAbs)

/-- The text of a positive decimal. -/
def decimalText (style : NumberStyle) (d : Decimal) : List Char :=
  if style.positional d.leadingExponent then
    style.positionalText d
  else
    style.exponentText d

/-- The text of a double. -/
def text (style : NumberStyle) (x : Double) : String :=
  if x.isNaN then
    style.nan
  else if x.isInfinite then
    if x.negative then style.negativeInfinity else style.infinity
  else if x.isZero then
    if x.negative then style.negativeZero
    else if style.pointZero then "0.0" else "0"
  else
    let digits := style.decimalText (x.shortest style.tie)
    String.ofList (if x.negative then '-' :: digits else digits)

end NumberStyle

end TypeDescription
