import TypeDescription.Document
import TypeDescription.Number.Double

/-!
# JSON values

A `Json` is a document over nulls, truth values, numbers and strings.  A number
written without fraction and exponent is an integer as long as it fits into 64
bits; every other number is a double.
-/

namespace TypeDescription

namespace Json

/-- A JSON number. -/
inductive Numeral where
  | integer (n : Int)
  | double (x : Double)
deriving DecidableEq

/-- The nearest double. -/
def Numeral.toDouble : Numeral → Double
  | .integer n => Double.ofInt n
  | .double x => x

/-- A JSON value that is no container. -/
inductive Scalar where
  | null
  | bool (b : Bool)
  | number (n : Numeral)
  | string (s : String)
deriving DecidableEq, Inhabited

end Json

/-- A JSON value. -/
abbrev Json : Type :=
  Document Json.Scalar

namespace Json

def null : Json := .leaf .null

def bool (b : Bool) : Json := .leaf (.bool b)

def string (s : String) : Json := .leaf (.string s)

/-- An integer. -/
def integer (n : Int) : Json := .leaf (.number (.integer n))

/-- A double: an integer where doubles tell all integers apart, null when it
is infinite or a NaN. -/
def ofDouble (x : Double) : Json :=
  match x.safeInteger? with
  | some n => integer n
  | none => if x.isFinite then .leaf (.number (.double x)) else null

end Json

end TypeDescription
