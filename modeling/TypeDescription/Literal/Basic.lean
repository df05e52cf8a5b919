import TypeDescription.Expression
import TypeDescription.Graph.Basic

/-!
# Literals

A `Literal` is a document of plain data that can be written as a constant of
the described program.  Besides the values of JSON it knows undefined,
integers of any size, and verbatim expressions.
-/

namespace TypeDescription

namespace Literal

/-- A literal that is no container. -/
inductive Scalar where
  | string (s : String)
  | number (x : Double)
  | boolean (b : Bool)
  | undefined
  | null
  /-- An integer of any size, by its decimal digits. -/
  | bigInt (digits : String)
  /-- An expression that is reproduced as it is. -/
  | verbatim (e : Expression)
deriving DecidableEq, Inhabited

/-- The JSON form: undefined is null, integers of any size and expressions are
their text. -/
def Scalar.toJson : Scalar → Json.Scalar
  | string s => .string s
  | number x =>
      match x.safeInteger? with
      | some n => .number (.integer n)
      | none => if x.isFinite then .number (.double x) else .null
  | boolean b => .bool b
  | undefined => .null
  | null => .null
  | bigInt digits => .string digits
  | verbatim e => .string e.text

end Literal

/-- A document of plain data. -/
abbrev Literal : Type :=
  Document Literal.Scalar

namespace Literal

/-- The content of a string. -/
def string? : Literal → Option String
  | .leaf (.string s) => some s
  | _ => none

/-- The content of a number. -/
def number? : Literal → Option Double
  | .leaf (.number x) => some x
  | _ => none

/-- The path of a reference token: an object with nothing but a string under
`$ref`. -/
def refPath? : Literal → Option String
  | .object [(key, value)] => if key = refKey then string? value else none
  | _ => none

/-- The JSON form. -/
def toJson (literal : Literal) : Json :=
  literal.map Scalar.toJson

end Literal

end TypeDescription
