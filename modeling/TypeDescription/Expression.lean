import TypeDescription.Json.Printer
import TypeDescription.Json.Typed
import TypeDescription.Text.Blank

/-!
# Verbatim expressions

An `Expression` is source code that is passed on and never evaluated: an
identifier, a fragment of source text, or another expression put off behind an
arrow.

`Expression.text` is the code, `Expression.toJson` the JSON form, and
`Expression.read` reads that form.  The JSON form is a record whose field
`kind` selects the other fields; as an array it starts with the kind.
-/

namespace TypeDescription

/-- Source code that is reproduced as it is. -/
inductive Expression where
  /-- An identifier bound in a scope. -/
  | identifier (name : String) (scope : UInt32)
  /-- A fragment of source text. -/
  | source (text : String)
  /-- A function without parameters that answers `body`. -/
  | deferred (body : Expression)
deriving DecidableEq, Inhabited

namespace Expression

/-! ## Text -/

/-- Whether the expression needs parentheses as the body of an arrow: an
opening brace would start a block there. -/
def opensBlock : Expression → Bool
  | source text => (Text.dropBlanks text.toList).head? == some '\x7b'
  | _ => false

/-- The code. -/
def text : Expression → String
  | identifier name _ => name
  | source text => text
  | deferred body =>
      if body.opensBlock then "() => (" ++ body.text ++ ")" else "() => " ++ body.text

/-- The name of an identifier. -/
def identifierName? : Expression → Option String
  | identifier name _ => some name
  | _ => none

/-! ## JSON -/

/-- The JSON form. -/
def toJson : Expression → Json
  | identifier name scope =>
      .object [("kind", Json.string "identifier"), ("name", Json.string name),
        ("scope", Json.integer scope.toNat)]
  | source text =>
      .object [("kind", Json.string "source"), ("text", Json.string text)]
  | deferred body =>
      .object [("kind", Json.string "deferred"), ("body", body.toJson)]

/-- The three kinds, in the order of their numbers. -/
inductive Kind where
  | identifier
  | source
  | deferred
deriving DecidableEq

/-- The kind with a name. -/
def Kind.ofName? : String → Option Kind
  | "identifier" => some .identifier
  | "source" => some .source
  | "deferred" => some .deferred
  | _ => none

/-- The kind that a nested value names; there its number is a name too. -/
def Kind.ofJson? : Json → Option Kind
  | .leaf (.string name) => ofName? name
  | .leaf (.number (.integer 0)) => some .identifier
  | .leaf (.number (.integer 1)) => some .source
  | .leaf (.number (.integer 2)) => some .deferred
  | _ => none

/-- A nested value, with the expression it is the form of. -/
structure Part where
  value : Json
  expression : Option Expression

namespace Part

def name? (p : Part) : Option String :=
  match p.value with
  | .leaf (.string s) => some s
  | _ => none

def scope? (p : Part) : Option UInt32 :=
  match p.value with
  | .leaf (.number (.integer n)) =>
      if 0 ≤ n ∧ n.toNat < 0x100000000 then some (UInt32.ofNat n.toNat) else none
  | _ => none

end Part

/-- The only part under a name, if the name comes exactly once. -/
def onlyPart (key : String) (parts : List (String × Part)) : Option Part :=
  match parts.filter fun part => part.1 == key with
  | [part] => some part.2
  | _ => none

/-- The scope among the fields; it may be left out. -/
def scopeOf? (parts : List (String × Part)) : Option UInt32 :=
  match parts.filter fun part => part.1 == "scope" with
  | [] => some 0
  | [part] => part.2.scope?
  | _ => none

/-- The expression of a kind with named fields. -/
def ofFields? (parts : List (String × Part)) : Kind → Option Expression
  | .identifier => do
      let name ← (← onlyPart "name" parts).name?
      let scope ← scopeOf? parts
      return identifier name scope
  | .source => do
      let text ← (← onlyPart "text" parts).name?
      return source text
  | .deferred => do
      let body ← (← onlyPart "body" parts).expression
      return deferred body

/-- The expression of a kind with fields in their fixed order. -/
def ofItems? : Kind → List Part → Option Expression
  | .identifier, [name] => name.name?.map fun name => identifier name 0
  | .identifier, [name, scope] => do
      let name ← name.name?
      let scope ← scope.scope?
      return identifier name scope
  | .source, [text] => text.name?.map source
  | .deferred, [body] => body.expression.map deferred
  | _, _ => none

mutual

/-- The expression that a nested value is the form of. -/
def ofJson? : Document Json.Scalar → Option Expression
  | .leaf _ => none
  | .array items =>
      match itemParts items with
      | [] => none
      | kind :: rest => (Kind.ofJson? kind.value).bind fun kind => ofItems? kind rest
  | .object fields =>
      let parts := fieldParts fields
      (onlyPart "kind" parts).bind fun kind =>
        (Kind.ofJson? kind.value).bind (ofFields? parts)

/-- The parts of an array. -/
def itemParts : List (Document Json.Scalar) → List Part
  | [] => []
  | item :: rest => ⟨item, ofJson? item⟩ :: itemParts rest

/-- The parts of an object. -/
def fieldParts : List (String × Document Json.Scalar) → List (String × Part)
  | [] => []
  | (key, value) :: rest => (key, ⟨value, ofJson? value⟩) :: fieldParts rest

end

open Json (Fault Source)

/-- Read the name of a kind. -/
def Kind.read (source : Source) : Except Fault Kind := do
  let name ← source.string
  Source.required (ofName? name)

/-- Read the JSON form.  Everything but the kind is read whole before it is
judged. -/
def read : Source → Except Fault Expression
  | .object fields stop => do
      let step := fun (state : Option Kind × List (String × Json)) key value => do
        if key = "kind" then
          Source.once state.1
          let kind ← Kind.read value
          return (some kind, state.2)
        else
          let value ← Source.read (Json.maxNesting - 1) value
          return (state.1, state.2 ++ [(key, value)])
      let (kind, fields) ← Source.fold step (none, []) fields stop
      let kind ← Source.required kind
      Source.required (ofFields? (fieldParts fields) kind)
  | .array items stop => do
      match items with
      | [] =>
          Source.finish stop
          .error .mismatch
      | kind :: rest =>
          let kind ← Kind.read kind
          let rest ← Source.readItems (Json.maxNesting - 1) rest
          Source.finish stop
          Source.required (ofItems? kind (itemParts rest))
  | other => other.reject

end Expression

end TypeDescription
