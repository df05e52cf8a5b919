import TypeDescription.Json.Fault
import TypeDescription.TypeId

/-!
# What can be wrong with a fixture
-/

namespace TypeDescription

/-- Where a fixture mentions something. -/
inductive Mention where
  | type (id : TypeId)
  | symbol (key : String)
deriving DecidableEq

/-- How messages show the place. -/
def Mention.text : Mention → String
  | type id => "type " ++ id.text
  | symbol key => "symbol \x60" ++ key ++ "\x60"

/-- Why a fixture was refused. -/
inductive FixtureError where
  /-- The JSON could not be read. -/
  | json (fault : Json.Fault)
  | duplicateType (id : TypeId)
  | unknownType (id : TypeId) (mention : Mention)
  | unknownSymbol (key : String) (mention : Mention)
  | unknownModifier (key keyword : String)
  /-- A type takes over its own members. -/
  | cyclicBases (id : TypeId)
deriving DecidableEq

/-- What is wrong with a JSON text. -/
def Json.Fault.noun : Json.Fault → String
  | malformed => "malformed text"
  | truncated => "unexpected end of text"
  | mismatch => "unexpected value"

/-- The report of an error. -/
def FixtureError.message : FixtureError → String
  | json fault => "invalid fixture: " ++ fault.noun
  | duplicateType id => "type " ++ id.text ++ " is declared twice"
  | unknownType id mention => mention.text ++ " refers to unknown type " ++ id.text
  | unknownSymbol key mention =>
      mention.text ++ " refers to unknown symbol \x60" ++ key ++ "\x60"
  | unknownModifier key keyword =>
      (Mention.symbol key).text ++ " has unknown modifier \x60" ++ keyword ++ "\x60"
  | cyclicBases id => "type " ++ id.text ++ " inherits from itself"

end TypeDescription
