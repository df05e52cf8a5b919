import TypeDescription.Number.Double
import TypeDescription.Table
import TypeDescription.TypeId

/-!
# Fixtures

A `Fixture` describes the types and symbols of a program: types by identity,
symbols by a key of free choice.  Nothing is checked here.
-/

namespace TypeDescription

/-- What a type is. -/
inductive Shape where
  | any
  | unknown
  | string
  | number
  | boolean
  | void
  | undefined
  | null
  | never
  | esSymbol
  | stringLiteral (value : String)
  | numberLiteral (value : Double)
  | booleanLiteral (value : Bool)
  | union (members : List TypeId)
  | intersection (members : List TypeId)
  | typeParameter
  /-- An anonymous object type, or an interface without parameters. -/
  | object (anonymous : Bool) (callSignatures : Nat) (properties : List String)
  /-- A declared class or interface. -/
  | declared (isInterface : Bool) (properties : List String) (bases : List TypeId)
  /-- A generic type with its arguments. -/
  | reference (target : TypeId) (arguments : List TypeId)
  /-- The generic type of tuples. -/
  | tupleTarget
deriving DecidableEq, Inhabited

namespace Shape

/-- The types whose members a type takes over. -/
def parents : Shape → List TypeId
  | declared _ _ bases => bases
  | reference target _ => [target]
  | _ => []

/-- All types that a type mentions, in order. -/
def mentionedTypes : Shape → List TypeId
  | union members => members
  | intersection members => members
  | declared _ _ bases => bases
  | reference target arguments => target :: arguments
  | _ => []

/-- All symbols that a type mentions, in order. -/
def mentionedSymbols : Shape → List String
  | object _ _ properties => properties
  | declared _ properties _ => properties
  | _ => []

end Shape

/-- A type of a fixture. -/
structure TypeEntry where
  id : TypeId
  shape : Shape
  symbol : Option String
  /-- How messages show the type, in place of the derived text. -/
  display : Option String
  /-- The name that refers to the type, in place of the derived one. -/
  referenceName : Option String
deriving DecidableEq, Inhabited

/-- What a symbol declares. -/
inductive SymbolKind where
  | property
  | method
  | accessor
  | parameter
  | classSymbol
  | interfaceSymbol
  | typeLiteral
  | enumeration
  | function
  | aliasSymbol
  | typeAlias
deriving DecidableEq, Inhabited

/-- A constructor of a class symbol: modifier keywords and parameter keys. -/
structure ConstructorEntry where
  modifiers : List String
  parameters : List String
deriving DecidableEq, Inhabited

/-- A symbol of a fixture. -/
structure SymbolEntry where
  /-- The name, in place of the last part of the key. -/
  name : Option String
  kind : SymbolKind
  type : Option TypeId
  /-- Modifier keywords. -/
  modifiers : List String
  /-- The source text of the initializer. -/
  initializer : Option String
  /-- Whether the symbol declares a value, in place of what its kind says. -/
  valueDeclaration : Option Bool
  /-- The key of the symbol that an alias stands for. -/
  aliasOf : Option String
  /-- The constructors of a class; none means one without parameters. -/
  constructors : List ConstructorEntry
deriving DecidableEq, Inhabited

/-- The types and symbols of a program. -/
structure Fixture where
  types : List TypeEntry
  symbols : Table SymbolEntry
deriving DecidableEq, Inhabited

end TypeDescription
