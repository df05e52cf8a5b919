import TypeDescription.Fixture.Basic
import TypeDescription.Json.Typed

/-!
# Reading fixtures

`Fixture.read` reads a fixture from a JSON tree.  Unknown fields are passed
over.  Lists, counts and flags that are left out are empty, zero and false;
optional fields may be null.

The fields of a type and the fields of its shape stand in one object.  The
fields that belong to every type are read where they stand; the others are
kept until the object ends, since the shape is known only then.
-/

namespace TypeDescription

open Json (Fault Origin Source)

/-- Read the identity of a type. -/
def TypeId.read (source : Source) : Except Fault TypeId :=
  source.word.map TypeId.mk

/-! ## Shapes -/

namespace Shape

/-- The only field with a name; a name that comes twice is refused. -/
def field? (key : String) (fields : List (String × Json)) : Except Fault (Option Json) :=
  match fields.filter fun field => field.1 == key with
  | [] => .ok none
  | [field] => .ok (some field.2)
  | _ => .error .mismatch

/-- Read a field that must be there. -/
def needed {α : Type} (key : String) (reader : Source → Except Fault α)
    (fields : List (String × Json)) : Except Fault α := do
  match ← field? key fields with
  | some value => reader (Source.ofJson value)
  | none => .error .mismatch

/-- Read a field that may be left out. -/
def optional {α : Type} (key : String) (reader : Source → Except Fault α) (absent : α)
    (fields : List (String × Json)) : Except Fault α := do
  match ← field? key fields with
  | some value => reader (Source.ofJson value)
  | none => return absent

/-- Read a double. -/
def double : Source → Except Fault Double
  | .scalar (.ok (.number n)) _ => .ok n.toDouble
  | source => source.reject

/-- The names of the shapes, in the order of their numbers. -/
def names : List String :=
  ["any", "unknown", "string", "number", "boolean", "void", "undefined", "null", "never",
    "esSymbol", "stringLiteral", "numberLiteral", "booleanLiteral", "union", "intersection",
    "typeParameter", "object", "class", "reference", "tupleTarget"]

/-- The name of the shape that a kind denotes, by name or by number. -/
def kindName : Json → Except Fault String
  | .leaf (.string name) => .ok name
  | .leaf (.number (.integer n)) =>
      if 0 ≤ n then Source.required names[n.toNat]? else .error .mismatch
  | _ => .error .mismatch

/-- Read the shape with a name from its fields. -/
def ofName (fields : List (String × Json)) : String → Except Fault Shape
  | "any" => .ok any
  | "unknown" => .ok unknown
  | "string" => .ok string
  | "number" => .ok number
  | "boolean" => .ok boolean
  | "void" => .ok void
  | "undefined" => .ok undefined
  | "null" => .ok null
  | "never" => .ok never
  | "esSymbol" => .ok esSymbol
  | "stringLiteral" => do
      let value ← needed "value" Source.string fields
      return stringLiteral value
  | "numberLiteral" => do
      let value ← needed "value" double fields
      return numberLiteral value
  | "booleanLiteral" => do
      let value ← needed "value" Source.bool fields
      return booleanLiteral value
  | "union" => do
      let members ← needed "types" (Source.list TypeId.read) fields
      return union members
  | "intersection" => do
      let members ← needed "types" (Source.list TypeId.read) fields
      return intersection members
  | "typeParameter" => .ok typeParameter
  | "object" => do
      let anonymous ← optional "anonymous" Source.bool false fields
      let calls ← optional "callSignatures" (Source.natural 0x10000000000000000) 0 fields
      let properties ← optional "properties" (Source.list Source.string) [] fields
      return object anonymous calls properties
  | "class" => do
      let isInterface ← optional "interface" Source.bool false fields
      let properties ← optional "properties" (Source.list Source.string) [] fields
      let bases ← optional "bases" (Source.list TypeId.read) [] fields
      return declared isInterface properties bases
  | "reference" => do
      let target ← needed "target" TypeId.read fields
      let arguments ← optional "arguments" (Source.list TypeId.read) [] fields
      return reference target arguments
  | "tupleTarget" => .ok tupleTarget
  | _ => .error .mismatch

/-- Read a shape from the fields of an object. -/
def ofFields (fields : List (String × Json)) : Except Fault Shape := do
  let kind ← needed "kind" (Source.read Json.maxNesting) fields
  let name ← kindName kind
  ofName fields name

end Shape

/-! ## Types -/

namespace TypeEntry

/-- The fields of a type read so far. -/
structure Partial where
  id : Option TypeId
  symbol : Option (Option String)
  display : Option (Option String)
  referenceName : Option (Option String)
  /-- The fields of the shape, last first. -/
  others : List (String × Json)

/-- How deep the value of a field of the shape may nest: it stands in a type,
in a list, in the fixture. -/
def fieldRoom : Nat :=
  Json.maxNesting - 3

/-- Read one field. -/
def step (p : Partial) (key : String) (value : Source) : Except Fault Partial :=
  match key with
  | "id" => do
      Source.once p.id
      let id ← TypeId.read value
      return { p with id := some id }
  | "symbol" => do
      Source.once p.symbol
      let symbol ← Source.optional Source.string value
      return { p with symbol := some symbol }
  | "display" => do
      Source.once p.display
      let display ← Source.optional Source.string value
      return { p with display := some display }
  | "referenceName" => do
      Source.once p.referenceName
      let name ← Source.optional Source.string value
      return { p with referenceName := some name }
  | key => do
      let value ← Source.read fieldRoom value
      return { p with others := (key, value) :: p.others }

/-- Read a type. -/
def read : Source → Except Fault TypeEntry
  | .object fields stop => do
      let p ← Source.fold step ⟨none, none, none, none, []⟩ fields stop
      let id ← Source.required p.id
      let shape ← Shape.ofFields p.others.reverse
      return ⟨id, shape, p.symbol.getD none, p.display.getD none, p.referenceName.getD none⟩
  | source => source.reject

end TypeEntry

/-! ## Symbols -/

namespace SymbolKind

/-- The kind with a name. -/
def ofName? : String → Option SymbolKind
  | "property" => some property
  | "method" => some method
  | "accessor" => some accessor
  | "parameter" => some parameter
  | "class" => some classSymbol
  | "interface" => some interfaceSymbol
  | "typeLiteral" => some typeLiteral
  | "enum" => some enumeration
  | "function" => some function
  | "alias" => some aliasSymbol
  | "typeAlias" => some typeAlias
  | _ => none

/-- Read a value that must be null. -/
def unit : Source → Except Fault Unit
  | .scalar (.ok .null) _ => .ok ()
  | source => source.reject

/-- Read a kind: its name, or an object whose only field has that name and
the value null. -/
def read (origin : Origin) : Source → Except Fault SymbolKind
  | .text content _ => do
      let name ← content
      Source.required (ofName? name)
  | .broken fault => .error fault
  | .object [] stop => do
      Source.finish stop
      .error origin.unexpected
  | .object ((key, value) :: rest) stop => do
      if origin = .value ∧ !rest.isEmpty then
        .error .mismatch
      else
        let key ← key
        let kind ← Source.required (ofName? key)
        unit value
        if rest.isEmpty then
          Source.finish stop
          return kind
        else
          .error origin.unexpected
  | _ => .error origin.unexpected

end SymbolKind

namespace ConstructorEntry

/-- The fields of a constructor read so far. -/
structure Partial where
  modifiers : Option (List String)
  parameters : Option (List String)

/-- Read one field. -/
def step (p : Partial) (key : String) (value : Source) : Except Fault Partial :=
  match key with
  | "modifiers" => do
      Source.once p.modifiers
      let modifiers ← Source.list Source.string value
      return { p with modifiers := some modifiers }
  | "parameters" => do
      Source.once p.parameters
      let parameters ← Source.list Source.string value
      return { p with parameters := some parameters }
  | _ => do
      Source.ignore value
      return p

/-- Read a constructor written as an array. -/
def readItems (origin : Origin) (stop : Option Fault) :
    StateT (List Source) (Except Fault) ConstructorEntry := do
  let modifiers ← Source.element stop (Source.list Source.string) (.ok [])
  let parameters ← Source.element stop (Source.list Source.string) (.ok [])
  Source.noMore origin stop
  return ⟨modifiers, parameters⟩

/-- Read a constructor. -/
def read (origin : Origin) : Source → Except Fault ConstructorEntry
  | .object fields stop => do
      let p ← Source.fold step ⟨none, none⟩ fields stop
      return ⟨p.modifiers.getD [], p.parameters.getD []⟩
  | .array items stop => (readItems origin stop).run' items
  | source => source.reject

end ConstructorEntry

namespace SymbolEntry

/-- The fields of a symbol read so far. -/
structure Partial where
  name : Option (Option String)
  kind : Option SymbolKind
  type : Option (Option TypeId)
  modifiers : Option (List String)
  initializer : Option (Option String)
  valueDeclaration : Option (Option Bool)
  aliasOf : Option (Option String)
  constructors : Option (List ConstructorEntry)

/-- Read one field. -/
def step (origin : Origin) (p : Partial) (key : String) (value : Source) :
    Except Fault Partial :=
  match key with
  | "name" => do
      Source.once p.name
      let name ← Source.optional Source.string value
      return { p with name := some name }
  | "kind" => do
      Source.once p.kind
      let kind ← SymbolKind.read origin value
      return { p with kind := some kind }
  | "type" => do
      Source.once p.type
      let type ← Source.optional TypeId.read value
      return { p with type := some type }
  | "modifiers" => do
      Source.once p.modifiers
      let modifiers ← Source.list Source.string value
      return { p with modifiers := some modifiers }
  | "initializer" => do
      Source.once p.initializer
      let initializer ← Source.optional Source.string value
      return { p with initializer := some initializer }
  | "valueDeclaration" => do
      Source.once p.valueDeclaration
      let declaration ← Source.optional Source.bool value
      return { p with valueDeclaration := some declaration }
  | "aliasOf" => do
      Source.once p.aliasOf
      let aliasOf ← Source.optional Source.string value
      return { p with aliasOf := some aliasOf }
  | "constructors" => do
      Source.once p.constructors
      let constructors ← Source.list (ConstructorEntry.read origin) value
      return { p with constructors := some constructors }
  | _ => do
      Source.ignore value
      return p

/-- Read a symbol written as an array. -/
def readItems (origin : Origin) (stop : Option Fault) :
    StateT (List Source) (Except Fault) SymbolEntry := do
  let name ← Source.element stop (Source.optional Source.string) (.ok none)
  let kind ← Source.element stop (SymbolKind.read origin) (.error .mismatch)
  let type ← Source.element stop (Source.optional TypeId.read) (.ok none)
  let modifiers ← Source.element stop (Source.list Source.string) (.ok [])
  let initializer ← Source.element stop (Source.optional Source.string) (.ok none)
  let declaration ← Source.element stop (Source.optional Source.bool) (.ok none)
  let aliasOf ← Source.element stop (Source.optional Source.string) (.ok none)
  let constructors ←
    Source.element stop (Source.list (ConstructorEntry.read origin)) (.ok [])
  Source.noMore origin stop
  return ⟨name, kind, type, modifiers, initializer, declaration, aliasOf, constructors⟩

/-- Read a symbol. -/
def read (origin : Origin) : Source → Except Fault SymbolEntry
  | .object fields stop => do
      let p ← Source.fold (step origin) ⟨none, none, none, none, none, none, none, none⟩
        fields stop
      let kind ← Source.required p.kind
      return {
        name := p.name.getD none
        kind := kind
        type := p.type.getD none
        modifiers := p.modifiers.getD []
        initializer := p.initializer.getD none
        valueDeclaration := p.valueDeclaration.getD none
        aliasOf := p.aliasOf.getD none
        constructors := p.constructors.getD [] }
  | .array items stop => (readItems origin stop).run' items
  | source => source.reject

end SymbolEntry

/-! ## Fixtures -/

namespace Fixture

/-- The fields of a fixture read so far. -/
structure Partial where
  types : Option (List TypeEntry)
  symbols : Option (Table SymbolEntry)

/-- Read one field. -/
def step (origin : Origin) (p : Partial) (key : String) (value : Source) :
    Except Fault Partial :=
  match key with
  | "types" => do
      Source.once p.types
      let types ← Source.list TypeEntry.read value
      return { p with types := some types }
  | "symbols" => do
      Source.once p.symbols
      let symbols ← Source.table (SymbolEntry.read origin) value
      return { p with symbols := some symbols }
  | _ => do
      Source.ignore value
      return p

/-- Read a fixture written as an array. -/
def readItems (origin : Origin) (stop : Option Fault) :
    StateT (List Source) (Except Fault) Fixture := do
  let types ← Source.element stop (Source.list TypeEntry.read) (.ok [])
  let symbols ← Source.element stop (Source.table (SymbolEntry.read origin)) (.ok Table.empty)
  Source.noMore origin stop
  return ⟨types, symbols⟩

/-- Read a fixture. -/
def read (origin : Origin) : Source → Except Fault Fixture
  | .object fields stop => do
      let p ← Source.fold (step origin) ⟨none, none⟩ fields stop
      return ⟨p.types.getD [], p.symbols.getD Table.empty⟩
  | .array items stop => (readItems origin stop).run' items
  | source => source.reject

end Fixture

end TypeDescription
