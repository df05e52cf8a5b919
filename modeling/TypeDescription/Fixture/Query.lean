import TypeDescription.Fixture.Program
import TypeDescription.Host
import TypeDescription.Json.Quoted
import TypeDescription.Number.Text

/-!
# Questions to a program

`Program.host` answers the questions of a `TypeHost`; types are handled by
identity, symbols by key.

Two questions follow parents: the symbol of a reference is that of its target,
and a class has the properties of its bases.  The parents of a program have no
cycle, so a chain of them is shorter than the list of types, which serves as
fuel.  The text of a type stops at nine levels instead.
-/

namespace TypeDescription

namespace SymbolKind

/-- The flags of a symbol of a kind. -/
def flags : SymbolKind → SymbolFlags
  | property => .property
  | method => .method
  | accessor => .getAccessor
  | parameter => .parameter
  | classSymbol => .classSymbol
  | interfaceSymbol => .interfaceSymbol
  | typeLiteral => .typeLiteral
  | enumeration => .enumeration
  | function => .function
  | aliasSymbol => .aliasSymbol
  | typeAlias => .typeAlias

/-- Whether symbols of a kind declare a value. -/
def declaresValue : SymbolKind → Bool
  | interfaceSymbol => false
  | typeLiteral => false
  | aliasSymbol => false
  | typeAlias => false
  | _ => true

end SymbolKind

namespace Shape

/-- The flags of a type of a shape. -/
def typeFlags : Shape → TypeFlags
  | any => .any
  | unknown => .unknown
  | string => .string
  | number => .number
  | boolean => .boolean
  | void => .void
  | undefined => .undefined
  | null => .null
  | never => .never
  | esSymbol => .esSymbol
  | stringLiteral _ => .stringLiteral
  | numberLiteral _ => .numberLiteral
  | booleanLiteral _ => .booleanLiteral
  | union _ => .union
  | intersection _ => .intersection
  | typeParameter => .typeParameter
  | object _ _ _ => .object
  | declared _ _ _ => .object
  | reference _ _ => .object
  | tupleTarget => .object

/-- The flags of an object type of a shape. -/
def objectFlags : Shape → ObjectFlags
  | object true _ _ => .anonymous
  | declared true _ _ => .interfaceType
  | declared false _ _ => .classType
  | reference _ _ => .reference
  | tupleTarget => .tuple
  | _ => .none

end Shape

namespace Program

/-! ## Symbols -/

/-- The symbol under a key, as a handle. -/
def symbol? (p : Program) (key : String) : Option String :=
  if p.symbols.contains key then some key else none

/-- The declared symbols among keys. -/
def symbolsAt (p : Program) (keys : List String) : List String :=
  keys.filterMap p.symbol?

/-- The name of a symbol. -/
def symbolName (p : Program) (key : String) : String :=
  ((p.symbols.get? key).map ProgramSymbol.name).getD ""

/-- The flags of a symbol. -/
def symbolFlags (p : Program) (key : String) : SymbolFlags :=
  ((p.symbols.get? key).map fun s => s.entry.kind.flags).getD .none

/-- Whether a symbol declares a value. -/
def hasValueDeclaration (p : Program) (key : String) : Bool :=
  ((p.symbols.get? key).map fun s =>
    s.entry.valueDeclaration.getD s.entry.kind.declaresValue).getD false

/-- The type of a symbol. -/
def typeOfSymbol? (p : Program) (key : String) : Option TypeId :=
  (p.symbols.get? key).bind fun s => s.entry.type

/-- The modifiers of a symbol. -/
def modifiers (p : Program) (key : String) : Modifiers :=
  ((p.symbols.get? key).map ProgramSymbol.modifiers).getD .none

/-- The initializer of a symbol. -/
def initializer? (p : Program) (key : String) : Option Expression :=
  ((p.symbols.get? key).bind fun s => s.entry.initializer).map .source

/-- The symbol that an alias stands for. -/
def aliasedSymbol? (p : Program) (key : String) : Option String :=
  ((p.symbols.get? key).bind fun s => s.entry.aliasOf).bind p.symbol?

/-- The set of the known modifiers among keywords. -/
def knownModifiers (keywords : List String) : Modifiers :=
  (keywords.filterMap Modifiers.ofKeyword?).foldl Modifiers.union Modifiers.none

/-- The ways to construct a class; one without parameters if it lists
none. -/
def constructSignatures (p : Program) (key : String) : List (Signature String) :=
  match p.symbols.get? key with
  | none => []
  | some s =>
      if s.entry.kind ≠ .classSymbol then
        []
      else if s.entry.constructors.isEmpty then
        [⟨.none, []⟩]
      else
        s.entry.constructors.map fun constructor =>
          ⟨knownModifiers constructor.modifiers, p.symbolsAt constructor.parameters⟩

/-! ## Types -/

/-- The symbol of a type, following at most `fuel` targets. -/
def symbolWithin (p : Program) : Nat → TypeId → Option String
  | fuel, id =>
      match p.type? id with
      | none => none
      | some entry =>
          match entry.symbol, entry.shape, fuel with
          | some key, _, _ => p.symbol? key
          | none, .reference target _, fuel + 1 => symbolWithin p fuel target
          | none, _, _ => none

/-- The symbol of a type: its own, or that of the target of a reference. -/
def symbolOfType? (p : Program) (id : TypeId) : Option String :=
  p.symbolWithin p.types.length id

/-- Append the symbols whose names are not taken yet. -/
def addInherited (p : Program) (taken inherited : List String) : List String :=
  inherited.foldl (fun taken key =>
    if taken.any fun other => p.symbolName other == p.symbolName key then taken
    else taken ++ [key]) taken

/-- The properties of a type, following at most `fuel` parents. -/
def propertiesWithin (p : Program) : Nat → TypeId → List String
  | fuel, id =>
      match p.shape? id, fuel with
      | some (.object _ _ properties), _ => p.symbolsAt properties
      | some (.declared _ properties bases), fuel + 1 =>
          bases.foldl (fun taken base => p.addInherited taken (propertiesWithin p fuel base))
            (p.symbolsAt properties)
      | some (.declared _ properties _), 0 => p.symbolsAt properties
      | some (.reference target _), fuel + 1 => propertiesWithin p fuel target
      | _, _ => []

/-- The properties of a type: its own first, then those of its bases whose
names are new. -/
def propertiesOfType (p : Program) (id : TypeId) : List String :=
  p.propertiesWithin p.types.length id

/-- The properties of a declaration itself. -/
def declaredProperties (p : Program) (id : TypeId) : List String :=
  match p.shape? id with
  | some (.object _ _ properties) => p.symbolsAt properties
  | some (.declared _ properties _) => p.symbolsAt properties
  | _ => []

/-- The name that refers to a type. -/
def referenceName? (p : Program) (id : TypeId) : Option String :=
  (p.type? id).bind fun entry =>
    match entry.referenceName, entry.shape with
    | some name, _ => some name
    | none, .declared _ _ _ => (p.symbolOfType? id).map p.symbolName
    | none, .reference _ _ => (p.symbolOfType? id).map p.symbolName
    | none, _ => none

/-- The text of a shape, given that of the types it mentions and the name of
its symbol. -/
def shapeText (p : Program) (child : TypeId → String) (name : Option String) :
    Shape → String
  | .any => "any"
  | .unknown => "unknown"
  | .string => "string"
  | .number => "number"
  | .boolean => "boolean"
  | .void => "void"
  | .undefined => "undefined"
  | .null => "null"
  | .never => "never"
  | .esSymbol => "symbol"
  | .stringLiteral value => Json.quote value
  | .numberLiteral value => NumberStyle.plain.text value
  | .booleanLiteral value => if value then "true" else "false"
  | .union members => " | ".intercalate (members.map child)
  | .intersection members => " & ".intercalate (members.map child)
  | .typeParameter => name.getD "T"
  | .object true _ _ => "\x7b ... \x7d"
  | .object false _ _ => name.getD "\x7b ... \x7d"
  | .declared _ _ _ => name.getD "\x7b ... \x7d"
  | .tupleTarget => name.getD "\x7b ... \x7d"
  | .reference target arguments =>
      let list := ", ".intercalate (arguments.map child)
      if p.shape? target = some .tupleTarget then "[" ++ list ++ "]"
      else if arguments.isEmpty then child target
      else child target ++ "<" ++ list ++ ">"

/-- The text of a type with `room` levels left. -/
def displayWithin (p : Program) : Nat → TypeId → String
  | room, id =>
      match p.type? id with
      | none => "<missing " ++ id.text ++ ">"
      | some entry =>
          match entry.display, room with
          | some display, _ => display
          | none, 0 => "..."
          | none, room + 1 =>
              p.shapeText (displayWithin p room)
                ((p.symbolOfType? id).map p.symbolName) entry.shape

/-- The text of a type in messages. -/
def display (p : Program) (id : TypeId) : String :=
  p.displayWithin 9 id

/-! ## Declarations -/

/-- Identities in ascending order. -/
def ascending (ids : List TypeId) : List TypeId :=
  ids.mergeSort fun a b => a.value ≤ b.value

/-- The classes, ascending. -/
def classes (p : Program) : List TypeId :=
  ascending ((p.types.filter fun entry =>
    match entry.shape with
    | .declared isInterface _ _ => !isInterface
    | _ => false).map TypeEntry.id)

/-- The class or interface whose symbol has a name; of several the one with
the least identity. -/
def declaredType? (p : Program) (name : String) : Option TypeId :=
  (ascending ((p.types.filter fun entry =>
    match entry.shape, entry.symbol with
    | .declared _ _ _, some key =>
        ((p.symbols.get? key).map ProgramSymbol.name) == some name
    | _, _ => false).map TypeEntry.id)).head?

/-! ## The host -/

/-- The questions of a host about the shape of a type. -/
def host (p : Program) : TypeHost TypeId String where
  typeId id := id
  typeFlags id := ((p.shape? id).map Shape.typeFlags).getD .none
  objectFlags id := ((p.shape? id).map Shape.objectFlags).getD .none
  stringLiteral? id :=
    match p.shape? id with
    | some (.stringLiteral value) => some value
    | _ => none
  numberLiteral? id :=
    match p.shape? id with
    | some (.numberLiteral value) => some value
    | _ => none
  booleanLiteral? id :=
    match p.shape? id with
    | some (.booleanLiteral value) => some value
    | _ => none
  unionMembers id :=
    match p.shape? id with
    | some (.union members) => members
    | some (.intersection members) => members
    | _ => []
  typeArguments id :=
    match p.shape? id with
    | some (.reference _ arguments) => arguments
    | _ => []
  referenceTarget? id :=
    match p.shape? id with
    | some (.reference target _) => some target
    | _ => none
  symbol? := p.symbolOfType?
  callSignatureCount id :=
    match p.shape? id with
    | some (.object _ calls _) => calls
    | _ => 0
  properties := p.propertiesOfType
  declaredProperties := p.declaredProperties
  baseTypes id :=
    match p.shape? id with
    | some (.declared _ _ bases) => bases
    | _ => []
  referenceName? := p.referenceName?
  display := p.display
  symbolName := p.symbolName
  propertyName := p.symbolName
  symbolFlags := p.symbolFlags
  hasValueDeclaration := p.hasValueDeclaration
  typeOfSymbol? := p.typeOfSymbol?
  modifiers := p.modifiers
  initializer? := p.initializer?
  constructSignatures := p.constructSignatures
  aliasedSymbol? := p.aliasedSymbol?

end Program

end TypeDescription
