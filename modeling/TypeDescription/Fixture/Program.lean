import TypeDescription.Fixture.Error
import TypeDescription.Fixture.Reader
import TypeDescription.Modifier

/-!
# Checked fixtures

A `Program` is a fixture that passed every check: no type is declared twice,
every modifier is known, everything that is mentioned is declared, and no type
takes over its own members through bases and reference targets.

`Program.ofFixture` makes the checks in a fixed order and reports the first
one that fails.  The check for cycles walks over the ancestors of each type
depth first.  Types on the way differ and are declared, so there is room for
them if there is room for all types.
-/

namespace TypeDescription

open Json (Fault)

/-- A symbol with its name and its set of modifiers. -/
structure ProgramSymbol where
  name : String
  entry : SymbolEntry
  modifiers : Modifiers

/-- A fixture that passed the checks. -/
structure Program where
  types : List TypeEntry
  symbols : Table ProgramSymbol

instance : Inhabited Program :=
  ⟨⟨[], Table.empty⟩⟩

namespace Program

/-! ## Look-up -/

/-- The type with an identity. -/
def type? (p : Program) (id : TypeId) : Option TypeEntry :=
  p.types.find? fun entry => entry.id == id

/-- The shape of the type with an identity. -/
def shape? (p : Program) (id : TypeId) : Option Shape :=
  (p.type? id).map TypeEntry.shape

/-- Whether a type is declared. -/
def containsType (p : Program) (id : TypeId) : Bool :=
  p.types.any fun entry => entry.id == id

/-! ## Symbols -/

/-- The part of a key after its last point. -/
def lastPart (key : String) : String :=
  String.ofList ((key.toList.reverse.takeWhile fun c => c != '.').reverse)

/-- The set of modifiers that keywords denote. -/
def modifiersOf (key : String) (keywords : List String) : Except FixtureError Modifiers :=
  keywords.foldlM (fun taken keyword =>
    match Modifiers.ofKeyword? keyword with
    | some m => .ok (taken.union m)
    | none => .error (.unknownModifier key keyword)) Modifiers.none

/-- The symbols with their names and modifiers. -/
def symbolsOf (entries : List (String × SymbolEntry)) :
    Except FixtureError (List (String × ProgramSymbol)) :=
  entries.mapM fun (key, entry) => do
    let modifiers ← modifiersOf key entry.modifiers
    return (key, ⟨entry.name.getD (lastPart key), entry, modifiers⟩)

/-! ## Checks -/

/-- No type is declared twice. -/
def checkDistinct : List TypeId → List TypeId → Except FixtureError Unit
  | _, [] => .ok ()
  | before, id :: rest =>
      if before.contains id then .error (.duplicateType id)
      else checkDistinct (id :: before) rest

/-- A mentioned type is declared. -/
def checkType (p : Program) (mention : Mention) (id : TypeId) : Except FixtureError Unit :=
  if p.containsType id then .ok () else .error (.unknownType id mention)

/-- A mentioned symbol is declared. -/
def checkSymbol (p : Program) (mention : Mention) (key : String) : Except FixtureError Unit :=
  if p.symbols.contains key then .ok () else .error (.unknownSymbol key mention)

/-- What a type mentions is declared. -/
def checkTypeEntry (p : Program) (entry : TypeEntry) : Except FixtureError Unit := do
  let mention := Mention.type entry.id
  entry.symbol.forM (p.checkSymbol mention)
  entry.shape.mentionedTypes.forM (p.checkType mention)
  entry.shape.mentionedSymbols.forM (p.checkSymbol mention)

/-- What a symbol mentions is declared, and its constructors' modifiers are
known. -/
def checkSymbolEntry (p : Program) (key : String) (entry : SymbolEntry) :
    Except FixtureError Unit := do
  let mention := Mention.symbol key
  entry.type.forM (p.checkType mention)
  entry.aliasOf.forM (p.checkSymbol mention)
  entry.constructors.forM fun constructor => do
    constructor.parameters.forM (p.checkSymbol mention)
    let _ ← modifiersOf key constructor.modifiers

/-! ## Ancestors -/

/-- The parents of a type; none if it is not declared. -/
def parents (p : Program) (id : TypeId) : List TypeId :=
  ((p.shape? id).map Shape.parents).getD []

/-- The types that walks over the ancestors have met: `false` while the parents
of a type are walked, `true` once they are done. -/
abbrev Marks : Type :=
  List (TypeId × Bool)

/-- Visit a type, with `inner` as the walk over its parents.  A type that is done
is passed over; to come back to a type on the way is an error. -/
def visit (id : TypeId) (inner : StateT Marks (Except FixtureError) Unit) :
    StateT Marks (Except FixtureError) Unit := do
  match (← get).lookup id with
  | some true => return
  | some false => throw (.cyclicBases id)
  | none =>
      modify ((id, false) :: ·)
      inner
      modify ((id, true) :: ·)

/-- Walk over a type and its ancestors depth first, with room for so many types
on the way. -/
def walkAncestors (p : Program) : Nat → TypeId → StateT Marks (Except FixtureError) Unit
  | 0, id => visit id (pure ())
  | room + 1, id => visit id ((p.parents id).forM (walkAncestors p room))

/-- No ancestor of the types is its own ancestor.  The walks share their
marks. -/
def checkAncestors (p : Program) (ids : List TypeId) : Except FixtureError Unit :=
  (ids.forM (p.walkAncestors p.types.length)).run' []

/-! ## Loading -/

/-- Check a fixture. -/
def ofFixture (fixture : Fixture) : Except FixtureError Program := do
  let symbols ← symbolsOf fixture.symbols.entries
  checkDistinct [] (fixture.types.map TypeEntry.id)
  let p : Program := ⟨fixture.types, Table.ofList symbols⟩
  p.types.forM p.checkTypeEntry
  p.checkAncestors (p.types.map TypeEntry.id)
  p.symbols.entries.forM fun (key, symbol) => p.checkSymbolEntry key symbol.entry
  return p

/-- Check what was read. -/
def ofRead : Except Fault Fixture → Except FixtureError Program
  | .ok fixture => ofFixture fixture
  | .error fault => .error (.json fault)

/-- Load a fixture from a JSON text. -/
def ofText (text : String) : Except FixtureError Program :=
  ofRead (Json.readText (Fixture.read .text) text)

/-- Load a fixture from a JSON value. -/
def ofJson (json : Json) : Except FixtureError Program :=
  ofRead (Fixture.read .value (Json.Source.ofJson json))

end Program

end TypeDescription
