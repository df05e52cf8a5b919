import TypeDescription.Graph.Encode
import TypeDescription.Literal.OfGraph
import TypeDescription.Reflected.Basic

/-!
# Literals of reflected types

A literal is made in three steps.  First the nodes become a graph of data
objects with the same sharing: a node met twice is one data object, so a
recursive type gives a cyclic graph.  Then the graph is encoded as a tree, in
which repeated objects are tokens.  Last the tree becomes a literal.

A data object holds the kind of its type, the modifiers and the initializer of
the place where it was first met, and the fields of its kind.  Literal strings
and numbers are handed out as exempt values, so they are never replaced by
tokens.  Expressions are exempt payloads.

A data object is kept before it is filled.  A call that fails keeps what it
has made, half-filled objects included.
-/

namespace TypeDescription

/-- The place where a type stands: its modifiers, if the place has any, and
its initial value. -/
structure Position where
  modifiers : Option Modifiers
  initializer : Option Expression
deriving DecidableEq, Inhabited

/-- The place of a list element or a base. -/
def Position.plain : Position :=
  ⟨none, none⟩

/-- The place of a property. -/
def Position.ofProperty (property : Member) : Position :=
  ⟨some property.modifiers, property.initializer⟩

/-- The place of a constructor parameter's type. -/
def Position.ofParameter (parameter : Member) : Position :=
  ⟨none, parameter.initializer⟩

/-- The data objects made so far, by identity and kind. -/
structure LiteralGenerator where
  heap : Heap Expression
  objects : List ((TypeId × TypeKind) × Value Expression)
deriving Inhabited

/-- A step that makes data objects.  A failure keeps what was made. -/
abbrev Generation (α : Type) : Type :=
  ExceptT LiteralError (StateM LiteralGenerator) α

namespace Generation

/-- A set of modifiers as data. -/
def modifiersValue : Option Modifiers → Value Expression
  | some m => .number (Double.ofNat m.bits.toNat)
  | none => .undefined

/-- An expression as data. -/
def verbatim (e : Expression) : Value Expression :=
  .exempt (.foreign e)

/-- An optional expression as data. -/
def verbatim? : Option Expression → Value Expression
  | some e => verbatim e
  | none => .undefined

/-- Allocate a container. -/
def allocate (c : Cell Expression) : Generation (Value Expression) := do
  let g ← get
  let (r, heap) := g.heap.allocate c
  set { g with heap := heap }
  return .node r

/-- Insert a field into a data object. -/
def insert (target : Value Expression) (key : String) (value : Value Expression) :
    Generation Unit :=
  modify fun g => { g with heap := (g.heap.insert? target key value).getD g.heap }

/-- An object with some fields; of one name the last counts. -/
def object (fields : List (String × Value Expression)) : Generation (Value Expression) :=
  allocate (.object (Table.ofList fields))

/-- An array of what is made for the elements of a list. -/
def array {α : Type} (make : α → Generation (Value Expression)) (l : List α) :
    Generation (Value Expression) := do
  let items ← l.mapM make
  allocate (.array items)

/-- The data of a list of types. -/
def list (child : NodeRef → Position → Generation (Value Expression))
    (nodes : List NodeRef) : Generation (Value Expression) :=
  array (fun node => child node .plain) nodes

/-- The data of properties. -/
def properties (child : NodeRef → Position → Generation (Value Expression))
    (members : List Member) : Generation (Value Expression) := do
  let entries ← members.mapM fun member => do
    let value ← child member.type (.ofProperty member)
    return (member.name, value)
  object entries

/-- The data of a constructor parameter. -/
def parameter (child : NodeRef → Position → Generation (Value Expression))
    (p : Member) : Generation (Value Expression) := do
  let type ← child p.type (.ofParameter p)
  object [("name", .string p.name), ("modifiers", modifiersValue (some p.modifiers)),
    ("type", type)]

/-- The data of a constructor. -/
def constructor (child : NodeRef → Position → Generation (Value Expression))
    (c : Constructor) : Generation (Value Expression) := do
  let parameters ← array (parameter child) c.parameters
  object [("modifiers", modifiersValue (some c.modifiers)), ("parameters", parameters)]

/-- The fields of a type, each with the step that makes its value. -/
def fields (child : NodeRef → Position → Generation (Value Expression)) :
    TypeContent → List (String × Generation (Value Expression))
  | .object name members =>
      [("name", return name.elim .undefined .string), ("properties", properties child members)]
  | .classType content =>
      [("name", return .string content.name),
        ("properties", properties child content.properties),
        ("constructors", array (constructor child) content.constructors)] ++
      content.base.toList.map fun base => ("extends", child base .plain)
  | .tuple elements => [("elementTypes", list child elements)]
  | .union members => [("types", list child members)]
  | .stringLiteral value => [("value", return .string value)]
  | .numberLiteral value => [("value", return .number value)]
  | .reference name arguments =>
      [("type", return verbatim name), ("arguments", list child arguments)]
  | _ => []

/-- Insert the fields of a type into a data object, one after the other. -/
def fill (child : NodeRef → Position → Generation (Value Expression))
    (target : Value Expression) (content : TypeContent) : Generation Unit :=
  (fields child content).forM fun (key, make) => do insert target key (← make)

/-- The fields that every data object begins with. -/
def header (kind : TypeKind) (position : Position) : List (String × Value Expression) :=
  [("kind", .number (Double.ofNat kind.code)), ("modifiers", modifiersValue position.modifiers),
    ("initializer", verbatim? position.initializer)]

/-- What is handed out for a data object of a kind. -/
def handOut (kind : TypeKind) (object : Value Expression) : Value Expression :=
  if kind.isLiteral then .exempt object else object

/-- The data of a node at a position with `room` levels left. -/
def data (store : Store) (limit : UInt32) :
    Nat → NodeRef → Position → Generation (Value Expression)
  | room, node, position => do
      match store.node? node with
      | none => throw (.incompleteType .synthetic)
      | some ⟨id, none⟩ => throw (.incompleteType id)
      | some ⟨id, some content⟩ =>
          let kind := content.kind
          match (← get).objects.lookup (id, kind) with
          | some made => return handOut kind made
          | none =>
              let made ← object (header kind position)
              modify fun g => { g with objects := ((id, kind), made) :: g.objects }
              match room with
              | 0 => throw (.depthExceeded limit)
              | room + 1 =>
                  fill (data store limit room) made content
                  return handOut kind made

end Generation

/-- The limits of a generator. -/
structure LiteralLimits where
  /-- How deep the data of types may nest. -/
  depth : UInt32
  /-- How deep the graph that is encoded may nest. -/
  codec : UInt32
deriving DecidableEq

/-- The limits that hold when none are given. -/
def LiteralLimits.standard : LiteralLimits :=
  ⟨DepthProfile.literal.limit, DepthProfile.codec.limit⟩

namespace LiteralGenerator

/-- Nothing made. -/
def empty : LiteralGenerator :=
  ⟨.empty, []⟩

/-- The data of a node: the outcome, and the generator after it. -/
def data (g : LiteralGenerator) (limits : LiteralLimits) (store : Store) (node : NodeRef)
    (position : Position) : Except LiteralError (Value Expression) × LiteralGenerator :=
  (Generation.data store limits.depth limits.depth.toNat node position).run.run g

/-- The literal of a node, with all that the generator has made. -/
def literal (g : LiteralGenerator) (limits : LiteralLimits) (store : Store) (node : NodeRef)
    (modifiers : Option Modifiers) : Except LiteralError Literal := do
  let (outcome, g) := g.data limits store node ⟨modifiers, none⟩
  let root ← outcome
  let (tree, heap) ← (g.heap.encoded limits.codec root).mapError LiteralError.codec
  heap.toLiteral limits.depth tree

end LiteralGenerator

/-- The literal of a node, made by a fresh generator. -/
def Store.literal (store : Store) (limits : LiteralLimits) (node : NodeRef)
    (modifiers : Option Modifiers) : Except LiteralError Literal :=
  LiteralGenerator.empty.literal limits store node modifiers

end TypeDescription
