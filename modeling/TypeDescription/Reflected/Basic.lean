import TypeDescription.Expression
import TypeDescription.Modifier
import TypeDescription.TypeId

/-!
# Reflected types

A reflected type is a node of a graph: its identity and, once it is complete,
what the type is.  A `Store` holds the nodes, numbered from zero; children are
numbers, so types may share nodes and contain themselves.

A node enters the store as a shell without content and is filled later.
-/

namespace TypeDescription

/-- The number of a node in its store. -/
abbrev NodeRef : Type := Nat

/-- The kinds of nodes. -/
inductive TypeKind where
  | any
  | string
  | number
  | boolean
  | stringLiteral
  | numberLiteral
  | trueLiteral
  | falseLiteral
  | void
  | undefined
  | null
  | never
  | unknown
  /-- A type that reflection does not understand. -/
  | unsupported
  | esSymbol
  | function
  | tuple
  | union
  | reference
  | object
  | classType
deriving DecidableEq, Inhabited

namespace TypeKind

/-- The kinds in the order of their codes. -/
def all : List TypeKind :=
  [any, string, number, boolean, stringLiteral, numberLiteral, trueLiteral, falseLiteral,
    void, undefined, null, never, unknown, unsupported, esSymbol, function, tuple, union,
    reference, object, classType]

/-- The code that stands for a kind in literals, from one on. -/
def code : TypeKind → Nat
  | any => 1
  | string => 2
  | number => 3
  | boolean => 4
  | stringLiteral => 5
  | numberLiteral => 6
  | trueLiteral => 7
  | falseLiteral => 8
  | void => 9
  | undefined => 10
  | null => 11
  | never => 12
  | unknown => 13
  | unsupported => 14
  | esSymbol => 15
  | function => 16
  | tuple => 17
  | union => 18
  | reference => 19
  | object => 20
  | classType => 21

/-- The name of a kind in debug output. -/
def name : TypeKind → String
  | any => "Any"
  | string => "String"
  | number => "Number"
  | boolean => "Boolean"
  | stringLiteral => "StringLiteral"
  | numberLiteral => "NumberLiteral"
  | trueLiteral => "TrueLiteral"
  | falseLiteral => "FalseLiteral"
  | void => "Void"
  | undefined => "Undefined"
  | null => "Null"
  | never => "Never"
  | unknown => "Unknown"
  | unsupported => "Unknown2"
  | esSymbol => "ESSymbol"
  | function => "Function"
  | tuple => "Tuple"
  | union => "Union"
  | reference => "Reference"
  | object => "Object"
  | classType => "Class"

/-- Literal strings and numbers. -/
def isLiteral : TypeKind → Bool
  | stringLiteral => true
  | numberLiteral => true
  | _ => false

/-- The kinds that a union joins to one. -/
def isBooleanLike : TypeKind → Bool
  | boolean => true
  | trueLiteral => true
  | falseLiteral => true
  | _ => false

end TypeKind

/-- A property of an object or class, or a parameter of a constructor. -/
structure Member where
  name : String
  modifiers : Modifiers
  type : NodeRef
  /-- The initial or default value, put off. -/
  initializer : Option Expression
deriving DecidableEq, Inhabited

/-- A constructor of a class. -/
structure Constructor where
  modifiers : Modifiers
  parameters : List Member
deriving DecidableEq, Inhabited

/-- What a class is. -/
structure ClassContent where
  name : String
  /-- The properties of the class itself, in the order of declaration. -/
  properties : List Member
  constructors : List Constructor
  /-- The first base. -/
  base : Option NodeRef
deriving DecidableEq, Inhabited

/-- What a type is. -/
inductive TypeContent where
  | any
  | string
  | number
  | boolean
  | stringLiteral (value : String)
  | numberLiteral (value : Double)
  | trueLiteral
  | falseLiteral
  | void
  | undefined
  | null
  | never
  | unknown
  | unsupported
  | esSymbol
  | function
  | tuple (elements : List NodeRef)
  | union (members : List NodeRef)
  /-- A declaration that has a value, by an identifier, with arguments. -/
  | reference (name : Expression) (arguments : List NodeRef)
  | object (name : Option String) (properties : List Member)
  | classType (content : ClassContent)
deriving DecidableEq, Inhabited

namespace TypeContent

/-- The kind of a type. -/
def kind : TypeContent → TypeKind
  | any => .any
  | string => .string
  | number => .number
  | boolean => .boolean
  | stringLiteral _ => .stringLiteral
  | numberLiteral _ => .numberLiteral
  | trueLiteral => .trueLiteral
  | falseLiteral => .falseLiteral
  | void => .void
  | undefined => .undefined
  | null => .null
  | never => .never
  | unknown => .unknown
  | unsupported => .unsupported
  | esSymbol => .esSymbol
  | function => .function
  | tuple _ => .tuple
  | union _ => .union
  | reference _ _ => .reference
  | object _ _ => .object
  | classType _ => .classType

/-- The properties of an object or class. -/
def properties : TypeContent → List Member
  | object _ properties => properties
  | classType content => content.properties
  | _ => []

/-- The first property with a name. -/
def property? (content : TypeContent) (name : String) : Option Member :=
  content.properties.find? fun member => member.name == name

/-- The members of a union. -/
def unionMembers : TypeContent → List NodeRef
  | union members => members
  | _ => []

/-- All nodes that a type contains, in order: elements, members, arguments or
properties, then the parameters of the constructors, then the base. -/
def children : TypeContent → List NodeRef
  | tuple elements => elements
  | union members => members
  | reference _ arguments => arguments
  | object _ properties => properties.map Member.type
  | classType content =>
      content.properties.map Member.type ++
        content.constructors.flatMap (fun c => c.parameters.map Member.type) ++
        content.base.toList
  | _ => []

end TypeContent

/-- A node: a shell until it has content. -/
structure TypeNode where
  id : TypeId
  content : Option TypeContent
deriving DecidableEq, Inhabited

namespace TypeNode

/-- The kind of a complete node. -/
def kind? (n : TypeNode) : Option TypeKind :=
  n.content.map TypeContent.kind

/-- A node in debug output. -/
def text (n : TypeNode) : String :=
  (match n.kind? with
    | some kind => kind.name
    | none => "<shell>") ++ "#" ++ n.id.text

end TypeNode

/-- The nodes, numbered from zero. -/
structure Store where
  nodes : Array TypeNode
deriving DecidableEq, Inhabited

namespace Store

/-- No nodes. -/
def empty : Store :=
  ⟨#[]⟩

/-- The node with a number. -/
def node? (s : Store) (r : NodeRef) : Option TypeNode :=
  s.nodes[r]?

/-- What a node is, if it is complete. -/
def content? (s : Store) (r : NodeRef) : Option TypeContent :=
  (s.node? r).bind TypeNode.content

theorem content?_of_node? {s : Store} {r : NodeRef} {id : TypeId} {content : Option TypeContent}
    (h : s.node? r = some ⟨id, content⟩) : s.content? r = content := by
  unfold content?
  rw [h]
  rfl

/-- The kind of a node, if it is complete. -/
def kind? (s : Store) (r : NodeRef) : Option TypeKind :=
  (s.content? r).map TypeContent.kind

/-- Add a node. -/
def add (s : Store) (node : TypeNode) : NodeRef × Store :=
  (s.nodes.size, ⟨s.nodes.push node⟩)

def size (s : Store) : Nat :=
  s.nodes.size

/-- Keep the first nodes only. -/
def truncate (s : Store) (size : Nat) : Store :=
  ⟨s.nodes.take size⟩

/-- Give a shell its content; a complete node keeps what it has. -/
def fill (s : Store) (r : NodeRef) (content : TypeContent) : Store :=
  match s.node? r with
  | some ⟨id, none⟩ => ⟨s.nodes.setIfInBounds r ⟨id, some content⟩⟩
  | _ => s

end Store

end TypeDescription
