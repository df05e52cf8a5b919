import TypeDescription.Document
import TypeDescription.Number.Double
import TypeDescription.Path
import TypeDescription.Table

/-!
# Graphs of containers

A `Heap` is a numbered store of containers; a `Value` is a scalar, a marker or
the number of a container.  The number is the identity of the container, so a
container may be reached on several ways and may contain itself.

* `Cell` is the content of a container: an array, a set, an object or a map.
  Walks treat sets like arrays and maps like objects; `View` is what they see.
* `Value.exempt` marks a value that is to be taken as it is.
* `Value.foreign` carries a payload that no walk looks into.
* `Heap.plant` allocates the containers of a document.
-/

namespace TypeDescription

/-- A truth value, number or string that was wrapped as an object. -/
inductive Primitive where
  | bool (b : Bool)
  | number (x : Double)
  | string (s : String)
deriving DecidableEq

/-- The identity of a container. -/
abbrev Ref : Type := Nat

/-- A node of a graph, with payloads of type `X`. -/
inductive Value (X : Type) where
  | undefined
  | null
  | bool (b : Bool)
  | number (x : Double)
  /-- An integer of any size, by its decimal digits. -/
  | bigInt (digits : String)
  | string (s : String)
  | boxed (p : Primitive)
  /-- A point in time, in milliseconds. -/
  | date (ms : Double)
  | regExp (source flags : String)
  /-- A container of the heap. -/
  | node (ref : Ref)
  /-- A value that is to be taken as it is. -/
  | exempt (inner : Value X)
  /-- A payload. -/
  | foreign (payload : X)
deriving DecidableEq, Inhabited

/-- The content of a container. -/
inductive Cell (X : Type) where
  | array (items : List (Value X))
  | set (items : List (Value X))
  | object (properties : Table (Value X))
  | map (entries : List (Value X × Value X))
deriving DecidableEq, Inhabited

/-- The containers, numbered from zero. -/
structure Heap (X : Type) where
  cells : Array (Cell X)
deriving DecidableEq, Inhabited

/-- The property name of a reference token. -/
def refKey : String := "$ref"

variable {X : Type}

namespace Value

/-- Whether two values are one and the same container. -/
def sameInstance : Value X → Value X → Bool
  | node a, node b => a == b
  | _, _ => false

def isContainer : Value X → Bool
  | node _ => true
  | _ => false

def isUndefined : Value X → Bool
  | undefined => true
  | _ => false

/-- The content of a string. -/
def string? : Value X → Option String
  | string s => some s
  | _ => none

/-- The content of a number. -/
def number? : Value X → Option Double
  | number x => some x
  | _ => none

/-- The value behind one exempt marker. -/
def exempt? : Value X → Option (Value X)
  | exempt inner => some inner
  | _ => none

/-- The value behind all exempt markers. -/
def unwrap : Value X → Value X
  | exempt inner => inner.unwrap
  | value => value

end Value

namespace Cell

/-- The values that a walk visits, in order. -/
def slots : Cell X → List (Value X)
  | array items => items
  | set items => items
  | object properties => properties.values
  | map entries => entries.map Prod.snd

/-- Replace the value at a position. -/
def setSlot (i : Nat) (value : Value X) : Cell X → Cell X
  | array items => array (items.set i value)
  | set items => set (items.set i value)
  | object properties => object (properties.setAt i value)
  | map entries => map (entries.modify i fun entry => (entry.1, value))

/-- How many elements, properties or entries there are. -/
def size (c : Cell X) : Nat :=
  c.slots.length

end Cell

namespace Heap

/-! ## Containers -/

/-- No containers. -/
def empty : Heap X :=
  ⟨#[]⟩

def size (h : Heap X) : Nat :=
  h.cells.size

/-- The content of a container. -/
def cell? (h : Heap X) (r : Ref) : Option (Cell X) :=
  h.cells[r]?

/-- Add a container. -/
def allocate (h : Heap X) (c : Cell X) : Ref × Heap X :=
  (h.cells.size, ⟨h.cells.push c⟩)

/-- Replace the content of a container. -/
def write (h : Heap X) (r : Ref) (c : Cell X) : Heap X :=
  ⟨h.cells.setIfInBounds r c⟩

/-- Replace one value inside a container. -/
def setSlot (h : Heap X) (r : Ref) (i : Nat) (value : Value X) : Heap X :=
  match h.cell? r with
  | some c => h.write r (c.setSlot i value)
  | none => h

/-- The values inside a container. -/
def slots (h : Heap X) (r : Ref) : List (Value X) :=
  ((h.cell? r).map Cell.slots).getD []

/-! ## Single values -/

/-- The content of the container that a value is. -/
def content? (h : Heap X) : Value X → Option (Cell X)
  | .node r => h.cell? r
  | _ => none

/-- A property of an object. -/
def get? (h : Heap X) (value : Value X) (key : String) : Option (Value X) :=
  match h.content? value with
  | some (.object properties) => properties.get? key
  | _ => none

/-- An element of an array or a set. -/
def at? (h : Heap X) (value : Value X) (index : Nat) : Option (Value X) :=
  match h.content? value with
  | some (.array items) => items[index]?
  | some (.set items) => items[index]?
  | _ => none

/-- The size of a container. -/
def size? (h : Heap X) (value : Value X) : Option Nat :=
  (h.content? value).map Cell.size

/-- The path text of an object with a string under `$ref`. -/
def refPath? (h : Heap X) (value : Value X) : Option String :=
  (h.get? value refKey).bind Value.string?

/-- Insert or replace a property of an object. -/
def insert? (h : Heap X) (target : Value X) (key : String) (value : Value X) :
    Option (Heap X) :=
  match target with
  | .node r =>
      match h.cell? r with
      | some (.object properties) => some (h.write r (.object (properties.insert key value)))
      | _ => none
  | _ => none

/-- Append to an array or a set. -/
def push? (h : Heap X) (target : Value X) (value : Value X) : Option (Heap X) :=
  match target with
  | .node r =>
      match h.cell? r with
      | some (.array items) => some (h.write r (.array (items ++ [value])))
      | some (.set items) => some (h.write r (.set (items ++ [value])))
      | _ => none
  | _ => none

/-! ## Documents -/

mutual

/-- Allocate the containers of a document, children first. -/
def plant : Document (Value X) → Heap X → Value X × Heap X
  | .leaf value, h => (value, h)
  | .array items, h =>
      let (values, h) := plantItems items h
      let (r, h) := h.allocate (.array values)
      (.node r, h)
  | .object fields, h =>
      let (entries, h) := plantFields fields h
      let (r, h) := h.allocate (.object (Table.ofList entries))
      (.node r, h)

/-- Allocate the containers of items. -/
def plantItems : List (Document (Value X)) → Heap X → List (Value X) × Heap X
  | [], h => ([], h)
  | item :: rest, h =>
      let (value, h) := plant item h
      let (values, h) := plantItems rest h
      (value :: values, h)

/-- Allocate the containers of fields. -/
def plantFields : List (String × Document (Value X)) → Heap X →
    List (String × Value X) × Heap X
  | [], h => ([], h)
  | (key, item) :: rest, h =>
      let (value, h) := plant item h
      let (entries, h) := plantFields rest h
      ((key, value) :: entries, h)

end

end Heap

end TypeDescription
