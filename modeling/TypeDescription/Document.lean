/-!
# Documents

A `Document` is a tree of arrays and keyed objects over leaves of one type.
JSON, literals and encoded graphs are documents that differ in their leaves
only.

An object lists its fields as they were written, so a name may come twice.
`Document.merge` is the reading in which the last value of a repeated name
counts, at the place of the first; `Document.ofFields` reads one object that
way.
-/

namespace TypeDescription

universe u v

/-- A tree of arrays and objects over leaves. -/
inductive Document (α : Type u) where
  | leaf (value : α)
  | array (items : List (Document α))
  | object (fields : List (String × Document α))

namespace Document

variable {α : Type u}

instance [Inhabited α] : Inhabited (Document α) :=
  ⟨.leaf default⟩

/-- The first field with a name. -/
def get? (key : String) : Document α → Option (Document α)
  | .object fields => (fields.find? fun field => field.1 == key).map Prod.snd
  | _ => none

/-- The item at a position. -/
def at? (index : Nat) : Document α → Option (Document α)
  | .array items => items[index]?
  | _ => none

/-- Follow field names from the root. -/
def lookup (keys : List String) (d : Document α) : Option (Document α) :=
  keys.foldlM (fun d key => d.get? key) d

/-- The field names in order, repetitions included. -/
def keys : Document α → List String
  | .object fields => fields.map Prod.fst
  | _ => []

mutual

/-- Apply a function to every leaf. -/
def map {β : Type v} (f : α → β) : Document α → Document β
  | .leaf value => .leaf (f value)
  | .array items => .array (mapItems f items)
  | .object fields => .object (mapFields f fields)

/-- Apply a function to every leaf of every item. -/
def mapItems {β : Type v} (f : α → β) : List (Document α) → List (Document β)
  | [] => []
  | item :: rest => item.map f :: mapItems f rest

/-- Apply a function to every leaf of every field. -/
def mapFields {β : Type v} (f : α → β) :
    List (String × Document α) → List (String × Document β)
  | [] => []
  | (key, value) :: rest => (key, value.map f) :: mapFields f rest

end

/-- Give a field its value: in its place if the name is there, else at the
end. -/
def putField (key : String) (value : Document α) :
    List (String × Document α) → List (String × Document α)
  | [] => [(key, value)]
  | (k, v) :: rest =>
      if k = key then (k, value) :: rest else (k, v) :: putField key value rest

/-- The object of some fields.  The last value of a repeated name counts, at
the place of the first. -/
def ofFields (fields : List (String × Document α)) : Document α :=
  .object (fields.foldl (fun taken field => putField field.1 field.2 taken) [])

mutual

/-- Merge repeated names everywhere in a document. -/
def merge : Document α → Document α
  | .leaf value => .leaf value
  | .array items => .array (mergeItems items)
  | .object fields => .object (mergeFields [] fields)

/-- Merge repeated names in every item. -/
def mergeItems : List (Document α) → List (Document α)
  | [] => []
  | item :: rest => item.merge :: mergeItems rest

/-- Merge repeated names in every field, and insert the fields one by one
after those already taken. -/
def mergeFields (taken : List (String × Document α)) :
    List (String × Document α) → List (String × Document α)
  | [] => taken
  | (key, value) :: rest => mergeFields (putField key value.merge taken) rest

end

end Document

end TypeDescription
