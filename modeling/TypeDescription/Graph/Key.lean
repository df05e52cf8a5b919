import TypeDescription.Depth
import TypeDescription.Graph.Basic
import TypeDescription.Number.Text

/-!
# Property names of map keys

A map is read as an object whose names are the coerced keys.  A scalar is
coerced to its text, an array or set to the texts of its elements joined by
commas.  An array inside its own join adds nothing, and neither does anything
past the depth limit, so coercion ends on every graph.

* `Coercion` is a step of a coercion, which counts the levels entered and notes
  the containers that are being joined.
* `Heap.coerce` is the walk, `Heap.propertyKey` its result on a fresh start.
* `Heap.view` is a container as a walk sees it: a list of values, or named
  values.
-/

namespace TypeDescription

variable {X : Type}

/-- The text of a boxed value. -/
def Primitive.keyText : Primitive → String
  | .bool b => if b then "true" else "false"
  | .number x => NumberStyle.source.text x
  | .string s => s

/-- A container as a walk sees it. -/
inductive View (X : Type) where
  | list (items : List (Value X))
  | named (fields : List (String × Value X))

/-! ## Steps of a coercion -/

/-- What a coercion keeps track of: the levels that it has entered, and the arrays and
sets that it is joining. -/
structure Joining where
  levels : DepthCounter
  refs : List Ref
deriving DecidableEq

/-- A step of a coercion. -/
abbrev Coercion (α : Type) : Type :=
  StateM Joining α

namespace Coercion

/-- Enter a level, unless the limit is reached. -/
def enter : Coercion Bool := do
  let joining ← get
  let (entered, levels) := joining.levels.enter
  set { joining with levels }
  return entered

/-- Leave a level. -/
def leave : Coercion Unit :=
  modify fun joining => { joining with levels := joining.levels.leave }

/-- Note that a container is being joined, unless it is being joined already. -/
def open? (r : Ref) : Coercion Bool := do
  let joining ← get
  if joining.refs.contains r then
    return false
  else
    set { joining with refs := r :: joining.refs }
    return true

/-- Note that a container is joined. -/
def close (r : Ref) : Coercion Unit :=
  modify fun joining => { joining with refs := joining.refs.erase r }

/-- Take a step one level down.  At the limit there is no text. -/
def nested (step : Coercion String) : Coercion String := do
  if ← enter then
    let text ← step
    leave
    return text
  else
    return ""

/-- Take a step that joins a container.  Inside its own join a container has no
text. -/
def joining (r : Ref) (step : Coercion String) : Coercion String := do
  if ← open? r then
    let text ← step
    close r
    return text
  else
    return ""

end Coercion

/-! ## Keys -/

namespace Heap

/-- The elements of an array or set that are being joined. -/
def joined? (h : Heap X) (r : Ref) : Option (List (Value X)) :=
  match h.cell? r with
  | some (.array items) => some items
  | some (.set items) => some items
  | _ => none

/-- The text of a value as a key.  Only markers, arrays and sets take a level; a
coercion has at most `room` levels left. -/
def coerce (h : Heap X) : Nat → Value X → Coercion String
  | _, .undefined => return "undefined"
  | _, .null => return "null"
  | _, .bool b => return if b then "true" else "false"
  | _, .number x => return NumberStyle.source.text x
  | _, .bigInt digits => return digits
  | _, .string s => return s
  | _, .boxed p => return p.keyText
  | room, .exempt inner =>
      Coercion.nested
        -- with no level left the counter refuses before the step
        (match room with
        | 0 => return ""
        | room + 1 => h.coerce room inner)
  | room, .node r =>
      match h.joined? r with
      | none => return "[object Object]"
      | some items =>
          Coercion.joining r <| Coercion.nested
            (match room with
            | 0 => return ""
            | room + 1 => do
                let texts ← items.mapM fun item =>
                  match item with
                  | .undefined => return ""
                  | .null => return ""
                  | item => h.coerce room item
                return ",".intercalate texts)
  | _, .date _ => return "[object Object]"
  | _, .regExp _ _ => return "[object Object]"
  | _, .foreign _ => return "[object Object]"

/-- The property name of a map key. -/
def propertyKey (h : Heap X) (key : Value X) : String :=
  let limit := DepthProfile.codec.limit
  ((h.coerce limit.toNat key).run ⟨.ofLimit limit, []⟩).1

/-! ## Views -/

/-- A cell as a walk sees it. -/
def viewCell (h : Heap X) : Cell X → View X
  | .array items => .list items
  | .set items => .list items
  | .object properties => .named properties.entries
  | .map entries => .named (entries.map fun entry => (h.propertyKey entry.1, entry.2))

/-- A container as a walk sees it. -/
def view (h : Heap X) (r : Ref) : View X :=
  match h.cell? r with
  | some c => h.viewCell c
  | none => .list []

end Heap

end TypeDescription
