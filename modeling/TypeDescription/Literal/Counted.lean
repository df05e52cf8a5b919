import TypeDescription.Depth
import TypeDescription.Literal.OfGraph

/-!
# Literals made under a depth counter

A caller may have entered levels before it asks for a literal.  `Heap.convert` writes a value in
the levels that the caller's `DepthCounter` has left, and leaves each level that it enters, also
where something in the container cannot be written.
-/

namespace TypeDescription

/-- A step that makes a literal under a counter.  A failure keeps the counter. -/
abbrev Conversion (α : Type) : Type :=
  ExceptT LiteralError (StateM DepthCounter) α

namespace Conversion

/-- Enter a level, unless the limit is reached. -/
def enter : Conversion Unit := do
  let (entered, counter) := (← get).enter
  set counter
  if entered then return () else throw (.depthExceeded counter.limit)

/-- Take a step one level down.  The level is left even if the step fails. -/
def nested {α : Type} (step : Conversion α) : Conversion α := do
  enter
  let outcome ← ExceptT.mk (Except.ok <$> step.run)
  modify DepthCounter.leave
  liftExcept outcome

end Conversion

namespace Heap

/-- The literal of a container, given that of its children. -/
def convertView (child : Value Expression → Conversion Literal) :
    View Expression → Conversion Literal
  | .list items => do
      let items ← items.mapM child
      return .array items
  | .named fields => do
      let wanted := fields.filter fun field => !field.2.unwrap.isUndefined
      let fields ← wanted.mapM fun (key, item) => do
        let item ← child item
        return (key, item)
      return .object fields

/-- The literal of a value when the counter has `room` levels left.  Only containers
take a level. -/
def convertAt (h : Heap Expression) : Nat → Value Expression → Conversion Literal
  | room, value =>
      match value.unwrap with
      | .node r =>
          Conversion.nested
            -- with no level left the counter refuses before the step
            (match room with
            | 0 => throw (.depthExceeded 0)
            | room + 1 => convertView (convertAt h room) (h.view r))
      | scalar => liftExcept (h.toLiteralAt 0 0 scalar)

/-- The literal of a graph whose containers nest at most as deep as the counter has levels
left. -/
def convert (h : Heap Expression) (value : Value Expression) : Conversion Literal := do
  let counter ← get
  h.convertAt (counter.limit.toNat - counter.depth.toNat) value

end Heap

end TypeDescription
