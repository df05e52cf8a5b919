import TypeDescription.Graph.Error
import TypeDescription.Graph.Key

/-!
# Graphs of arrays and objects only

`Heap.normalize` copies a graph into new containers: arrays for arrays and
sets, objects for objects and maps.  A container reached twice becomes one new
container, so sharing and cycles stay.  Exempt values are taken as they are.
-/

namespace TypeDescription

variable {X : Type}

/-- The heap so far, and the new container of each container met. -/
structure Copying (X : Type) where
  heap : Heap X
  done : List (Ref × Ref)

/-- A walk that copies containers. -/
abbrev Copier (X : Type) (α : Type) : Type :=
  StateT (Copying X) (Except CodecError) α

namespace Heap

/-- The new content of a container. -/
def copyView (child : Value X → Copier X (Value X)) : View X → Copier X (Cell X)
  | .list items => do
      let items ← items.mapM child
      return .array items
  | .named fields => do
      let fields ← fields.mapM fun (key, item) => do
        let item ← child item
        return (key, item)
      return .object (Table.ofList fields)

/-- The empty content that stands for a container while its children are
copied. -/
def blankView : View X → Cell X
  | .list _ => .array []
  | .named _ => .object Table.empty

/-- Copy a value of `source` with `room` levels left. -/
def copyAt (source : Heap X) (limit : UInt32) : Nat → Value X → Copier X (Value X)
  | room, .node r => do
      let state ← get
      match state.done.lookup r with
      | some copy => return .node copy
      | none =>
          let view := source.view r
          let (copy, heap) := state.heap.allocate (blankView view)
          set (Copying.mk heap ((r, copy) :: state.done))
          match room with
          | 0 => throw (.depthExceeded limit)
          | room + 1 =>
              let content ← copyView (copyAt source limit room) view
              modify fun state => { state with heap := state.heap.write copy content }
              return .node copy
  | _, value => return value

/-- The normalized graph, in new containers of a larger heap. -/
def normalize (h : Heap X) (root : Value X) : Except CodecError (Value X × Heap X) :=
  let limit := DepthProfile.codec.limit
  ((h.copyAt limit limit.toNat root).run ⟨h, []⟩).map fun (value, state) =>
    (value, state.heap)

end Heap

end TypeDescription
