import TypeDescription.Graph.Error
import TypeDescription.Graph.Resolve

/-!
# Decoding a tree into a graph

The walk changes containers in place.  It visits every container once, and in
it every position in order.  An object with a path under `$ref` is replaced by
the value that the path leads to from the root at that moment; every other
value is walked.  When the walk fails, what was replaced before stays
replaced.
-/

namespace TypeDescription

variable {X : Type}

/-- The heap so far, and the containers visited. -/
structure Decoding (X : Type) where
  heap : Heap X
  visited : List Ref

/-- A walk that changes containers; a failure keeps the changes. -/
abbrev Decoder (X : Type) (α : Type) : Type :=
  ExceptT CodecError (StateM (Decoding X)) α

namespace Heap

/-- The path that a value stands for, if it is a reference token. -/
def tokenPath? (h : Heap X) (value : Value X) : Option (String × Path) := do
  let text ← h.refPath? value
  let path ← Path.parse? text
  return (text, path)

/-- Replace the value at a position if it is a token, else walk it. -/
def decodeSlot (child : Value X → Decoder X Unit) (root : Value X) (r : Ref) (i : Nat) :
    Decoder X Unit := do
  let heap := (← get).heap
  match (heap.slots r)[i]? with
  | none => return ()
  | some item =>
      match heap.tokenPath? item with
      | none => child item
      | some (text, path) =>
          match heap.resolve root path with
          | some target => modify fun s => { s with heap := s.heap.setSlot r i target }
          | none => throw (.unresolvedReference text)

/-- Walk a value with `room` levels left. -/
def decodeAt (limit : UInt32) (root : Value X) : Nat → Value X → Decoder X Unit
  | room, value => do
      match value.unwrap with
      | .node r =>
          let state ← get
          if state.visited.contains r then
            return ()
          else
            set { state with visited := r :: state.visited }
            match room with
            | 0 => throw (.depthExceeded limit)
            | room + 1 =>
                (List.range (state.heap.slots r).length).forM
                  (decodeSlot (decodeAt limit root room) root r)
      | _ => return ()

/-- Decode the graph at `root` in place: the outcome, and the heap it
leaves. -/
def decode (h : Heap X) (limit : UInt32) (root : Value X) :
    Except CodecError Unit × Heap X :=
  let (outcome, state) := (decodeAt limit root limit.toNat root).run.run ⟨h, []⟩
  (outcome, state.heap)

end Heap

end TypeDescription
