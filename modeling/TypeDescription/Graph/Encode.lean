import TypeDescription.Graph.Error
import TypeDescription.Graph.Key

/-!
# Encoding a graph as a tree

The walk is depth first.  It records the path at which it meets a container
before it visits the children; a container met again is written as a token, an
object with that path under `$ref`.  The result is therefore a finite document
for every graph, cyclic ones included.

An exempt value is written as the value behind the marker, and not walked.
`Heap.encoded` allocates the document, so that the result is again a graph.
-/

namespace TypeDescription

variable {X : Type}

/-- A graph written as a tree: a leaf is a scalar, or a value taken as it
is. -/
abbrev Encoded (X : Type) : Type :=
  Document (Value X)

/-- The object that stands for a container met before. -/
def Encoded.token (first : Path) : Encoded X :=
  .object [(refKey, .leaf (.string first.text))]

/-- The steps back to the root: a path, last step first. -/
abbrev Trail : Type :=
  List Step

/-- The containers met so far, each with the way back from its first visit. -/
abbrev Seen : Type :=
  List (Ref × Trail)

/-- A walk that records what it has seen. -/
abbrev Encoder (α : Type) : Type :=
  StateT Seen (Except CodecError) α

namespace Heap

/-- Encode the children of a container met at the end of a trail. -/
def encodeView (child : Trail → Value X → Encoder (Encoded X)) (trail : Trail) :
    View X → Encoder (Encoded X)
  | .list items => do
      let items ← items.zipIdx.mapM fun (item, i) =>
        child (.ofIndex i :: trail) item
      return .array items
  | .named fields => do
      let fields ← fields.mapM fun (key, item) => do
        let item ← child (.key key :: trail) item
        return (key, item)
      return .ofFields fields

/-- Encode a value met at the end of a trail with `room` levels left. -/
def encodeAt (h : Heap X) (limit : UInt32) : Nat → Trail → Value X → Encoder (Encoded X)
  | room, trail, .node r => do
      match (← get).lookup r with
      | some first => return .token first.reverse
      | none =>
          modify fun seen => (r, trail) :: seen
          match room with
          | 0 => throw (.depthExceeded limit)
          | room + 1 => encodeView (encodeAt h limit room) trail (h.view r)
  | _, _, .exempt inner => return .leaf inner
  | _, _, value => return .leaf value

/-- The tree of a graph whose containers nest at most `limit` deep. -/
def encode (h : Heap X) (limit : UInt32) (root : Value X) : Except CodecError (Encoded X) :=
  ((h.encodeAt limit limit.toNat [] root).run []).map Prod.fst

/-- The encoded graph in new containers. -/
def encoded (h : Heap X) (limit : UInt32) (root : Value X) :
    Except CodecError (Value X × Heap X) :=
  (h.encode limit root).map fun tree => plant tree h

end Heap

end TypeDescription
