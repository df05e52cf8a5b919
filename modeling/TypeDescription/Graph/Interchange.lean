import TypeDescription.Graph.Encode
import TypeDescription.Json.Basic

/-!
# Graphs and JSON

`Heap.toJson` writes an acyclic graph as JSON.  An undefined value is left out
of an object and is null in a list; a number that is not finite is null; a
regular expression is an empty object; markers are looked through.  Integers
of any size and payloads have no JSON form.

`fromJson` is the tree of a JSON value; tokens in it stay tokens.
-/

namespace TypeDescription

variable {X : Type}

/-- The JSON form of a boxed value. -/
def Primitive.toJson : Primitive → Json
  | .bool b => Json.bool b
  | .number x => Json.ofDouble x
  | .string s => Json.string s

namespace Heap

/-- The JSON form of a container, given that of its children.  No form stands
for undefined. -/
def viewToJson (child : Value X → Except CodecError (Option Json)) :
    View X → Except CodecError Json
  | .list items => do
      let items ← items.mapM child
      return .array (items.map fun item => item.getD Json.null)
  | .named fields => do
      let fields ← fields.mapM fun (key, item) => do
        let item ← child item
        return (key, item)
      return .ofFields (fields.filterMap fun (key, item) => item.map fun json => (key, json))

/-- The JSON form of a value with `room` levels left. -/
def toJsonAt (h : Heap X) (limit : UInt32) :
    Nat → Value X → Except CodecError (Option Json)
  | room, value =>
      match value.unwrap with
      | .undefined => return none
      | .null => return some Json.null
      | .bool b => return some (Json.bool b)
      | .number x => return some (Json.ofDouble x)
      | .bigInt _ => throw (.notSerializable .bigInteger)
      | .string s => return some (Json.string s)
      | .boxed p => return some p.toJson
      | .date ms => return some (Json.ofDouble ms)
      | .regExp _ _ => return some (.object [])
      | .foreign _ => throw (.notSerializable .opaqueExpression)
      | .exempt _ => return none
      | .node r =>
          match room with
          | 0 => throw (.depthExceeded limit)
          | room + 1 => do
              let json ← viewToJson (toJsonAt h limit room) (h.view r)
              return some json

/-- The JSON form of a graph whose containers nest at most `limit` deep. -/
def toJson (h : Heap X) (limit : UInt32) (root : Value X) : Except CodecError Json := do
  let json ← h.toJsonAt limit limit.toNat root
  return json.getD Json.null

end Heap

/-- The value of a JSON scalar. -/
def Value.ofScalar : Json.Scalar → Value X
  | .null => .null
  | .bool b => .bool b
  | .number n => .number n.toDouble
  | .string s => .string s

/-- The tree of a JSON value. -/
def fromJson (json : Json) : Encoded X :=
  json.map Value.ofScalar

end TypeDescription
