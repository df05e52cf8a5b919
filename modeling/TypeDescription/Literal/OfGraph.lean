import TypeDescription.Graph.Key
import TypeDescription.Literal.Basic
import TypeDescription.Literal.Error

/-!
# Literals of graphs

`Heap.toLiteral` writes an acyclic graph as a literal.  Undefined fields are
left out, undefined items stay; a date or a regular expression is an empty
object; payloads are verbatim; markers are looked through.  The entries of a
map keep their coerced names even when these repeat.
-/

namespace TypeDescription

/-- The literal of a boxed value. -/
def Primitive.toLiteral : Primitive → Literal
  | .bool b => .leaf (.boolean b)
  | .number x => .leaf (.number x)
  | .string s => .leaf (.string s)

namespace Heap

/-- The literal of a container, given that of its children. -/
def viewToLiteral (child : Value Expression → Except LiteralError Literal) :
    View Expression → Except LiteralError Literal
  | .list items => do
      let items ← items.mapM child
      return .array items
  | .named fields => do
      let wanted := fields.filter fun field => !field.2.unwrap.isUndefined
      let fields ← wanted.mapM fun (key, item) => do
        let item ← child item
        return (key, item)
      return .object fields

/-- The literal of a value with `room` levels left. -/
def toLiteralAt (h : Heap Expression) (limit : UInt32) :
    Nat → Value Expression → Except LiteralError Literal
  | room, value =>
      match value.unwrap with
      | .undefined => return .leaf .undefined
      | .null => return .leaf .null
      | .bool b => return .leaf (.boolean b)
      | .number x => return .leaf (.number x)
      | .bigInt digits => return .leaf (.bigInt digits)
      | .string s => return .leaf (.string s)
      | .boxed p => return p.toLiteral
      | .date _ => return .object []
      | .regExp _ _ => return .object []
      | .foreign e => return .leaf (.verbatim e)
      | .exempt _ => return .leaf .undefined
      | .node r =>
          match room with
          | 0 => throw (.depthExceeded limit)
          | room + 1 => viewToLiteral (toLiteralAt h limit room) (h.view r)

/-- The literal of a graph whose containers nest at most `limit` deep. -/
def toLiteral (h : Heap Expression) (limit : UInt32) (root : Value Expression) :
    Except LiteralError Literal :=
  h.toLiteralAt limit limit.toNat root

end Heap

end TypeDescription
