import TypeDescription.Expression
import TypeDescription.Graph.Basic
import TypeDescription.Number.Text
import TypeDescription.Text.Shown

/-!
# Graphs in debug output

A graph is shown down to six levels of containers; what lies deeper is an
ellipsis, so showing ends on cyclic graphs too.
-/

namespace TypeDescription

variable {X : Type}

/-- A boxed value in debug output. -/
def Primitive.debugText : Primitive → String
  | bool b => "Bool(" ++ (if b then "true" else "false") ++ ")"
  | number x => "Number(" ++ NumberStyle.debug.text x ++ ")"
  | string s => "String(" ++ Text.showString s ++ ")"

/-- An expression in debug output. -/
def Expression.debugText : Expression → String
  | identifier name scope =>
      "Identifier \x7b name: " ++ Text.showString name ++ ", scope: ScopeId(" ++
        toString scope.toNat ++ ") \x7d"
  | source text => "Source \x7b text: " ++ Text.showString text ++ " \x7d"
  | deferred body => "Deferred \x7b body: " ++ body.debugText ++ " \x7d"

/-- How many exempt markers a value is behind. -/
def Value.markers : Value X → Nat
  | exempt inner => inner.markers + 1
  | _ => 0

/-- Parts between brackets. -/
def showParts (opening closing : String) (parts : List String) : String :=
  opening ++ ", ".intercalate parts ++ closing

namespace Heap

/-- The content of a container in debug output, given that of its children. -/
def showCell (child : Value X → String) : Cell X → String
  | .array items => showParts "[" "]" (items.map child)
  | .set items => showParts "Set[" "]" (items.map child)
  | .object properties =>
      showParts "\x7b" "\x7d"
        (properties.entries.map fun entry => Text.showString entry.1 ++ ": " ++ child entry.2)
  | .map entries =>
      showParts "Map\x7b" "\x7d"
        (entries.map fun entry => child entry.1 ++ ": " ++ child entry.2)

/-- A value that is no marker, given how to show a container. -/
def showCore (payload : X → String) (container : Ref → String) : Value X → String
  | .undefined => "undefined"
  | .null => "null"
  | .bool b => if b then "true" else "false"
  | .number x => NumberStyle.source.text x
  | .bigInt digits => digits ++ "n"
  | .string s => Text.showString s
  | .boxed p => "Boxed(" ++ p.debugText ++ ")"
  | .date ms => "Date(" ++ NumberStyle.source.text ms ++ ")"
  | .regExp source flags => "/" ++ source ++ "/" ++ flags
  | .node r => container r
  | .exempt _ => ""
  | .foreign x => "Extern(" ++ payload x ++ ")"

/-- A value in debug output with `room` levels left. -/
def showAt (h : Heap X) (payload : X → String) : Nat → Value X → String
  | room, value =>
      let container := fun r =>
        match room with
        | 0 => "…"
        | room + 1 =>
            match h.cell? r with
            | some c => showCell (showAt h payload room) c
            | none => ""
      String.join (List.replicate value.markers "Exempt(") ++
        showCore payload container value.unwrap ++
        String.join (List.replicate value.markers ")")

/-- A value in debug output. -/
def debugText (h : Heap X) (payload : X → String) (value : Value X) : String :=
  h.showAt payload 6 value

end Heap

end TypeDescription
