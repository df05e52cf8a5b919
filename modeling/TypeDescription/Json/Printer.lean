import TypeDescription.Json.Basic
import TypeDescription.Json.Quoted
import TypeDescription.Number.Text

/-!
# JSON text

`Json.compact` writes a value without blanks.  `Json.pretty` writes one item a
line, indented by two blanks a level; an empty container stays on its line.
-/

namespace TypeDescription.Json

/-- The text of a number. -/
def Numeral.text : Numeral → String
  | .integer n => toString n
  | .double x => NumberStyle.json.text x

/-- The text of a scalar. -/
def Scalar.text : Scalar → String
  | .null => "null"
  | .bool b => if b then "true" else "false"
  | .number n => n.text
  | .string s => quote s

/-! ## Without blanks -/

mutual

/-- A value without blanks. -/
def compact : Document Scalar → String
  | .leaf value => value.text
  | .array items => "[" ++ ",".intercalate (compactItems items) ++ "]"
  | .object fields => "\x7b" ++ ",".intercalate (compactFields fields) ++ "\x7d"

/-- The texts of the items. -/
def compactItems : List (Document Scalar) → List String
  | [] => []
  | item :: rest => compact item :: compactItems rest

/-- The texts of the fields. -/
def compactFields : List (String × Document Scalar) → List String
  | [] => []
  | (key, value) :: rest =>
      (quote key ++ ":" ++ compact value) :: compactFields rest

end

/-! ## One item a line -/

/-- A line break and the indentation of a level. -/
def lineBreak (level : Nat) : String :=
  "\n" ++ String.ofList (List.replicate (2 * level) ' ')

/-- Items between brackets, each on a line of its own. -/
def block (level : Nat) (opening closing : String) (items : List String) : String :=
  if items.isEmpty then
    opening ++ closing
  else
    opening ++ lineBreak (level + 1) ++
      (("," ++ lineBreak (level + 1)).intercalate items) ++
      lineBreak level ++ closing

mutual

/-- A value at a nesting level, one item a line. -/
def prettyAt (level : Nat) : Document Scalar → String
  | .leaf value => value.text
  | .array items => block level "[" "]" (prettyItems (level + 1) items)
  | .object fields => block level "\x7b" "\x7d" (prettyFields (level + 1) fields)

/-- The texts of the items. -/
def prettyItems (level : Nat) : List (Document Scalar) → List String
  | [] => []
  | item :: rest => prettyAt level item :: prettyItems level rest

/-- The texts of the fields. -/
def prettyFields (level : Nat) : List (String × Document Scalar) → List String
  | [] => []
  | (key, value) :: rest =>
      (quote key ++ ": " ++ prettyAt level value) :: prettyFields level rest

end

/-- A value, one item a line. -/
def pretty (value : Json) : String :=
  prettyAt 0 value

end TypeDescription.Json
