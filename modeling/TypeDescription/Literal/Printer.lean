import TypeDescription.Literal.Basic
import TypeDescription.Number.Text

/-!
# Literals as source text

`Literal.print` writes a literal in one of two layouts: on one line, or with
one item a line.  A key that is an identifier stands bare, every other key is
quoted like a string.  Strings escape everything that could end them early or
break the line.
-/

namespace TypeDescription.Literal

/-! ## Strings and keys -/

/-- A character by its code: four upper-case hexadecimal digits. -/
def codeEscape (c : Char) : List Char :=
  let n := c.toNat
  '\\' :: 'u' :: [n / 4096 % 16, n / 256 % 16, n / 16 % 16, n % 16].map
    fun d => (Nat.digitChar d).toUpper

/-- How one character stands between the quotes. -/
def escapeChar (c : Char) : List Char :=
  if c = '"' then ['\\', '"']
  else if c = '\\' then ['\\', '\\']
  else if c = '\n' then ['\\', 'n']
  else if c = '\r' then ['\\', 'r']
  else if c = '\t' then ['\\', 't']
  else if c.toNat < 0x20 ∨ c.toNat = 0x7f ∨ c.toNat = 0x2028 ∨ c.toNat = 0x2029 then
    codeEscape c
  else [c]

/-- The characters of a string in quotes. -/
def quoteChars (chars : List Char) : List Char :=
  '"' :: (chars.flatMap escapeChar ++ ['"'])

/-- A character that an identifier may start with. -/
def isNameStart (c : Char) : Bool :=
  c.isAlpha || c == '_' || c == '$'

/-- Whether a key can stand bare. -/
def isName : List Char → Bool
  | [] => false
  | c :: rest => isNameStart c && rest.all fun c => isNameStart c || c.isDigit

/-- The characters of a key. -/
def keyChars (key : String) : List Char :=
  if isName key.toList then key.toList else quoteChars key.toList

/-! ## Scalars -/

/-- The characters of a literal that is no container. -/
def Scalar.chars : Scalar → List Char
  | string s => quoteChars s.toList
  | number x => (NumberStyle.source.text x).toList
  | boolean b => (if b then "true" else "false").toList
  | undefined => "undefined".toList
  | null => "null".toList
  | bigInt digits => digits.toList ++ ['n']
  | verbatim e => e.text.toList

/-! ## Layouts -/

/-- How the items of a container are spread. -/
inductive Layout where
  /-- All on one line. -/
  | compact
  /-- One item a line, a level indented by `indent`. -/
  | lines (indent : String)

namespace Layout

/-- The layout of pretty output. -/
def pretty : Layout :=
  lines "    "

/-- A line break with the indentation of a level; nothing on one line. -/
def lineBreak (level : Nat) : Layout → List Char
  | compact => []
  | lines indent => '\n' :: (List.replicate level indent.toList).flatten

/-- What stands between an opening or closing brace and the fields: a blank on
one line, else a line break. -/
def bracePad (level : Nat) : Layout → List Char
  | compact => [' ']
  | layout => layout.lineBreak level

/-- What stands between two items. -/
def separator (level : Nat) : Layout → List Char
  | compact => [',', ' ']
  | layout => ',' :: layout.lineBreak level

end Layout

/-! ## Literals

Each function gets the characters that follow and puts its own before them, so
that nothing is copied however deep a literal nests. -/

mutual

/-- A literal at a nesting level, and the characters after it. -/
def charsAt (layout : Layout) (level : Nat) : Document Scalar → List Char → List Char
  | .leaf value, after => value.chars ++ after
  | .array items, after =>
      if items.isEmpty then
        '[' :: ']' :: after
      else
        '[' :: (layout.lineBreak (level + 1) ++
          itemChars layout (level + 1) items (layout.lineBreak level ++ ']' :: after))
  | .object fields, after =>
      if fields.isEmpty then
        '\x7b' :: '\x7d' :: after
      else
        '\x7b' :: (layout.bracePad (level + 1) ++
          fieldChars layout (level + 1) fields (layout.bracePad level ++ '\x7d' :: after))

/-- Items with separators between them, and the characters after them. -/
def itemChars (layout : Layout) (level : Nat) :
    List (Document Scalar) → List Char → List Char
  | [], after => after
  | item :: rest, after =>
      charsAt layout level item
        ((if rest.isEmpty then [] else layout.separator level) ++
          itemChars layout level rest after)

/-- Fields with separators between them, and the characters after them. -/
def fieldChars (layout : Layout) (level : Nat) :
    List (String × Document Scalar) → List Char → List Char
  | [], after => after
  | (key, value) :: rest, after =>
      keyChars key ++ ':' :: ' ' :: charsAt layout level value
        ((if rest.isEmpty then [] else layout.separator level) ++
          fieldChars layout level rest after)

end

/-- The text of a literal in a layout. -/
def print (layout : Layout) (literal : Literal) : String :=
  String.ofList (charsAt layout 0 literal [])

end TypeDescription.Literal
