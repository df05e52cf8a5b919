import TypeDescription.Json.Quoted

/-!
# Paths

A path leads from the root of a graph to one of its values.  Its text is `$`
followed by steps in brackets: a decimal index, or a key as a JSON string.

* `Path.text` writes a path.
* `Path.parse?` reads one; what does not match the grammar is no path.  An
  index of `2 ^ 64` or more is read as a key of the same digits.
-/

namespace TypeDescription

/-- One step of a path. -/
inductive Step where
  /-- The element at an index. -/
  | index (i : UInt64)
  /-- The property with a name. -/
  | key (name : String)
deriving DecidableEq

/-- The steps from the root. -/
abbrev Path : Type :=
  List Step

namespace Step

/-- The characters of a step. -/
def chars : Step → List Char
  | index i => '[' :: (Nat.toDigits 10 i.toNat ++ [']'])
  | key name => '[' :: (Json.quoteChars name.toList ++ [']'])

/-- The text of a step. -/
def text (s : Step) : String :=
  String.ofList s.chars

/-- The name that a step stands for where names are wanted. -/
def name : Step → String
  | index i => toString i.toNat
  | key name => name

/-- The step that a run of digits denotes. -/
def ofDigits (digits : List Char) : Step :=
  let n := digits.foldl (fun n c => n * 10 + (c.toNat - '0'.toNat)) 0
  if n < 0x10000000000000000 then index (UInt64.ofNat n) else key (String.ofList digits)

/-- The step to the element at a position of a list.  A position of `2 ^ 64` or
more, which no list in memory has, is named by its digits. -/
def ofIndex (i : Nat) : Step :=
  if i < 0x10000000000000000 then index (UInt64.ofNat i)
  else key (String.ofList (Nat.toDigits 10 i))

/-- The characters that may follow a backslash in a quoted key, apart from `u`. -/
def escapeLetters : List Char :=
  ['\\', '"', '/', 'b', 'f', 'n', 'r', 't']

/-- Find the end of a quoted key: the characters before its closing quote, and the
text after it.  The scan only keeps an escaped quote from ending the key.  It takes
any four letters or digits after `\u` and leaves it to the reading of the key to
refuse those that write no character. -/
def scanKey? : List Char → Option (List Char × List Char)
  | [] => none
  | '"' :: rest => some ([], rest)
  | ['\\'] => none
  | '\\' :: 'u' :: a :: b :: c :: d :: rest =>
      if [a, b, c, d].all Char.isAlphanum then
        (scanKey? rest).map (Prod.map (['\\', 'u', a, b, c, d] ++ ·) id)
      else
        none
  | '\\' :: c :: rest =>
      if escapeLetters.contains c then
        (scanKey? rest).map (Prod.map (['\\', c] ++ ·) id)
      else
        none
  | c :: rest =>
      if c.toNat < 0x20 then none else (scanKey? rest).map (Prod.map (c :: ·) id)

/-- Read a key after its opening quote, with the text after the closing one.  What
the scan found must be a JSON string as a whole. -/
def parseKey? (cs : List Char) : Option (Step × List Char) :=
  match scanKey? cs with
  | none => none
  | some (quoted, rest) =>
      match Json.unquote (quoted ++ ['"']) with
      | .ok (chars, []) => some (key (String.ofList chars), rest)
      | _ => none

/-- Read a run of digits, with the text after it. -/
def parseIndex? (cs : List Char) : Option (Step × List Char) :=
  let (digits, rest) := cs.span Char.isDigit
  if digits.isEmpty then none else some (ofDigits digits, rest)

/-- Read a step after its opening bracket, with the text after the closing
one. -/
def parse? (cs : List Char) : Option (Step × List Char) :=
  let found :=
    match cs with
    | '"' :: rest => parseKey? rest
    | cs => parseIndex? cs
  match found with
  | some (step, ']' :: rest) => some (step, rest)
  | _ => none

end Step

namespace Path

/-- The text of a path. -/
def text (p : Path) : String :=
  String.ofList ('$' :: p.flatMap Step.chars)

/-- Read steps up to the end of the text, at most `fuel` of them. -/
def parseSteps : Nat → List Char → Option Path
  | _, [] => some []
  | 0, _ :: _ => none
  | fuel + 1, c :: rest =>
      if c = '[' then
        match Step.parse? rest with
        | some (step, rest) => (parseSteps fuel rest).map (step :: ·)
        | none => none
      else
        none

/-- The path that a text writes.  A step takes at least one character, so the
length of the text is enough fuel. -/
def parse? (text : String) : Option Path :=
  match text.toList with
  | '$' :: rest => parseSteps rest.length rest
  | _ => none

end Path

end TypeDescription
