import TypeDescription.Json.Numeral
import TypeDescription.Json.Quoted

/-!
# JSON texts as far as they can be read

A `Source` is the tree of a JSON text up to the first place where its grammar
is broken.  What a reader meets first, a broken place or a value of the wrong
kind, decides how reading fails; a `Source` therefore keeps every fault at its
place instead of failing as a whole.

Some faults count only for a value that is wanted: a lone surrogate, a number
too large for a double, containers nested too deep.  A value that is passed
over is scanned more loosely.  Each leaf holds both readings.

* `scan` makes the tree of a text.
* `Source.read` reads a whole tree, `Source.skip` passes over it.
* `Source.ofJson` is the tree of a value that is already there.
-/

namespace TypeDescription.Json

/-- The tree of a JSON text up to its first broken place. -/
inductive Source where
  /-- A string: its content when wanted, the fault met when passed over. -/
  | text (content : Except Fault String) (skipped : Option Fault)
  /-- Another scalar, likewise. -/
  | scalar (content : Except Fault Scalar) (skipped : Option Fault)
  /-- The items read, and the fault met in place of the closing bracket. -/
  | array (items : List Source) (stop : Option Fault)
  /-- The fields read, and the fault met in place of the closing brace. -/
  | object (fields : List (Except Fault String × Source)) (stop : Option Fault)
  /-- Not even the start of a value, but a fault. -/
  | broken (fault : Fault)

instance : Inhabited Source :=
  ⟨.broken default⟩

/-- What a scan found, and the text after it unless the scan stopped. -/
abbrev Scan (α : Type) : Type :=
  α × Option (List Char)

/-! ## Scalars -/

/-- Drop the blanks that JSON allows between tokens. -/
def skipBlanks (cs : List Char) : List Char :=
  cs.dropWhile fun c => c == ' ' || c == '\n' || c == '\t' || c == '\r'

/-- A scan that stopped within a number.  The text may have ended; a number
that is passed over does not tell that apart. -/
def stoppedNumber (rest : List Char) : Scan Source :=
  (.scalar (.error (if rest.isEmpty then .truncated else .malformed))
    (some .malformed), none)

/-- A number that is complete. -/
def finishedNumber (negative : Bool) (whole : List Char) (fraction : Option (List Char))
    (exponent : Option Int) (rest : List Char) : Scan Source :=
  (.scalar ((Numeral.ofParts negative whole fraction exponent).map .number) none,
    some rest)

/-- The exponent of a number, if there is one, and its end. -/
def scanExponent (negative : Bool) (whole : List Char) (fraction : Option (List Char))
    (rest : List Char) : Scan Source :=
  match rest with
  | c :: after =>
      if c == 'e' || c == 'E' then
        let (minus, after) :=
          match after with
          | '+' :: after => (false, after)
          | '-' :: after => (true, after)
          | after => (false, after)
        let (digits, rest) := after.span Char.isDigit
        if digits.isEmpty then
          stoppedNumber rest
        else
          let value : Int := digits.foldl (fun n d => n * 10 + digitValue d) 0
          finishedNumber negative whole fraction (some (if minus then -value else value))
            rest
      else
        finishedNumber negative whole fraction none rest
  | [] => finishedNumber negative whole fraction none rest

/-- A number after its sign. -/
def scanNumber (negative : Bool) (cs : List Char) : Scan Source :=
  let (whole, rest) := cs.span Char.isDigit
  if whole.isEmpty then
    stoppedNumber rest
  else if whole.head? = some '0' ∧ 1 < whole.length then
    (.scalar (.error .malformed) (some .malformed), none)
  else
    match rest with
    | '.' :: after =>
        let (fraction, rest) := after.span Char.isDigit
        if fraction.isEmpty then stoppedNumber rest
        else scanExponent negative whole (some fraction) rest
    | _ => scanExponent negative whole none rest

/-- The letters of `null`, `true` or `false` after the first.  The first letter
alone makes it a scalar, whatever follows. -/
def scanWord (value : Scalar) : List Char → List Char → Scan Source
  | [], rest => (.scalar (.ok value) none, some rest)
  | _ :: _, [] => (.scalar (.error .truncated) (some .truncated), none)
  | expected :: more, c :: rest =>
      if c = expected then scanWord value more rest
      else (.scalar (.error .malformed) (some .malformed), none)

/-- Read a string after its opening quote, with the text after it. -/
def scanQuoted (cs : List Char) :
    Except Fault String × Except Fault (List Char) :=
  ((unquote cs).map fun found => String.ofList found.1, skipQuoted cs)

/-- A string value. -/
def scanText (cs : List Char) : Scan Source :=
  match scanQuoted cs with
  | (content, .ok rest) => (.text content none, some rest)
  | (content, .error fault) => (.text content (some fault), none)

/-! ## Containers -/

mutual

/-- One value. -/
def scanValue : Nat → List Char → Scan Source
  | 0, _ => (.broken .malformed, none)
  | fuel + 1, cs =>
      match skipBlanks cs with
      | [] => (.broken .truncated, none)
      | '"' :: rest => scanText rest
      | '[' :: rest =>
          let ((items, stop), after) := scanItems fuel true rest
          (.array items stop, after)
      | '\x7b' :: rest =>
          let ((fields, stop), after) := scanFields fuel true rest
          (.object fields stop, after)
      | 'n' :: rest => scanWord .null ['u', 'l', 'l'] rest
      | 't' :: rest => scanWord (.bool true) ['r', 'u', 'e'] rest
      | 'f' :: rest => scanWord (.bool false) ['a', 'l', 's', 'e'] rest
      | '-' :: rest => scanNumber true rest
      | c :: rest =>
          if c.isDigit then scanNumber false (c :: rest) else (.broken .malformed, none)

/-- The items of an array up to its closing bracket. -/
def scanItems : Nat → Bool → List Char → Scan (List Source × Option Fault)
  | 0, _, _ => (([], some .malformed), none)
  | fuel + 1, first, cs =>
      match skipBlanks cs with
      | [] => (([], some .truncated), none)
      | ']' :: rest => (([], none), some rest)
      | c :: rest =>
          if first || c == ',' then
            let start := if first then c :: rest else rest
            match scanValue fuel start with
            | (item, none) => (([item], none), none)
            | (item, some rest) =>
                let ((items, stop), after) := scanItems fuel false rest
                ((item :: items, stop), after)
          else
            (([], some .malformed), none)

/-- The fields of an object up to its closing brace.  After a comma there is a
further field, though the text may break before its name. -/
def scanFields : Nat → Bool → List Char →
    Scan (List (Except Fault String × Source) × Option Fault)
  | 0, _, _ => (([], some .malformed), none)
  | fuel + 1, first, cs =>
      match skipBlanks cs with
      | [] => (([], some .truncated), none)
      | '\x7d' :: rest => (([], none), some rest)
      | c :: rest =>
          if first || c == ',' then
            let nameless (fault : Fault) :
                Scan (List (Except Fault String × Source) × Option Fault) :=
              if first then (([], some fault), none)
              else (([(.error fault, .broken fault)], none), none)
            match if first then c :: rest else skipBlanks rest with
            | '"' :: rest =>
                match scanQuoted rest with
                | (key, .error fault) => (([(key, .broken fault)], none), none)
                | (key, .ok rest) =>
                    match skipBlanks rest with
                    | ':' :: rest =>
                        match scanValue fuel rest with
                        | (value, none) => (([(key, value)], none), none)
                        | (value, some rest) =>
                            let ((fields, stop), after) := scanFields fuel false rest
                            (((key, value) :: fields, stop), after)
                    | [] => (([(key, .broken .truncated)], none), none)
                    | _ => (([(key, .broken .malformed)], none), none)
            | [] => nameless .truncated
            | _ => nameless .malformed
          else
            (([], some .malformed), none)

end

/-- The tree of a text, and the fault after its end: nothing but blanks may
follow.  Each step of the scan takes a character or opens a container, so the
fuel is enough. -/
def scan (text : String) : Source × Option Fault :=
  let cs := text.toList
  match scanValue (2 * cs.length + 2) cs with
  | (source, none) => (source, none)
  | (source, some rest) =>
      (source, if (skipBlanks rest).isEmpty then none else some .malformed)

/-! ## Trees -/

namespace Source

/-- Fail with the fault in place of a closing bracket, if there is one. -/
def finish : Option Fault → Except Fault Unit
  | none => .ok ()
  | some fault => .error fault

mutual

/-- The fault met when a value is passed over. -/
def skip : Source → Option Fault
  | text _ skipped => skipped
  | scalar _ skipped => skipped
  | array items stop => skipItems items <|> stop
  | object fields stop => skipFields fields <|> stop
  | broken fault => some fault

/-- The fault met when items are passed over. -/
def skipItems : List Source → Option Fault
  | [] => none
  | item :: rest => skip item <|> skipItems rest

/-- The fault met when fields are passed over. -/
def skipFields : List (Except Fault String × Source) → Option Fault
  | [] => none
  | (_, value) :: rest => skip value <|> skipFields rest

end

mutual

/-- Read a whole value whose containers nest at most `room` deep. -/
def read (room : Nat) : Source → Except Fault Json
  | text content _ => content.map .string
  | scalar content _ => content.map .leaf
  | array items stop =>
      match room with
      | 0 => .error .malformed
      | room + 1 => do
          let items ← readItems room items
          finish stop
          return .array items
  | object fields stop =>
      match room with
      | 0 => .error .malformed
      | room + 1 => do
          let fields ← readFields room fields
          finish stop
          return .object fields
  | broken fault => .error fault

/-- Read items in order. -/
def readItems (room : Nat) : List Source → Except Fault (List Json)
  | [] => .ok []
  | item :: rest => do
      let item ← read room item
      let rest ← readItems room rest
      return item :: rest

/-- Read fields in order. -/
def readFields (room : Nat) :
    List (Except Fault String × Source) → Except Fault (List (String × Json))
  | [] => .ok []
  | (key, value) :: rest => do
      let key ← key
      let value ← read room value
      let rest ← readFields room rest
      return (key, value) :: rest

end

mutual

/-- The tree of a value, which has no faults. -/
def ofJson : Document Scalar → Source
  | .leaf (.string s) => text (.ok s) none
  | .leaf value => scalar (.ok value) none
  | .array items => array (ofItems items) none
  | .object fields => object (ofFields fields) none

/-- The trees of items. -/
def ofItems : List (Document Scalar) → List Source
  | [] => []
  | item :: rest => ofJson item :: ofItems rest

/-- The trees of fields. -/
def ofFields : List (String × Document Scalar) → List (Except Fault String × Source)
  | [] => []
  | (key, value) :: rest => (.ok key, ofJson value) :: ofFields rest

end

end Source

/-- How deep the containers of a text may nest. -/
def maxNesting : Nat := 127

/-- Read a text with a reader of trees.  Nothing may follow the value. -/
def readText {α : Type} (reader : Source → Except Fault α) (text : String) :
    Except Fault α := do
  let (source, trailing) := scan text
  let value ← reader source
  Source.finish trailing
  return value

/-- Read a text as a value.  The last value of a repeated name counts. -/
def parse (text : String) : Except Fault Json :=
  (readText (Source.read maxNesting) text).map Document.merge

end TypeDescription.Json
