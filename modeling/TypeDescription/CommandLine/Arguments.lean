/-!
# Command-line arguments

`Invocation.parse` reads the arguments from left to right.  The first argument
that asks for help or the version, or that is wrong, decides.
-/

namespace TypeDescription.CommandLine

/-- How the literals are written. -/
inductive Format where
  /-- One constant for each class. -/
  | source
  /-- One JSON object with a field for each class. -/
  | json
deriving DecidableEq, Inhabited

/-- What is to be described, and how. -/
structure Options where
  fixture : String
  /-- The only class to describe. -/
  className : Option String
  /-- The limit on nesting, in place of the standard ones. -/
  maxDepth : Option UInt32
  format : Format
  /-- Whether constants are spread over lines. -/
  pretty : Bool
deriving DecidableEq, Inhabited

/-- What the arguments ask for. -/
inductive Invocation where
  | describe (options : Options)
  | help
  | version
deriving DecidableEq

/-- What is wrong with the arguments. -/
inductive UsageError where
  | unexpected (argument : String)
  | missingValue (option : String)
  | invalidValue (option value : String)
  | repeated (option : String)
  | missingFixture
deriving DecidableEq

/-- The report of an error. -/
def UsageError.message : UsageError → String
  | unexpected argument => "unexpected argument '" ++ argument ++ "' found"
  | missingValue option => "a value is required for '" ++ option ++ "' but none was supplied"
  | invalidValue option value => "invalid value '" ++ value ++ "' for '" ++ option ++ "'"
  | repeated option => "the argument '" ++ option ++ "' cannot be used multiple times"
  | missingFixture => "the following required arguments were not provided: <FIXTURE>"

/-- The options read so far. -/
structure Partial where
  fixture : Option String
  className : Option String
  maxDepth : Option UInt32
  format : Option Format
  pretty : Bool

namespace Partial

/-- No options. -/
def empty : Partial :=
  ⟨none, none, none, none, false⟩

/-- An argument that is no option: the fixture. -/
def addFixture (p : Partial) (argument : String) : Except UsageError Partial :=
  if p.fixture.isSome then .error (.unexpected argument)
  else if argument.isEmpty then .error (.invalidValue "<FIXTURE>" argument)
  else .ok { p with fixture := some argument }

/-- A decimal number with an optional sign. -/
def decimal? (text : String) : Option Int :=
  let (minus, digits) :=
    match text.toList with
    | '+' :: digits => (false, digits)
    | '-' :: digits => (true, digits)
    | digits => (false, digits)
  if !digits.isEmpty && digits.all Char.isDigit then
    let n : Int := digits.foldl (fun n c => n * 10 + (c.toNat - '0'.toNat)) 0
    some (if minus then -n else n)
  else
    none

/-- An option with a value. -/
def addValue (p : Partial) (option value : String) : Except UsageError Partial :=
  match option with
  | "--class" =>
      if p.className.isSome then .error (.repeated option)
      else .ok { p with className := some value }
  | "--max-depth" =>
      if p.maxDepth.isSome then .error (.repeated option)
      else
        match decimal? value with
        | some n =>
            if 0 ≤ n ∧ n.toNat < 0x100000000 then
              .ok { p with maxDepth := some (UInt32.ofNat n.toNat) }
            else
              .error (.invalidValue option value)
        | none => .error (.invalidValue option value)
  | "--format" =>
      if p.format.isSome then .error (.repeated option)
      else
        match value with
        | "js" => .ok { p with format := some .source }
        | "json" => .ok { p with format := some .json }
        | _ => .error (.invalidValue option value)
  | _ => .error (.unexpected option)

/-- The option for spread output. -/
def addPretty (p : Partial) : Except UsageError Partial :=
  if p.pretty then .error (.repeated "--pretty") else .ok { p with pretty := true }

/-- The options when the arguments end. -/
def finish (p : Partial) : Except UsageError Invocation :=
  match p.fixture with
  | some fixture =>
      .ok (.describe ⟨fixture, p.className, p.maxDepth, p.format.getD .source, p.pretty⟩)
  | none => .error .missingFixture

end Partial

/-- Whether an argument can be the value of the option before it: it must not
look like an option itself. -/
def isValue (argument : String) : Bool :=
  argument == "-" || argument.toList.head? != some '-'

/-- The options that take a value. -/
def valueOptions : List String :=
  ["--class", "--max-depth", "--format"]

/-- An argument of the form `--name=value` in its two parts. -/
def splitOption (argument : String) : String × Option String :=
  let cs := argument.toList
  match cs.dropWhile fun c => c != '=' with
  | [] => (argument, none)
  | _ :: value =>
      (String.ofList (cs.takeWhile fun c => c != '='), some (String.ofList value))

/-- Read arguments that cannot be options. -/
def parsePlain (p : Partial) (arguments : List String) : Except UsageError Invocation := do
  let p ← arguments.foldlM Partial.addFixture p
  p.finish

/-- Read arguments after the options read so far. -/
def parseFrom (p : Partial) : List String → Except UsageError Invocation
  | [] => p.finish
  | argument :: rest =>
      match argument.toList with
      | ['-', '-'] => parsePlain p rest
      | '-' :: '-' :: _ =>
          match splitOption argument with
          | ("--help", none) => .ok .help
          | ("--version", none) => .ok .version
          | ("--pretty", none) => do parseFrom (← p.addPretty) rest
          | (option, some value) => do parseFrom (← p.addValue option value) rest
          | (option, none) =>
              if valueOptions.contains option then
                match rest with
                | value :: rest =>
                    if isValue value then do parseFrom (← p.addValue option value) rest
                    else .error (.missingValue option)
                | [] => .error (.missingValue option)
              else
                .error (.unexpected argument)
      | '-' :: 'h' :: _ => .ok .help
      | '-' :: 'V' :: _ => .ok .version
      | '-' :: _ :: _ => .error (.unexpected argument)
      | _ => do parseFrom (← p.addFixture argument) rest

/-- What the arguments ask for. -/
def Invocation.parse (arguments : List String) : Except UsageError Invocation :=
  parseFrom .empty arguments

end TypeDescription.CommandLine
