import TypeDescription.CommandLine.Arguments
import TypeDescription.CommandLine.Files
import TypeDescription.Fixture.Query
import TypeDescription.Literal.Generate
import TypeDescription.Literal.Printer
import TypeDescription.Reflected.Reflect

/-!
# Describing the classes of a fixture

`describe` loads a fixture, makes the literal of each class that is asked for,
and writes all of them.  The first class without a literal ends the run, and
then nothing is written but the warnings of the classes before it.
-/

namespace TypeDescription.CommandLine

/-! ## Failures -/

/-- Why a class has no literal. -/
inductive ClassError where
  | reflect (error : ReflectError)
  | literal (error : LiteralError)
deriving DecidableEq

/-- The report of an error. -/
def ClassError.message : ClassError → String
  | reflect error => error.message
  | literal error => error.message

/-- Why a run failed. -/
inductive Failure where
  | unreadable (path : String) (error : FileError)
  | invalidFixture (path : String) (error : FixtureError)
  | noClass (name path : String)
  | classFailed (name : String) (error : ClassError)
deriving DecidableEq

/-- Indent every line of a text. -/
def indented (text : String) : String :=
  String.ofList (' ' :: ' ' :: ' ' :: ' ' :: text.toList.flatMap fun c =>
    if c = '\n' then ['\n', ' ', ' ', ' ', ' '] else [c])

/-- The report of something that failed for a reason. -/
def reportWithCause (what cause : String) : String :=
  "Error: " ++ what ++ "\n\nCaused by:\n" ++ indented cause ++ "\n"

/-- The report of a failure. -/
def Failure.report : Failure → String
  | unreadable path error => reportWithCause ("failed to read " ++ path) error.message
  | invalidFixture path error => reportWithCause ("invalid fixture " ++ path) error.message
  | noClass name path => "Error: no class named \x60" ++ name ++ "\x60 in " ++ path ++ "\n"
  | classFailed name error =>
      reportWithCause ("failed to describe class \x60" ++ name ++ "\x60") error.message

/-! ## Classes -/

/-- The name under which a class is described. -/
def className (p : Program) (id : TypeId) : String :=
  match p.symbolOfType? id with
  | some symbol => p.symbolName symbol
  | none => "Type" ++ id.text

/-- The classes to describe. -/
def chosenClasses (p : Program) (o : Options) : Except Failure (List TypeId) :=
  match o.className with
  | none => .ok p.classes
  | some name =>
      match p.declaredType? name with
      | some id => .ok [id]
      | none => .error (.noClass name o.fixture)

/-- The limits on literals. -/
def literalLimits (o : Options) : LiteralLimits :=
  { LiteralLimits.standard with depth := o.maxDepth.getD LiteralLimits.standard.depth }

/-- The literal of a class, and the warnings on the way.  A class that cannot
be reflected gives no warnings. -/
def describeClass (p : Program) (o : Options) (name : String) (id : TypeId) :
    Except ClassError Literal × List Warning :=
  let request : Request := ⟨0, ⟨o.fixture, 0, 0, "class " ++ name⟩⟩
  let limit := o.maxDepth.getD DepthProfile.reflection.limit
  let answer := (Reflector.ofLimit limit).reflectClass p.host request id
  match answer.outcome with
  | .error error => (.error (.reflect error), [])
  | .ok node =>
      ((answer.reflector.store.literal (literalLimits o) node none).mapError .literal,
        answer.report.warnings)

/-- The literals of classes in order, up to the first failure, and the
warnings on the way. -/
def describeClasses (p : Program) (o : Options) :
    List TypeId → Except Failure (List (String × Literal)) × List Warning
  | [] => (.ok [], [])
  | id :: rest =>
      let name := className p id
      match describeClass p o name id with
      | (.error error, warnings) => (.error (.classFailed name error), warnings)
      | (.ok literal, warnings) =>
          let (others, more) := describeClasses p o rest
          (others.map fun others => (name, literal) :: others, warnings ++ more)

/-! ## Output -/

/-- A constant for each class. -/
def sourceText (pretty : Bool) (literals : List (String × Literal)) : String :=
  let layout := if pretty then Literal.Layout.pretty else .compact
  String.join (literals.map fun (name, literal) =>
    "const " ++ name ++ " = " ++ literal.print layout ++ ";\n")

/-- One object with a field for each class.  Of classes that share a name the
last one counts, at the place of the first. -/
def jsonText (literals : List (String × Literal)) : String :=
  let fields := literals.map fun (name, literal) => (name, literal.toJson)
  Json.pretty (Document.merge (.object fields)) ++ "\n"

/-- What a run writes, or why it failed, and the warnings on the way. -/
structure Run where
  output : Except Failure String
  warnings : List Warning

/-- A run that fails at once. -/
def Run.failed (failure : Failure) : Run :=
  ⟨.error failure, []⟩

/-- Describe the classes of a loaded fixture. -/
def describeProgram (o : Options) (p : Program) : Run :=
  match chosenClasses p o with
  | .error failure => .failed failure
  | .ok classes =>
      let (literals, warnings) := describeClasses p o classes
      ⟨literals.map fun literals =>
        match o.format with
        | .source => sourceText o.pretty literals
        | .json => jsonText literals, warnings⟩

/-- Describe the classes of a fixture, given the text of its file or the
reason why there is none. -/
def describe (o : Options) (text : Except FileError String) : Run :=
  match text with
  | .error error => .failed (.unreadable o.fixture error)
  | .ok text =>
      match Program.ofText text with
      | .error error => .failed (.invalidFixture o.fixture error)
      | .ok p => describeProgram o p

/-! ## Streams -/

/-- The exit code of a run, its output and its error output. -/
structure Streams where
  exitCode : UInt32
  output : String
  errors : String
deriving DecidableEq

/-- Warnings, one a line. -/
def warningLines (warnings : List Warning) : String :=
  String.join (warnings.map fun warning => warning.text ++ "\n")

/-- What a run sends to its streams. -/
def Run.streams (r : Run) : Streams :=
  match r.output with
  | .ok output => ⟨0, output, warningLines r.warnings⟩
  | .error failure => ⟨1, "", warningLines r.warnings ++ failure.report⟩

/-- The text of the version. -/
def versionText : String :=
  "tsr 0.1.0\n"

/-- How the program is called. -/
def usageText : String :=
  "Usage: tsr [OPTIONS] <FIXTURE>\n"

/-- The text of the help. -/
def helpText : String :=
  "Print literal type descriptions for the classes of a type fixture\n\n" ++ usageText ++
    "\nArguments:\n" ++
    "  <FIXTURE>  JSON fixture describing the checked program's types and symbols\n" ++
    "\nOptions:\n" ++
    "      --class <CLASS>          Only emit this class\n" ++
    "      --max-depth <MAX_DEPTH>  Nesting limit for reflection and literal generation\n" ++
    "      --format <FORMAT>        [default: js] [possible values: js, json]\n" ++
    "      --pretty                 Spread js output over multiple lines\n" ++
    "  -h, --help                   Print help\n" ++
    "  -V, --version                Print version\n"

/-- What is sent to the streams when the arguments are wrong. -/
def UsageError.streams (e : UsageError) : Streams :=
  ⟨2, "", "error: " ++ e.message ++ "\n\n" ++ usageText⟩

/-- What is sent to the streams when help is asked for. -/
def helpStreams : Streams :=
  ⟨0, helpText, ""⟩

/-- What is sent to the streams when the version is asked for. -/
def versionStreams : Streams :=
  ⟨0, versionText, ""⟩

end TypeDescription.CommandLine
