import TypeDescription.CommandLine.Describe

/-!
# The program

Reads the fixture that the arguments name and writes the literals of its
classes.
-/

namespace TypeDescription.CommandLine

/-- The number of an error, which may be given with the opposite sign. -/
def errorNumber (code : UInt32) : UInt32 :=
  if code < 0x80000000 then code else -code

/-- The error of a file that could not be read. -/
def FileError.ofSystem : IO.Error → FileError
  | .noFileOrDirectory _ _ _ => .missing
  | .permissionDenied _ _ _ => .denied
  | .inappropriateType _ code _ =>
      if errorNumber code = 20 then .notDirectory else .isDirectory
  | .invalidArgument _ code details =>
      if errorNumber code = 36 then .nameTooLong else .other details
  | .userError _ => .notText
  | error => .other (toString error)

/-- The text of a file, or the error that keeps it from being read. -/
def readFixture (path : String) : IO (Except FileError String) := do
  try
    return .ok (← IO.FS.readFile path)
  catch error =>
    return .error (.ofSystem error)

/-- What is sent to the streams for some arguments. -/
def runArguments (arguments : List String) : IO Streams := do
  match Invocation.parse arguments with
  | .error error => return error.streams
  | .ok .help => return helpStreams
  | .ok .version => return versionStreams
  | .ok (.describe options) =>
      return (describe options (← readFixture options.fixture)).streams

end TypeDescription.CommandLine

def main (arguments : List String) : IO UInt32 := do
  let streams ← TypeDescription.CommandLine.runArguments arguments
  (← IO.getStdout).putStr streams.output
  (← IO.getStderr).putStr streams.errors
  return streams.exitCode
