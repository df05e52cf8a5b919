import TypeDescription.Json.Printer

/-!
# Warnings

A `Warning` is a message about the declaration that asked for a description.
It never stops the work.
-/

namespace TypeDescription

/-- A place in the described program.  Lines and characters count from
zero. -/
structure Location where
  file : String
  line : UInt32
  character : UInt32
  /-- The text of the declaration at that place. -/
  sourceText : String
deriving DecidableEq, Inhabited

/-- A message at a place. -/
structure Warning where
  message : String
  location : Location
deriving DecidableEq, Inhabited

namespace Location

/-- The fields in JSON. -/
def fields (l : Location) : List (String × Json) :=
  [("file", Json.string l.file), ("line", Json.integer l.line.toNat),
    ("character", Json.integer l.character.toNat),
    ("source_text", Json.string l.sourceText)]

def toJson (l : Location) : Json :=
  .object l.fields

end Location

namespace Warning

/-- The line that reports a warning. -/
def text (w : Warning) : String :=
  "tsr: " ++ w.message ++ ": " ++ w.location.file ++ " " ++
    toString w.location.line.toNat ++ ":" ++ toString w.location.character.toNat ++
    ": " ++ w.location.sourceText

/-- The JSON form, with the message before the fields of the place. -/
def toJson (w : Warning) : Json :=
  .object (("message", Json.string w.message) :: w.location.fields)

end Warning

end TypeDescription
