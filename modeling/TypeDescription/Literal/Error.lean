import TypeDescription.Graph.Error
import TypeDescription.TypeId

/-!
# What can fail when a literal is made
-/

namespace TypeDescription

/-- Why no literal could be made. -/
inductive LiteralError where
  /-- A type whose reflection never finished. -/
  | incompleteType (id : TypeId)
  /-- The data nests deeper than the limit. -/
  | depthExceeded (limit : UInt32)
  /-- The data could not be encoded. -/
  | codec (error : CodecError)
deriving DecidableEq

/-- The report of an error. -/
def LiteralError.message : LiteralError → String
  | incompleteType id => "type " ++ id.text ++ " was never fully reflected"
  | depthExceeded limit =>
      "type nesting exceeds the maximum literal depth of " ++ toString limit.toNat
  | codec error => error.message

end TypeDescription
