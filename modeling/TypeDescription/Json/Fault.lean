/-!
# What can be wrong with a JSON text
-/

namespace TypeDescription.Json

/-- The first problem met in a text, read from the front. -/
inductive Fault where
  /-- The text breaks the grammar or exceeds a limit. -/
  | malformed
  /-- The text ends too early. -/
  | truncated
  /-- The text is well formed so far, but the value is not the wanted one. -/
  | mismatch
deriving DecidableEq, Inhabited

end TypeDescription.Json
