/-!
# What can fail in a walk over a graph
-/

namespace TypeDescription

/-- A value that JSON cannot express. -/
inductive Unserializable where
  | bigInteger
  | opaqueExpression
deriving DecidableEq

/-- Why a walk over a graph failed. -/
inductive CodecError where
  /-- The graph nests deeper than the limit. -/
  | depthExceeded (limit : UInt32)
  /-- A reference path leads to no value. -/
  | unresolvedReference (path : String)
  /-- A value has no JSON form. -/
  | notSerializable (what : Unserializable)
deriving DecidableEq

/-- The noun for such a value. -/
def Unserializable.noun : Unserializable → String
  | bigInteger => "a big integer"
  | opaqueExpression => "an opaque expression"

/-- The report of an error. -/
def CodecError.message : CodecError → String
  | depthExceeded limit =>
      "graph nesting exceeds the maximum depth of " ++ toString limit.toNat
  | unresolvedReference path =>
      "reference path \x60" ++ path ++ "\x60 does not resolve against the root"
  | notSerializable what => what.noun ++ " cannot be represented as JSON"

end TypeDescription
