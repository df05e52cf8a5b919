/-!
# Identities of types
-/

namespace TypeDescription

/-- The identity of a type of the described program.  Two types with one
identity are the same type. -/
structure TypeId where
  value : UInt32
deriving DecidableEq, Inhabited

namespace TypeId

/-- The identity of types that no program declares. -/
def synthetic : TypeId :=
  ⟨0xffffffff⟩

def isSynthetic (id : TypeId) : Bool :=
  id == synthetic

/-- How an identity is written in messages. -/
def text (id : TypeId) : String :=
  if id.isSynthetic then "<synthetic>" else toString id.value.toNat

end TypeId

end TypeDescription
