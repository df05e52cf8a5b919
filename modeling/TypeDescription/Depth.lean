/-!
# Nesting limits

Every walk over nested data has a limit on how deep it may go, so that it ends
on any input.  A `DepthCounter` counts the levels entered and not left, and
remembers whether the limit ever stopped an entry.
-/

namespace TypeDescription

/-- The limits of the three kinds of walk. -/
inductive DepthProfile where
  | reflection
  | literal
  | codec
deriving DecidableEq

/-- The limit of a kind of walk. -/
def DepthProfile.limit : DepthProfile → UInt32
  | reflection => 256
  | literal => 512
  | codec => 1024

/-- The levels entered so far. -/
structure DepthCounter where
  limit : UInt32
  depth : UInt32
  exceeded : Bool
deriving DecidableEq

namespace DepthCounter

/-- A counter that has entered nothing. -/
def ofLimit (limit : UInt32) : DepthCounter :=
  ⟨limit, 0, false⟩

/-- Enter a level, unless the limit is reached. -/
def enter (c : DepthCounter) : Bool × DepthCounter :=
  if c.depth < c.limit then (true, { c with depth := c.depth + 1 })
  else (false, { c with exceeded := true })

/-- Leave a level. -/
def leave (c : DepthCounter) : DepthCounter :=
  if c.depth = 0 then c else { c with depth := c.depth - 1 }

/-- Forget all levels. -/
def reset (c : DepthCounter) : DepthCounter :=
  ofLimit c.limit

end DepthCounter

end TypeDescription
