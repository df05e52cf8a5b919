/-!
# Declaration modifiers

`Modifiers` is the set of keywords in front of a declaration, as a word of one
bit each.
-/

namespace TypeDescription

/-- A set of modifiers. -/
structure Modifiers where
  bits : UInt32
deriving DecidableEq, Inhabited

namespace Modifiers

/-- No modifier. -/
def none : Modifiers := ⟨0⟩

/-- The modifiers of both sets. -/
def union (a b : Modifiers) : Modifiers :=
  ⟨a.bits ||| b.bits⟩

/-- The keywords, each with its bit. -/
def keywords : List (String × UInt32) :=
  [("public", 1), ("private", 2), ("protected", 4), ("readonly", 8),
    ("override", 16), ("export", 32), ("abstract", 64), ("declare", 128),
    ("static", 256), ("accessor", 512), ("async", 1024), ("default", 2048),
    ("const", 4096), ("in", 8192), ("out", 16384)]

/-- The modifier that a keyword denotes. -/
def ofKeyword? (keyword : String) : Option Modifiers :=
  (keywords.lookup keyword).map Modifiers.mk

end Modifiers

end TypeDescription
