import TypeDescription.Text.Combining
import TypeDescription.Text.Visible

/-!
# Strings in debug output

`showString` writes a string so that every character can be told: visible
characters as they are, the common controls by a letter, the rest by code
point.
-/

namespace TypeDescription.Text

/-- Whether a code point lies in one of the ranges. -/
def inRanges (ranges : List (Nat × Nat)) (n : Nat) : Bool :=
  ranges.any fun range => range.1 ≤ n && n ≤ range.2

/-- Whether a character stands for itself in debug output. -/
def isShown (c : Char) : Bool :=
  !inRanges combiningRanges c.toNat && inRanges visibleRanges c.toNat

/-- How one character stands between the quotes. -/
def showChar (c : Char) : List Char :=
  if c = '\x00' then ['\\', '0']
  else if c = '\t' then ['\\', 't']
  else if c = '\r' then ['\\', 'r']
  else if c = '\n' then ['\\', 'n']
  else if c = '"' then ['\\', '"']
  else if c = '\\' then ['\\', '\\']
  else if isShown c then [c]
  else '\\' :: 'u' :: '\x7b' :: (Nat.toDigits 16 c.toNat ++ ['\x7d'])

/-- A string in quotes, for debug output. -/
def showString (s : String) : String :=
  String.ofList ('"' :: (s.toList.flatMap showChar ++ ['"']))

end TypeDescription.Text
