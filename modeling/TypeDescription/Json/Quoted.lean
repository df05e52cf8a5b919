import TypeDescription.Json.Fault

/-!
# JSON strings

`quote` writes a string with the short escapes, `\u00xx` for the other control
characters, and everything else as it is.  `unquote` reads what follows an
opening quote and also accepts every other spelling that JSON allows.
`skipQuoted` finds the end of a string whose content is not wanted; it does
not look at surrogates.
-/

namespace TypeDescription.Json

/-! ## Hexadecimal digits -/

/-- The lower-case hexadecimal digits of a number below `65536`, always
four. -/
def hexQuad (n : Nat) : List Char :=
  [n / 4096 % 16, n / 256 % 16, n / 16 % 16, n % 16].map Nat.digitChar

/-- The value of a hexadecimal digit of either case. -/
def hexValue? (c : Char) : Option Nat :=
  if '0' ≤ c ∧ c ≤ '9' then some (c.toNat - '0'.toNat)
  else if 'a' ≤ c ∧ c ≤ 'f' then some (c.toNat - 'a'.toNat + 10)
  else if 'A' ≤ c ∧ c ≤ 'F' then some (c.toNat - 'A'.toNat + 10)
  else none

/-- The 16-bit unit that four hexadecimal digits denote. -/
def unit? (a b c d : Char) : Option Nat := do
  let a ← hexValue? a
  let b ← hexValue? b
  let c ← hexValue? c
  let d ← hexValue? d
  return a * 4096 + b * 256 + c * 16 + d

/-! ## Writing -/

/-- How one character stands between the quotes. -/
def escapeChar (c : Char) : List Char :=
  if c = '"' then ['\\', '"']
  else if c = '\\' then ['\\', '\\']
  else if c = '\x08' then ['\\', 'b']
  else if c = '\t' then ['\\', 't']
  else if c = '\n' then ['\\', 'n']
  else if c = '\x0c' then ['\\', 'f']
  else if c = '\r' then ['\\', 'r']
  else if c.toNat < 0x20 then '\\' :: 'u' :: hexQuad c.toNat
  else [c]

/-- The characters of a string in quotes. -/
def quoteChars (chars : List Char) : List Char :=
  '"' :: (chars.flatMap escapeChar ++ ['"'])

/-- A string in quotes. -/
def quote (s : String) : String :=
  String.ofList (quoteChars s.toList)

/-! ## Reading -/

/-- The character that a one-letter escape denotes. -/
def shortEscape? : Char → Option Char
  | '"' => some '"'
  | '\\' => some '\\'
  | '/' => some '/'
  | 'b' => some '\x08'
  | 'f' => some '\x0c'
  | 'n' => some '\n'
  | 'r' => some '\r'
  | 't' => some '\t'
  | _ => none

/-- The fault of a `\u` escape with fewer than four characters after it: the
text is too short unless these take four bytes, which then are no digits. -/
def shortUnitFault (rest : List Char) : Fault :=
  if rest.foldl (fun n c => n + c.utf8Size) 0 < 4 then .truncated else .malformed

/-- Whether a unit is the first half of a surrogate pair. -/
def isLeading (unit : Nat) : Bool :=
  0xD800 ≤ unit && unit ≤ 0xDBFF

/-- Whether a unit is the second half of a surrogate pair. -/
def isTrailing (unit : Nat) : Bool :=
  0xDC00 ≤ unit && unit ≤ 0xDFFF

/-- The character that a surrogate pair denotes. -/
def pairChar (leading trailing : Nat) : Char :=
  Char.ofNat (0x10000 + (leading - 0xD800) * 0x400 + (trailing - 0xDC00))

/-- Put a character in front of what was read. -/
def push (c : Char) :
    Except Fault (List Char × List Char) → Except Fault (List Char × List Char)
  | .ok (chars, rest) => .ok (c :: chars, rest)
  | .error fault => .error fault

/-- Read a string after its opening quote: its characters, and the text after
the closing quote. -/
def unquote : List Char → Except Fault (List Char × List Char)
  | [] => .error .truncated
  | '"' :: rest => .ok ([], rest)
  | '\\' :: [] => .error .truncated
  | '\\' :: 'u' :: a :: b :: c :: d :: rest =>
      match unit? a b c d with
      | none => .error .malformed
      | some unit =>
          if isTrailing unit then
            .error .malformed
          else if isLeading unit then
            match rest with
            | '\\' :: 'u' :: e :: f :: g :: h :: rest =>
                match unit? e f g h with
                | none => .error .malformed
                | some next =>
                    if isTrailing next then push (pairChar unit next) (unquote rest)
                    else .error .malformed
            | '\\' :: 'u' :: rest => .error (shortUnitFault rest)
            | ['\\'] => .error .truncated
            | [] => .error .truncated
            | _ => .error .malformed
          else
            push (Char.ofNat unit) (unquote rest)
  | '\\' :: 'u' :: rest => .error (shortUnitFault rest)
  | '\\' :: c :: rest =>
      match shortEscape? c with
      | some c => push c (unquote rest)
      | none => .error .malformed
  | c :: rest =>
      if c.toNat < 0x20 then .error .malformed else push c (unquote rest)

/-- Find the text after the closing quote of a string. -/
def skipQuoted : List Char → Except Fault (List Char)
  | [] => .error .truncated
  | '"' :: rest => .ok rest
  | '\\' :: [] => .error .truncated
  | '\\' :: 'u' :: a :: b :: c :: d :: rest =>
      if (unit? a b c d).isSome then skipQuoted rest else .error .malformed
  | '\\' :: 'u' :: rest => .error (shortUnitFault rest)
  | '\\' :: c :: rest =>
      if (shortEscape? c).isSome then skipQuoted rest else .error .malformed
  | c :: rest =>
      if c.toNat < 0x20 then .error .malformed else skipQuoted rest

end TypeDescription.Json
