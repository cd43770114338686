/-!
# Writing JSON

The compact text of values: no blanks between parts, members of an object in
the order given. A string is written with the fewest escapes: the quote, the
backslash, and the characters below the space, of which five have a short
escape and the others four hexadecimal digits. Everything else stands for
itself, so a written text holds no character below the space.

## Main definitions

* `Json.escape`: A character inside a string.
* `Json.quote`: A string.
* `Json.number`: A natural number.
* `Json.list`: A list of values already written.
* `Json.object`: Named values already written.
-/

namespace Chunking.Json

/-- A character as it is written inside a string. -/
def escape (c : Char) : List Char :=
  if c = '"' then ['\\', '"']
  else if c = '\\' then ['\\', '\\']
  else if c = '\x08' then ['\\', 'b']
  else if c = '\x0c' then ['\\', 'f']
  else if c = '\n' then ['\\', 'n']
  else if c = '\r' then ['\\', 'r']
  else if c = '\t' then ['\\', 't']
  else if c.toNat < 0x20 then
    ['\\', 'u', '0', '0', Nat.digitChar (c.toNat / 16), Nat.digitChar (c.toNat % 16)]
  else [c]

/-- A string. -/
def quote (s : String) : List Char :=
  '"' :: (s.toList.flatMap escape ++ ['"'])

/-- A natural number. -/
def number (n : Nat) : List Char :=
  Nat.toDigits 10 n

/-- Texts with commas between them. -/
def separated (texts : List (List Char)) : List Char :=
  [','].intercalate texts

/-- A list of values that are written already. -/
def list (items : List (List Char)) : List Char :=
  '[' :: (separated items ++ [']'])

/-- An object of named values that are written already. -/
def object (members : List (String × List Char)) : List Char :=
  '\x7b' ::
    (separated (members.map fun member => quote member.1 ++ ':' :: member.2) ++ ['\x7d'])

/-- The value of an absent part. -/
def null : List Char :=
  "null".toList

end Chunking.Json
