/-!
# Offsets in bytes

A text is a list of characters, and its UTF-8 form has one to four bytes for
each. Matches are located by the number of bytes before them. Such an offset
may fall inside a character, and then there is no text on either side of it:
`dropBytes?` and `takeBytes?` say so by answering nothing.

## Main definitions

* `byteLength`: The number of bytes of a text.
* `boundaries`: The offsets between characters, both ends of the text included.
* `dropBytes?`: The text from an offset on.
* `takeBytes?`: The text up to an offset.
* `sliceBytes?`: The text between two offsets.
-/

namespace Chunking.Text

/-- The number of bytes of a text. -/
def byteLength (text : List Char) : Nat :=
  (text.map Char.utf8Size).foldr (· + ·) 0

/-- The offsets between the characters of a text that starts at an offset, both
ends of the text included. -/
def boundariesFrom (offset : Nat) : List Char → List Nat
  | [] => [offset]
  | c :: rest => offset :: boundariesFrom (offset + c.utf8Size) rest

/-- The offsets between the characters of a text, both ends included. -/
def boundaries (text : List Char) : List Nat :=
  boundariesFrom 0 text

/-- The text without its first bytes; nothing if they end inside a character or
there are not as many. -/
def dropBytes? : List Char → Nat → Option (List Char)
  | text, 0 => some text
  | [], _ + 1 => none
  | c :: rest, count + 1 =>
    if c.utf8Size ≤ count + 1 then dropBytes? rest (count + 1 - c.utf8Size) else none

/-- The first bytes of a text after the characters already taken, which are
given in reverse; nothing if the bytes end inside a character or there are not
as many. -/
def takeBytesAfter? (taken : List Char) : List Char → Nat → Option (List Char)
  | _, 0 => some taken.reverse
  | [], _ + 1 => none
  | c :: rest, count + 1 =>
    if c.utf8Size ≤ count + 1 then takeBytesAfter? (c :: taken) rest (count + 1 - c.utf8Size)
    else none

/-- The first bytes of a text; nothing if they end inside a character or there
are not as many. -/
def takeBytes? (text : List Char) (count : Nat) : Option (List Char) :=
  takeBytesAfter? [] text count

/-- The text between two offsets; nothing unless they are in order and both
fall between characters. -/
def sliceBytes? (text : List Char) (start stop : Nat) : Option (List Char) :=
  if start ≤ stop then (dropBytes? text start).bind fun rest => takeBytes? rest (stop - start)
  else none

end Chunking.Text
