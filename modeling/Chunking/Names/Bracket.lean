import Chunking.Text.Utf8

/-!
# Brackets

Two simple readings of brackets in a text, both by counting alone: strings and
comments are read like everything else.

`matchingClose?` looks for the delimiter that closes the one at an offset and
knows only that one pair of delimiters. `topLevelParts` cuts a text at its
commas, except those inside brackets, where one count serves the four kinds of
brackets. A closing bracket without an opening one takes that count below
zero, and commas there are cut at too. The count is a signed number of 32 bits
and wraps around, so behind enough brackets that are still open commas are cut
at again. `checkedParts?` gives up there instead, as a program does that is
built to check its arithmetic.

Offsets count bytes, and `topLevelParts` answers with ranges of them.

## Main definitions

* `matchingClose?`: The offset of the delimiter that closes another.
* `ByteRange`: The bytes from an offset up to another.
* `depthBehind`: The count of open brackets, which wraps around.
* `topLevelParts`: The ranges between the commas outside brackets.
* `checkedParts?`: The same ranges, unless the count leaves its range.
* `findFrom?`: The first place of a character from an offset on.
-/

namespace Chunking

open Text

/-- The offset of the closing delimiter at which the depth comes down to zero,
in a text that starts at an offset. -/
def closeFrom? (opening closing : Char) (depth offset : Nat) : List Char → Option Nat
  | [] => none
  | c :: rest =>
    if c = opening then
      closeFrom? opening closing (depth + 1) (offset + c.utf8Size) rest
    else if c = closing then
      match depth with
      | 0 => none
      | 1 => some offset
      | depth + 2 => closeFrom? opening closing (depth + 1) (offset + c.utf8Size) rest
    else
      closeFrom? opening closing depth (offset + c.utf8Size) rest

/-- The offset of the delimiter that closes the one at `start`; nothing if the
text ends before. -/
def matchingClose? (text : List Char) (start : Nat) (opening closing : Char) : Option Nat :=
  (dropBytes? text start).bind fun rest => closeFrom? opening closing 0 start rest

/-- The first place of a character in a text that starts at an offset. -/
def findChar? (wanted : Char) (offset : Nat) : List Char → Option Nat
  | [] => none
  | c :: rest =>
    if c = wanted then some offset else findChar? wanted (offset + c.utf8Size) rest

/-- The first place of a character from an offset on. -/
def findFrom? (text : List Char) (start : Nat) (wanted : Char) : Option Nat :=
  (dropBytes? text start).bind fun rest => findChar? wanted start rest

/-- The bytes from the offset `start` up to, not including, `stop`. -/
structure ByteRange where
  start : Nat
  stop : Nat
  deriving DecidableEq, Repr

/-- The text of a range; nothing if it starts or ends inside a character. -/
def ByteRange.slice? (range : ByteRange) (text : List Char) : Option (List Char) :=
  sliceBytes? text range.start range.stop

/-- How a character changes the number of open brackets. -/
def bracketChange (c : Char) : Int :=
  if c ∈ ['<', '(', '[', '\x7b'] then 1
  else if c ∈ ['>', ')', ']', '\x7d'] then -1
  else 0

/-- The number of open brackets behind a character, in 32 bits. -/
def depthBehind (depth : Int32) (c : Char) : Int32 :=
  depth + Int32.ofInt (bracketChange c)

theorem depthBehind_of_eq_zero {c : Char} (h : bracketChange c = 0) (depth : Int32) :
    depthBehind depth c = depth := by
  rw [depthBehind, h]
  exact Int32.add_zero depth

/-- The ranges between commas outside brackets, in a text that starts at an
offset, where a part that started before is still open. -/
def topLevelPartsFrom (depth : Int32) (partStart offset : Nat) : List Char → List ByteRange
  | [] => [⟨partStart, offset⟩]
  | c :: rest =>
    let next := offset + c.utf8Size
    if c = ',' ∧ depth ≤ 0 then
      ⟨partStart, offset⟩ :: topLevelPartsFrom depth next next rest
    else
      topLevelPartsFrom (depthBehind depth c) partStart next rest

/-- The ranges between the commas of a text that lie outside brackets. -/
def topLevelParts (text : List Char) : List ByteRange :=
  topLevelPartsFrom 0 0 0 text

/-- The ranges between commas outside brackets like those of `topLevelPartsFrom`;
nothing as soon as the count of open brackets leaves its range. -/
def checkedPartsFrom? (depth : Int32) (partStart offset : Nat) :
    List Char → Option (List ByteRange)
  | [] => some [⟨partStart, offset⟩]
  | c :: rest =>
    let next := offset + c.utf8Size
    if c = ',' ∧ depth ≤ 0 then
      (checkedPartsFrom? depth next next rest).map (⟨partStart, offset⟩ :: ·)
    else if (depthBehind depth c).toInt = depth.toInt + bracketChange c then
      checkedPartsFrom? (depthBehind depth c) partStart next rest
    else none

/-- The ranges between the commas of a text that lie outside brackets, where a
count that leaves its range is an error. -/
def checkedParts? (text : List Char) : Option (List ByteRange) :=
  checkedPartsFrom? 0 0 0 text

end Chunking
