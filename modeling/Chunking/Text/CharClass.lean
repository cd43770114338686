import Chunking.Text.Alphabetic
import Chunking.Text.Number
import Chunking.Text.Recent
import Chunking.Text.WordPart

/-!
# Classes of characters

Three classes that are easily confused, and differ beyond ASCII.

* Blank is the Unicode property White_Space.
* A word character is alphabetic, a mark, a decimal digit, a connector such as
  the underscore, or a joiner. Patterns speak of word characters.
* An alphanumeric character is alphabetic or a number of any kind. Identifiers
  in type expressions and directives are told by it: a fraction such as one
  half is alphanumeric and no word character, and an accent that stands alone
  is the reverse.

The two last also follow different editions of the standard: word characters
are those of Unicode 16, and alphanumeric characters those of Unicode 17.

Each test decides ASCII by itself and asks a table only beyond it.

## Main definitions

* `isBlank`: White space.
* `isWord`: A character of a word.
* `isAlphanumeric`: Alphabetic, or a number.
-/

namespace Chunking.Text

/-- White space: the ASCII blanks from tab to carriage return, the space, and
the separators beyond ASCII. -/
def isBlank (c : Char) : Bool :=
  let code := c.toNat
  (9 ≤ code && code ≤ 13) || code == 0x20 || code == 0x85 || code == 0xA0 || code == 0x1680 ||
    (0x2000 ≤ code && code ≤ 0x200A) || code == 0x2028 || code == 0x2029 || code == 0x202F ||
    code == 0x205F || code == 0x3000

/-- A character of a word. -/
def isWord (c : Char) : Bool :=
  if c.toNat < 0x80 then c.isAlphanum || c == '_'
  else
    (alphabeticTable.has c.toNat && !recentAlphabeticTable.has c.toNat) ||
      wordPartTable.has c.toNat

/-- An alphabetic character, or a number of any kind. -/
def isAlphanumeric (c : Char) : Bool :=
  if c.toNat < 0x80 then c.isAlphanum
  else alphabeticTable.has c.toNat || numberTable.has c.toNat

end Chunking.Text
