import Chunking.Text.Hex

/-!
# Identifiers

A 128-bit identifier, written as 32 hexadecimal digits in five groups. It may
be read from other spellings as well: without hyphens, in braces, or with the
prefix of its namespace, and with letters of either case throughout.

## Main definitions

* `Uuid`: A 128-bit identifier.
* `Uuid.text`: The five groups of lowercase digits.
* `Uuid.parse?`: The identifier that a text spells.
-/

namespace Chunking

/-- A 128-bit identifier. -/
structure Uuid where
  value : BitVec 128
  deriving DecidableEq, Repr

namespace Uuid

/-- The 32 digits of an identifier, the highest first. -/
def digits (id : Uuid) : List Char :=
  (List.range 32).map fun i => Nat.digitChar (id.value.toNat >>> (4 * (31 - i)) % 16)

/-- Digits in groups of eight, three times four, and twelve, with hyphens
between them. -/
def grouped (digits : List Char) : List Char :=
  ['-'].intercalate
    [digits.extract 0 8, digits.extract 8 12, digits.extract 12 16, digits.extract 16 20,
     digits.extract 20 32]

/-- The written form of an identifier. -/
def text (id : Uuid) : String :=
  String.ofList (grouped id.digits)

/-- The identifier of 32 digits without hyphens. -/
def ofDigits? (digits : List Char) : Option Uuid :=
  if digits.length = 32 then
    (digits.foldlM (fun value c => (Text.hexValue? c).map (value * 16 + ·)) 0).map fun value =>
      ⟨BitVec.ofNat 128 value⟩
  else
    none

/-- The identifier of five groups of digits. -/
def ofGroups? (chars : List Char) : Option Uuid :=
  let digits := chars.filter (· != '-')
  if grouped digits = chars then ofDigits? digits else none

/-- The characters before the groups in the form with a namespace, in lower
case. -/
def namespaceMark : List Char :=
  "urn:uuid:".toList

/-- The identifier that a text spells: groups, digits alone, groups in braces,
or groups behind the namespace. -/
def parse? (text : String) : Option Uuid :=
  let chars := text.toList
  match chars.length with
  | 32 => ofDigits? chars
  | 36 => ofGroups? chars
  | 38 =>
    if chars.head? = some '\x7b' ∧ chars.getLast? = some '\x7d' then
      ofGroups? (chars.extract 1 37)
    else none
  | 45 =>
    if (chars.take 9).map Char.toLower = namespaceMark then ofGroups? (chars.drop 9) else none
  | _ => none

end Uuid

end Chunking
