/-!
# 64-bit sizes

Sizes and offsets are natural numbers here. Where a sum of sizes could leave
the 64 bits that a stored size may have, it stops at the largest one.

## Main definitions

* `maxSize`: The largest 64-bit size.
* `addSize`: The sum of two sizes, stopping at the largest.
* `numberOfDigits?`: The number that decimal digits spell.
* `parseSize?`: The size that a setting spells.
-/

namespace Chunking

/-- The largest 64-bit size. -/
def maxSize : Nat := 18446744073709551615

/-- The sum of two sizes, stopping at the largest one. -/
def addSize (a b : Nat) : Nat :=
  min (a + b) maxSize

/-- The number that decimal digits spell after `value`; nothing if one of the
characters is no ASCII digit. -/
def numberOfDigits? (value : Nat) : List Char → Option Nat
  | [] => some value
  | c :: rest =>
    if c.isDigit then numberOfDigits? (value * 10 + (c.toNat - 48)) rest else none

/-- The size that a setting spells: decimal digits with one optional plus sign
before them, and no more than 64 bits. -/
def parseSize? (text : String) : Option UInt64 :=
  let digits := match text.toList with
    | '+' :: rest => rest
    | chars => chars
  if digits.isEmpty then none
  else match numberOfDigits? 0 digits with
    | some value => if value ≤ maxSize then some (UInt64.ofNat value) else none
    | none => none

end Chunking
