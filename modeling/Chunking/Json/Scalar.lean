import Chunking.Json.Fault
import Chunking.Size
import Chunking.Text.Hex
import Chunking.Text.Utf8

/-!
# Reading strings and numbers

The parts of a JSON text that hold no other parts. Each reader stands behind
the character that tells what comes: behind the opening quote of a string,
behind the first letter of a literal, and at the sign or first digit of a
number.

Strings are read in two ways. `readString` gives the characters, and so it
refuses a surrogate that is not half of a pair. `skipString` only looks for
the end, and there an escape with four hexadecimal digits is enough.

A number is of interest only when it is a natural number of 64 bits. All the
others, negative or fractional or larger, are told apart from texts that are
no numbers, and from those too large for a floating-point number, which count
as malformed.

## Main definitions

* `Json.skipBlanks`: The text behind white space.
* `Json.readWord`: The rest of a literal.
* `Json.readString`: The characters of a string.
* `Json.skipString`: The end of a string.
* `Json.Number`: What a number is, as far as that matters.
* `Json.readNumber`: A number.
* `Json.skipNumber`: The end of a number.
-/

namespace Chunking.Json

open Text

/-- The blanks that may stand between the parts of a text. -/
def isJsonBlank (c : Char) : Bool :=
  c == ' ' || c == '\n' || c == '\t' || c == '\r'

/-- The text behind white space. -/
def skipBlanks (text : List Char) : List Char :=
  text.dropWhile isJsonBlank

/-- The text behind the given characters, which must come next. -/
def readWord : List Char → List Char → Except Fault (List Char)
  | [], text => .ok text
  | _ :: _, [] => .error .truncated
  | expected :: more, c :: rest => if c = expected then readWord more rest else .error .malformed

/-- The text behind a colon, which must come next but for white space. -/
def readColon (text : List Char) : Except Fault (List Char) :=
  match skipBlanks text with
  | [] => .error .truncated
  | c :: rest => if c = ':' then .ok rest else .error .malformed

/-- The number of four hexadecimal digits. A text with fewer than four bytes
ends too early, whatever they are. -/
def readHex : List Char → Except Fault (Nat × List Char)
  | a :: b :: c :: d :: rest =>
    match hexValue? a, hexValue? b, hexValue? c, hexValue? d with
    | some a, some b, some c, some d => .ok (((a * 16 + b) * 16 + c) * 16 + d, rest)
    | _, _, _, _ => .error .malformed
  | text => if byteLength text < 4 then .error .truncated else .error .malformed

/-- The number is a unit that must come second in a pair. -/
def isLowSurrogate (unit : Nat) : Bool :=
  0xDC00 ≤ unit && unit ≤ 0xDFFF

/-- The number is a unit that must come first in a pair. -/
def isHighSurrogate (unit : Nat) : Bool :=
  0xD800 ≤ unit && unit ≤ 0xDBFF

/-- The character of an escape with hexadecimal digits, or of two of them that
make up a pair. -/
def readUnicode (text : List Char) : Except Fault (Char × List Char) := do
  let (unit, rest) ← readHex text
  if isLowSurrogate unit then throw .malformed
  if isHighSurrogate unit then
    match rest with
    | [] | ['\\'] => throw .truncated
    | '\\' :: 'u' :: rest =>
      let (second, rest) ← readHex rest
      if isLowSurrogate second then
        return (Char.ofNat (0x10000 + (unit - 0xD800) * 0x400 + (second - 0xDC00)), rest)
      throw .malformed
    | _ => throw .malformed
  return (Char.ofNat unit, rest)

/-- The character that an escape of one letter stands for. -/
def shortEscape? (letter : Char) : Option Char :=
  match letter with
  | '"' => some '"'
  | '\\' => some '\\'
  | '/' => some '/'
  | 'b' => some '\x08'
  | 'f' => some '\x0c'
  | 'n' => some '\n'
  | 'r' => some '\r'
  | 't' => some '\t'
  | _ => none

/-- The character of an escape, behind its backslash. -/
def readEscape : List Char → Except Fault (Char × List Char)
  | [] => .error .truncated
  | letter :: rest =>
    if letter = 'u' then readUnicode rest
    else match shortEscape? letter with
      | some c => .ok (c, rest)
      | none => .error .malformed

/-- The end of an escape, behind its backslash. -/
def skipEscape : List Char → Except Fault (List Char)
  | [] => .error .truncated
  | letter :: rest =>
    if letter = 'u' then (readHex rest).map Prod.snd
    else if (shortEscape? letter).isSome then .ok rest
    else .error .malformed

/-- The characters of a string behind those already read, which are given in
reverse. The number of characters is bounded by a list, for which the text
itself will serve. -/
def readStringFrom (taken : List Char) : List Char → List Char → Except Fault (String × List Char)
  | [], _ => .error .truncated
  | _ :: _, [] => .error .truncated
  | _ :: bound, c :: rest =>
    if c = '"' then .ok (String.ofList taken.reverse, rest)
    else if c = '\\' then
      match readEscape rest with
      | .error fault => .error fault
      | .ok (escaped, rest) => readStringFrom (escaped :: taken) bound rest
    else if c.toNat < 0x20 then .error .malformed
    else readStringFrom (c :: taken) bound rest

/-- The characters of a string, behind its opening quote. -/
def readString : Reader String := fun text =>
  readStringFrom [] text text

/-- The end of a string. The number of characters is bounded by a list, for
which the text itself will serve. -/
def skipStringFrom : List Char → List Char → Except Fault (List Char)
  | [], _ => .error .truncated
  | _ :: _, [] => .error .truncated
  | _ :: bound, c :: rest =>
    if c = '"' then .ok rest
    else if c = '\\' then
      match skipEscape rest with
      | .error fault => .error fault
      | .ok rest => skipStringFrom bound rest
    else if c.toNat < 0x20 then .error .malformed
    else skipStringFrom bound rest

/-- The end of a string, behind its opening quote. -/
def skipString (text : List Char) : Except Fault (List Char) :=
  skipStringFrom text text

/-- What a number is, as far as that matters. -/
inductive Number where
  /-- A natural number of 64 bits. -/
  | natural (value : Nat)
  /-- Any other number. -/
  | other
  deriving DecidableEq, Repr

/-- Digits put behind a number as long as it stays within 64 bits: the number,
and how many digits were left over. -/
def appendDigits (value : Nat) : List Char → Nat × Nat
  | [] => (value, 0)
  | c :: rest =>
    let next := value * 10 + (c.toNat - 48)
    if next ≤ maxSize then appendDigits next rest else (value, rest.length + 1)

/-- A number rounded to 53 significant bits, to the even neighbour in a tie. -/
def roundToDouble (n : Nat) : Nat :=
  -- The bits beyond 53 are a multiple of the unit and what is to be rounded.
  let excess := Nat.log2 n + 1 - 53
  let unit := 1 <<< excess
  let quotient := n / unit
  let twice := 2 * (n % unit)
  let up := unit < twice || (twice == unit && quotient % 2 == 1)
  (if up then quotient + 1 else quotient) * unit

/-- Whether a significand scaled by a power of ten is beyond the largest
floating-point number of 64 bits. Both factors are rounded before they are
multiplied, and so is the product. -/
def exceedsDouble (significand : Nat) (exponent : Int) : Bool :=
  significand != 0 && 0 ≤ exponent &&
    (308 < exponent ||
      1 <<< 1024 - 1 <<< 970 ≤
        roundToDouble significand * roundToDouble (Nat.pow 10 exponent.toNat))

/-- A number that is no natural number of 64 bits, by its significand and power
of ten. -/
def otherNumber (significand : Nat) (exponent : Int) (rest : List Char) :
    Except Fault (Number × List Char) :=
  if exceedsDouble significand exponent then .error .malformed else .ok (.other, rest)

/-- The value of digits, all of them. -/
def digitsValue (digits : List Char) : Nat :=
  digits.foldl (fun value c => value * 10 + (c.toNat - 48)) 0

/-- A number from its exponent mark on. -/
def readExponent (significand : Nat) (exponent : Int) (text : List Char) :
    Except Fault (Number × List Char) :=
  let (negative, text) := match text with
    | '+' :: rest => (false, rest)
    | '-' :: rest => (true, rest)
    | _ => (false, text)
  let digits := text.takeWhile Char.isDigit
  if digits.isEmpty then
    if text.isEmpty then .error .truncated else .error .malformed
  else
    let scale : Int := digitsValue digits
    otherNumber significand (if negative then exponent - scale else exponent + scale)
      (text.drop digits.length)

/-- A number from the character behind its point on. -/
def readFraction (significand : Nat) (exponent : Int) (text : List Char) :
    Except Fault (Number × List Char) :=
  let digits := text.takeWhile Char.isDigit
  let rest := text.drop digits.length
  if digits.isEmpty then
    if text.isEmpty then .error .truncated else .error .malformed
  else
    let (significand, left) := appendDigits significand digits
    let exponent := exponent - (digits.length - left : Nat)
    match rest with
    | 'e' :: rest | 'E' :: rest => readExponent significand exponent rest
    | _ => otherNumber significand exponent rest

/-- A number behind its sign. A leading zero stands alone. -/
def readMagnitude (negative : Bool) (text : List Char) : Except Fault (Number × List Char) :=
  let digits := text.takeWhile Char.isDigit
  let rest := text.drop digits.length
  match digits with
  | [] => if text.isEmpty then .error .truncated else .error .malformed
  -- A zero with more digits behind it.
  | '0' :: _ :: _ => .error .malformed
  | _ =>
    let (significand, left) := appendDigits 0 digits
    match rest with
    | '.' :: rest => readFraction significand left rest
    | 'e' :: rest | 'E' :: rest => readExponent significand left rest
    | _ =>
      if left = 0 then
        .ok (if negative then .other else .natural significand, rest)
      else
        otherNumber significand left rest

/-- A number, at its sign or first digit. -/
def readNumber : List Char → Except Fault (Number × List Char)
  | '-' :: rest => readMagnitude true rest
  | text => readMagnitude false text

/-- The text behind digits, of which there must be one. -/
def skipDigits (text : List Char) : Except Fault (List Char) :=
  let rest := text.dropWhile Char.isDigit
  if rest.length = text.length then .error .malformed else .ok rest

/-- The end of a number from its exponent mark on. -/
def skipExponent : List Char → Except Fault (List Char)
  | '+' :: rest | '-' :: rest => skipDigits rest
  | text => skipDigits text

/-- The end of a number behind its sign. -/
def skipMagnitude (text : List Char) : Except Fault (List Char) := do
  let rest ← match text with
    | '0' :: rest =>
      if (rest.head?.map Char.isDigit).getD false then throw .malformed else pure rest
    | _ => skipDigits text
  match rest with
  | '.' :: rest =>
    let rest ← skipDigits rest
    match rest with
    | 'e' :: rest | 'E' :: rest => skipExponent rest
    | _ => return rest
  | 'e' :: rest | 'E' :: rest => skipExponent rest
  | _ => return rest

/-- The end of a number, at its sign or first digit. Whatever is wrong with it
is an error of grammar, even if the text ends. -/
def skipNumber : List Char → Except Fault (List Char)
  | '-' :: rest => skipMagnitude rest
  | text => skipMagnitude text

end Chunking.Json
