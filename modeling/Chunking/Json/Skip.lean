import Chunking.Json.Scalar

/-!
# Passing over values

Two ways to deal with a value that is not wanted. Where its name is unknown it
is passed over, and only its grammar matters. Where another kind of value was
wanted, reading ends with a fault, and a scalar is still read to its end
because a break of the grammar inside it comes first.

Values nest without limit, so the open lists and objects are kept on a stack
and the text is passed over in one sweep.

## Main definitions

* `Json.skipValue`: The end of a value.
* `Json.mismatch`: The fault where another kind of value was wanted.
-/

namespace Chunking.Json

/-- What a value is nested in. -/
inductive Nesting where
  | list
  | object
  deriving DecidableEq, Repr

/-- The character that closes what a value is nested in. -/
def Nesting.closing : Nesting → Char
  | .list => ']'
  | .object => '\x7d'

/-- What may come next while values are passed over. -/
inductive SkipPhase where
  /-- A value. -/
  | value
  /-- The first item, or the end of what was just opened. -/
  | opened
  /-- Another item, or the end. -/
  | ended
  deriving DecidableEq, Repr

/-- The end of a value that holds no others. -/
def skipScalar (c : Char) (rest : List Char) : Except Fault (List Char) :=
  if c = 'n' then readWord "ull".toList rest
  else if c = 't' then readWord "rue".toList rest
  else if c = 'f' then readWord "alse".toList rest
  else if c = '"' then skipString rest
  else if c = '-' || c.isDigit then skipNumber (c :: rest)
  else .error .malformed

/-- The place where the value of an item starts: behind the key in an object,
and at once in a list. -/
def itemValue (nesting : Nesting) (text : List Char) : Except Fault (List Char) :=
  match nesting with
  | .list => .ok text
  | .object =>
    match skipBlanks text with
    | [] => .error .truncated
    | c :: rest =>
      if c = '"' then skipString rest >>= readColon
      else .error .malformed

/-- Pass over what is left of nested values. Every round passes over some
character, so the number of rounds is bounded by the length of a list, for
which the text with one character more will serve. -/
def skipNested (stack : List Nesting) (phase : SkipPhase) :
    List Char → List Char → Except Fault (List Char)
  | [], _ => .error .malformed
  | _ :: bound, text =>
    match phase, stack with
    | .ended, [] => .ok text
    | .value, _ =>
      match skipBlanks text with
      | [] => .error .truncated
      | c :: rest =>
        if c = '[' then skipNested (.list :: stack) .opened bound rest
        else if c = '\x7b' then skipNested (.object :: stack) .opened bound rest
        else match skipScalar c rest with
          | .error fault => .error fault
          | .ok rest => skipNested stack .ended bound rest
    | .opened, [] => .error .malformed
    | .opened, nesting :: outer =>
      match skipBlanks text with
      | [] => .error .truncated
      | c :: rest =>
        if c = nesting.closing then skipNested outer .ended bound rest
        else match itemValue nesting (c :: rest) with
          | .error fault => .error fault
          | .ok rest => skipNested stack .value bound rest
    | .ended, nesting :: outer =>
      match skipBlanks text with
      | [] => .error .truncated
      | c :: rest =>
        if c = nesting.closing then skipNested outer .ended bound rest
        else if c = ',' then
          match itemValue nesting rest with
          | .error fault => .error fault
          | .ok rest => skipNested stack .value bound rest
        else .error .malformed

/-- The end of a value. -/
def skipValue (text : List Char) : Except Fault (List Char) :=
  skipNested [] .value (' ' :: ' ' :: (text ++ text)) text

/-- The fault where the value that starts with `c` is of another kind than was
wanted. -/
def mismatch (c : Char) (rest : List Char) : Fault :=
  let after {α : Type} : Except Fault α → Fault
    | .error fault => fault
    | .ok _ => .mismatched
  if c = 'n' then after (readWord "ull".toList rest)
  else if c = 't' then after (readWord "rue".toList rest)
  else if c = 'f' then after (readWord "alse".toList rest)
  else if c = '"' then after (readString rest)
  else if c = '-' || c.isDigit then after (readNumber (c :: rest))
  else if c = '[' || c = '\x7b' then .mismatched
  else .malformed

end Chunking.Json
