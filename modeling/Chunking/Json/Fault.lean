/-!
# Why a text cannot be read

Three causes. A text may break the grammar, it may end where the grammar wants
more, or it may be well formed and say something else than was wanted. A text
is read from left to right, and the first cause that is met is the one that is
told.

## Main definitions

* `Json.Fault`: The three causes.
* `Json.Reader`: Reading a value from the front of a text.
-/

namespace Chunking.Json

/-- Why a text cannot be read as a value. -/
inductive Fault where
  /-- The text breaks the grammar. -/
  | malformed
  /-- The text ends too early. -/
  | truncated
  /-- The text does not say what was wanted. -/
  | mismatched
  deriving DecidableEq, Repr

/-- Reading a value from the front of a text, leaving the rest. -/
abbrev Reader (α : Type) := List Char → Except Fault (α × List Char)

end Chunking.Json
