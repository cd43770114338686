/-!
# The lexical states of a source text

Every character of a source text is code, or part of a string or a comment.
One left-to-right pass tells which, and it needs no more than the present
state, the character and the one after it: `transition` is that step.

A step consumes one character, or two where two belong together: the opening
and closing marks of comments, and a backslash with the character it escapes.
The escaped character may be missing at the end of a text, so a step can
consume one character more than there is.

Braces count only in code, and `transition` is the one place that says so.

## Main definitions

* `ScanState`: What the next character is part of.
* `Token`: A brace in code.
* `Step`: The outcome of reading at one place.
* `transition`: The step from a state at a character.
-/

namespace Chunking

/-- What the next character of a source text is part of. -/
inductive ScanState where
  | code
  | doubleQuoted
  | singleQuoted
  | lineComment
  | blockComment
  deriving DecidableEq, Repr

/-- A brace that stands in code. -/
inductive Token where
  | openBrace
  | closeBrace
  deriving DecidableEq, Repr

/-- The outcome of reading at one place. -/
structure Step where
  /-- The state after the step. -/
  next : ScanState
  /-- The number of characters read. -/
  consumed : Nat
  /-- The brace that was read, if it was one. -/
  token : Option Token := none
  deriving DecidableEq, Repr

/-- The step from code. -/
def codeStep (current : Char) (lookahead : Option Char) : Step :=
  if current = '"' then { next := .doubleQuoted, consumed := 1 }
  else if current = '\'' then { next := .singleQuoted, consumed := 1 }
  else if current = '/' ∧ lookahead = some '/' then { next := .lineComment, consumed := 2 }
  else if current = '/' ∧ lookahead = some '*' then { next := .blockComment, consumed := 2 }
  else if current = '\x7b' then { next := .code, consumed := 1, token := some .openBrace }
  else if current = '\x7d' then { next := .code, consumed := 1, token := some .closeBrace }
  else { next := .code, consumed := 1 }

/-- The step inside a string that the given quote ends. A backslash takes the
character after it along. -/
def quotedStep (inside : ScanState) (quote current : Char) : Step :=
  if current = '\\' then { next := inside, consumed := 2 }
  else if current = quote then { next := .code, consumed := 1 }
  else { next := inside, consumed := 1 }

/-- The step inside a comment that ends with its line. -/
def lineCommentStep (current : Char) : Step :=
  if current = '\n' then { next := .code, consumed := 1 }
  else { next := .lineComment, consumed := 1 }

/-- The step inside a comment that ends with a mark of its own. -/
def blockCommentStep (current : Char) (lookahead : Option Char) : Step :=
  if current = '*' ∧ lookahead = some '/' then { next := .code, consumed := 2 }
  else { next := .blockComment, consumed := 1 }

/-- The step from a state at the character `current`, which `lookahead`
follows. -/
def transition (state : ScanState) (current : Char) (lookahead : Option Char) : Step :=
  match state with
  | .code => codeStep current lookahead
  | .doubleQuoted => quotedStep .doubleQuoted '"' current
  | .singleQuoted => quotedStep .singleQuoted '\'' current
  | .lineComment => lineCommentStep current
  | .blockComment => blockCommentStep current lookahead

/-- A step reads one character or two. -/
theorem consumed_transition (state : ScanState) (current : Char) (lookahead : Option Char) :
    (transition state current lookahead).consumed = 1 ∨
      (transition state current lookahead).consumed = 2 := by
  cases state <;>
    simp only [transition, codeStep, quotedStep, lineCommentStep, blockCommentStep] <;>
    repeat' split
  all_goals simp

/-- Every step reads something. -/
theorem consumed_transition_pos (state : ScanState) (current : Char) (lookahead : Option Char) :
    0 < (transition state current lookahead).consumed := by
  rcases consumed_transition state current lookahead with h | h <;> omega

end Chunking
