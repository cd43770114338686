import Chunking.Scan.State

/-!
# The run over a text

Repeating the transition over a text, each step starting where the last one
stopped, visits some of its offsets: all but those of characters that a step
has taken along as its second. `visitsFrom` lists the visits in order, and all
that the library knows about a source text is a fold over them.

A text can be long, so the fold that is run is `foldVisits`, which builds no
list; `foldVisits_eq_foldl` says that it is the fold over the list.

## Main definitions

* `Visit`: A place where a step starts.
* `Visit.step`: The step that starts there.
* `visitsFrom`: The visits of the run over a text, in order.
* `foldVisits`: Fold over the visits of a run.
* `endState`: The state in which the run over a text ends.

## Theorems

* `foldVisits_eq_foldl`: Folding over the visits is folding over their list.
-/

namespace Chunking

/-- A place where a step of the scan starts. -/
structure Visit where
  /-- The state in which the step starts. -/
  state : ScanState
  /-- The offset of the first character it reads. -/
  position : Nat
  /-- That character. -/
  current : Char
  /-- The text after that character. -/
  rest : List Char
  deriving DecidableEq, Repr

namespace Visit

/-- The step that starts at the place. -/
def step (visit : Visit) : Step :=
  transition visit.state visit.current visit.rest.head?

/-- The text from the place on. -/
def text (visit : Visit) : List Char :=
  visit.current :: visit.rest

/-- The characters that the step reads: one fewer than it consumes when the
text ends before. -/
def read (visit : Visit) : List Char :=
  visit.text.take visit.step.consumed

/-- The text after the step. -/
def remaining (visit : Visit) : List Char :=
  visit.rest.drop (visit.step.consumed - 1)

/-- A step leaves less text than it found. -/
theorem length_remaining_lt (visit : Visit) : visit.remaining.length < visit.text.length := by
  simp only [remaining, text, List.length_drop, List.length_cons]
  omega

end Visit

/-- The visits of the run over the text that starts at an offset, in order. -/
def visitsFrom (state : ScanState) (position : Nat) : List Char → List Visit
  | [] => []
  | current :: rest =>
    let visit : Visit := ⟨state, position, current, rest⟩
    visit :: visitsFrom visit.step.next (position + visit.step.consumed) visit.remaining
termination_by text => text.length
decreasing_by exact visit.length_remaining_lt

/-- Fold over the visits of the run over the text that starts at an offset. -/
def foldVisits {α : Type} (f : α → Visit → α) (init : α) (state : ScanState) (position : Nat) :
    List Char → α
  | [] => init
  | current :: rest =>
    let visit : Visit := ⟨state, position, current, rest⟩
    foldVisits f (f init visit) visit.step.next (position + visit.step.consumed) visit.remaining
termination_by text => text.length
decreasing_by exact visit.length_remaining_lt

/-- Folding over the visits is folding over their list. -/
theorem foldVisits_eq_foldl {α : Type} (f : α → Visit → α) (init : α) (state : ScanState)
    (position : Nat) (text : List Char) :
    foldVisits f init state position text = (visitsFrom state position text).foldl f init := by
  fun_induction visitsFrom state position text generalizing init with
  | case1 => simp [foldVisits]
  | case2 state position current rest visit ih =>
    rw [foldVisits, List.foldl_cons]
    exact ih (f init visit)

/-- The state in which the run over a text ends. -/
def endState (state : ScanState) (text : List Char) : ScanState :=
  foldVisits (fun _ visit => visit.step.next) state state 0 text

end Chunking
