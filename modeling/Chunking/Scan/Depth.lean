import Chunking.Scan.State

/-!
# Brace depth

How many blocks are open, as a signed count: a closing brace without an
opening one takes it below zero, and as many opening braces are needed before
a block counts as open again.

The count is a plain integer. It moves by one with each brace, so it would
leave the 64 bits that it could be kept in only behind more braces than a text
in memory can have.

What matters to a splitter is the crossing: the closing brace that ends the
last open block, where the count comes down from one to zero.

## Main definitions

* `Depth`: A signed count of open blocks.
* `Depth.crosses`: Whether a closing brace ends the last open block.
* `Depth.after`: The depth after a token, and whether the token is a crossing.
-/

namespace Chunking

/-- A signed count of open blocks. -/
structure Depth where
  /-- The number of opening braces less the number of closing ones. -/
  value : Int := 0
  deriving DecidableEq, Repr

namespace Depth

/-- Count an opening brace. -/
def opened (depth : Depth) : Depth :=
  ⟨depth.value + 1⟩

/-- Count a closing brace. -/
def closed (depth : Depth) : Depth :=
  ⟨depth.value - 1⟩

/-- Whether a closing brace at this depth ends the last open block: the count
was positive and comes down to zero. -/
def crosses (depth : Depth) : Bool :=
  decide (0 < depth.value ∧ depth.closed.value = 0)

/-- The depth after what a step has read, and whether that was a crossing. -/
def after (depth : Depth) : Option Token → Depth × Bool
  | some .openBrace => (depth.opened, false)
  | some .closeBrace => (depth.closed, depth.crosses)
  | none => (depth, false)

/-- A crossing is a closing brace at depth one. -/
theorem crosses_iff (depth : Depth) : depth.crosses = true ↔ depth.value = 1 := by
  rw [crosses, decide_eq_true_iff]
  change 0 < depth.value ∧ depth.value - 1 = 0 ↔ depth.value = 1
  omega

end Depth

end Chunking
