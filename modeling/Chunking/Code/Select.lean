import Chunking.Options
import Chunking.Size

/-!
# Choosing a split

Where the chunk that starts at an offset should end. The candidates are given,
and they are wanted in a window around the preferred length:

* not before `lowest`, which keeps chunks from being too short,
* not after `highest`, as long as that is possible.

Among the candidates in the window the one nearest to the preferred end wins,
and the earlier one of two that are equally near. When the window is empty the
first candidate after it is taken, and when there is none, the end of the
text.

## Main definitions

* `SplitWindow`: The offsets among which an end is wanted.
* `CodeOptions.window`: The window for the chunk at an offset.
* `nearest`: The candidate nearest to an offset.
* `selectSplit`: The end of the chunk at an offset.

## Theorems

* `selectSplit_dropWhile`: Candidates up to the start make no difference.
-/

namespace Chunking

/-- The offsets among which the end of a chunk is wanted. -/
structure SplitWindow where
  /-- The least offset at which the chunk may end. -/
  lowest : Nat
  /-- The offset at which it would best end. -/
  ideal : Nat
  /-- The greatest offset at which it should end. -/
  highest : Nat
  deriving DecidableEq, Repr

/-- The window for the chunk that starts at an offset. Offsets beyond 64 bits
are taken for the largest one. -/
def CodeOptions.window (options : CodeOptions) (start : Nat) : SplitWindow :=
  let target := max options.targetSize.toNat 1
  let least := max options.minChunkSize.toNat 1
  let margin := options.margin.toNat
  let ideal := addSize start target
  { lowest := addSize start (max least (target - margin))
    ideal
    highest := addSize ideal margin }

/-- The distance between two offsets. -/
def distance (a b : Nat) : Nat :=
  max a b - min a b

/-- The candidate nearest to an offset, the first one of those equally near. -/
def nearest (ideal : Nat) : List Nat → Option Nat
  | [] => none
  | candidate :: rest =>
    some (rest.foldl
      (fun best other => if distance other ideal < distance best ideal then other else best)
      candidate)

/-- The end of the chunk that starts at `start`, in a text of `length`
characters with the given candidates in ascending order. -/
def selectSplit (options : CodeOptions) (candidates : List Nat) (start length : Nat) : Nat :=
  let window := options.window start
  let later := candidates.dropWhile fun p => p ≤ start || p < window.lowest
  match nearest window.ideal (later.takeWhile (· ≤ window.highest)) with
  | some split => split
  | none => later.head?.getD length

/-- Dropping what a wider condition drops as well makes no difference to it. -/
theorem dropWhile_dropWhile_of_imp {α : Type} {narrow wide : α → Bool}
    (h : ∀ a, narrow a = true → wide a = true) (l : List α) :
    (l.dropWhile narrow).dropWhile wide = l.dropWhile wide := by
  induction l with
  | nil => rfl
  | cons a l ih =>
    by_cases hn : narrow a = true
    · simp [hn, h a hn, ih]
    · simp [hn]

/-- Candidates up to the start make no difference, nor do they when only some
of them are dropped. -/
theorem selectSplit_dropWhile (options : CodeOptions) (candidates : List Nat)
    (passed start length : Nat) (h : passed ≤ start) :
    selectSplit options (candidates.dropWhile (· ≤ passed)) start length =
      selectSplit options candidates start length := by
  have himp : ∀ p : Nat, decide (p ≤ passed) = true →
      (decide (p ≤ start) || decide (p < (options.window start).lowest)) = true := by
    intro p hp
    rw [decide_eq_true_eq] at hp
    rw [decide_eq_true (Nat.le_trans hp h), Bool.true_or]
  simp only [selectSplit, dropWhile_dropWhile_of_imp himp]

end Chunking
