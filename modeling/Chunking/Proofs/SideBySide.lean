import Chunking.Proofs.MarkedLines
import Mathlib.Data.List.Forall2

/-!
# Two scans side by side

Two texts that differ in what does not matter to a split are scanned alike, and
the way to see it is to run the two scans side by side. At each step they have
counted the same braces and marked the same lines. The lines may end at other
offsets in the second text, so where a line of the first ends at `p` the
corresponding line of the second ends at `place p`.

One part of what a scan carries needs more care: whether anything but white
space stands on the line so far. It is asked in code alone, so two scans may
disagree about it for as long as they are inside a string or a comment.
`Matches` takes the condition under which it is known to agree as a parameter,
and reading restores the agreement: a newline settles the flag, and so does a
character that is not blank.

## Main definitions

* `LineScan.Matches`: What two scans have in common.

## Theorems

* `LineScan.Matches.marked`: Marking the line keeps what they have in common.
* `LineScan.Matches.readAll_alike`: So does reading texts with their newlines
  at the same places.
* `LineScan.Matches.readAll_settles`: What they disagreed about is settled.
* `safeSplits_of_matches`: The safe splits of the two texts.
-/

namespace Chunking

open Text

/-- A character that no pair starting with a slash or an asterisk ends with
makes no difference to the step before it. -/
theorem transition_of_lookahead (state : ScanState) (current : Char) {lookahead : Option Char}
    (h : ∀ c ∈ lookahead, c ≠ '/' ∧ c ≠ '*') :
    transition state current lookahead = transition state current none := by
  have hslash : lookahead ≠ some '/' := fun hc => (h '/' hc).1 rfl
  have hstar : lookahead ≠ some '*' := fun hc => (h '*' hc).2 rfl
  cases state <;> simp [transition, codeStep, blockCommentStep, hslash, hstar]

namespace LineScan

/-- What two scans have in common that have counted the same braces and marked
the same lines. Lines of the one end at the places of those of the other.
Whether the line is blank so far they agree on if `sure`. -/
structure Matches (place : Nat → Nat) (sure : Prop) (scan other : LineScan) : Prop where
  depth : other.depth = scan.depth
  cutAtLineEnd : other.cutAtLineEnd = scan.cutAtLineEnd
  lineEnds : other.lineEnds = scan.lineEnds.map place
  lineBlank : sure → other.lineBlank = scan.lineBlank

namespace Matches

variable {place : Nat → Nat} {sure : Prop} {scan other : LineScan}

theorem weaken {less : Prop} (h : Matches place sure scan other) (hless : less → sure) :
    Matches place less scan other :=
  ⟨h.depth, h.cutAtLineEnd, h.lineEnds, fun hsure => h.lineBlank (hless hsure)⟩

/-- Marking the line for the same reason keeps what two scans have in common. -/
theorem marked (h : Matches place sure scan other) {visit visit' : Visit}
    (htoken : visit'.step.token = visit.step.token)
    (hregion : other.atRegionEnd visit' = scan.atRegionEnd visit) :
    Matches place sure (scan.marked visit) (other.marked visit') := by
  unfold LineScan.marked LineScan.marking
  refine ⟨?_, ?_, h.lineEnds, h.lineBlank⟩
  · simp only [htoken, h.depth]
  · simp only [htoken, hregion, h.depth, h.cutAtLineEnd]

/-- A newline settles whether the line is blank. -/
theorem read_newline (h : Matches place sure scan other) {position position' : Nat}
    (hplace : place (position + 1) = position' + 1) :
    Matches place True (scan.read position '\n') (other.read position' '\n') := by
  refine ⟨h.depth, rfl, ?_, fun _ => rfl⟩
  simp only [LineScan.read, if_true, h.cutAtLineEnd, h.lineEnds]
  split
  · rw [List.map_cons, hplace]
  · rfl

/-- Any two other characters tell the scans nothing about where lines end. -/
theorem read_other (h : Matches place sure scan other) {position position' : Nat} {c c' : Char}
    (hc : c ≠ '\n') (hc' : c' ≠ '\n') {less : Prop} (hless : less → sure ∧ c' = c) :
    Matches place less (scan.read position c) (other.read position' c') := by
  unfold LineScan.read
  rw [if_neg hc, if_neg hc']
  refine ⟨h.depth, h.cutAtLineEnd, h.lineEnds, fun hsure => ?_⟩
  simp only [h.lineBlank (hless hsure).1, (hless hsure).2]

/-- A character that is not blank settles whether the line is. -/
theorem read_visible (h : Matches place sure scan other) {position position' : Nat} {c : Char}
    (hc : c ≠ '\n') (hblank : isBlank c = false) :
    Matches place True (scan.read position c) (other.read position' c) := by
  unfold LineScan.read
  rw [if_neg hc, if_neg hc]
  refine ⟨h.depth, h.cutAtLineEnd, h.lineEnds, fun _ => ?_⟩
  simp only [hblank, Bool.and_false]

/-- Reading the same characters at any two places, none of them a newline. -/
theorem readAll_within_line (h : Matches place sure scan other) {chars : List Char}
    (hchars : '\n' ∉ chars) (position position' : Nat) :
    Matches place sure (scan.readAll position chars) (other.readAll position' chars) := by
  induction chars generalizing scan other position position' with
  | nil => exact h
  | cons c chars ih =>
      have hc : c ≠ '\n' := fun hc => hchars (by rw [hc]; exact List.mem_cons_self)
      exact ih (h.read_other hc hc fun hsure => ⟨hsure, rfl⟩)
        (fun hmem => hchars (List.mem_cons_of_mem c hmem)) _ _

/-- Reading the same characters at the same place. -/
theorem readAll_same (h : Matches id sure scan other) (position : Nat) (chars : List Char) :
    Matches id sure (scan.readAll position chars) (other.readAll position chars) := by
  induction chars generalizing scan other position with
  | nil => exact h
  | cons c chars ih =>
      by_cases hc : c = '\n'
      · rw [hc]
        exact ih ((h.read_newline rfl).weaken fun _ => trivial) _
      · exact ih (h.read_other hc hc fun hsure => ⟨hsure, rfl⟩) _

/-- Reading the same characters settles whether the line is blank if one of them
is a newline or is not blank. -/
theorem readAll_settles (h : Matches id sure scan other) (position : Nat) {chars : List Char}
    {c : Char} (hmem : c ∈ chars) (hc : c = '\n' ∨ isBlank c = false) :
    Matches id True (scan.readAll position chars) (other.readAll position chars) := by
  induction chars generalizing sure scan other position with
  | nil => exact absurd hmem List.not_mem_nil
  | cons first chars ih =>
      rcases List.mem_cons.mp hmem with rfl | hmem
      · by_cases hnewline : c = '\n'
        · rw [hnewline]
          exact (h.read_newline rfl).readAll_same _ _
        · exact (h.read_visible hnewline (hc.resolve_left hnewline)).readAll_same _ _
      -- Characters before the one that settles it may settle it as well.
      · by_cases hnewline : first = '\n'
        · rw [hnewline]
          exact ih (h.read_newline rfl) _ hmem
        · exact ih (h.read_other hnewline hnewline fun hsure => ⟨hsure, rfl⟩) _ hmem

/-- Reading characters of which no two differ in being a newline leaves open
only whether the line is blank. -/
theorem readAll_alike (h : Matches id sure scan other) (position : Nat) {chars chars' : List Char}
    (hchars : List.Forall₂ (fun c c' => c = c' ∨ c ≠ '\n' ∧ c' ≠ '\n') chars chars') :
    Matches id False (scan.readAll position chars) (other.readAll position chars') := by
  induction hchars generalizing sure scan other position with
  | nil => exact h.weaken False.elim
  | @cons c c' chars chars' hc _ ih =>
      by_cases hnewline : c = '\n'
      · have hc' : c' = '\n' := by
          rcases hc with rfl | ⟨hne, _⟩
          · exact hnewline
          · exact absurd hnewline hne
        rw [hnewline, hc']
        exact ih (h.read_newline rfl) _
      · have hc' : c' ≠ '\n' := by
          rcases hc with rfl | ⟨_, hne⟩
          · exact hnewline
          · exact hne
        exact ih (h.read_other hnewline hc' False.elim) _

end Matches

end LineScan

/-- Texts whose scans match have their safe splits at the same places. -/
theorem safeSplits_of_matches {place : Nat → Nat} {text other : List Char}
    (hzero : place 0 = 0) (hlength : place text.length = other.length)
    (hplace : ∀ p q, place p < place q ↔ p < q) {sure : Prop}
    (h : LineScan.Matches place sure (scanLines text) (scanLines other)) :
    safeSplits other = (safeSplits text).map place := by
  unfold safeSplits
  -- An empty text has one split only, and one text is empty if the other is.
  by_cases hempty : text.length = 0
  · have hempty' : other.length = 0 := by
      rw [← hlength, hempty, hzero]
    simp [hempty, hempty', hzero]
  · have hempty' : other.length ≠ 0 := by
      have := (hplace 0 text.length).mpr (by omega)
      omega
    have hinside : ((· < other.length) : Nat → Bool) ∘ place = (· < text.length) := by
      funext p
      rw [← hlength]
      exact decide_eq_decide.mpr (hplace p text.length)
    simp only [if_neg hempty, if_neg hempty', List.cons_append, List.map_cons, List.map_append,
      List.map_nil, hzero, hlength, h.lineEnds, ← List.map_reverse, List.filter_map]
    rw [← hinside]

end Chunking
