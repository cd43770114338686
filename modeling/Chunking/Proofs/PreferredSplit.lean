import Chunking.Proofs.Selected
import Mathlib.Algebra.Order.Group.Unbundled.Int
import Mathlib.Data.Set.Basic
import Mathlib.Order.Bounds.Defs

/-!
# The preferred split

What the search for a split answers, in the terms in which it is asked for: a
distance between integers, and the least of the candidates in a set. Nothing
is cut off at the largest size here, neither the preferred end nor the window
around it, though the search works with offsets that are.

The candidates may be any in ascending order, also such that occur more than
once, and the least length may lie past the whole window. All that is asked of
a text is that it has no more characters than the largest size.

## Theorems

* `distance_eq_abs`: The distance of two offsets as one of integers.
* `noFarther_iff_abs`: The preferred candidate, by distances of integers.
* `selectSplit_preferred`: What the search answers.
-/

namespace Chunking

theorem distance_eq_abs (p q : Nat) : (distance p q : ℤ) = |(p : ℤ) - q| := by
  unfold distance
  rcases Nat.le_total p q with hle | hle
  · rw [abs_of_nonpos (by omega)]
    omega
  · rw [abs_of_nonneg (by omega)]
    omega

theorem noFarther_iff_abs (ideal p q : Nat) :
    NoFarther ideal p q ↔ |(p : ℤ) - ideal| ≤ |(q : ℤ) - ideal| ∧
      (|(p : ℤ) - ideal| = |(q : ℤ) - ideal| → p ≤ q) := by
  rw [← distance_eq_abs, ← distance_eq_abs]
  unfold NoFarther
  omega

/-- The split that is selected for a chunk, over unbounded offsets. If there is
a candidate in the window, it is the one among those that is nearest to the
preferred end, and the least one of those equally near. Otherwise it is the
least candidate that leaves the chunk long enough, and where there is none
either, the end of the text. In each case it lies after the start and in the
text. -/
theorem selectSplit_preferred (options : CodeOptions) {candidates : List Nat}
    {start length : Nat} (hsorted : candidates.Pairwise (· ≤ ·))
    (hle : ∀ p ∈ candidates, p ≤ length) (hstart : start < length) (hsize : length ≤ maxSize) :
    let target := max options.targetSize.toNat 1
    let margin := options.margin.toNat
    let low := start + max 1 (max options.minChunkSize.toNat (target - margin))
    let ideal := start + target
    let high := ideal + margin
    let later := {p | p ∈ candidates ∧ low ≤ p}
    let inside := {p | p ∈ later ∧ p ≤ high}
    let split := selectSplit options candidates start length
    (inside.Nonempty → split ∈ inside ∧ ∀ p ∈ inside,
      |(split : ℤ) - ideal| ≤ |(p : ℤ) - ideal| ∧
        (|(split : ℤ) - ideal| = |(p : ℤ) - ideal| → split ≤ p)) ∧
    (inside = ∅ → later.Nonempty → IsLeast later split) ∧
    (later = ∅ → split = length) ∧
    start < split ∧ split ≤ length := by
  intro target margin low ideal high later inside split
  have hselected := selected_exactWindow options hsorted hle hstart hsize
  have hbounds := hselected.bounds hle hstart
  have hwindow : options.exactWindow start = ⟨low, ideal, high⟩ := rfl
  have hsplit : selectSplit options candidates start length = split := rfl
  rw [hsplit] at hbounds
  rw [hwindow, hsplit] at hselected
  clear_value low ideal high split
  refine ⟨?_, ?_, ?_, hbounds.1, hbounds.2.1⟩
  · rintro ⟨p, ⟨hp, hlow⟩, hhigh⟩
    cases hselected with
    | inside hmem hlow' hhigh' hbest =>
        exact ⟨⟨⟨hmem, hlow'⟩, hhigh'⟩, fun q hq =>
          (noFarther_iff_abs ideal split q).mp (hbest q hq.1.1 hq.1.2 hq.2)⟩
    | after hmem hlow' hempty hfirst => exact absurd hhigh (Nat.not_le_of_lt (hempty p hp hlow))
    | rest hnone => exact absurd hlow (Nat.not_le_of_lt (hnone p hp))
  · rintro hempty ⟨p, hp, hlow⟩
    cases hselected with
    | inside hmem hlow' hhigh' hbest =>
        exact absurd ⟨⟨hmem, hlow'⟩, hhigh'⟩ (Set.eq_empty_iff_forall_notMem.mp hempty split)
    | after hmem hlow' hpast hfirst => exact ⟨⟨hmem, hlow'⟩, fun q hq => hfirst q hq.1 hq.2⟩
    | rest hnone => exact absurd hlow (Nat.not_le_of_lt (hnone p hp))
  · intro hempty
    have hnone := Set.eq_empty_iff_forall_notMem.mp hempty split
    cases hselected with
    | inside hmem hlow hhigh hbest => exact absurd ⟨hmem, hlow⟩ hnone
    | after hmem hlow hpast hfirst => exact absurd ⟨hmem, hlow⟩ hnone
    | rest => rfl

/-- At the end of the 64-bit sizes the preferred end lies past the largest one,
and the nearest candidate is still found. -/
theorem selectSplit_preferred_near_maxSize :
    let options : CodeOptions := { targetSize := 20, margin := 15, minChunkSize := 1 }
    let candidates := [maxSize - 8, maxSize - 4, maxSize - 2, maxSize - 2]
    let split := selectSplit options candidates (maxSize - 10) maxSize
    candidates.Pairwise (· ≤ ·) ∧ (∀ p ∈ candidates, p ≤ maxSize) ∧ maxSize - 10 < maxSize ∧
      maxSize ≤ maxSize ∧ split ∈ candidates ∧ maxSize - 5 ≤ split ∧ split ≤ maxSize + 25 ∧
        |(split : ℤ) - (maxSize + 10 : ℕ)| ≤ |((maxSize - 2 : ℕ) : ℤ) - (maxSize + 10 : ℕ)| := by
  intro options candidates split
  have hsorted : candidates.Pairwise (· ≤ ·) := by
    decide +kernel
  have hle : ∀ p ∈ candidates, p ≤ maxSize := by
    decide +kernel
  have hstart : maxSize - 10 < maxSize := by
    decide +kernel
  have hpreferred := selectSplit_preferred options hsorted hle hstart (Nat.le_refl maxSize)
  have hin : maxSize - 2 ∈ candidates ∧ maxSize - 5 ≤ maxSize - 2 ∧ maxSize - 2 ≤ maxSize + 25 := by
    decide +kernel
  have hnearest := hpreferred.1 ⟨maxSize - 2, ⟨hin.1, hin.2.1⟩, hin.2.2⟩
  exact ⟨hsorted, hle, hstart, Nat.le_refl _, hnearest.1.1.1, hnearest.1.1.2, hnearest.1.2,
    (hnearest.2 (maxSize - 2) ⟨⟨hin.1, hin.2.1⟩, hin.2.2⟩).1⟩

end Chunking
