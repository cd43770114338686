import Chunking.Proofs.JoinedMarks

/-!
# Safe splits of joined texts

A text can leave the scan as it found it: in code, with no block open, at the
start of a line. What is read after such a text is read as if nothing stood
before it, so the safe splits of the whole are those of the parts, each counted
from where its part starts.

The joint itself is the one place that needs care. It is a safe split of both
parts, as the end of the one and the start of the other, but inside the whole
it is one only if the last line of the first part is marked. That is so for a
block that its last line closes, and a file of such blocks is split exactly
where its blocks are.

## Main definitions

* `EndsClean`: A text after which the scan stands as it did before.
* `EndsMarked`: A text whose last line is marked.
* `joints`: The offsets at which one of the given texts ends.
* `splitsOfEach`: The safe splits of the given texts, moved to their places.

## Theorems

* `mem_safeSplits_append_iff`: The safe splits of two joined texts.
* `mem_safeSplits_flatten_iff`: The safe splits of any number of joined texts.
* `mem_safeSplits_of_mem_joints`: Joints behind marked lines are safe splits.
* `safeSplits_of_joined_texts`: The three facts together.
-/

namespace Chunking

/-- A text of whole lines that the scan leaves in code and at depth zero. -/
structure EndsClean (text : List Char) : Prop where
  endsLine : EndsLine text
  state : endState .code text = .code
  depth : (scanLines text).depth.value = 0

/-- A text whose last line ends with it and is marked. -/
def EndsMarked (text : List Char) : Prop :=
  ∃ mark, MarksLine text mark ∧ LineEnd text mark text.length

/-- The offsets at which one of the texts ends when they are joined. -/
def joints : List (List Char) → List Nat
  | [] => []
  | text :: later => text.length :: (joints later).map (text.length + ·)

/-- The safe splits of the texts, each counted from where the texts before it
end. Behind the last one there is the split of the empty text. -/
def splitsOfEach : List (List Char) → List Nat
  | [] => safeSplits []
  | text :: later => safeSplits text ++ (splitsOfEach later).map (text.length + ·)

/-- The scan goes on after such a text as it does at the start of one. -/
theorem EndsClean.scannedAlike {text : List Char} (h : EndsClean text) :
    ScannedAlike text [] := by
  refine ⟨h.endsLine, by simp [EndsLine], ?_, ?_⟩
  · rw [h.state, endState_nil]
  · rw [← depth_scanLines, h.depth, netBraces, visitsFrom, braceBalance_nil]

theorem length_mem_safeSplits (text : List Char) : text.length ∈ safeSplits text :=
  (mem_safeSplits_iff text text.length).mpr (Or.inr (Or.inl rfl))

section Pair

variable {before : List Char} (after : List Char) {p : Nat}

-- What stands before the joint is read without what follows it.
theorem mem_safeSplits_append_iff_of_lt (hlt : p < before.length) :
    p ∈ safeSplits (before ++ after) ↔ p ∈ safeSplits before := by
  have hshared : (before ++ after).take before.length = before.take before.length := by
    rw [List.take_left, List.take_length]
  refine mem_safeSplits_iff_of_take_eq hshared (Nat.le_of_lt hlt) ?_ hlt
  rw [List.length_append]
  omega

-- What stands behind the joint is read as if it stood alone.
theorem mem_safeSplits_append_add_iff (h : EndsClean before) (hpos : 0 < p) :
    before.length + p ∈ safeSplits (before ++ after) ↔ p ∈ safeSplits after := by
  have halike := h.scannedAlike.mem_safeSplits_iff after hpos
  rwa [List.length_nil, Nat.zero_add, List.nil_append] at halike

/-- The safe splits of two texts of which the first one ends clean, together
with the joint, are those of the two texts. -/
theorem mem_safeSplits_append_iff (h : EndsClean before) (p : Nat) :
    p ∈ safeSplits (before ++ after) ∨ p = before.length ↔
      p ∈ safeSplits before ∨ ∃ q ∈ safeSplits after, before.length + q = p := by
  rcases Nat.lt_trichotomy p before.length with hlt | rfl | hgt
  · rw [mem_safeSplits_append_iff_of_lt after hlt]
    refine or_congr_right ⟨fun hp => by omega, ?_⟩
    rintro ⟨q, _, hq⟩
    omega
  · simp only [or_true, true_iff]
    exact Or.inl (length_mem_safeSplits before)
  · rcases Nat.exists_eq_add_of_le (Nat.le_of_lt hgt) with ⟨q, rfl⟩
    rw [mem_safeSplits_append_add_iff after h (by omega)]
    constructor
    · rintro (hq | hq)
      · exact Or.inr ⟨q, hq, rfl⟩
      · omega
    · rintro (hp | ⟨q', hq', hsum⟩)
      · have := le_length_of_mem_safeSplits hp
        omega
      · rw [Nat.add_left_cancel hsum] at hq'
        exact Or.inl hq'

/-- Where the last line of the first text is marked, the joint is a safe
split. -/
theorem length_mem_safeSplits_append (h : EndsMarked before) :
    before.length ∈ safeSplits (before ++ after) := by
  rcases h with ⟨mark, hmark, hend⟩
  have hends : EndsLine before := by
    have := hend.endsLine
    rwa [List.take_length] at this
  rw [mem_safeSplits_iff, List.length_append]
  by_cases hafter : after.length = 0
  · exact Or.inr (Or.inl (by omega))
  · refine Or.inr (Or.inr ⟨by omega, mark, ?_, ?_⟩)
    · exact (marksLine_append_iff after hends hend.lt).mpr hmark
    · exact (lineEnd_append_iff after (Nat.le_refl _)).mpr hend

end Pair

/-- The safe splits of joined texts, together with their joints, are those of
each text. -/
theorem mem_safeSplits_flatten_iff {texts : List (List Char)}
    (h : ∀ text ∈ texts, EndsClean text) (p : Nat) :
    p ∈ safeSplits texts.flatten ∨ p ∈ joints texts ↔ p ∈ splitsOfEach texts := by
  induction texts generalizing p with
  | nil => simp [joints, splitsOfEach]
  | cons text later ih =>
      have hlater := ih fun other hother => h other (List.mem_cons_of_mem _ hother)
      rw [List.flatten_cons, joints, splitsOfEach, List.mem_cons, List.mem_append, List.mem_map,
        List.mem_map, ← or_assoc,
        mem_safeSplits_append_iff later.flatten (h text List.mem_cons_self), or_assoc]
      refine or_congr_right ?_
      -- Behind the first text it is what is known of the later ones, moved.
      rw [← exists_or]
      refine exists_congr fun q => ?_
      rw [← or_and_right, hlater]

/-- The joints of texts that end with marked lines are safe splits. -/
theorem mem_safeSplits_of_mem_joints {texts : List (List Char)}
    (h : ∀ text ∈ texts, EndsClean text ∧ EndsMarked text) {p : Nat} (hp : p ∈ joints texts) :
    p ∈ safeSplits texts.flatten := by
  induction texts generalizing p with
  | nil => exact absurd hp List.not_mem_nil
  | cons text later ih =>
      have hjoint := length_mem_safeSplits_append later.flatten (h text List.mem_cons_self).2
      rw [joints, List.mem_cons, List.mem_map] at hp
      rw [List.flatten_cons]
      rcases hp with rfl | ⟨q, hq, rfl⟩
      · exact hjoint
      · have hlater := ih (fun other hother => h other (List.mem_cons_of_mem _ hother)) hq
        by_cases hzero : q = 0
        · rwa [hzero]
        · exact (mem_safeSplits_append_add_iff _ (h text List.mem_cons_self).1 (by omega)).mpr
            hlater

/-- Scanning is compositional where a text ends with a line, in code and at
depth zero. The safe splits of two texts joined there, together with the joint,
are those of the first and those of the second, moved. So are the safe splits
of any number of texts that end in this way, together with their joints. If
the last line of each of them is marked, as in a file of top-level blocks, the
joints need not be added. -/
theorem safeSplits_of_joined_texts :
    (∀ before after : List Char, EndsClean before → ∀ p,
      p ∈ safeSplits (before ++ after) ∨ p = before.length ↔
        p ∈ safeSplits before ∨ ∃ q ∈ safeSplits after, before.length + q = p) ∧
    (∀ texts : List (List Char), (∀ text ∈ texts, EndsClean text) → ∀ p,
      p ∈ safeSplits texts.flatten ∨ p ∈ joints texts ↔ p ∈ splitsOfEach texts) ∧
    ∀ texts : List (List Char), (∀ text ∈ texts, EndsClean text ∧ EndsMarked text) → ∀ p,
      p ∈ safeSplits texts.flatten ↔ p ∈ splitsOfEach texts := by
  refine ⟨fun before after h => mem_safeSplits_append_iff after h,
    fun texts h => mem_safeSplits_flatten_iff h, fun texts h p => ?_⟩
  rw [← mem_safeSplits_flatten_iff fun text hmem => (h text hmem).1]
  exact ⟨Or.inl, fun hp => hp.elim id (mem_safeSplits_of_mem_joints h)⟩

/-- Two blocks with a string that holds a brace in the second: each is split
where it is split alone. -/
theorem safeSplits_of_joined_texts_two_blocks :
    let first := "f() \x7b\n\x7d\n".toList
    let second := "g() \x7b\n\"\x7b\"\n\x7d\n".toList
    (EndsClean first ∧ EndsMarked first) ∧ (EndsClean second ∧ EndsMarked second) ∧
      safeSplits (first ++ second) = [0, 8, 20] ∧
      (∀ p, p ∈ safeSplits (first ++ second) ∨ p = first.length ↔
        p ∈ safeSplits first ∨ ∃ q ∈ safeSplits second, first.length + q = p) ∧
      (∀ p, p ∈ safeSplits [first, second].flatten ∨ p ∈ joints [first, second] ↔
        p ∈ splitsOfEach [first, second]) ∧
      ∀ p, p ∈ safeSplits [first, second].flatten ↔ p ∈ splitsOfEach [first, second] := by
  intro first second
  have hfirst : EndsClean first :=
    ⟨by simp [EndsLine, first], by decide +kernel, by decide +kernel⟩
  have hsecond : EndsClean second :=
    ⟨by simp [EndsLine, second], by decide +kernel, by decide +kernel⟩
  have hfirst' : EndsMarked first := by
    refine ⟨6, Or.inl ⟨by decide +kernel, by decide, by decide +kernel⟩, by decide, by decide, ?_⟩
    intro i hle hlt
    have hi : i = 6 := by
      change i + 1 < 8 at hlt
      omega
    rw [hi]
    decide
  have hsecond' : EndsMarked second := by
    refine ⟨10, Or.inl ⟨by decide +kernel, by decide, by decide +kernel⟩, by decide, by decide, ?_⟩
    intro i hle hlt
    have hi : i = 10 := by
      change i + 1 < 12 at hlt
      omega
    rw [hi]
    decide
  have hclean : ∀ text ∈ [first, second], EndsClean text ∧ EndsMarked text := by
    simp only [List.forall_mem_cons, List.not_mem_nil, false_imp_iff, implies_true, and_true]
    exact ⟨⟨hfirst, hfirst'⟩, hsecond, hsecond'⟩
  have hjoined := safeSplits_of_joined_texts
  exact ⟨⟨hfirst, hfirst'⟩, ⟨hsecond, hsecond'⟩, by decide +kernel, hjoined.1 first second hfirst,
    hjoined.2.1 _ fun text hmem => (hclean text hmem).1, hjoined.2.2 _ hclean⟩

end Chunking
