import Chunking.Code.Chunker
import Chunking.Proofs.Cover
import Chunking.Proofs.MarkedLines
import Chunking.Proofs.Selected

/-!
# Where the chunks of source code lie

The spans of source code cover the text without overlap, and each of them ends
where the selection among all safe splits ends it. The recursion that makes
them leaves behind the candidates it has passed, and it takes a text with
fewer than two of them for prose. Neither shows in the result: a candidate
that was passed is not selected again, and a text above the threshold has its
two ends as candidates.

A statement about chunks goes over to one about spans by `chunkCode_eq` and
`Covers.startOf_eq`.

## Theorems

* `covers_codeSpans`: The spans of source code cover a text without overlap.
* `stop_mem_of_mem_codeSpansFrom`: A span ends at a candidate or with the text.
* `stop_eq_of_mem_codeSpansFrom`: A span ends at the split that is selected.
* `chunkCode_eq`: The chunks of a source file are the pieces at its spans.
* `exists_span_of_chunkCode`: A chunk of a source file lies where its span does.
* `start_mem_safeSplits`: A span that is not the first starts at a safe split.
* `startOf_mem_safeSplits`: A chunk that is not the first starts at a safe split.
-/

namespace Chunking

/-! The recursion goes on as long as the selected split lies inside what is left. -/

section Unfolding

variable {options : CodeOptions} {candidates : List Nat} {length start : Nat}

theorem codeSpansFrom_of_inside (h : start < selectSplit options candidates start length ∧
    selectSplit options candidates start length < length) :
    codeSpansFrom options candidates length start =
      ⟨start, selectSplit options candidates start length⟩ ::
        codeSpansFrom options
          (candidates.dropWhile (· ≤ selectSplit options candidates start length)) length
          (selectSplit options candidates start length) := by
  rw [codeSpansFrom]
  exact if_pos h

theorem codeSpansFrom_of_not_inside (h : ¬(start < selectSplit options candidates start length ∧
    selectSplit options candidates start length < length)) :
    codeSpansFrom options candidates length start = [⟨start, length⟩] := by
  rw [codeSpansFrom]
  exact if_neg h

end Unfolding

/-- What is left of a text is covered without overlap, because every split is behind the one
before. -/
theorem covers_codeSpansFrom (options : CodeOptions) (candidates : List Nat)
    (length start : Nat) (h : start ≤ length) :
    Covers 0 length start (codeSpansFrom options candidates length start) := by
  fun_induction codeSpansFrom options candidates length start with
  | case1 candidates start stop hstop ih =>
      exact Covers.more hstop.1 hstop.2 (ih (Nat.le_of_lt hstop.2))
  | case2 candidates start stop _ => exact Covers.last h

/-- A text that is not empty has its two ends as candidates, so there are never
too few. -/
theorem two_le_length_safeSplits (chars : List Char) (h : chars ≠ []) :
    2 ≤ (safeSplits chars).length := by
  have hlen : chars.length ≠ 0 := by
    simpa only [ne_eq, List.length_eq_zero_iff] using h
  simp only [safeSplits, if_neg hlen, List.length_cons, List.length_append, List.length_nil]
  omega

/-- A text above the threshold is split at its candidates. -/
theorem codeSpans_of_threshold_lt (options : CodeOptions) (chars : List Char)
    (h : options.threshold.toNat < chars.length) :
    codeSpans options chars = codeSpansFrom options (safeSplits chars) chars.length 0 := by
  have hne : chars ≠ [] := by
    rintro rfl
    exact absurd h (Nat.not_lt_zero _)
  have htwo := two_le_length_safeSplits chars hne
  simp only [codeSpans, if_neg (Nat.not_le_of_lt h), if_neg (Nat.not_lt_of_le htwo)]

/-- The spans of source code cover a text without overlap. -/
theorem covers_codeSpans (options : CodeOptions) (chars : List Char) :
    Covers 0 chars.length 0 (codeSpans options chars) := by
  by_cases h : options.threshold.toNat < chars.length
  · rw [codeSpans_of_threshold_lt options chars h]
    exact covers_codeSpansFrom _ _ _ _ (Nat.zero_le _)
  · simp only [codeSpans, if_pos (Nat.le_of_not_lt h)]
    exact Covers.last (Nat.zero_le _)

/-- A span ends at a candidate or with the text. -/
theorem stop_mem_of_mem_codeSpansFrom (options : CodeOptions) (candidates : List Nat)
    (length start : Nat) :
    ∀ span ∈ codeSpansFrom options candidates length start,
      span.stop ∈ candidates ∨ span.stop = length := by
  fun_induction codeSpansFrom options candidates length start with
  | case1 candidates start stop hstop ih =>
      intro span hspan
      rcases List.mem_cons.mp hspan with rfl | hspan
      · exact selectSplit_mem options candidates start length
      · rcases ih span hspan with hmem | hend
        -- The candidates that are left are some of those before.
        · exact Or.inl ((List.dropWhile_suffix _).subset hmem)
        · exact Or.inr hend
  | case2 candidates start stop _ =>
      intro span hspan
      rcases List.mem_singleton.mp hspan with rfl
      exact Or.inr rfl

/-- A span ends at the split that is selected among all candidates, those it
has passed included. -/
theorem stop_eq_of_mem_codeSpansFrom (options : CodeOptions) {all : List Nat} {length : Nat}
    (hselect : ∀ start, start < length →
      start < selectSplit options all start length ∧
        selectSplit options all start length ≤ length)
    (candidates : List Nat) (start : Nat) (hlt : start < length)
    (hpassed : ∀ later, start ≤ later →
      selectSplit options candidates later length = selectSplit options all later length) :
    ∀ span ∈ codeSpansFrom options candidates length start,
      span.start < length ∧ span.stop = selectSplit options all span.start length := by
  fun_induction codeSpansFrom options candidates length start with
  | case1 candidates start stop hstop ih =>
      intro span hspan
      rcases List.mem_cons.mp hspan with rfl | hspan
      · exact ⟨hlt, hpassed start (Nat.le_refl _)⟩
      -- The invariant: behind this start the candidates that are left select what all do.
      · refine ih hstop.2 (fun later hlater => ?_) span hspan
        rw [selectSplit_dropWhile _ _ _ _ _ hlater]
        exact hpassed later (by omega)
  | case2 candidates start stop hstop =>
      intro span hspan
      -- The recursion ends here because the selected split ends the text.
      have hall := hselect start hlt
      have hstart := hpassed start (Nat.le_refl _)
      rcases List.mem_singleton.mp hspan with rfl
      refine ⟨hlt, ?_⟩
      simp only [stop] at hstop ⊢
      omega

/-- The chunks of a source file are the pieces at its spans. -/
theorem chunkCode_eq (options : CodeOptions) {fileName : String} (content : String)
    (hfile : isCodeFile fileName = true) :
    chunkCode options fileName content = Chunk.ofTexts
      ((codeSpans options content.toList).map fun span =>
        String.ofList (span.cut content.toList)) := by
  rw [chunkCode, if_pos hfile, Span.cutAll_eq]

/-- A chunk of a source file lies where its span does, and ends inside the
content unless it is the last one. -/
theorem exists_span_of_chunkCode (options : CodeOptions) {fileName : String} (content : String)
    (hfile : isCodeFile fileName = true) (k : Nat)
    (hk : k < (chunkCode options fileName content).length) :
    ∃ span, (codeSpans options content.toList)[k]? = some span ∧
      (chunkCode options fileName content)[k].text = String.ofList (span.cut content.toList) ∧
      span.start = Chunk.startOf (chunkCode options fileName content) k ∧
      span.stop = span.start + (chunkCode options fileName content)[k].length ∧
      (k + 1 < (chunkCode options fileName content).length →
        span.stop < content.toList.length) := by
  have hcovers := covers_codeSpans options content.toList
  simp only [chunkCode_eq options content hfile, Chunk.length_ofTexts, List.length_map] at hk ⊢
  have hmem := List.getElem_mem hk
  have hstop := hcovers.stop_le _ hmem
  have hle := hcovers.start_le_stop _ hmem
  refine ⟨(codeSpans options content.toList)[k], List.getElem?_eq_getElem hk, ?_,
    (hcovers.startOf_eq k hk).symm, ?_, fun hnext => (hcovers.succ k hnext).1⟩
  · rw [Chunk.getElem_ofTexts, List.get_eq_getElem, List.getElem_map]
  · rw [Chunk.getElem_ofTexts, Chunk.length, List.get_eq_getElem, List.getElem_map,
      String.length_ofList, Span.length_cut _ _ hstop]
    omega

/-- A text that is split at all is longer than the threshold. -/
theorem threshold_lt_of_one_lt_length (options : CodeOptions) (chars : List Char)
    (h : 1 < (codeSpans options chars).length) : options.threshold.toNat < chars.length := by
  by_cases hlong : options.threshold.toNat < chars.length
  · exact hlong
  · simp only [codeSpans, if_pos (Nat.le_of_not_lt hlong), List.length_singleton] at h
    exact absurd h (Nat.lt_irrefl 1)

/-- Every span of source code but the first starts at a safe split inside the
text. -/
theorem start_mem_safeSplits (options : CodeOptions) (chars : List Char) (k : Nat)
    (hk : k + 1 < (codeSpans options chars).length) :
    (codeSpans options chars)[k + 1].start ∈ safeSplits chars ∧
      0 < (codeSpans options chars)[k + 1].start ∧
      (codeSpans options chars)[k + 1].start < chars.length := by
  have hcovers := covers_codeSpans options chars
  have hlong := threshold_lt_of_one_lt_length options chars (by omega)
  -- It starts where the one before ends, and that one does not end with the text.
  have hends : ∀ span ∈ codeSpans options chars,
      span.stop ∈ safeSplits chars ∨ span.stop = chars.length := by
    rw [codeSpans_of_threshold_lt options chars hlong]
    exact stop_mem_of_mem_codeSpansFrom options (safeSplits chars) chars.length 0
  have hmem : (codeSpans options chars)[k] ∈ codeSpans options chars := List.getElem_mem _
  have hnonempty := (hcovers.start_lt_stop (by omega) _ hmem).1
  rcases hcovers.succ k hk with ⟨hinside, hstart⟩
  rw [Nat.add_zero] at hstart
  rw [hstart]
  refine ⟨?_, Nat.lt_of_le_of_lt (Nat.zero_le _) hnonempty, hinside⟩
  rcases hends _ hmem with hsplit | hend
  · exact hsplit
  · omega

/-- Every chunk of a source file but the first starts at a safe split inside
the content. -/
theorem startOf_mem_safeSplits (options : CodeOptions) {fileName : String} (content : String)
    (hfile : isCodeFile fileName = true) (k : Nat) (hpos : 0 < k)
    (hk : k < (chunkCode options fileName content).length) :
    Chunk.startOf (chunkCode options fileName content) k ∈ safeSplits content.toList ∧
      0 < Chunk.startOf (chunkCode options fileName content) k ∧
      Chunk.startOf (chunkCode options fileName content) k < content.toList.length := by
  rw [chunkCode_eq options content hfile] at hk ⊢
  rw [Chunk.length_ofTexts, List.length_map] at hk
  rcases Nat.exists_eq_add_of_lt hpos with ⟨before, hbefore⟩
  rw [Nat.zero_add] at hbefore
  subst hbefore
  rw [(covers_codeSpans options content.toList).startOf_eq _ hk]
  exact start_mem_safeSplits options content.toList before hk

end Chunking
