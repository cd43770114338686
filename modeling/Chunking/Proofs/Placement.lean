import Chunking.Proofs.CodeSpans

/-!
# Where source code is cut

How far the chunks of source code keep to the sizes that were asked for. Every
chunk but the last is long enough and ends at a safe split. A chunk is longer
than its window allows only over a stretch in which there is nothing to cut
at, and then it ends at the first safe split after the stretch.

The sizes here are natural numbers, added without a bound. The text has to be
no longer than the largest 64-bit size, which every text that is held in
memory is.

## Theorems

* `selected_of_mem_codeSpans`: A span ends at the split that its window asks for.
* `chunkCode_placement`: The length of a chunk, and the splits around its end.
-/

namespace Chunking

/-- A span of source code ends at the split that the exact window at its start
asks for. -/
theorem selected_of_mem_codeSpans (options : CodeOptions) (chars : List Char)
    (hlong : options.threshold.toNat < chars.length) (hsize : chars.length ≤ maxSize) :
    ∀ span ∈ codeSpans options chars,
      span.start < chars.length ∧
        Selected (safeSplits chars) (options.exactWindow span.start) chars.length span.stop := by
  have hsorted : (safeSplits chars).Pairwise (· ≤ ·) :=
    (pairwise_safeSplits chars).imp Nat.le_of_lt
  have hselected : ∀ start, start < chars.length →
      Selected (safeSplits chars) (options.exactWindow start) chars.length
        (selectSplit options (safeSplits chars) start chars.length) :=
    fun start hstart =>
      selected_exactWindow options hsorted (fun _ => le_length_of_mem_safeSplits) hstart hsize
  have hbounds (start : Nat) (hstart : start < chars.length) :=
    selectSplit_bounds options hsorted (fun _ => le_length_of_mem_safeSplits) hstart
  intro span hspan
  rw [codeSpans_of_threshold_lt options chars hlong] at hspan
  rcases stop_eq_of_mem_codeSpansFrom options hbounds (safeSplits chars) 0 (by omega)
    (fun _ _ => rfl) span hspan with ⟨hstart, hstop⟩
  refine ⟨hstart, ?_⟩
  rw [hstop]
  exact hselected span.start hstart

/-- The chunks of a source file above the threshold. Each is the piece of the
content from its start to its stop. Unless it is the last one, it stops at a
safe split and has the least length. It is longer than the target and the
margin together only if there is no safe split between its least length and
those, and then there is none before its stop either. -/
theorem chunkCode_placement (options : CodeOptions) (fileName content : String)
    (hfile : isCodeFile fileName = true) (hlong : options.threshold.toNat < content.length)
    (hsize : content.length ≤ maxSize) :
    let chunks := chunkCode options fileName content
    let splits := safeSplits content.toList
    let target := max options.targetSize.toNat 1
    let margin := options.margin.toNat
    let least := max 1 (max options.minChunkSize.toNat (target - margin))
    ∀ (k : Nat) (_ : k < chunks.length),
      let start := Chunk.startOf chunks k
      let stop := start + chunks[k].length
      chunks[k].text.toList = content.toList.extract start stop ∧
      (k + 1 < chunks.length → stop ∈ splits ∧ least ≤ chunks[k].length) ∧
      (target + margin < chunks[k].length →
        (∀ p ∈ splits, ¬(start + least ≤ p ∧ p ≤ start + target + margin)) ∧
          ∀ p ∈ splits, ¬(start + least - 1 < p ∧ p < stop)) := by
  intro chunks splits target margin least k hk start stop
  rw [← String.length_toList] at hlong hsize
  -- The chunk lies at a span, and the span ends where its window asks for it.
  rcases exists_span_of_chunkCode options content hfile k hk with
    ⟨span, hspan, htext, hstart, hstop, hinside⟩
  rcases selected_of_mem_codeSpans options content.toList hlong hsize span
    (List.mem_of_getElem? hspan) with ⟨hlt, hselected⟩
  have hbounds := hselected.bounds (fun _ => le_length_of_mem_safeSplits) hlt
  have hleast : options.leastLength = least := rfl
  have hhighest : (options.exactWindow span.start).highest = span.start + target + margin := rfl
  have hlength : stop = start + chunks[k].length := rfl
  have hstart : span.start = start := hstart
  have hstop' : span.stop = stop := by
    rw [hstop, hstart]
  rw [hleast] at hbounds
  clear_value target margin least start stop
  refine ⟨?_, fun hnext => ?_, fun hbeyond => ?_⟩
  · rw [htext, String.toList_ofList, Span.cut, hstop', hstart]
  · have hends := hbounds.2.2 (Nat.ne_of_lt (hinside hnext))
    rw [hstop', hstart] at hends
    refine ⟨hends.1, ?_⟩
    have := hends.2
    omega
  · have hempty := hselected.empty_of_highest_lt (by rw [hhighest, hstop']; omega)
    rw [hhighest, hstop', hstart, hleast] at hempty
    refine ⟨fun p hp hin => ?_, fun p hp hin => ?_⟩
    · have := hempty p hp (by omega)
      omega
    · have := hempty p hp (by omega)
      omega

/-- A block that is longer than the target and the margin is one chunk. -/
theorem chunkCode_placement_long_block :
    let options : CodeOptions := { targetSize := 4, margin := 1, minChunkSize := 2, threshold := 3 }
    let content := "f() \x7b\nx\n\x7d\ng() \x7b\n\x7d\n"
    let chunks := chunkCode options "a.rs" content
    ∃ _ : 0 < chunks.length,
      isCodeFile "a.rs" = true ∧ options.threshold.toNat < content.length ∧
        content.length ≤ maxSize ∧ 4 + 1 < chunks[0].length ∧
        (∀ p ∈ safeSplits content.toList, ¬(0 + 3 ≤ p ∧ p ≤ 0 + 4 + 1)) ∧
        ∀ p ∈ safeSplits content.toList, ¬(0 + 3 - 1 < p ∧ p < 0 + chunks[0].length) := by
  intro options content chunks
  have hpos : 0 < chunks.length := by
    decide +kernel
  have hfile : isCodeFile "a.rs" = true := by
    decide +kernel
  have hlong : options.threshold.toNat < content.length := by
    decide +kernel
  have hsize : content.length ≤ maxSize := by
    decide +kernel
  have hbeyond : ∀ _ : 0 < chunks.length, 4 + 1 < chunks[0].length := by
    decide +kernel
  have hplaced := chunkCode_placement options "a.rs" content hfile hlong hsize 0 hpos
  exact ⟨hpos, hfile, hlong, hsize, hbeyond hpos, hplaced.2.2 (hbeyond hpos)⟩

end Chunking
