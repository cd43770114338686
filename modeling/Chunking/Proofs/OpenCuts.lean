import Chunking.Proofs.CodeSpans

/-!
# Cuts in the open

A line is marked where a block or a region ends, but the text is cut at the
end of the line, and what the line still holds after its mark is not asked
about. It can open a comment, a string or another block. The cut is then
inside of it.

Whether that happens is decided by the tail of the line alone, the piece from
the mark to the cut. The mark is visited in code, so the run goes on there as
if the text started with the tail, and nothing before the mark matters. The
two conditions below are about tails, and each is exactly what separates the
safe splits that keep a promise from those that break it.

## Main definitions

* `TailInCode`: The tail of a marked line ends in code.
* `TailClosed`: The tail of a line that ends a block closes what it opens.

## Theorems

* `stateAt?_lineEnd`: The state after a line is the one its tail ends in.
* `depthBefore_lineEnd`: The depth after a line is moved by its tail.
* `depthBefore_blockEnd`: The depth after a block is what its tail adds.
* `stateAt?_safeSplits_iff`: The cuts that stay out of strings and comments.
* `depthBefore_safeSplits_iff`: The cuts that stay out of blocks.
-/

namespace Chunking

/-- A text without a directive's mark has no region to end. -/
theorem RegionEnd.hash_mem {text : List Char} {mark : Nat} (h : RegionEnd text mark) :
    '#' ∈ text :=
  List.mem_of_mem_drop (List.mem_of_mem_head? (head?_of_startsRegionEnd h.directive))

section Tail

variable {text : List Char} {mark stop : Nat}

/-- What stands before the end of a line is enough to tell that a place on it
is visited in code. -/
theorem LineEnd.code_take (h : LineEnd text mark stop) (hcode : stateAt? text mark = some .code) :
    stateAt? (text.take stop) mark = some .code := by
  rw [← hcode, ← stateAt?_append_of_lt (text.drop stop) h.endsLine
    (by rw [h.length_take]; exact h.lt), List.take_append_drop]

/-- The state in which the run arrives after a line is the one in which its
tail ends, from any place on it that is in code. -/
theorem stateAt?_lineEnd (h : LineEnd text mark stop) (hcode : stateAt? text mark = some .code)
    (hlt : stop < text.length) :
    stateAt? text stop = some (endState .code (text.extract mark stop)) := by
  have hne : text.drop stop ≠ [] := by
    rw [ne_eq, List.drop_eq_nil_iff]
    omega
  have hstate := stateAt?_append (text.drop stop) h.endsLine hne
  rw [List.take_append_drop, h.length_take] at hstate
  rw [hstate, endState_of_code (h.code_take hcode), List.drop_take]

/-- The depth after a line is the depth at any place on it that is in code, and
what the tail adds. -/
theorem depthBefore_lineEnd (h : LineEnd text mark stop)
    (hcode : stateAt? text mark = some .code) :
    depthBefore text stop = depthBefore text mark + netBraces (text.extract mark stop) := by
  -- What comes behind the line has no part in the depth up to its end.
  have hdepth : ∀ offset, offset ≤ stop →
      depthBefore text offset = depthBefore (text.take stop) offset := by
    intro offset hle
    rw [← depthBefore_append (text.drop stop) h.endsLine (by rwa [h.length_take]),
      List.take_append_drop]
  calc depthBefore text stop
      = depthBefore (text.take stop) (text.take stop).length := by
        rw [hdepth stop (Nat.le_refl stop), h.length_take]
    _ = netBraces (text.take stop) := depthBefore_length _
    _ = depthBefore (text.take stop) mark + netBraces ((text.take stop).drop mark) :=
        netBraces_of_code (h.code_take hcode)
    _ = depthBefore text mark + netBraces (text.extract mark stop) := by
        rw [← hdepth mark (Nat.le_of_lt h.lt), List.drop_take]

/-- A closing brace takes one from what a text adds. -/
theorem netBraces_closeBrace (rest : List Char) :
    netBraces ('\x7d' :: rest) = netBraces rest - 1 := by
  have hrun : visitsFrom .code 0 ('\x7d' :: rest) =
      [⟨.code, 0, '\x7d', rest⟩] ++ visitsFrom .code 1 rest := by
    rw [visitsFrom_cons]
    rfl
  have hbrace : braceBalance [⟨.code, 0, '\x7d', rest⟩] = -1 := rfl
  rw [netBraces, hrun, braceBalance_append, braceBalance_visitsFrom .code 1, hbrace, netBraces]
  omega

/-- The depth after a line that ends the last open block is what the line adds
after the brace. -/
theorem depthBefore_blockEnd (hblock : BlockEnd text mark) (h : LineEnd text mark stop) :
    depthBefore text stop = netBraces (text.extract (mark + 1) stop) := by
  have hlt := h.lt
  rcases List.getElem?_eq_some_iff.mp hblock.brace with ⟨hinside, hbrace⟩
  have htail : text.extract mark stop = '\x7d' :: text.extract (mark + 1) stop := by
    have hcount : stop - mark = stop - (mark + 1) + 1 := by
      omega
    rw [List.extract_eq_take_drop, List.extract_eq_take_drop, List.drop_eq_getElem_cons hinside,
      hbrace, hcount, List.take_succ_cons]
  rw [depthBefore_lineEnd h hblock.code, hblock.depth, htail, netBraces_closeBrace]
  omega

end Tail

/-- The tail of a marked line, read as code, ends in code: what it opens of
strings and comments it also closes. -/
def TailInCode (text : List Char) (stop : Nat) : Prop :=
  ∀ mark, MarksLine text mark → LineEnd text mark stop →
    endState .code (text.extract mark stop) = .code

/-- The tail of a line that ends the last open block, read as code, opens no
more blocks than it closes. -/
def TailClosed (text : List Char) (stop : Nat) : Prop :=
  ∀ mark, BlockEnd text mark → LineEnd text mark stop →
    netBraces (text.extract (mark + 1) stop) ≤ 0

/-- The state in which the run arrives at a safe split. -/
theorem stateAt?_of_mem_safeSplits {text : List Char} {p : Nat} (hp : p ∈ safeSplits text)
    (hlt : p < text.length) :
    ∃ state, stateAt? text p = some state ∧ (state = .code ↔ TailInCode text p) := by
  rcases (mem_safeSplits_iff text p).mp hp with rfl | rfl | ⟨_, mark, hmark, hend⟩
  · have hne : text ≠ [] := List.ne_nil_of_length_pos hlt
    have hstart : stateAt? text 0 = some .code := by
      have hends : EndsLine [] := by
        simp [EndsLine]
      rw [← endState_nil .code]
      exact stateAt?_append text hends hne
    refine ⟨.code, hstart, fun _ mark _ hend => ?_, fun _ => rfl⟩
    exact absurd hend.lt (Nat.not_lt_zero mark)
  · exact absurd hlt (Nat.lt_irrefl _)
  · refine ⟨_, stateAt?_lineEnd hend hmark.code hlt, fun hcode other hother hend' => ?_,
      fun htail => htail mark hmark hend⟩
    -- A line may be marked twice; both tails end in the same state.
    have hstate := stateAt?_lineEnd hend hmark.code hlt
    rw [stateAt?_lineEnd hend' hother.code hlt, Option.some.injEq] at hstate
    rw [hstate, hcode]

/-- The depth with which the run arrives at a safe split that no region ends
at. -/
theorem depthBefore_of_mem_safeSplits {text : List Char} {p : Nat} (hp : p ∈ safeSplits text)
    (hpos : 0 < p) (hlt : p < text.length)
    (hregion : ¬∃ mark, RegionEnd text mark ∧ LineEnd text mark p) :
    depthBefore text p ≤ 0 ↔ TailClosed text p := by
  rcases (mem_safeSplits_iff text p).mp hp with rfl | rfl | ⟨_, mark, hmark, hend⟩
  · exact absurd hpos (Nat.lt_irrefl 0)
  · exact absurd hlt (Nat.lt_irrefl _)
  · rcases hmark with hblock | hdirective
    · constructor
      · intro hdepth other hother hend'
        rwa [← depthBefore_blockEnd hother hend']
      · intro htail
        rw [depthBefore_blockEnd hblock hend]
        exact htail mark hblock hend
    -- The end of a region does not ask for the depth, and it is left out.
    · exact absurd ⟨mark, hdirective, hend⟩ hregion

/-- The run over a text arrives at a safe split in code exactly if the tail of
the line before it ends in code. Every chunk of a source file but the first
starts at such a split, so it starts in code under the same condition. -/
theorem stateAt?_safeSplits_iff (content : String) :
    let text := content.toList
    (∀ p ∈ safeSplits text, p < text.length →
      ∃ state, stateAt? text p = some state ∧ (state = .code ↔ TailInCode text p)) ∧
    ∀ (options : CodeOptions) (fileName : String), isCodeFile fileName = true →
      ∀ k, 0 < k → k < (chunkCode options fileName content).length →
        let start := Chunk.startOf (chunkCode options fileName content) k
        ∃ state, stateAt? text start = some state ∧ (state = .code ↔ TailInCode text start) := by
  intro text
  refine ⟨fun p => stateAt?_of_mem_safeSplits, ?_⟩
  intro options fileName hfile k hpos hk start
  -- A chunk that is not the first starts at a safe split before the end.
  rcases startOf_mem_safeSplits options content hfile k hpos hk with ⟨hmem, _, hlt⟩
  exact stateAt?_of_mem_safeSplits hmem hlt

/-- Two blocks, each of which ends its line. -/
def twoBlocks : String :=
  "f() \x7b\n\x7d\ng() \x7b\n\x7d\n"

/-- Options under which a text is cut as early as it can be. -/
def shortChunks : CodeOptions :=
  { targetSize := 4, margin := 1, minChunkSize := 2, threshold := 3 }

/-- Between two blocks that end their lines the text is in code. -/
theorem stateAt?_safeSplits_two_blocks :
    (8 ∈ safeSplits twoBlocks.toList ∧ 8 < twoBlocks.toList.length ∧
      ∃ state, stateAt? twoBlocks.toList 8 = some state ∧
        (state = .code ↔ TailInCode twoBlocks.toList 8)) ∧
    isCodeFile "a.rs" = true ∧
      1 < (chunkCode shortChunks "a.rs" twoBlocks).length ∧
      ∃ state, stateAt? twoBlocks.toList
          (Chunk.startOf (chunkCode shortChunks "a.rs" twoBlocks) 1) = some state ∧
        (state = .code ↔ TailInCode twoBlocks.toList
          (Chunk.startOf (chunkCode shortChunks "a.rs" twoBlocks) 1)) := by
  have hmem : 8 ∈ safeSplits twoBlocks.toList := by
    decide +kernel
  have hlt : 8 < twoBlocks.toList.length := by
    decide +kernel
  have hfile : isCodeFile "a.rs" = true := by
    decide +kernel
  have htwo : 1 < (chunkCode shortChunks "a.rs" twoBlocks).length := by
    decide +kernel
  have hsplits := stateAt?_safeSplits_iff twoBlocks
  exact ⟨⟨hmem, hlt, hsplits.1 8 hmem hlt⟩, hfile, htwo,
    hsplits.2 shortChunks "a.rs" hfile 1 Nat.one_pos htwo⟩

/-- A comment that opens behind the brace is open where the text is cut, and
the second chunk starts in it. -/
theorem stateAt?_safeSplits_open_comment :
    13 ∈ safeSplits "f() \x7b\n\x7d /* a\nb */\n".toList ∧
      13 < "f() \x7b\n\x7d /* a\nb */\n".toList.length ∧
      stateAt? "f() \x7b\n\x7d /* a\nb */\n".toList 13 = some .blockComment ∧
      Chunk.startOf (chunkCode shortChunks "a.rs" "f() \x7b\n\x7d /* a\nb */\n") 1 = 13 ∧
      1 < (chunkCode shortChunks "a.rs" "f() \x7b\n\x7d /* a\nb */\n").length := by
  decide +kernel

/-- The run over a text arrives at a safe split with no block open exactly if
the tail of the line before it closes what it opens. The ends of the text and
of regions are left out. The same holds of the splits between the chunks of a
source file. -/
theorem depthBefore_safeSplits_iff (content : String) :
    let text := content.toList
    (∀ p ∈ safeSplits text, 0 < p → p < text.length →
      (¬∃ mark, RegionEnd text mark ∧ LineEnd text mark p) →
        (depthBefore text p ≤ 0 ↔ TailClosed text p)) ∧
    ∀ (options : CodeOptions) (fileName : String), isCodeFile fileName = true →
      ∀ k, 0 < k → k < (chunkCode options fileName content).length →
        let start := Chunk.startOf (chunkCode options fileName content) k
        (¬∃ mark, RegionEnd text mark ∧ LineEnd text mark start) →
          (depthBefore text start ≤ 0 ↔ TailClosed text start) := by
  intro text
  refine ⟨fun p => depthBefore_of_mem_safeSplits, ?_⟩
  intro options fileName hfile k hpos hk start hregion
  rcases startOf_mem_safeSplits options content hfile k hpos hk with ⟨hmem, hstart, hlt⟩
  exact depthBefore_of_mem_safeSplits hmem hstart hlt hregion

/-- After the first of two blocks that end their lines no block is open. -/
theorem depthBefore_safeSplits_two_blocks :
    (8 ∈ safeSplits twoBlocks.toList ∧ 8 < twoBlocks.toList.length ∧
      (depthBefore twoBlocks.toList 8 ≤ 0 ↔ TailClosed twoBlocks.toList 8)) ∧
    isCodeFile "a.rs" = true ∧
      1 < (chunkCode shortChunks "a.rs" twoBlocks).length ∧
      (depthBefore twoBlocks.toList
          (Chunk.startOf (chunkCode shortChunks "a.rs" twoBlocks) 1) ≤ 0 ↔
        TailClosed twoBlocks.toList
          (Chunk.startOf (chunkCode shortChunks "a.rs" twoBlocks) 1)) := by
  have hmem : 8 ∈ safeSplits twoBlocks.toList := by
    decide +kernel
  have hlt : 8 < twoBlocks.toList.length := by
    decide +kernel
  have hfile : isCodeFile "a.rs" = true := by
    decide +kernel
  have htwo : 1 < (chunkCode shortChunks "a.rs" twoBlocks).length := by
    decide +kernel
  have hregion : ∀ p, ¬∃ mark, RegionEnd twoBlocks.toList mark ∧
      LineEnd twoBlocks.toList mark p := by
    rintro p ⟨mark, hregion, _⟩
    exact absurd hregion.hash_mem (by decide)
  have hsplits := depthBefore_safeSplits_iff twoBlocks
  exact ⟨⟨hmem, hlt, hsplits.1 8 hmem (by omega) hlt (hregion 8)⟩, hfile, htwo,
    hsplits.2 shortChunks "a.rs" hfile 1 Nat.one_pos htwo (hregion _)⟩

/-- A block that opens behind the brace is open where the text is cut, and the
second chunk starts in it. -/
theorem depthBefore_safeSplits_open_block :
    14 ∈ safeSplits "f() \x7b\n\x7d g() \x7b\nx\n\x7d\n".toList ∧
      14 < "f() \x7b\n\x7d g() \x7b\nx\n\x7d\n".toList.length ∧
      (¬∃ mark, RegionEnd "f() \x7b\n\x7d g() \x7b\nx\n\x7d\n".toList mark ∧
        LineEnd "f() \x7b\n\x7d g() \x7b\nx\n\x7d\n".toList mark 14) ∧
      depthBefore "f() \x7b\n\x7d g() \x7b\nx\n\x7d\n".toList 14 = 1 ∧
      Chunk.startOf (chunkCode shortChunks "a.rs" "f() \x7b\n\x7d g() \x7b\nx\n\x7d\n") 1 = 14 ∧
      1 < (chunkCode shortChunks "a.rs" "f() \x7b\n\x7d g() \x7b\nx\n\x7d\n").length := by
  refine ⟨by decide +kernel, by decide +kernel, ?_, by decide +kernel⟩
  rintro ⟨mark, hregion, _⟩
  exact absurd hregion.hash_mem (by decide)

end Chunking
