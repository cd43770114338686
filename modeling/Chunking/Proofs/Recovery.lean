import Chunking.Prepared
import Chunking.Proofs.CodeSpans

/-!
# Preparing a document loses nothing

The records of a prepared document hold its text, whatever the configuration.
Every size is accepted, so sizes that `validate` refuses are included: zeros,
an overlap as large as the window, and sizes at the end of 64 bits.

There are two loops and three ways around them, a text up to the threshold, a
file that is not source code, and a text with too few candidates. The last one
is never taken, since a text longer than the threshold is not empty and both
its ends are candidates. In each case the spans cover the text, and `Covers`
does the rest.

## Main definitions

* `Config.windowOptions`: The options of the windows for a strategy.
* `Config.repeated`: The characters that consecutive chunks of a file share.

## Theorems

* `covers_windowSpans`: Windows cover a text with the overlap of their frame.
* `prepareWith_recovers`: The content is recovered from the chunks alone.
-/

namespace Chunking

/-- The options of the windows that a document is split into when it is not
split as source code. -/
def Config.windowOptions (config : Config) : Strategy → TextOptions
  | .code => config.code.asText
  | .text => config.text

/-- The characters that consecutive chunks of a file share: none where it is
split as source code, and the overlap of the window otherwise. -/
def Config.repeated (config : Config) (strategy : Strategy) (fileName : String) : Nat :=
  if strategy = .code ∧ isCodeFile fileName = true then 0
  else (config.windowOptions strategy).frame.overlap

theorem covers_windowsFrom (frame : Frame) (length start : Nat) (h : start ≤ length) :
    Covers frame.overlap length start (windowsFrom frame length start) := by
  have hover := frame.overlap_lt_size
  fun_induction windowsFrom frame length start with
  | case1 start hlt ih =>
      refine Covers.more (by omega) hlt ?_
      -- The next window starts where this one ends, less what they share.
      have hnext : start + frame.size - frame.overlap = start + frame.step := by
        rw [Frame.step]
        omega
      rw [hnext]
      exact ih (by rw [Frame.step]; omega)
  | case2 start _ => exact Covers.last h

/-- Windows cover a text with the overlap of their frame. -/
theorem covers_windowSpans (options : TextOptions) (length : Nat) :
    Covers options.frame.overlap length 0 (windowSpans options length) := by
  unfold windowSpans
  split
  · exact Covers.last (Nat.zero_le _)
  · exact covers_windowsFrom _ _ _ (Nat.zero_le _)

/-- The chunks of a file that is split as source code. -/
theorem chunk_eq_of_code (config : Config) {strategy : Strategy} {fileName : String}
    (content : String) (h : strategy = .code ∧ isCodeFile fileName = true) :
    (config.chunker strategy).chunk fileName content = chunkCode config.code fileName content := by
  rw [h.1]
  rfl

/-- The chunks of any other file are the pieces at its windows. -/
theorem chunk_eq_of_not_code (config : Config) {strategy : Strategy} {fileName : String}
    (content : String) (h : ¬(strategy = .code ∧ isCodeFile fileName = true)) :
    (config.chunker strategy).chunk fileName content = Chunk.ofTexts
      ((windowSpans (config.windowOptions strategy) content.toList.length).map fun span =>
        String.ofList (span.cut content.toList)) := by
  -- The strategy for code falls back to windows, with options of its own.
  have htext : (config.chunker strategy).chunk fileName content =
      chunkText (config.windowOptions strategy) content := by
    cases strategy with
    | code =>
        have hfile : ¬isCodeFile fileName = true := fun hfile => h ⟨rfl, hfile⟩
        simp only [Config.chunker, Chunker.chunk, chunkCode, if_neg hfile, Config.windowOptions]
    | text => rfl
  rw [htext, chunkText, Span.cutAll_eq, String.length_toList]

/-- Whichever way a file is split, its chunks are the pieces at spans that
cover it. -/
theorem exists_covers_chunk (config : Config) (strategy : Strategy) (fileName content : String) :
    ∃ spans, Covers (config.repeated strategy fileName) content.toList.length 0 spans ∧
      (config.chunker strategy).chunk fileName content =
        Chunk.ofTexts (spans.map fun span => String.ofList (span.cut content.toList)) := by
  by_cases hcode : strategy = .code ∧ isCodeFile fileName = true
  · refine ⟨codeSpans config.code content.toList, ?_, ?_⟩
    · rw [Config.repeated, if_pos hcode]
      exact covers_codeSpans _ _
    · rw [chunk_eq_of_code config content hcode, chunkCode_eq config.code content hcode.2]
  · refine ⟨windowSpans (config.windowOptions strategy) content.toList.length, ?_,
      chunk_eq_of_not_code config content hcode⟩
    rw [Config.repeated, if_neg hcode]
    exact covers_windowSpans _ _

/-- The chunk of each record is the one that the splitter made. -/
theorem map_chunk_prepareWith (config : Config) (strategy : Strategy) (ids : Nat → Uuid)
    (document : Document) :
    (prepareWith config strategy ids document).records.map Record.chunk =
      (config.chunker strategy).chunk document.fileName document.content := by
  apply List.ext_getElem <;> simp [prepareWith]

/-- The content is recovered from the chunks of a prepared document alone,
whatever the configuration and however the document is split. Source code is
its chunks put together; elsewhere each later chunk first loses what it
repeats, and it always holds more than that. -/
theorem prepareWith_recovers (config : Config) (strategy : Strategy) (ids : Nat → Uuid)
    (document : Document) :
    let prepared := prepareWith config strategy ids document
    let overlap := (config.windowOptions strategy).frame.overlap
    0 < prepared.records.length ∧
      (∀ (i : Nat) (_ : i < prepared.records.length),
        prepared.records[i].chunk.index = i ∧
          prepared.records[i].chunk.total = prepared.records.length) ∧
      (document.content ≠ "" → ∀ text ∈ prepared.texts, text ≠ "") ∧
      (strategy = .code ∧ isCodeFile document.fileName = true →
        String.join prepared.texts = document.content) ∧
      (¬(strategy = .code ∧ isCodeFile document.fileName = true) →
        rejoin overlap prepared.texts = document.content ∧
          ∀ text ∈ prepared.texts.tail, overlap < text.length) := by
  intro prepared overlap
  -- The texts are the pieces at spans that cover the content.
  rcases exists_covers_chunk config strategy document.fileName document.content with
    ⟨spans, hcovers, hchunks⟩
  have hrecords := map_chunk_prepareWith config strategy ids document
  rw [hchunks] at hrecords
  have htexts : prepared.texts =
      spans.map fun span => String.ofList (span.cut document.content.toList) := by
    rw [← Chunk.map_text_ofTexts (spans.map _), ← hrecords, List.map_map]
    rfl
  have hcount : prepared.records.length = spans.length := by
    simpa using congrArg List.length hrecords
  -- In order: there are records, their numbers, no empty text, and the two ways to join them.
  refine ⟨?_, ?_, ?_, ?_, ?_⟩
  · rw [hcount]
    exact List.length_pos_iff.mpr hcovers.ne_nil
  · intro i hi
    have hnumbered := Chunk.numbered_ofTexts
      (spans.map fun span => String.ofList (span.cut document.content.toList)) i
      (by simpa [hcount] using hi)
    simpa only [← hrecords, List.getElem_map, List.length_map] using hnumbered
  · intro hne
    have hpos : 0 < document.content.toList.length := by
      rw [List.length_pos_iff]
      simpa using hne
    rw [htexts]
    exact hcovers.ne_empty_of_mem hpos
  · intro hcode
    rw [Config.repeated, if_pos hcode] at hcovers
    rw [htexts, hcovers.join_cut, List.drop_zero, String.ofList_toList]
  · intro hcode
    rw [Config.repeated, if_neg hcode] at hcovers
    refine ⟨?_, ?_⟩
    · rw [htexts, hcovers.rejoin_cut, List.drop_zero, String.ofList_toList]
    · rw [htexts]
      exact hcovers.overlap_lt_length_of_mem_tail

end Chunking
