import Chunking.Proofs.Recovery
import Chunking.Reindex

/-!
# Chunks that a plan reuses

A plan looks at digests, and the digest that a record carries is that of its
own text. So a chunk is reused whenever its text is stored, whichever document
it was stored for and wherever it stood there.

## Main definitions

* `PreparedDocument.chunks`: The chunks of a prepared document.

## Theorems

* `texts_prepareWith`: The texts of a prepared document.
* `texts_of_code`: The texts of one that is split as source code.
* `mem_reuse_iff`: Which chunks a plan reuses.
* `mem_reuse_of_mem`: A chunk whose text is stored is reused.
-/

namespace Chunking

/-- The chunks of a prepared document in order. -/
def PreparedDocument.chunks (prepared : PreparedDocument) : List Chunk :=
  prepared.records.map Record.chunk

section Prepared

variable (config : Config) (strategy : Strategy) (ids : Nat → Uuid) (document : Document)

theorem chunks_prepareWith :
    (prepareWith config strategy ids document).chunks =
      (config.chunker strategy).chunk document.fileName document.content :=
  map_chunk_prepareWith config strategy ids document

theorem texts_prepareWith :
    (prepareWith config strategy ids document).texts =
      ((config.chunker strategy).chunk document.fileName document.content).map Chunk.text := by
  rw [← chunks_prepareWith config strategy ids, PreparedDocument.chunks, List.map_map]
  rfl

/-- The texts of a document that is split as source code are the pieces at its
spans, and each chunk starts where its span does. -/
theorem texts_of_code {strategy : Strategy}
    (hcode : strategy = .code ∧ isCodeFile document.fileName = true) :
    (prepareWith config strategy ids document).texts =
        ((codeSpans config.code document.content.toList).map fun span =>
          String.ofList (span.cut document.content.toList)) ∧
      ∀ k (hk : k < (codeSpans config.code document.content.toList).length),
        Chunk.startOf (prepareWith config strategy ids document).chunks k =
          (codeSpans config.code document.content.toList)[k].start := by
  have hchunks := chunk_eq_of_code config document.content hcode
  rw [chunkCode_eq config.code document.content hcode.2] at hchunks
  refine ⟨?_, fun k hk => ?_⟩
  · rw [texts_prepareWith, hchunks, Chunk.map_text_ofTexts]
  · rw [chunks_prepareWith, hchunks, (covers_codeSpans _ _).startOf_eq k hk]

-- Each record carries the digest of its own text.
theorem chunkHashes_prepareWith :
    (prepareWith config strategy ids document).chunkHashes =
      (prepareWith config strategy ids document).texts.map textDigest := by
  apply List.ext_getElem <;>
    simp [PreparedDocument.chunkHashes, PreparedDocument.texts, prepareWith]

end Prepared

/-- A plan reuses the chunks whose digests are those of stored texts. -/
theorem mem_reuse_iff (prepared : PreparedDocument) (stored : List String) (i : Nat)
    (hash : String) :
    (i, hash) ∈ (planReindex prepared stored).reuse ↔
      prepared.chunkHashes[i]? = some hash ∧ hash ∈ stored.map textDigest := by
  simp only [planReindex, List.mem_filter, List.contains_iff_mem, List.mem_mapIdx, Prod.mk.injEq]
  refine and_congr_left fun _ => ?_
  rw [List.getElem?_eq_some_iff]
  constructor
  · rintro ⟨place, hplace, rfl, rfl⟩
    exact ⟨hplace, rfl⟩
  · rintro ⟨hplace, rfl⟩
    exact ⟨i, hplace, rfl, rfl⟩

/-- A chunk whose text is stored is reused. -/
theorem mem_reuse_of_mem {config : Config} {strategy : Strategy} {ids : Nat → Uuid}
    {document : Document} {stored : List String} {i : Nat} {text : String}
    (htext : (prepareWith config strategy ids document).texts[i]? = some text)
    (hstored : text ∈ stored) :
    (i, textDigest text) ∈
      (planReindex (prepareWith config strategy ids document) stored).reuse := by
  rw [mem_reuse_iff, chunkHashes_prepareWith, List.getElem?_map, htext]
  exact ⟨rfl, List.mem_map_of_mem hstored⟩

end Chunking
