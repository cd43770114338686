/-!
# Chunks

A chunk is a contiguous piece of a document's text together with its place in
the list it was emitted in.

The total is known only once the whole list has been emitted, so a list is
built from chunks whose total stands at zero and stamped once at the end.
`Chunk.ofTexts` does both at once, and it is how every splitter ends: a
splitter decides only where the pieces lie.

## Main definitions

* `Chunk`: A piece of text with its index and the length of its list.
* `Chunk.pending`: A chunk whose list is still growing.
* `Chunk.whole`: The list that holds the whole content as one chunk.
* `Chunk.finalize`: Stamp every chunk with the length of the list.
* `Chunk.ofTexts`: The finalized list of the given pieces.
-/

namespace Chunking

/-- A contiguous piece of a document's text and its place in the split. -/
structure Chunk where
  /-- The text of the piece. -/
  text : String
  /-- The position of the chunk in its list, from zero. -/
  index : Nat
  /-- The number of chunks in the list, or zero while that is not known. -/
  total : Nat
  deriving DecidableEq, Repr

namespace Chunk

/-- A chunk whose list is still growing. -/
def pending (text : String) (index : Nat) : Chunk :=
  ⟨text, index, 0⟩

/-- The list that holds the whole content as its only chunk. -/
def whole (content : String) : List Chunk :=
  [⟨content, 0, 1⟩]

/-- The length of the chunk's text in characters. -/
def length (chunk : Chunk) : Nat :=
  chunk.text.length

/-- Whether the chunk holds no text. -/
def isEmpty (chunk : Chunk) : Bool :=
  chunk.text.isEmpty

/-- Stamp every chunk with the length of the list it stands in. -/
def finalize (chunks : List Chunk) : List Chunk :=
  let total := chunks.length
  chunks.map fun chunk => { chunk with total }

/-- The finalized list of the given pieces, numbered from zero. -/
def ofTexts (texts : List String) : List Chunk :=
  finalize (texts.mapIdx fun index text => pending text index)

/-- A list of pieces has one chunk per piece. -/
@[simp]
theorem length_ofTexts (texts : List String) : (ofTexts texts).length = texts.length := by
  simp [ofTexts, finalize]

/-- A chunk knows its piece, its place and how many there are. -/
theorem getElem_ofTexts (texts : List String) (i : Nat) (h : i < (ofTexts texts).length) :
    (ofTexts texts)[i] = ⟨texts.get ⟨i, by rwa [length_ofTexts] at h⟩, i, texts.length⟩ := by
  simp [ofTexts, finalize, pending]

/-- The chunks of a list of pieces are numbered, and each knows how many there
are. -/
theorem numbered_ofTexts (texts : List String) (i : Nat) (h : i < (ofTexts texts).length) :
    (ofTexts texts)[i].index = i ∧ (ofTexts texts)[i].total = (ofTexts texts).length := by
  rw [getElem_ofTexts]
  exact ⟨rfl, (length_ofTexts texts).symm⟩

/-- The texts of the chunks are the pieces they were made of. -/
@[simp]
theorem map_text_ofTexts (texts : List String) : (ofTexts texts).map text = texts := by
  apply List.ext_getElem <;> simp [ofTexts, finalize, pending]

end Chunk

end Chunking
