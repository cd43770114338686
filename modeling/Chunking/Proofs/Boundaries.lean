import Chunking.Proofs.Cover
import Chunking.Proofs.WholeParts

/-!
# Valid slices

A text is cut by offsets in bytes, and two things can be wrong with a slice: its ends are
not in order, or one of them is not between characters of the text. `ByteRange.IsValid`
rules out both, and what is valid in this sense is exactly what can be cut out.

Positions are turned into offsets by the table of boundaries. It has one entry more than
there are characters, the last one for the end of the text, so every position up to the
length of the text has an entry, that position included. The table knows nothing of bytes
but how many each character has. That its entries are the offsets between characters, and
that the bytes between two of them are the encoding of the characters between, is a fact
about the encoding.

## Main definitions

* `ByteRange.IsValid`: A slice that can be taken.
* `Span.slice?`: The characters of a span, cut out by offsets from a table.

## Theorems

* `getElem?_boundaries`: The entry for a position.
* `mem_boundaries_iff`: The entries are the lengths of the beginnings of the text.
* `mem_boundaries_toList_iff`: The entries are the offsets between characters.
* `ByteRange.isSome_slice?_iff`: What is valid can be cut out, and nothing else.
* `Span.extract_boundaries`: The bytes between the offsets of a span.
* `Span.slice?_boundaries`: A span up to the end of a text is cut out.
-/

namespace Chunking

open Text

variable {text before inside after : List Char} {offset : Nat}

/-! ## The table of boundaries -/

namespace Text

theorem getElem?_boundariesFrom (offset : Nat) {i : Nat} (h : i ≤ text.length) :
    (boundariesFrom offset text)[i]? = some (offset + byteLength (text.take i)) := by
  induction text generalizing offset i with
  | nil =>
      rw [Nat.le_zero.mp h]
      rfl
  | cons c text ih =>
      cases i with
      | zero => rfl
      | succ i =>
          rw [boundariesFrom, List.getElem?_cons_succ, ih _ (Nat.le_of_succ_le_succ h),
            List.take_succ_cons, byteLength_cons, Nat.add_assoc]

/-- The entry for a position is the number of bytes before it. -/
theorem getElem?_boundaries {i : Nat} (h : i ≤ text.length) :
    (boundaries text)[i]? = some (byteLength (text.take i)) := by
  rw [boundaries, getElem?_boundariesFrom 0 h, Nat.zero_add]

-- One, two, three and four bytes.
example : boundaries "añ€😀".toList = [0, 1, 3, 6, 10] := by
  decide

theorem length_boundariesFrom (offset : Nat) (text : List Char) :
    (boundariesFrom offset text).length = text.length + 1 := by
  induction text generalizing offset with
  | nil => rfl
  | cons c text ih => rw [boundariesFrom, List.length_cons, ih, List.length_cons]

/-- There is one entry more than there are characters. -/
theorem length_boundaries (text : List Char) : (boundaries text).length = text.length + 1 :=
  length_boundariesFrom 0 text

/-- The entries are the lengths of the beginnings of the text. -/
theorem mem_boundaries_iff :
    offset ∈ boundaries text ↔ ∃ before after, text = before ++ after ∧
      offset = byteLength before := by
  constructor
  · intro h
    rcases List.getElem_of_mem h with ⟨i, hi, hentry⟩
    have hle : i ≤ text.length := by
      rw [length_boundaries] at hi
      omega
    refine ⟨text.take i, text.drop i, (List.take_append_drop i text).symm, ?_⟩
    rw [← Option.some.injEq, ← hentry, ← List.getElem?_eq_getElem hi, getElem?_boundaries hle]
  · rintro ⟨before, after, rfl, rfl⟩
    have hentry : (boundaries (before ++ after))[before.length]? = some (byteLength before) := by
      rw [getElem?_boundaries (by simp), List.take_left]
    exact List.mem_of_getElem? hentry

/-! ## Bytes -/

theorem size_utf8Encode (text : List Char) : text.utf8Encode.size = byteLength text := by
  induction text with
  | nil => rfl
  | cons c text ih =>
      rw [List.utf8Encode_cons, ByteArray.size_append, ih, List.utf8Encode_singleton,
        List.size_toByteArray, String.length_utf8EncodeChar, byteLength_cons]

/-- The entries are the offsets between the characters of a string. -/
theorem mem_boundaries_toList_iff {content : String} :
    offset ∈ boundaries content.toList ↔ String.Pos.Raw.IsValid content ⟨offset⟩ := by
  have hsize (part : String) : part.rawEndPos = ⟨byteLength part.toList⟩ := by
    rw [← size_utf8Encode, String.utf8Encode_toList]
    rfl
  rw [mem_boundaries_iff, String.Pos.Raw.isValid_iff_exists_append]
  constructor
  · rintro ⟨before, after, hcontent, rfl⟩
    refine ⟨String.ofList before, String.ofList after, ?_, ?_⟩
    · rw [← String.ofList_append, ← hcontent, String.ofList_toList]
    · rw [hsize, String.toList_ofList]
  · rintro ⟨front, back, rfl, hoffset⟩
    refine ⟨front.toList, back.toList, String.toList_append, ?_⟩
    rw [hsize] at hoffset
    exact String.Pos.Raw.mk.inj hoffset

/-- The bytes of a part of a text are its encoding. -/
theorem extract_utf8Encode (before inside after : List Char) :
    (before ++ inside ++ after).utf8Encode.extract (byteLength before)
      (byteLength (before ++ inside)) = inside.utf8Encode := by
  have hnone : before.utf8Encode.extract before.utf8Encode.size
      (before.utf8Encode.size + inside.utf8Encode.size) = ByteArray.empty :=
    ByteArray.extract_eq_empty_iff.mpr (Nat.min_le_right _ _)
  rw [List.append_assoc, List.utf8Encode_append, List.utf8Encode_append, ← size_utf8Encode,
    ← size_utf8Encode, List.utf8Encode_append, ByteArray.size_append, ByteArray.extract_append,
    Nat.sub_self, Nat.add_sub_cancel_left, ByteArray.extract_append_eq_left rfl, hnone,
    ByteArray.empty_append]

end Text

/-! ## Slices -/

/-- The ends of the range are in order, lie in the text, and are between characters of
it. -/
structure ByteRange.IsValid (range : ByteRange) (text : List Char) : Prop where
  start_le_stop : range.start ≤ range.stop
  stop_le : range.stop ≤ byteLength text
  start_mem : range.start ∈ boundaries text
  stop_mem : range.stop ∈ boundaries text

/-- A range is valid exactly if it is a part of the text. -/
theorem ByteRange.isValid_iff_liesIn {range : ByteRange} :
    range.IsValid text ↔ range.LiesIn text := by
  constructor
  · rintro ⟨hle, -, hstart, hstop⟩
    rcases mem_boundaries_iff.mp hstart with ⟨before, rest, htext, hbefore⟩
    rcases mem_boundaries_iff.mp hstop with ⟨through, after, rfl, hthrough⟩
    rw [hbefore, hthrough] at hle
    -- What comes before the range is a beginning of what comes before its end.
    rcases prefix_of_byteLength_le ⟨rest, htext.symm⟩ ⟨after, rfl⟩ hle with ⟨inside, rfl⟩
    exact ⟨before, inside, after, rfl, by rw [← hbefore, ← hthrough]⟩
  · rintro ⟨before, inside, after, rfl, rfl⟩
    refine ⟨?_, ?_, ?_, ?_⟩
    · rw [byteLength_append]
      exact Nat.le_add_right _ _
    · rw [byteLength_append (before ++ inside)]
      exact Nat.le_add_right _ _
    · exact mem_boundaries_iff.mpr ⟨before, inside ++ after, by simp, rfl⟩
    · exact mem_boundaries_iff.mpr ⟨before ++ inside, after, rfl, rfl⟩

/-- A slice is valid exactly if there is a text to cut out. -/
theorem ByteRange.isSome_slice?_iff {range : ByteRange} :
    (range.slice? text).isSome = true ↔ range.IsValid text := by
  rw [isValid_iff_liesIn]
  constructor
  · intro h
    rcases Option.isSome_iff_exists.mp h with ⟨part, hpart⟩
    rcases sliceBytes?_eq_some_iff.mp hpart with ⟨before, after, rfl, hstart, hstop⟩
    exact ⟨before, part, after, rfl, by rw [hstart, hstop]⟩
  · intro h
    rcases h.exists_slice? with ⟨part, hpart⟩
    rw [hpart]
    rfl

/-- From an offset between characters on, all of a text can be cut out. -/
theorem slice?_append (before after : List Char) :
    ByteRange.slice? ⟨byteLength before, byteLength (before ++ after)⟩ (before ++ after) =
      some after := by
  have hslice := @slice?_eq_some_iff before after [] after
  rw [List.append_nil] at hslice
  exact hslice.mpr rfl

/-! ## Spans -/

/-- The characters of a span, cut out of a text by the offsets that a table has for its
ends; nothing if the table has none, or if they are not the ends of a valid slice. -/
def Span.slice? (offsets : List Nat) (text : List Char) (span : Span) : Option (List Char) := do
  let start ← offsets[span.start]?
  let stop ← offsets[span.stop]?
  ByteRange.slice? ⟨start, stop⟩ text

namespace Span

variable {span : Span}

/-- What comes before a span and the span make up what comes before its end. -/
theorem take_append_cut (chars : List Char) (h : span.start ≤ span.stop) :
    chars.take span.start ++ span.cut chars = chars.take span.stop := by
  rw [cut, List.extract_eq_take_drop, ← List.take_add, Nat.add_sub_cancel' h]

/-- The bytes between the offsets for the ends of a span are the encoding of its
characters. -/
theorem extract_boundaries (hle : span.start ≤ span.stop) :
    text.utf8Encode.extract (byteLength (text.take span.start)) (byteLength (text.take span.stop)) =
      (span.cut text).utf8Encode := by
  have htext := cut_append_drop text span hle
  have hbytes := extract_utf8Encode (text.take span.start) (span.cut text) (text.drop span.stop)
  rwa [List.append_assoc, htext, List.take_append_drop, take_append_cut text hle] at hbytes

/-- A span up to the end of a text is cut out by the table of the text. -/
theorem slice?_boundaries (hle : span.start ≤ span.stop) (hstop : span.stop ≤ text.length) :
    span.slice? (boundaries text) text = some (span.cut text) := by
  have htext := cut_append_drop text span hle
  have hslice := @slice?_eq_some_iff (text.take span.start) (span.cut text)
    (text.drop span.stop) (span.cut text)
  rw [List.append_assoc, htext, List.take_append_drop, take_append_cut text hle] at hslice
  rw [slice?, getElem?_boundaries (Nat.le_trans hle hstop), getElem?_boundaries hstop]
  exact hslice.mpr rfl

end Span

end Chunking
