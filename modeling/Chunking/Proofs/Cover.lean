import Chunking.Chunk
import Chunking.Span

/-!
# Spans that cover a text

What the two splitters have in common. Both lay spans over a text from its
start to its end, and each span starts a fixed number of characters before its
predecessor ends; for source code that number is zero. `Covers` says this of a
list of spans, and nothing about why a span ends where it does.

That is enough to give the text back. A span that is not the first one holds
more characters than it repeats, so dropping what it repeats leaves exactly
what follows its predecessor.

Where no characters are repeated, the place of a chunk in the text can be told
from the lengths of the chunks before it. `Chunk.startOf` is that sum, and it
lets a statement about cuts speak of chunks alone.

## Main definitions

* `Covers`: Spans from an offset to the end of a text, with a fixed overlap.
* `rejoin`: The text that pieces with an overlap were cut from.
* `Chunk.startOf`: The offset at which a chunk of a list without overlap starts.

## Theorems

* `Covers.longer`: A span that covers more than the overlap is longer than it.
* `Covers.length_le`: How many spans there are at most.
* `Covers.longer_tail`: Every span but the first is longer than the overlap.
* `Covers.start_lt_stop`: No span is empty when there is something to cover.
* `Covers.rejoin_cut`: The pieces at the spans give the text back.
* `Covers.join_cut`: Without overlap, that is to join them.
* `Covers.overlap_lt_length_of_mem_tail`: Each later piece holds more than it
  repeats.
* `Covers.succ`: Where the span after another starts.
* `Covers.startOf_eq`: Without overlap, a chunk starts where its span does.
-/

namespace Chunking

/-- Spans that cover a text of `length` characters from an offset to its end.
Each one but the first starts `overlap` characters before its predecessor
ends. -/
inductive Covers (overlap length : Nat) : Nat → List Span → Prop where
  | last {start : Nat} (hstart : start ≤ length) :
      Covers overlap length start [⟨start, length⟩]
  | more {start stop : Nat} {rest : List Span} (hreach : start + overlap < stop)
      (hstop : stop < length) (hrest : Covers overlap length (stop - overlap) rest) :
      Covers overlap length start (⟨start, stop⟩ :: rest)

/-- The text that pieces were cut from when each one but the first repeats
`overlap` characters. -/
def rejoin (overlap : Nat) : List String → String
  | [] => ""
  | first :: later =>
    String.ofList (first.toList ++ later.flatMap fun text => text.toList.drop overlap)

/-- The offset at which a chunk starts when the chunks follow one another
without overlap. -/
def Chunk.startOf (chunks : List Chunk) (k : Nat) : Nat :=
  ((chunks.take k).map Chunk.length).foldr (· + ·) 0

namespace Span

/-- The number of characters in a span of the text. -/
theorem length_cut (chars : List Char) (span : Span) (h : span.stop ≤ chars.length) :
    (span.cut chars).length = span.stop - span.start := by
  rw [cut, List.extract_eq_take_drop, List.length_take, List.length_drop]
  omega

/-- The characters of a span and those after it are the ones from its start
on. -/
theorem cut_append_drop (chars : List Char) (span : Span) (h : span.start ≤ span.stop) :
    span.cut chars ++ chars.drop span.stop = chars.drop span.start := by
  have hdrop : chars.drop span.stop = (chars.drop span.start).drop (span.stop - span.start) := by
    rw [List.drop_drop]
    congr 1
    omega
  rw [cut, List.extract_eq_take_drop, hdrop, List.take_append_drop]

end Span

namespace Covers

variable {overlap length start : Nat} {spans : List Span}

-- Even nothing is covered by one span.
theorem ne_nil (h : Covers overlap length start spans) : spans ≠ [] := by
  cases h <;> simp

/-- A span that covers more than the overlap is longer than it. -/
theorem longer (h : Covers overlap length start spans) (hlt : start + overlap < length) :
    ∀ span ∈ spans, span.start + overlap < span.stop ∧ span.stop ≤ length := by
  -- A span that is followed reaches farther than it repeats, so the next one has as much to
  -- cover, and the condition is handed on.
  induction h with
  | last hstart =>
      intro span hspan
      rcases List.mem_singleton.mp hspan with rfl
      exact ⟨hlt, Nat.le_refl _⟩
  | more hreach hstop _ ih =>
      intro span hspan
      rcases List.mem_cons.mp hspan with rfl | hspan
      · exact ⟨hreach, Nat.le_of_lt hstop⟩
      · exact ih (by omega) span hspan

/-- There is one span, or at most one for each character. -/
theorem length_le (h : Covers overlap length start spans) :
    spans.length ≤ max 1 (length - start) := by
  induction h with
  | last hstart => exact Nat.le_max_left _ _
  | more hreach hstop _ ih =>
      rw [List.length_cons]
      omega

/-- Every span but the first is longer than the overlap. -/
theorem longer_tail (h : Covers overlap length start spans) :
    ∀ span ∈ spans.tail, span.start + overlap < span.stop ∧ span.stop ≤ length := by
  cases h with
  | last hstart => simp
  | more hreach hstop hrest => exact hrest.longer (by omega)

/-- No span is empty when there is something to cover. -/
theorem start_lt_stop (h : Covers overlap length start spans) (hlt : start < length) :
    ∀ span ∈ spans, span.start < span.stop ∧ span.stop ≤ length := by
  intro span hspan
  cases h with
  | last hstart =>
      rcases List.mem_singleton.mp hspan with rfl
      exact ⟨hlt, Nat.le_refl _⟩
  | more hreach hstop hrest =>
      rcases List.mem_cons.mp hspan with rfl | hspan
      · exact ⟨by simp only; omega, Nat.le_of_lt hstop⟩
      · have hlonger := hrest.longer (by omega) span hspan
        exact ⟨by omega, hlonger.2⟩

/-- The pieces at the spans give back the text from the first span on. -/
theorem rejoin_cut {chars : List Char} (h : Covers overlap chars.length start spans) :
    rejoin overlap (spans.map fun span => String.ofList (span.cut chars)) =
      String.ofList (chars.drop start) := by
  induction h with
  | @last start hstart =>
      have hcut := Span.cut_append_drop chars ⟨start, chars.length⟩ hstart
      rw [List.drop_length, List.append_nil] at hcut
      simp [rejoin, hcut]
  | @more start stop rest hreach hstop hrest ih =>
      -- The next span repeats `overlap` characters and holds more than those.
      cases rest with
      | nil => exact absurd rfl hrest.ne_nil
      | cons next later =>
          have hnext := hrest.longer (by omega) next List.mem_cons_self
          have hlen : overlap ≤ (next.cut chars).length := by
            rw [Span.length_cut chars next hnext.2]
            omega
          simp only [rejoin, List.map_cons, String.toList_ofList, String.ofList_inj] at ih
          -- Without what it repeats the rest starts exactly where this span stops.
          have hafter : (next.cut chars).drop overlap ++
              (later.map fun span => String.ofList (span.cut chars)).flatMap
                (fun text => text.toList.drop overlap) = chars.drop stop := by
            rw [← List.drop_append_of_le_length hlen, ih, List.drop_drop]
            congr 1
            omega
          have hcut := Span.cut_append_drop chars ⟨start, stop⟩ (by simp only; omega)
          simp only [rejoin, List.map_cons, String.toList_ofList, List.flatMap_cons]
          rw [hafter, hcut]

/-- Joining the pieces at the spans gives back the text when nothing is
repeated. -/
theorem join_cut {chars : List Char} (h : Covers 0 chars.length start spans) :
    String.join (spans.map fun span => String.ofList (span.cut chars)) =
      String.ofList (chars.drop start) := by
  rw [← h.rejoin_cut]
  cases spans with
  | nil => simp [rejoin]
  | cons first later => simp [rejoin, ← String.toList_inj]

/-- No piece is empty when there is something to cover. -/
theorem ne_empty_of_mem {chars : List Char} (h : Covers overlap chars.length start spans)
    (hlt : start < chars.length) :
    ∀ text ∈ spans.map fun span => String.ofList (span.cut chars), text ≠ "" := by
  intro text htext hempty
  rcases List.mem_map.mp htext with ⟨span, hspan, rfl⟩
  have hspan := h.start_lt_stop hlt span hspan
  have hlength := Span.length_cut chars span hspan.2
  rw [String.ofList_eq_empty_iff] at hempty
  rw [hempty, List.length_nil] at hlength
  omega

/-- Every piece but the first holds more than it repeats. -/
theorem overlap_lt_length_of_mem_tail {chars : List Char}
    (h : Covers overlap chars.length start spans) :
    ∀ text ∈ (spans.map fun span => String.ofList (span.cut chars)).tail,
      overlap < text.length := by
  intro text htext
  rw [← List.map_tail] at htext
  rcases List.mem_map.mp htext with ⟨span, hspan, rfl⟩
  have hlonger := h.longer_tail span hspan
  rw [String.length_ofList, Span.length_cut chars span hlonger.2]
  omega

/-- No span reaches past the end of the text. -/
theorem stop_le (h : Covers overlap length start spans) : ∀ span ∈ spans, span.stop ≤ length := by
  intro span hspan
  cases h with
  | last hstart =>
      rcases List.mem_singleton.mp hspan with rfl
      exact Nat.le_refl _
  | more hreach hstop hrest =>
      rcases List.mem_cons.mp hspan with rfl | hspan
      · exact Nat.le_of_lt hstop
      · exact (hrest.longer (by omega) span hspan).2

/-- No span ends before it starts. -/
theorem start_le_stop (h : Covers overlap length start spans) :
    ∀ span ∈ spans, span.start ≤ span.stop := by
  intro span hspan
  cases h with
  | last hstart =>
      rcases List.mem_singleton.mp hspan with rfl
      exact hstart
  | more hreach hstop hrest =>
      rcases List.mem_cons.mp hspan with rfl | hspan
      · simp only
        omega
      · have := (hrest.longer (by omega) span hspan).1
        omega

/-- No span starts before the first one. -/
theorem start_le (h : Covers overlap length start spans) :
    ∀ span ∈ spans, start ≤ span.start := by
  induction h with
  | last hstart =>
      intro span hspan
      rcases List.mem_singleton.mp hspan with rfl
      exact Nat.le_refl _
  | more hreach hstop hrest ih =>
      intro span hspan
      rcases List.mem_cons.mp hspan with rfl | hspan
      · exact Nat.le_refl _
      · have := ih span hspan
        omega

/-- A span that is not the last one ends inside the text, and the next one
starts `overlap` characters before. -/
theorem succ (h : Covers overlap length start spans) (k : Nat) (hk : k + 1 < spans.length) :
    spans[k].stop < length ∧ spans[k + 1].start + overlap = spans[k].stop := by
  induction h generalizing k with
  | last hstart => exact absurd hk (by simp)
  | @more start stop rest hreach hstop hrest ih =>
      cases k with
      | zero =>
          refine ⟨hstop, ?_⟩
          -- The rest starts where the repeated characters do.
          have hnext : ∀ _ : 0 < rest.length, rest[0].start = stop - overlap := by
            intro _
            cases hrest <;> rfl
          simp only [List.getElem_cons_succ, List.getElem_cons_zero, hnext]
          omega
      | succ k =>
          have hk' : k + 1 < rest.length := by simpa using hk
          exact ih k hk'

/-- Spans without overlap start where those before them add up to. -/
theorem start_eq_sum (h : Covers 0 length start spans) (k : Nat) (hk : k < spans.length) :
    spans[k].start =
      start + ((spans.take k).map fun span => span.stop - span.start).foldr (· + ·) 0 := by
  induction h generalizing k with
  | last hstart =>
      rw [List.length_singleton] at hk
      have hzero : k = 0 := by omega
      simp [hzero]
  | @more start stop rest hreach hstop hrest ih =>
      cases k with
      | zero => simp
      | succ k =>
          have hrest' := ih k (by simpa using hk)
          simp only [List.getElem_cons_succ, hrest', List.take_succ_cons, List.map_cons,
            List.foldr_cons]
          omega

/-- Without overlap, a chunk starts where its span does. -/
theorem startOf_eq {chars : List Char} (h : Covers 0 chars.length 0 spans) (k : Nat)
    (hk : k < spans.length) :
    Chunk.startOf (Chunk.ofTexts (spans.map fun span => String.ofList (span.cut chars))) k =
      spans[k].start := by
  -- The length of a chunk is that of its span, so the two sums are the same.
  have hlength : (Chunk.ofTexts (spans.map fun span => String.ofList (span.cut chars))).map
      Chunk.length = spans.map fun span => span.stop - span.start := by
    change List.map (String.length ∘ Chunk.text) _ = _
    rw [← List.map_map, Chunk.map_text_ofTexts, List.map_map]
    refine List.map_congr_left fun span hspan => ?_
    rw [Function.comp, String.length_ofList, Span.length_cut chars span (h.stop_le span hspan)]
  rw [Chunk.startOf, List.map_take, hlength, ← List.map_take, h.start_eq_sum k hk, Nat.zero_add]

end Covers

end Chunking
