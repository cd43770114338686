import Chunking.Proofs.DeclaredNames
import Chunking.Proofs.Pieces

/-!
# The characters of a spanned text

Of what a pattern spans it is often enough to know which characters it can be made
of. That can be read off the pattern: `SpansOnly` collects what is allowed at its
single characters and stretches, and asks nothing of edges and marks.

The last character of a word says where the word was, if it does not come again. So
what starts with such a word does not lie across another place of it.

## Main definitions

* `Pattern.SpansOnly`: All that the pattern spans is of one kind.

## Theorems

* `Pattern.Spans.forall_mem`: The characters of a spanned text.
* `Pattern.spansOnly_words`: Words.
* `Pattern.exists_of_spans_stop`: The end of a declaration.
* `Pattern.spans_modifiers`: Modifiers with a blank behind each.
* `Pattern.clearAt_of_word`: Nothing lies across the start of a word.
-/

namespace Chunking.Pattern

open Text

/-- All characters that the pattern spans are of a kind. -/
def SpansOnly (kind : Char → Prop) : Pattern → Prop
  | literal chars => ∀ c ∈ chars, kind c
  | one allowed | stretch _ allowed => ∀ c, allowed c = true → kind c
  | seq first second | either first second => first.SpansOnly kind ∧ second.SpansOnly kind
  | many round => round.SpansOnly kind
  | mark _ | wordEdge | lineStart | textStart | textEnd => True

variable {kind : Char → Prop} {pattern : Pattern} {before text after : List Char}

/-- What a pattern spans has only the characters that it allows. -/
theorem Spans.forall_mem (h : pattern.Spans before text after) (honly : pattern.SpansOnly kind) :
    ∀ c ∈ text, kind c := by
  induction h with
  | literal => exact honly
  | one hc => exact List.forall_mem_singleton.mpr (honly _ hc)
  | stretch hall => exact fun c hc => honly c (hall c hc)
  | seq _ _ ih ih' => exact List.forall_mem_append.mpr ⟨ih honly.1, ih' honly.2⟩
  | left _ ih => exact ih honly.1
  | right _ ih => exact ih honly.2
  | more _ _ ih ih' => exact List.forall_mem_append.mpr ⟨ih honly, ih' honly⟩
  | stop | mark | wordEdge | lineStart | textStart | textEnd =>
      exact fun c hc => absurd hc List.not_mem_nil

theorem spansOnly_words {words : List String} (h : ∀ word ∈ words, ∀ c ∈ word.toList, kind c) :
    (Pattern.words words).SpansOnly kind := by
  induction words with
  | nil => exact fun c hc => by cases hc
  | cons first rest ih =>
      have hrest := ih fun word hword => h word (List.mem_cons_of_mem first hword)
      cases rest with
      | nil => exact h first List.mem_cons_self
      | cons second rest => exact ⟨h first List.mem_cons_self, hrest⟩

theorem spansOnly_someBlanks (h : ∀ c, isBlank c = true → kind c) : someBlanks.SpansOnly kind :=
  ⟨h, h⟩

theorem spansOnly_modifiers {allowed : List String}
    (hwords : ∀ word ∈ allowed, ∀ c ∈ word.toList, kind c)
    (hblank : ∀ c, isBlank c = true → kind c) : (modifiers allowed).SpansOnly kind :=
  ⟨spansOnly_words hwords, spansOnly_someBlanks hblank⟩

/-- White space and one more character, as at the end of a declaration. -/
theorem exists_of_spans_stop {allowed : Char → Bool}
    (h : (inRow [blanks, one allowed]).Spans before text after) :
    ∃ gap stop, text = gap ++ [stop] ∧ (∀ c ∈ gap, isBlank c = true) ∧ allowed stop = true := by
  rcases h.exists_of_seq with ⟨gap, last, rfl, hgap, hlast⟩
  rw [spans_inRow_singleton_iff] at hlast
  rcases hlast.exists_of_one with ⟨stop, rfl, hstop⟩
  exact ⟨gap, stop, rfl, hgap.forall_of_stretch, hstop⟩

/-- Words with a space behind each. -/
def spaced (words : List String) : List Char :=
  words.flatMap fun word => word.toList ++ [' ']

theorem spans_space (before after : List Char) : someBlanks.Spans before [' '] after :=
  spans_someBlanks_iff.mpr ⟨List.cons_ne_nil _ _, by decide⟩

theorem spans_modifiers {allowed words : List String} (h : ∀ word ∈ words, word ∈ allowed)
    (before after : List Char) : (modifiers allowed).Spans before (spaced words) after := by
  induction words generalizing before with
  | nil => exact .stop
  | cons word words ih =>
      have hrest := ih (fun other hother => h other (List.mem_cons_of_mem word hother))
        (before ++ (word.toList ++ [' ']))
      exact .more (.seq (spans_words (h word List.mem_cons_self) _ _) (spans_space _ _)) hrest

-- Modifiers end with the blank behind the last one.
theorem getLast?_of_spans_modifiers {allowed : List String} {before text after : List Char}
    (h : (modifiers allowed).Spans before text after) :
    ∀ c, text.getLast? = some c → isBlank c = true := by
  generalize hpattern : modifiers allowed = pattern at h
  induction h with
  | stop =>
      intro c hc
      cases hc
  | @more _ before text text' after hround hmore _ ih =>
      cases hpattern
      intro c hc
      rcases List.eq_nil_or_concat text' with rfl | ⟨front, last, rfl⟩
      · rcases hround.exists_of_seq with ⟨word, gap, rfl, -, hgap⟩
        have hblanks := spans_someBlanks_iff.mp hgap
        rw [List.append_nil, List.getLast?_append_of_ne_nil word hblanks.1] at hc
        exact hblanks.2 c (List.mem_of_getLast? hc)
      · refine ih rfl c ?_
        rwa [List.getLast?_append_of_ne_nil text (by simp)] at hc
  | _ => cases hpattern

/-- If a pattern spans a word and a tail, without the last character of the word in the
tail and with another character at the end, then it spans nothing across a place of the
word. -/
theorem clearAt_of_word (word : List Char) (last : Char)
    (h : ∀ {before text after}, pattern.Spans before text after → ∃ tail,
      text = word ++ last :: tail ∧ last ∉ tail ∧
        ∃ c, tail.getLast? = some c ∧ c ∉ word ++ [last])
    (before rest : List Char) : pattern.ClearAt before (word ++ last :: rest) := by
  intro front first second back _ hsecond hfirst hne hspans
  rcases h hspans with ⟨tail, htext, hlast, c, hc, hcword⟩
  -- The second part reaches the end of the tail, so it goes on behind the word.
  have hmem : c ∈ second := by
    have hend := congrArg List.getLast? htext
    rw [List.getLast?_append_of_ne_nil first hne, List.getLast?_append_cons,
      List.getLast?_cons, hc] at hend
    exact List.mem_of_getLast? hend
  have hword : ∃ across, second = word ++ last :: across := by
    have hsplit : (word ++ [last]) ++ rest = second ++ back := by
      rw [← hsecond]
      simp
    rcases List.append_eq_append_iff.mp hsplit with ⟨across, hacross, -⟩ | ⟨across, hacross, -⟩
    · exact ⟨across, by rw [hacross]; simp⟩
    · refine absurd ?_ hcword
      rw [hacross]
      exact List.mem_append_left _ hmem
  rcases hword with ⟨across, rfl⟩
  have hsame : (first ++ (word ++ [last])) ++ across = (word ++ [last]) ++ tail := by
    simpa using htext
  have hacross : last ∉ across := by
    rcases List.append_eq_append_iff.mp hsame with ⟨more, hmore, -⟩ | ⟨more, -, hmore⟩
    · -- The first part is not empty, so the place is behind the word.
      have hlength := congrArg List.length hmore
      have hpos := List.length_pos_iff.mpr hfirst
      simp only [List.length_append] at hlength
      omega
    · intro hmem
      apply hlast
      rw [hmore]
      exact List.mem_append_right _ hmem
  have hfree {l : List Char} (h : last ∉ l) : ∀ d ∈ l, (d == last) = false := by
    intro d hd
    rw [beq_eq_false_iff_ne]
    rintro rfl
    exact h hd
  have hplace : (first ++ word) ++ last :: across = word ++ last :: tail := by
    simpa using htext
  rcases append_cons_inj_of_last (hfree hacross) (beq_self_eq_true last) (hfree hlast)
    (beq_self_eq_true last) hplace with ⟨hnone, -, -⟩
  exact hfirst (List.append_left_eq_self.mp hnone)

end Chunking.Pattern
