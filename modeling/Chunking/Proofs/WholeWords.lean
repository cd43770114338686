import Chunking.Names.Extracted
import Chunking.Proofs.Spans
import Mathlib.Tactic.IntervalCases

/-!
# Whole words

A name that is found in source is worth something only if it is a whole word
there, and not the middle of a longer one. `WholeWord` says that what stands next
to a text does not belong to it. A whole word of a whole word is one as well, so
a name can be followed from a part of a part out to the source.

Patterns are looked at from both sides. `EndsApart` asks whether what a pattern
spans ends with a character that is no part of an identifier, given what is known
of the place before; `StartsApart` asks the same of the start. Both can be read
off a pattern. A part that is kept is then a whole word if the patterns before it
end apart and those behind it start apart, whatever the part itself allows.

Blanks are no parts of identifiers. Beyond ASCII that is a fact about two tables.

## Main definitions

* `Apart`: A neighbour that is no part of an identifier.
* `WholeWord`: A text between such neighbours.
* `Pattern.EndsApart`, `Pattern.StartsApart`: How the spans of a pattern end and
  start.
* `Pattern.KeepsWord`: What the pattern keeps is a whole word.

## Theorems

* `WholeWord.trans`: Whole words of whole words.
* `wholeWord_of_mem_identifiers`: The identifiers of a text are whole words.
* `isIdentifierPart_of_isBlank`: Blanks are no parts of identifiers.
* `Pattern.apart_of_endsApart`, `Pattern.apart_of_startsApart`: What the two say.
* `KeepsWord.wholeWord_of_matchAt?`, `KeepsWord.wholeWord_of_mem_findAll`: What is
  kept is a whole word.
-/

namespace Chunking

open Text

/-- There is no neighbour, or it is no part of an identifier. -/
def Apart (neighbour : Option Char) : Prop :=
  ∀ c, neighbour = some c → isIdentifierPart c = false

/-- The rim of a text is no part of an identifier. -/
theorem apart_none : Apart none := by
  intro c hc
  cases hc

theorem apart_some {c : Char} (h : isIdentifierPart c = false) : Apart (some c) := by
  intro d hd
  cases hd
  exact h

/-- Of two neighbours the second counts only if there is no first, so it is enough that
both are apart. -/
theorem Apart.or {first second : Option Char} (h : Apart first) (h' : Apart second) :
    Apart (first.or second) := by
  cases first with
  | none => exact h'
  | some c => exact h

/-- The text stands in the other one between neighbours that are no parts of
identifiers. -/
def WholeWord (word content : List Char) : Prop :=
  ∃ before after, content = before ++ word ++ after ∧ Apart before.getLast? ∧ Apart after.head?

namespace WholeWord

/-- A whole word of a whole word is one. -/
theorem trans {word text content : List Char} (h : WholeWord word text)
    (h' : WholeWord text content) : WholeWord word content := by
  rcases h with ⟨before, after, rfl, hbefore, hafter⟩
  rcases h' with ⟨before', after', rfl, hbefore', hafter'⟩
  -- A neighbour of the word is one in the text, or else one of the text.
  refine ⟨before' ++ before, after ++ after', by simp, ?_, ?_⟩
  · rw [List.getLast?_append]
    exact hbefore.or hbefore'
  · rw [List.head?_append]
    exact hafter.or hafter'

end WholeWord

/-! ## Identifiers -/

-- The first piece of a split text starts it, and any other comes after a place
-- where it was split.
theorem exists_of_splitOnP_eq_cons {split : Char → Bool} {text first : List Char}
    {more : List (List Char)} (h : text.splitOnP split = first :: more) :
    (∃ after, text = first ++ after ∧ ∀ c, after.head? = some c → split c = true) ∧
      ∀ piece ∈ more, ∃ before c after, text = before ++ [c] ++ piece ++ after ∧
        split c = true ∧ ∀ d, after.head? = some d → split d = true := by
  induction text generalizing first more with
  | nil =>
      rw [List.splitOnP_nil] at h
      cases h
      exact ⟨⟨[], rfl, by simp⟩, by simp⟩
  | cons c text ih =>
      rcases List.exists_cons_of_ne_nil (List.splitOnP_ne_nil split text) with ⟨next, rest, hnext⟩
      rcases ih hnext with ⟨⟨after, hafter, hhead⟩, hrest⟩
      -- The pieces behind the first stay what they are, one character farther on.
      have hlater (piece : List Char) (hpiece : piece ∈ rest) :
          ∃ before d after, c :: text = before ++ [d] ++ piece ++ after ∧
            split d = true ∧ ∀ e, after.head? = some e → split e = true := by
        rcases hrest piece hpiece with ⟨before, d, after, htext, hd, hhead⟩
        exact ⟨c :: before, d, after, by rw [htext]; simp, hd, hhead⟩
      rw [List.splitOnP_cons_eq_if_modifyHead, hnext] at h
      split_ifs at h with hc
      -- At a split the first piece is empty, and the former first one comes behind it.
      · cases h
        refine ⟨⟨c :: text, rfl, fun d hd => by cases hd; exact hc⟩, fun piece hpiece => ?_⟩
        rcases List.mem_cons.mp hpiece with rfl | hpiece
        · exact ⟨[], c, after, by rw [hafter]; rfl, hc, hhead⟩
        · exact hlater piece hpiece
      · cases h
        exact ⟨⟨after, by rw [hafter]; rfl, hhead⟩, hlater⟩

/-- The identifiers of a text are whole words of it: between two of them there are only
characters at which the text is split. -/
theorem wholeWord_of_mem_identifiers {text word : List Char} (h : word ∈ identifiers text) :
    WholeWord word text := by
  have hmem := (List.mem_filter.mp h).1
  have hsplit {neighbour : Option Char}
      (h : ∀ c, neighbour = some c → (!isIdentifierPart c) = true) : Apart neighbour :=
    fun c hc => by simpa using h c hc
  rcases List.exists_cons_of_ne_nil (List.splitOnP_ne_nil (fun c => !isIdentifierPart c) text)
    with ⟨first, more, hcons⟩
  rcases exists_of_splitOnP_eq_cons hcons with ⟨⟨after, htext, hafter⟩, hmore⟩
  rw [hcons] at hmem
  rcases List.mem_cons.mp hmem with rfl | hmem
  · exact ⟨[], after, htext, apart_none, hsplit hafter⟩
  · rcases hmore word hmem with ⟨before, c, after, htext, hc, hafter⟩
    refine ⟨before ++ [c], after, htext, ?_, hsplit hafter⟩
    rw [List.getLast?_concat]
    exact apart_some (by simpa using hc)

/-! ## Blanks -/

/-- Only a range that holds the code makes the search in a table succeed. -/
theorem exists_of_hasBetween {table : RangeTable} {code low high : Nat}
    (h : table.hasBetween code low high = true) :
    ∃ range ∈ table.toList, range.1 ≤ code ∧ code ≤ range.2 := by
  fun_induction RangeTable.hasBetween table code low high with
  | case1 => cases h
  | case2 low high _ middle first last _ _ ih => exact ih h
  | case3 low high _ middle first last _ _ _ ih => exact ih h
  | case4 low high _ middle first last hrange hfirst hlast =>
      refine ⟨(first, last), ?_, by omega, by omega⟩
      rw [Array.mem_toList_iff]
      exact Array.mem_of_getElem? hrange
  | case5 => cases h

/-- The blanks beyond ASCII. -/
def blankCodes : List Nat :=
  [0x85, 0xA0, 0x1680, 0x2000, 0x2001, 0x2002, 0x2003, 0x2004, 0x2005, 0x2006, 0x2007, 0x2008,
   0x2009, 0x200A, 0x2028, 0x2029, 0x202F, 0x205F, 0x3000]

/-- A table has no blanks if none is in one of its ranges. -/
theorem not_has_blank (table : RangeTable)
    (htable : table.toList.all fun range =>
      blankCodes.all fun code => Nat.blt code range.1 || Nat.blt range.2 code)
    {code : Nat} (hcode : code ∈ blankCodes) : table.has code = false := by
  by_contra h
  rw [Bool.not_eq_false] at h
  rcases exists_of_hasBetween h with ⟨range, hrange, hlow, hhigh⟩
  have houtside := List.all_eq_true.mp (List.all_eq_true.mp htable range hrange) code hcode
  simp only [Bool.or_eq_true, Nat.blt_eq] at houtside
  omega

/-- Blanks are no parts of identifiers. -/
theorem isIdentifierPart_of_isBlank {c : Char} (h : isBlank c = true) :
    isIdentifierPart c = false := by
  have hcases : (9 ≤ c.toNat ∧ c.toNat ≤ 13 ∨ c.toNat = 0x20) ∨ c.toNat ∈ blankCodes := by
    simp only [isBlank, Bool.or_eq_true, Bool.and_eq_true, decide_eq_true_eq, beq_iff_eq] at h
    simp only [blankCodes, List.mem_cons, List.not_mem_nil, or_false]
    omega
  rcases hcases with hascii | hbeyond
  -- In ASCII each blank is looked at. Beyond it both tables are gone through once.
  · have hchar : c = Char.ofNat c.toNat := (Char.ofNat_toNat c).symm
    generalize c.toNat = code at hascii hchar
    subst hchar
    rcases hascii with ⟨hlow, hhigh⟩ | rfl
    · interval_cases code <;> decide
    · decide
  · have hlarge : ¬c.toNat < 0x80 := by
      have hall : ∀ code ∈ blankCodes, ¬code < 0x80 := by
        decide
      exact hall _ hbeyond
    have halphabetic := not_has_blank alphabeticTable (by decide +kernel) hbeyond
    have hnumber := not_has_blank numberTable (by decide +kernel) hbeyond
    have hne (d : Char) (hd : d.toNat < 0x80) : (c == d) = false :=
      beq_eq_false_iff_ne.mpr fun heq => hlarge (heq ▸ hd)
    rw [isIdentifierPart, isAlphanumeric, if_neg hlarge, halphabetic, hnumber,
      hne '_' (by decide), hne '$' (by decide)]
    rfl

/-! ## Ends of patterns -/

namespace Pattern

/-- What the pattern spans ends apart from a name behind it, if the place before
it is apart in the way that `apart` tells. -/
def EndsApart : Pattern → Prop → Prop
  | literal chars, apart =>
    match chars.getLast? with
    | none => apart
    | some c => isIdentifierPart c = false
  | one allowed, _ => ∀ c, allowed c = true → isIdentifierPart c = false
  | stretch _ allowed, apart => apart ∧ ∀ c, allowed c = true → isIdentifierPart c = false
  | seq first second, apart => second.EndsApart (first.EndsApart apart)
  | either first second, apart => first.EndsApart apart ∧ second.EndsApart apart
  | many round, apart => apart ∧ round.EndsApart True
  | mark _, apart | wordEdge, apart | textEnd, apart => apart
  | lineStart, _ | textStart, _ => True

/-- What the pattern spans starts apart from a name before it, if the place behind
it is apart in the way that `apart` tells. -/
def StartsApart : Pattern → Prop → Prop
  | literal chars, apart =>
    match chars.head? with
    | none => apart
    | some c => isIdentifierPart c = false
  | one allowed, _ => ∀ c, allowed c = true → isIdentifierPart c = false
  | stretch _ allowed, apart => apart ∧ ∀ c, allowed c = true → isIdentifierPart c = false
  | seq first second, apart => first.StartsApart (second.StartsApart apart)
  | either first second, apart => first.StartsApart apart ∧ second.StartsApart apart
  | many round, apart => apart ∧ round.StartsApart True
  | mark _, apart | wordEdge, apart | lineStart, apart | textStart, apart => apart
  | textEnd, _ => True

-- The condition on the place before differs from one pattern in a row to the next,
-- so the induction on what is spanned is for every such condition.
theorem apart_of_endsApart {pattern : Pattern} {before text after : List Char}
    (h : pattern.Spans before text after) (apart : Prop) (hends : pattern.EndsApart apart)
    (hbefore : apart → Apart before.getLast?) : Apart (before ++ text).getLast? := by
  induction h generalizing apart with
  | @literal chars =>
      rw [List.getLast?_append]
      unfold EndsApart at hends
      cases hlast : chars.getLast? with
      | none =>
          rw [hlast] at hends
          exact apart_none.or (hbefore hends)
      | some c =>
          rw [hlast] at hends
          exact apart_some hends
  | one hc =>
      rw [List.getLast?_concat]
      exact apart_some (hends _ hc)
  | @stretch _ _ _ text _ hall =>
      -- A stretch may be empty, and then the place before it decides.
      rw [List.getLast?_append]
      refine Apart.or (fun c hc => ?_) (hbefore hends.1)
      exact hends.2 c (hall c (List.mem_of_getLast? hc))
  -- What is asked of the place before the second part is what the first leaves.
  | seq _ _ ih ih' =>
      rw [← List.append_assoc]
      exact ih' _ hends fun hfirst => ih apart hfirst hbefore
  | left _ ih => exact ih apart hends.1 hbefore
  | right _ ih => exact ih apart hends.2 hbefore
  | stop | mark | wordEdge | textEnd => simpa using hbefore (by first | exact hends | exact hends.1)
  -- A round that is passed leaves its end apart whatever comes before, so the rest needs no
  -- condition.
  | more _ _ ih ih' =>
      rw [← List.append_assoc]
      exact ih' True ⟨trivial, hends.2⟩ fun _ => ih True hends.2 fun _ => hbefore hends.1
  | lineStart hline =>
      rw [List.append_nil]
      intro c hc
      rw [hline c hc]
      decide
  | textStart => exact apart_none

/-- The mirror image, with the conditions passed on from the back. -/
theorem apart_of_startsApart {pattern : Pattern} {before text after : List Char}
    (h : pattern.Spans before text after) (apart : Prop) (hstarts : pattern.StartsApart apart)
    (hafter : apart → Apart after.head?) : Apart (text ++ after).head? := by
  induction h generalizing apart with
  | @literal chars =>
      rw [List.head?_append]
      unfold StartsApart at hstarts
      cases hhead : chars.head? with
      | none =>
          rw [hhead] at hstarts
          exact apart_none.or (hafter hstarts)
      | some c =>
          rw [hhead] at hstarts
          exact apart_some hstarts
  | one hc => exact apart_some (hstarts _ hc)
  | @stretch _ _ _ text _ hall =>
      -- A stretch may be empty, and then the place behind it decides.
      rw [List.head?_append]
      refine Apart.or (fun c hc => ?_) (hafter hstarts.1)
      exact hstarts.2 c (hall c (List.mem_of_head? hc))
  | seq _ _ ih ih' =>
      rw [List.append_assoc]
      exact ih _ hstarts fun hsecond => ih' apart hsecond hafter
  | left _ ih => exact ih apart hstarts.1 hafter
  | right _ ih => exact ih apart hstarts.2 hafter
  | stop | mark | wordEdge | lineStart | textStart =>
      exact hafter (by first | exact hstarts | exact hstarts.1)
  | more _ _ ih ih' =>
      rw [List.append_assoc]
      exact ih True hstarts.2 fun _ => ih' True ⟨trivial, hstarts.2⟩ fun _ => hafter hstarts.1
  | textEnd => exact apart_none

/-! ## Shared patterns -/

section Shared

variable (apart : Prop)

@[simp]
theorem endsApart_blanks : blanks.EndsApart apart ↔ apart :=
  and_iff_left fun _ hc => isIdentifierPart_of_isBlank hc

@[simp]
theorem startsApart_blanks : blanks.StartsApart apart ↔ apart :=
  and_iff_left fun _ hc => isIdentifierPart_of_isBlank hc

@[simp]
theorem endsApart_someBlanks : someBlanks.EndsApart apart :=
  have hblank : ∀ c, isBlank c = true → isIdentifierPart c = false :=
    fun _ hc => isIdentifierPart_of_isBlank hc
  ⟨hblank, hblank⟩

@[simp]
theorem startsApart_someBlanks : someBlanks.StartsApart apart :=
  fun _ hc => isIdentifierPart_of_isBlank hc

-- Without a round nothing is passed, and every round ends with blanks.
@[simp]
theorem endsApart_modifiers (allowed : List String) :
    (modifiers allowed).EndsApart apart ↔ apart :=
  and_iff_left (endsApart_someBlanks _)

@[simp]
theorem endsApart_group (number : Nat) (pattern : Pattern) :
    (Pattern.group number pattern).EndsApart apart = pattern.EndsApart apart :=
  rfl

@[simp]
theorem startsApart_optional (pattern : Pattern) :
    (Pattern.optional pattern).StartsApart apart ↔ pattern.StartsApart apart ∧ apart :=
  Iff.rfl

end Shared

/-! ## What is kept -/

/-- What the pattern keeps under the number is a whole word: what comes before the
part ends apart, and what comes behind it starts apart. -/
def KeepsWord (pattern : Pattern) (number : Nat) : Prop :=
  ∃ front inner rear, pattern.row = front ++ group number inner :: rear ∧
    inner.keeps (.opening number) = false ∧
    (inRow rear).keeps (.opening number) = false ∧
    (inRow rear).keeps (.closing number) = false ∧
    (inRow front).EndsApart False ∧ (inRow rear).StartsApart False

/-- What a match keeps is a whole word of the source. The neighbours may lie outside the
match, so both sides of the place count. -/
theorem KeepsWord.wholeWord_of_matchAt? {pattern : Pattern} {number : Nat}
    (h : pattern.KeepsWord number) {before after : List Char} {found : Match}
    (hmatch : pattern.matchAt? (Cursor.between before after) = some found) :
    WholeWord (found.group number) (before ++ after) := by
  rcases h with ⟨front, inner, rear, hrow, hinner, hopening, hclosing, hends, hstarts⟩
  rcases exists_spans_of_matchAt? hrow hinner hopening hclosing hmatch with
    ⟨passed, more, rest, hafter, hfront, _, hmore⟩
  refine ⟨before ++ passed, more ++ rest, by rw [hafter]; simp, ?_, ?_⟩
  · exact apart_of_endsApart hfront False hends False.elim
  · exact apart_of_startsApart hmore False hstarts False.elim

theorem KeepsWord.wholeWord_of_mem_findAll {pattern : Pattern} {number : Nat}
    (h : pattern.KeepsWord number) {content : List Char} {found : Match}
    (hfound : found ∈ pattern.findAll content) : WholeWord (found.group number) content := by
  rcases exists_between_of_mem_findAll hfound with ⟨before, after, rfl, hmatch⟩
  exact h.wholeWord_of_matchAt? hmatch

end Pattern

end Chunking
