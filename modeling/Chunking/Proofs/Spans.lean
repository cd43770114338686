import Chunking.Proofs.Places
import Mathlib.Data.List.Basic

/-!
# What a pattern spans

The ways of a pattern are lists of places with marks, and they say how a match
is found. What is wanted of a match is less: that its text is of a certain form,
and what stands next to the parts that it keeps. `Spans` is the relation between
a pattern, a text it matches, and the text on both sides, and every way of a
pattern spans a text. The order of the ways plays no part, so a fact about
`Spans` holds for every outcome of backtracking at once.

A part that is kept stands between two marks. Patterns in a row are put together
from the left, but for a part in the middle of a row it is better to have what is
before it, the part, and what is behind it. `row` takes the row apart again.

## Main definitions

* `Pattern.Spans`: A pattern matches a text that stands between two others.
* `Pattern.SpansTo`: The same from one place to another.
* `Pattern.keeps`: The pattern sets a mark.
* `Pattern.row`: The patterns that a pattern has in a row.
* `Pattern.inRow`: Patterns in a row, put together from the right.

## Theorems

* `spansTo_of_mem_ways`: Every way of a pattern spans a text.
* `lookup_kept`: A pattern leaves the marks alone that it does not set.
* `ways_inRow_row`: A pattern matches in the ways of its row.
* `exists_spans_of_group`: What is before a part, in it, and behind it.
* `exists_spans_of_matchAt?`: The same of a match.
-/

namespace Chunking

namespace Pattern

/-- The pattern matches the second text, which stands between the two others. -/
inductive Spans : Pattern → List Char → List Char → List Char → Prop
  | literal {chars before after : List Char} : Spans (.literal chars) before chars after
  | one {allowed : Char → Bool} {c : Char} {before after : List Char} (h : allowed c = true) :
      Spans (.one allowed) before [c] after
  | stretch {eager : Bool} {allowed : Char → Bool} {before text after : List Char}
      (h : ∀ c ∈ text, allowed c = true) : Spans (.stretch eager allowed) before text after
  | seq {first second : Pattern} {before text text' after : List Char}
      (h : Spans first before text (text' ++ after))
      (h' : Spans second (before ++ text) text' after) :
      Spans (.seq first second) before (text ++ text') after
  | left {first second : Pattern} {before text after : List Char}
      (h : Spans first before text after) : Spans (.either first second) before text after
  | right {first second : Pattern} {before text after : List Char}
      (h : Spans second before text after) : Spans (.either first second) before text after
  | stop {round : Pattern} {before after : List Char} : Spans (.many round) before [] after
  | more {round : Pattern} {before text text' after : List Char}
      (h : Spans round before text (text' ++ after))
      (h' : Spans (.many round) (before ++ text) text' after) :
      Spans (.many round) before (text ++ text') after
  | mark {edge : Mark} {before after : List Char} : Spans (.mark edge) before [] after
  | wordEdge {before after : List Char} (h : (Cursor.between before after).atWordEdge = true) :
      Spans .wordEdge before [] after
  | lineStart {before after : List Char} (h : ∀ c, before.getLast? = some c → c = '\n') :
      Spans .lineStart before [] after
  | textStart {after : List Char} : Spans .textStart [] [] after
  | textEnd {before : List Char} : Spans .textEnd before [] []

/-! What each construct spans, read backwards. -/

theorem Spans.eq_of_literal {chars before text after : List Char}
    (h : (Pattern.literal chars).Spans before text after) : text = chars := by
  cases h
  rfl

theorem Spans.exists_of_one {allowed : Char → Bool} {before text after : List Char}
    (h : (Pattern.one allowed).Spans before text after) :
    ∃ c, text = [c] ∧ allowed c = true := by
  cases h with
  | one hc => exact ⟨_, rfl, hc⟩

theorem Spans.forall_of_stretch {eager : Bool} {allowed : Char → Bool}
    {before text after : List Char} (h : (Pattern.stretch eager allowed).Spans before text after) :
    ∀ c ∈ text, allowed c = true := by
  cases h with
  | stretch hall => exact hall

theorem Spans.or_of_either {first second : Pattern} {before text after : List Char}
    (h : (Pattern.either first second).Spans before text after) :
    first.Spans before text after ∨ second.Spans before text after := by
  cases h with
  | left h => exact .inl h
  | right h => exact .inr h

theorem Spans.eq_of_wordEdge {before text after : List Char}
    (h : Pattern.wordEdge.Spans before text after) : text = [] := by
  cases h
  rfl

theorem Spans.exists_of_seq {first second : Pattern} {before text after : List Char}
    (h : (Pattern.seq first second).Spans before text after) :
    ∃ text₁ text₂, text = text₁ ++ text₂ ∧ first.Spans before text₁ (text₂ ++ after) ∧
      second.Spans (before ++ text₁) text₂ after := by
  cases h with
  | @seq _ _ _ text₁ text₂ _ hfirst hsecond => exact ⟨text₁, text₂, rfl, hfirst, hsecond⟩

/-! ## Ways span texts -/

open Cursor Text

/-- The pattern spans the text from one place to another. -/
def SpansTo (pattern : Pattern) (before after : List Char) (stop : Cursor) : Prop :=
  ∃ text rest, after = text ++ rest ∧ stop = between (before ++ text) rest ∧
    pattern.Spans before text rest

-- Nothing is passed by a test or a mark, nor where no more rounds come.
theorem SpansTo.here {pattern : Pattern} {before after : List Char}
    (h : pattern.Spans before [] after) : pattern.SpansTo before after (between before after) :=
  ⟨[], after, rfl, by rw [List.append_nil], h⟩

/-- What is skipped is the literal itself. -/
theorem exists_text_of_skip? {chars before after : List Char} {stop : Cursor}
    (h : (between before after).skip? chars = some stop) :
    ∃ rest, after = chars ++ rest ∧ stop = between (before ++ chars) rest := by
  induction chars generalizing before after with
  | nil =>
      cases h
      exact ⟨after, rfl, by rw [List.append_nil]⟩
  | cons expected more ih =>
      cases after with
      | nil => cases h
      | cons c after =>
          unfold skip? at h
          dsimp only [between] at h
          split_ifs at h with hc
          · subst hc
            rw [← between, advance_between] at h
            rcases ih h with ⟨rest, rfl, rfl⟩
            exact ⟨rest, rfl, by rw [List.append_assoc]; rfl⟩

/-- A place in a stretch is behind characters that it allows. -/
theorem exists_text_of_mem_stretch {allowed : Char → Bool} {before after : List Char}
    {stop : Cursor} (h : stop ∈ (between before after).stretch allowed) :
    ∃ text rest, after = text ++ rest ∧ stop = between (before ++ text) rest ∧
      ∀ c ∈ text, allowed c = true := by
  induction after generalizing before with
  | nil =>
      rw [stretch_of_not_allowed (by simp [between]), List.mem_singleton] at h
      exact ⟨[], [], rfl, by rw [h, List.append_nil], by simp⟩
  | cons c after ih =>
      have hhere (h : stop = between before (c :: after)) :
          ∃ text rest, c :: after = text ++ rest ∧ stop = between (before ++ text) rest ∧
            ∀ c ∈ text, allowed c = true :=
        ⟨[], c :: after, rfl, by rw [h, List.append_nil], by simp⟩
      -- The stretch ends before a character that is not allowed, and before any other it may.
      cases hc : allowed c with
      | false =>
          rw [stretch_of_not_allowed (by simpa [between] using hc), List.mem_singleton] at h
          exact hhere h
      | true =>
          rw [stretch_of_allowed rfl hc, advance_between, List.mem_append, List.mem_singleton] at h
          rcases h with h | h
          · rcases ih h with ⟨text, rest, rfl, rfl, hall⟩
            refine ⟨c :: text, rest, rfl, by rw [List.append_assoc]; rfl, ?_⟩
            intro d hd
            rcases List.mem_cons.mp hd with rfl | hd
            · exact hc
            · exact hall d hd
          · exact hhere h

-- The induction is on the bound of the rounds, whatever has been passed by then.
theorem spansTo_of_mem_waysOfRounds {round : Pattern}
    (ih : ∀ (before after : List Char) (kept : Marks),
      ∀ way ∈ round.ways (between before after) kept, round.SpansTo before after way.stop)
    (bound before after : List Char) (kept : Marks) :
    ∀ way ∈ waysOfRounds round.ways bound (between before after) kept,
      (many round).SpansTo before after way.stop := by
  induction bound generalizing before after kept with
  | nil =>
      intro way hway
      rw [List.mem_singleton.mp hway]
      exact .here .stop
  | cons _ bound ihBound =>
      intro way hway
      rcases List.mem_append.mp hway with hway | hway
      · rcases List.mem_flatMap.mp hway with ⟨first, hfirst, honward⟩
        rcases ih before after kept first hfirst with ⟨text, rest, rfl, hplace, hspans⟩
        rw [hplace] at honward
        rcases ihBound _ _ _ way honward with ⟨text', rest', rfl, hstop, hmore⟩
        exact ⟨text ++ text', rest', (List.append_assoc _ _ _).symm,
          by rw [hstop, List.append_assoc], .more hspans hmore⟩
      · rw [List.mem_singleton.mp hway]
        exact .here .stop

/-- Every way of a pattern spans a text. -/
theorem spansTo_of_mem_ways (pattern : Pattern) (before after : List Char) (kept : Marks) :
    ∀ way ∈ pattern.ways (between before after) kept, pattern.SpansTo before after way.stop := by
  -- What is kept by then changes along a row, so it must not be fixed, and neither must the
  -- place. In each case the way is unfolded to its choices and answered by one constructor.
  induction pattern generalizing before after kept with
  | literal chars =>
      intro way hway
      rcases List.mem_map.mp hway with ⟨stop, hstop, rfl⟩
      rcases exists_text_of_skip? (Option.mem_toList.mp hstop) with ⟨rest, hafter, hstop⟩
      exact ⟨chars, rest, hafter, hstop, .literal⟩
  | one allowed =>
      intro way hway
      cases after with
      | nil => cases hway
      | cons c after =>
          unfold ways at hway
          dsimp only [between] at hway
          split_ifs at hway with hc
          · rw [← between, List.mem_singleton] at hway
            exact ⟨[c], after, rfl, by rw [hway, advance_between], .one hc⟩
          · cases hway
  | stretch eager allowed =>
      intro way hway
      rcases List.mem_map.mp hway with ⟨stop, hstop, rfl⟩
      -- An eager stretch and the other one have the same places in another order.
      have hmem : stop ∈ (between before after).stretch allowed := by
        cases eager
        · exact List.mem_reverse.mp hstop
        · exact hstop
      rcases exists_text_of_mem_stretch hmem with ⟨text, rest, hafter, hstop, hall⟩
      exact ⟨text, rest, hafter, hstop, .stretch hall⟩
  | seq first second ihFirst ihSecond =>
      intro way hway
      rcases List.mem_flatMap.mp hway with ⟨middle, hmiddle, honward⟩
      rcases ihFirst before after kept middle hmiddle with ⟨text, rest, rfl, hplace, hfirst⟩
      rw [hplace] at honward
      rcases ihSecond _ _ _ way honward with ⟨text', rest', rfl, hstop, hsecond⟩
      exact ⟨text ++ text', rest', (List.append_assoc _ _ _).symm,
        by rw [hstop, List.append_assoc], .seq hfirst hsecond⟩
  | either first second ihFirst ihSecond =>
      intro way hway
      rcases List.mem_append.mp hway with hway | hway
      · rcases ihFirst before after kept way hway with ⟨text, rest, hafter, hstop, hspans⟩
        exact ⟨text, rest, hafter, hstop, .left hspans⟩
      · rcases ihSecond before after kept way hway with ⟨text, rest, hafter, hstop, hspans⟩
        exact ⟨text, rest, hafter, hstop, .right hspans⟩
  | many round ih => exact spansTo_of_mem_waysOfRounds ih after before after kept
  | mark edge =>
      intro way hway
      rw [List.mem_singleton.mp hway]
      exact .here .mark
  | wordEdge =>
      intro way hway
      unfold ways at hway
      split_ifs at hway with hedge
      · rw [List.mem_singleton.mp hway]
        exact .here (.wordEdge hedge)
      · cases hway
  | lineStart =>
      intro way hway
      unfold ways at hway
      split_ifs at hway with hline
      · rw [List.mem_singleton.mp hway]
        refine .here (.lineStart fun c hc => ?_)
        simpa [atLineStart, between, hc] using hline
      · cases hway
  | textStart =>
      intro way hway
      unfold ways at hway
      split_ifs at hway with hstart
      · rw [List.mem_singleton.mp hway]
        have hbefore : before = [] := List.getLast?_eq_none_iff.mp hstart
        subst hbefore
        exact .here .textStart
      · cases hway
  | textEnd =>
      intro way hway
      unfold ways at hway
      split_ifs at hway with hend
      · rw [List.mem_singleton.mp hway]
        have hafter : after = [] := hend
        subst hafter
        exact .here .textEnd
      · cases hway

/-! ## Marks -/

/-- The pattern sets the mark. -/
def keeps (edge : Mark) : Pattern → Bool
  | mark edge' => edge == edge'
  | seq first second | either first second => first.keeps edge || second.keeps edge
  | many round => round.keeps edge
  | literal _ | one _ | stretch _ _ | wordEdge | lineStart | textStart | textEnd => false

-- Again the induction is on the bound of the rounds.
theorem lookup_kept_rounds {edge : Mark} {round : Pattern}
    (ih : ∀ cursor kept, ∀ way ∈ round.ways cursor kept,
      List.lookup edge way.kept = List.lookup edge kept)
    (bound : List Char) (cursor : Cursor) (kept : Marks) :
    ∀ way ∈ waysOfRounds round.ways bound cursor kept,
      List.lookup edge way.kept = List.lookup edge kept := by
  induction bound generalizing cursor kept with
  | nil =>
      intro way hway
      rw [List.mem_singleton.mp hway]
  | cons _ bound ihBound =>
      intro way hway
      rcases List.mem_append.mp hway with hway | hway
      · rcases List.mem_flatMap.mp hway with ⟨first, hfirst, hway⟩
        rw [ihBound _ _ way hway, ih cursor kept first hfirst]
      · rw [List.mem_singleton.mp hway]

/-- A pattern leaves the marks alone that it does not set. -/
theorem lookup_kept {edge : Mark} {pattern : Pattern} (h : pattern.keeps edge = false)
    (cursor : Cursor) (kept : Marks) :
    ∀ way ∈ pattern.ways cursor kept, List.lookup edge way.kept = List.lookup edge kept := by
  induction pattern generalizing cursor kept with
  | literal chars | stretch eager allowed =>
      intro way hway
      rcases List.mem_map.mp hway with ⟨stop, _, rfl⟩
      rfl
  | one allowed =>
      intro way hway
      unfold ways at hway
      split at hway
      · cases hway
      · split_ifs at hway
        · rw [List.mem_singleton.mp hway]
        · cases hway
  | seq first second ihFirst ihSecond =>
      intro way hway
      rw [keeps, Bool.or_eq_false_iff] at h
      rcases List.mem_flatMap.mp hway with ⟨middle, hmiddle, hway⟩
      rw [ihSecond h.2 _ _ way hway, ihFirst h.1 cursor kept middle hmiddle]
  | either first second ihFirst ihSecond =>
      intro way hway
      rw [keeps, Bool.or_eq_false_iff] at h
      rcases List.mem_append.mp hway with hway | hway
      · exact ihFirst h.1 cursor kept way hway
      · exact ihSecond h.2 cursor kept way hway
  | many round ih => exact lookup_kept_rounds (ih h) cursor.rest cursor kept
  | mark edge' =>
      intro way hway
      rw [List.mem_singleton.mp hway, List.lookup_cons]
      rw [keeps] at h
      rw [h]
  | wordEdge | lineStart | textStart | textEnd =>
      intro way hway
      unfold ways at hway
      split_ifs at hway
      · rw [List.mem_singleton.mp hway]
      · cases hway

/-! ## Parts of a row -/

/-- The patterns that a pattern has in a row. -/
def row : Pattern → List Pattern
  | seq first second => first.row ++ [second]
  | pattern => [pattern]

/-- Patterns in a row, put together from the right. -/
def inRow : List Pattern → Pattern
  | [] => literal []
  | first :: rest => seq first (inRow rest)

/-- A row matches in the ways of its first part, and goes on behind each in the ways of the
second. -/
theorem ways_inRow_append (front rear : List Pattern) (cursor : Cursor) (kept : Marks) :
    (inRow (front ++ rear)).ways cursor kept =
      ((inRow front).ways cursor kept).flatMap fun way => (inRow rear).ways way.stop way.kept := by
  induction front generalizing cursor kept with
  | nil =>
      have hnothing : (inRow []).ways cursor kept = [⟨cursor, kept⟩] :=
        rfl
      rw [hnothing, List.flatMap_singleton, List.nil_append]
  | cons first front ih =>
      simp only [List.cons_append, inRow, ways, List.flatMap_assoc]
      exact List.flatMap_congr fun way _ => ih way.stop way.kept

theorem ways_inRow_singleton (pattern : Pattern) (cursor : Cursor) (kept : Marks) :
    (inRow [pattern]).ways cursor kept = pattern.ways cursor kept := by
  change (pattern.ways cursor kept).flatMap (fun way => [way]) = pattern.ways cursor kept
  exact List.flatMap_singleton' _

/-- A pattern matches in the ways of its row. -/
theorem ways_inRow_row (pattern : Pattern) (cursor : Cursor) (kept : Marks) :
    (inRow pattern.row).ways cursor kept = pattern.ways cursor kept := by
  induction pattern generalizing cursor kept with
  | seq first second ihFirst _ =>
      rw [row, ways_inRow_append, ihFirst, ways]
      exact List.flatMap_congr fun way _ => ways_inRow_singleton second way.stop way.kept
  | literal | one | stretch | either | many | mark | wordEdge | lineStart | textStart | textEnd =>
      exact ways_inRow_singleton _ cursor kept

/-- What a row spans falls into what its two parts span. -/
theorem spans_inRow_append {front rear : List Pattern} {before text after : List Char}
    (h : (inRow (front ++ rear)).Spans before text after) :
    ∃ first second, text = first ++ second ∧ (inRow front).Spans before first (second ++ after) ∧
      (inRow rear).Spans (before ++ first) second after := by
  induction front generalizing before text with
  | nil => exact ⟨[], text, rfl, .literal, by rwa [List.append_nil]⟩
  | cons pattern front ih =>
      cases h with
      | seq hfirst hmore =>
          rcases ih hmore with ⟨first, second, rfl, hfront, hrear⟩
          exact ⟨_ ++ first, second, (List.append_assoc _ _ _).symm,
            .seq (by rwa [← List.append_assoc]) hfront, by rwa [← List.append_assoc]⟩

/-- The converse. -/
theorem Spans.inRow_append {front rear : List Pattern} {before first second after : List Char}
    (hfront : (inRow front).Spans before first (second ++ after))
    (hrear : (inRow rear).Spans (before ++ first) second after) :
    (inRow (front ++ rear)).Spans before (first ++ second) after := by
  induction front generalizing before first with
  | nil =>
      rw [hfront.eq_of_literal] at hrear ⊢
      simpa using hrear
  | cons pattern front ih =>
      rcases hfront.exists_of_seq with ⟨start, more, rfl, hstart, hmore⟩
      rw [List.append_assoc]
      refine .seq (by rwa [List.append_assoc]) (ih hmore ?_)
      rwa [List.append_assoc]

theorem spans_inRow_singleton_iff {pattern : Pattern} {before text after : List Char} :
    (inRow [pattern]).Spans before text after ↔ pattern.Spans before text after := by
  constructor
  · intro h
    rcases h.exists_of_seq with ⟨all, nothing, rfl, hall, hnothing⟩
    have hnothing := hnothing.eq_of_literal
    subst hnothing
    rwa [List.append_nil]
  · intro h
    have hrow : (inRow [pattern]).Spans before (text ++ []) after :=
      .seq h .literal
    rwa [List.append_nil] at hrow

variable {pattern part inner : Pattern} {front rear : List Pattern} {number : Nat}

/-- A way of a pattern leads through every part of its row. -/
theorem exists_ways_of_row (hrow : pattern.row = front ++ part :: rear) {cursor : Cursor}
    {kept : Marks} {way : Way} (h : way ∈ pattern.ways cursor kept) :
    ∃ start ∈ (inRow front).ways cursor kept, ∃ stop ∈ part.ways start.stop start.kept,
      way ∈ (inRow rear).ways stop.stop stop.kept := by
  rw [← ways_inRow_row, hrow, ways_inRow_append] at h
  rcases List.mem_flatMap.mp h with ⟨start, hstart, h⟩
  rcases List.mem_flatMap.mp h with ⟨stop, hstop, h⟩
  exact ⟨start, hstart, stop, hstop, h⟩

/-- What is before a part that is kept, the part, and what is behind it. -/
theorem exists_spans_of_group (hrow : pattern.row = front ++ group number inner :: rear)
    (hinner : inner.keeps (.opening number) = false)
    (hopening : (inRow rear).keeps (.opening number) = false)
    (hclosing : (inRow rear).keeps (.closing number) = false)
    {before after : List Char} {kept : Marks} {way : Way}
    (h : way ∈ pattern.ways (between before after) kept) :
    ∃ passed text more rest, after = passed ++ text ++ more ++ rest ∧
      (inRow front).Spans before passed (text ++ more ++ rest) ∧
      inner.Spans (before ++ passed) text (more ++ rest) ∧
      (inRow rear).Spans (before ++ passed ++ text) more rest ∧
      way.stop = between (before ++ passed ++ text ++ more) rest ∧
      List.lookup (.opening number) way.kept =
        some (between (before ++ passed) (text ++ (more ++ rest))) ∧
      List.lookup (.closing number) way.kept =
        some (between (before ++ passed ++ text) (more ++ rest)) := by
  rcases exists_ways_of_row hrow h with ⟨start, hstart, stop, hgroup, hrear⟩
  -- The group is a mark, what is in it, and another mark.
  rcases List.mem_flatMap.mp hgroup with ⟨inside, hinside, hstop⟩
  rw [ways, List.mem_singleton] at hstop
  subst hstop
  rcases List.mem_flatMap.mp hinside with ⟨opened, hopened, hinside⟩
  rw [ways, List.mem_singleton] at hopened
  subst hopened
  -- Each of the three parts of the way spans a text, one behind the other.
  rcases spansTo_of_mem_ways (inRow front) before after kept start hstart with
    ⟨passed, rest, rfl, hplace, hfront⟩
  rw [hplace] at hinside
  rcases spansTo_of_mem_ways inner _ _ _ inside hinside with ⟨text, rest, rfl, hend, htext⟩
  rw [hend] at hrear
  rcases spansTo_of_mem_ways (inRow rear) _ _ _ way hrear with ⟨more, rest, rfl, hway, hmore⟩
  refine ⟨passed, text, more, rest, by simp, by simpa using hfront, htext, hmore, hway, ?_, ?_⟩
  -- The marks that are found last are those of the group: nothing behind them sets them again.
  · have hdiffer : (Mark.opening number == Mark.closing number) = false :=
      beq_eq_false_iff_ne.mpr Mark.noConfusion
    rw [lookup_kept hopening _ _ way hrear, List.lookup_cons, hdiffer]
    dsimp only
    rw [lookup_kept hinner _ _ inside hinside, List.lookup_cons_self]
  · rw [lookup_kept hclosing _ _ way hrear, List.lookup_cons_self]

/-- The same of a match at a place. -/
theorem exists_spans_of_matchAt? (hrow : pattern.row = front ++ group number inner :: rear)
    (hinner : inner.keeps (.opening number) = false)
    (hopening : (inRow rear).keeps (.opening number) = false)
    (hclosing : (inRow rear).keeps (.closing number) = false)
    {before after : List Char} {found : Match}
    (h : pattern.matchAt? (between before after) = some found) :
    ∃ passed more rest, after = passed ++ found.group number ++ more ++ rest ∧
      (inRow front).Spans before passed (found.group number ++ more ++ rest) ∧
      inner.Spans (before ++ passed) (found.group number) (more ++ rest) ∧
      (inRow rear).Spans (before ++ passed ++ found.group number) more rest := by
  rcases exists_way_of_matchAt? h with ⟨way, hway, rfl⟩
  rcases exists_spans_of_group hrow hinner hopening hclosing hway with
    ⟨passed, text, more, rest, hafter, hfront, htext, hmore, _, hstart, hstop⟩
  have hgroup : Match.group ⟨between before after, way.stop, way.kept⟩ number = text := by
    simp only [Match.group, Match.group?, hstart, hstop]
    exact textUpTo_between _ _ _
  rw [hgroup]
  exact ⟨passed, more, rest, hafter, hfront, htext, hmore⟩

end Pattern

end Chunking
