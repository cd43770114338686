import Chunking.Proofs.FencedSearch
import Chunking.Proofs.Spans

/-!
# What a search finds

That every way of a pattern spans a text is enough to say what a match can be,
but not that there is one. Here is the other direction. Whatever a pattern spans
is reached by one of its ways, and a place with a way has a match.

Which of its ways a pattern takes is a matter of their order. For the end of a
match it is simple: a pattern that ends with a stretch takes all of it, so no
character that the stretch allows comes next.

A search passes over the places inside a match. Another match is certain to be
found only if nothing that the pattern spans lies across its start.

## Main definitions

* `Pattern.name`: A character of one kind, and as many as possible of another.
* `Pattern.ClearAt`: Nothing that the pattern spans lies across a place.

## Theorems

* `Cursor.head?_stretch_between`: An eager stretch goes as far as it can.
* `spans_iff_exists_way`: A pattern spans what lies between its ends.
* `spans_inRow_row`: A pattern spans what its row spans.
* `exists_matchAt?_of_spans`: Where a pattern spans something it has a match.
* `exists_of_matchAt?_name`: What a pattern keeps that ends with a name.
* `ClearAt.exists_closer`: One round of the search before a clear place.
* `mem_findAll_of_matchAt?`: A match at a clear place is found.
-/

namespace Chunking

open Text

/-! ## Every span is a way -/

namespace Cursor

theorem skip?_between (before chars after : List Char) :
    (between before (chars ++ after)).skip? chars = some (between (before ++ chars) after) := by
  induction chars generalizing before with
  | nil => rw [List.nil_append, List.append_nil, skip?]
  | cons c chars ih =>
      have hstep : (between before (c :: (chars ++ after))).skip? (c :: chars) =
          (between before (c :: (chars ++ after))).advance.skip? chars := by
        simp only [skip?, between, if_true]
      rw [List.cons_append, hstep, advance_between, ih, List.append_assoc]
      rfl

/-- A stretch reaches every place up to which all characters are allowed. -/
theorem mem_stretch_between {allowed : Char → Bool} {text : List Char}
    (h : ∀ c ∈ text, allowed c = true) (before after : List Char) :
    between (before ++ text) after ∈ (between before (text ++ after)).stretch allowed := by
  induction text generalizing before with
  | nil =>
      rw [List.append_nil, List.nil_append]
      exact mem_stretch_self allowed _
  | cons c text ih =>
      have hmore := ih (fun d hd => h d (List.mem_cons_of_mem c hd)) (before ++ [c])
      rw [List.append_assoc] at hmore
      rw [List.cons_append, stretch_of_allowed rfl (h c List.mem_cons_self), advance_between]
      exact List.mem_append_left _ hmore

/-- An eager stretch goes as far as it can. -/
theorem head?_stretch_between (allowed : Char → Bool) (before after : List Char) :
    ((between before after).stretch allowed).head? =
      some (between (before ++ after.takeWhile allowed) (after.dropWhile allowed)) := by
  induction after generalizing before with
  | nil =>
      rw [stretch_of_not_allowed (by simp [between]), List.takeWhile_nil, List.dropWhile_nil,
        List.append_nil]
      rfl
  | cons c after ih =>
      cases hc : allowed c with
      | false =>
          rw [stretch_of_not_allowed (by simpa [between] using hc),
            List.takeWhile_cons_of_neg (by simp [hc]), List.dropWhile_cons_of_neg (by simp [hc]),
            List.append_nil]
          rfl
      | true =>
          rw [stretch_of_allowed rfl hc, advance_between, List.head?_append, ih,
            List.takeWhile_cons_of_pos hc, List.dropWhile_cons_of_pos hc, List.append_assoc]
          rfl

end Cursor

namespace Pattern

open Cursor

-- The bound on the rounds is met only when nothing is left to span, because rounds
-- without a text are left out.
theorem exists_way_of_spans_many {round : Pattern}
    (ih : ∀ (before text after : List Char) (kept : Marks), round.Spans before text after →
      ∃ way ∈ round.ways (between before (text ++ after)) kept,
        way.stop = between (before ++ text) after)
    {before text after : List Char} (h : (many round).Spans before text after)
    (bound : List Char) (hbound : text.length ≤ bound.length) (kept : Marks) :
    ∃ way ∈ waysOfRounds round.ways bound (between before (text ++ after)) kept,
      way.stop = between (before ++ text) after := by
  generalize hpattern : many round = pattern at h
  induction h generalizing bound kept with
  | @stop _ before after =>
      rw [List.append_nil, List.nil_append]
      cases bound with
      | nil => exact ⟨_, List.mem_singleton_self _, rfl⟩
      | cons _ bound => exact ⟨_, List.mem_append_right _ (List.mem_singleton_self _), rfl⟩
  | @more _ before text text' after hround hmore _ ihMore =>
      cases hpattern
      rw [List.length_append] at hbound
      cases text with
      | nil =>
          rw [List.append_nil] at ihMore
          exact ihMore bound (by simpa using hbound) kept rfl
      | cons c text =>
          cases bound with
          | nil => simp at hbound
          | cons _ bound =>
              rcases ih before (c :: text) (text' ++ after) kept hround with ⟨first, hfirst, hplace⟩
              rcases ihMore bound (by simp only [List.length_cons] at hbound; omega) first.kept rfl
                with ⟨way, hway, hstop⟩
              refine ⟨way, List.mem_append_left _ (List.mem_flatMap.mpr ⟨first, ?_, ?_⟩), ?_⟩
              · rwa [List.append_assoc]
              · rwa [hplace]
              · rw [hstop, List.append_assoc]
  | _ => cases hpattern

/-- What a pattern spans is reached by one of its ways. -/
theorem exists_way_of_spans {pattern : Pattern} {before text after : List Char} (kept : Marks)
    (h : pattern.Spans before text after) :
    ∃ way ∈ pattern.ways (between before (text ++ after)) kept,
      way.stop = between (before ++ text) after := by
  induction pattern generalizing before text after kept with
  | literal chars =>
      cases h
      refine ⟨_, List.mem_map.mpr ⟨_, ?_, rfl⟩, rfl⟩
      rw [skip?_between]
      exact Option.mem_toList.mpr rfl
  | one allowed =>
      rcases h.exists_of_one with ⟨c, rfl, hc⟩
      have hways : (one allowed).ways (between before ([c] ++ after)) kept =
          [⟨(between before (c :: after)).advance, kept⟩] := by
        simp [ways, between, hc]
      rw [hways, advance_between]
      exact ⟨_, List.mem_singleton_self _, rfl⟩
  | stretch eager allowed =>
      have hmem := mem_stretch_between h.forall_of_stretch before after
      refine ⟨_, List.mem_map.mpr ⟨_, ?_, rfl⟩, rfl⟩
      cases eager
      · exact List.mem_reverse.mpr hmem
      · exact hmem
  | seq first second ihFirst ihSecond =>
      rcases h.exists_of_seq with ⟨text₁, text₂, rfl, hfirst, hsecond⟩
      rcases ihFirst kept hfirst with ⟨middle, hmiddle, hplace⟩
      rcases ihSecond middle.kept hsecond with ⟨way, hway, hstop⟩
      refine ⟨way, List.mem_flatMap.mpr ⟨middle, ?_, ?_⟩, ?_⟩
      · rwa [List.append_assoc]
      · rwa [hplace]
      · rw [hstop, List.append_assoc]
  | either first second ihFirst ihSecond =>
      rcases h.or_of_either with h | h
      · rcases ihFirst kept h with ⟨way, hway, hstop⟩
        exact ⟨way, List.mem_append_left _ hway, hstop⟩
      · rcases ihSecond kept h with ⟨way, hway, hstop⟩
        exact ⟨way, List.mem_append_right _ hway, hstop⟩
  | many round ih =>
      refine exists_way_of_spans_many (fun _ _ _ kept h => ih kept h) h _ ?_ kept
      rw [between, List.length_append]
      exact Nat.le_add_right _ _
  | mark edge =>
      cases h
      rw [List.append_nil, List.nil_append]
      exact ⟨_, List.mem_singleton_self _, rfl⟩
  | wordEdge =>
      cases h with
      | wordEdge hedge =>
          rw [List.append_nil, List.nil_append]
          exact ⟨_, by rw [ways, if_pos hedge]; exact List.mem_singleton_self _, rfl⟩
  | lineStart =>
      cases h with
      | lineStart hline =>
          rw [List.append_nil, List.nil_append]
          have hstart : (between before after).atLineStart = true := by
            unfold atLineStart
            cases hlast : before.getLast? with
            | none => simp [between, hlast]
            | some c => simp [between, hlast, hline c hlast]
          exact ⟨_, by rw [ways, if_pos hstart]; exact List.mem_singleton_self _, rfl⟩
  | textStart =>
      cases h with
      | @textStart after =>
          have hstart : (between [] after).before = none := rfl
          exact ⟨_, by rw [List.nil_append, ways, if_pos hstart]; exact List.mem_singleton_self _,
            rfl⟩
  | textEnd =>
      cases h with
      | @textEnd before =>
          have hend : (between before []).rest = [] := rfl
          rw [List.append_nil, List.append_nil]
          exact ⟨_, by rw [ways, if_pos hend]; exact List.mem_singleton_self _, rfl⟩

/-- A pattern spans exactly the texts up to the places where its ways lead. -/
theorem spans_iff_exists_way {pattern : Pattern} {before text after : List Char} (kept : Marks) :
    pattern.Spans before text after ↔
      ∃ way ∈ pattern.ways (between before (text ++ after)) kept,
        way.stop = between (before ++ text) after := by
  constructor
  · exact exists_way_of_spans kept
  · rintro ⟨way, hway, hstop⟩
    rcases spansTo_of_mem_ways _ _ _ _ way hway with ⟨text', after', htext, hstop', hspans⟩
    -- Both texts lead to the same offset.
    have hoffset : byteLength (before ++ text) = byteLength (before ++ text') :=
      congrArg Cursor.offset (hstop.symm.trans hstop')
    rw [byteLength_append, byteLength_append, Nat.add_left_cancel_iff] at hoffset
    rcases append_inj_of_byteLength_eq htext hoffset with ⟨rfl, rfl⟩
    exact hspans

/-- A pattern spans what its row spans. -/
theorem spans_inRow_row {pattern : Pattern} {before text after : List Char} :
    (inRow pattern.row).Spans before text after ↔ pattern.Spans before text after := by
  rw [spans_iff_exists_way [], ways_inRow_row, ← spans_iff_exists_way]

/-- Where a pattern spans something it has a match. -/
theorem exists_matchAt?_of_spans {pattern : Pattern} {before text after : List Char}
    (h : pattern.Spans before text after) :
    ∃ found, pattern.matchAt? (between before (text ++ after)) = some found := by
  rcases exists_way_of_spans [] h with ⟨way, hway, _⟩
  rcases List.exists_cons_of_ne_nil (List.ne_nil_of_mem hway) with ⟨first, rest, hways⟩
  exact ⟨_, by rw [matchAt?_eq, hways]; rfl⟩

/-! ## Groups -/

/-- A way of a group is a way of what is in it, with two marks more. -/
theorem ways_group (number : Nat) (inner : Pattern) (cursor : Cursor) (kept : Marks) :
    (group number inner).ways cursor kept =
      (inner.ways cursor ((.opening number, cursor) :: kept)).map fun inside =>
        ⟨inside.stop, (.closing number, inside.stop) :: inside.kept⟩ := by
  rw [group, ways, ways, ways, List.flatMap_singleton, List.map_eq_flatMap]
  rfl

-- Nothing is kept between the two marks, so they are the ones that count.
theorem group_eq_of_marks (start : Cursor) (number : Nat) (before text after : List Char)
    (kept : Marks) :
    Match.group ⟨start, between (before ++ text) after,
      (.closing number, between (before ++ text) after) ::
        (.opening number, between before (text ++ after)) :: kept⟩ number = text := by
  have hdiffer : (Mark.opening number == Mark.closing number) = false :=
    beq_eq_false_iff_ne.mpr Mark.noConfusion
  simpa [Match.group, Match.group?, List.lookup_cons, hdiffer] using
    textUpTo_between before text after

/-! ## The name at the end -/

/-- A character of one kind, and as many as possible of another. -/
def name (first more : Char → Bool) : Pattern :=
  seq (one first) (stretch true more)

variable {pattern : Pattern} {front : List Pattern} {number : Nat} {first more : Char → Bool}

theorem ways_name (before : List Char) (c : Char) (rest : List Char) (kept : Marks) :
    (name first more).ways (between before (c :: rest)) kept =
      if first c then ((between (before ++ [c]) rest).stretch more).map (⟨·, kept⟩) else [] := by
  rw [name, ways, ← advance_between]
  change (if first c then [(⟨_, kept⟩ : Way)] else []).flatMap _ = _
  split_ifs
  · exact List.flatMap_singleton _ _
  · rfl

-- The first way takes the stretch as far as it goes.
theorem exists_of_head?_ways_name {before after : List Char} {kept : Marks} {way : Way}
    (h : ((group number (name first more)).ways (between before after) kept).head? = some way)
    (start : Cursor) :
    ∃ c rest, after = c :: rest ∧ first c = true ∧
      Match.group ⟨start, way.stop, way.kept⟩ number = c :: rest.takeWhile more := by
  cases after with
  | nil => cases h
  | cons c rest =>
      rw [ways_group, ways_name] at h
      split_ifs at h with hc
      · rw [List.map_map, List.head?_map, head?_stretch_between] at h
        cases h
        have hgroup := group_eq_of_marks start number before (c :: rest.takeWhile more)
          (rest.dropWhile more) kept
        rw [List.cons_append, List.takeWhile_append_dropWhile] at hgroup
        exact ⟨c, rest, rfl, hc, by simpa using hgroup⟩
      · cases h

/-- What a match keeps that ends with a name: a character of the first kind, and all
of the second kind behind it. -/
theorem exists_of_matchAt?_name (hrow : pattern.row = front ++ [group number (name first more)])
    {before after : List Char} {found : Match}
    (h : pattern.matchAt? (between before after) = some found) :
    ∃ passed c rest, after = passed ++ c :: rest ∧
      (inRow front).Spans before passed (c :: rest) ∧ first c = true ∧
        found.group number = c :: rest.takeWhile more := by
  rw [matchAt?_eq, ← ways_inRow_row, hrow, ways_inRow_append, List.head?_flatMap] at h
  rcases Option.map_eq_some_iff.mp h with ⟨way, hway, rfl⟩
  rcases List.exists_of_findSome?_eq_some hway with ⟨start, hstart, hfirst⟩
  rw [ways_inRow_singleton] at hfirst
  rcases spansTo_of_mem_ways _ _ _ _ start hstart with ⟨passed, rest, rfl, hplace, hfront⟩
  rw [hplace] at hfirst
  rcases exists_of_head?_ways_name hfirst (between before (passed ++ rest)) with
    ⟨c, rest, rfl, hc, hgroup⟩
  exact ⟨passed, c, rest, rfl, hfront, hc, hgroup⟩

/-! ## What a search does not miss -/

/-- Nothing that the pattern spans lies across the place. -/
def ClearAt (pattern : Pattern) (before after : List Char) : Prop :=
  ∀ front first second back, before = front ++ first → after = second ++ back →
    first ≠ [] → second ≠ [] → ¬ pattern.Spans front (first ++ second) back

variable {before after passed ahead text rest : List Char}

-- What is spanned before the place ends there at the latest.
theorem ClearAt.exists_left (h : pattern.ClearAt before after) (hbefore : before = passed ++ ahead)
    (hahead : ahead ≠ []) (htext : ahead ++ after = text ++ rest)
    (hspans : pattern.Spans passed text rest) :
    ∃ left, ahead = text ++ left ∧ rest = left ++ after := by
  rcases List.append_eq_append_iff.mp htext with ⟨across, rfl, hafter⟩ | hleft
  · cases across with
    | nil => exact ⟨[], by rw [List.append_nil, List.append_nil], hafter.symm⟩
    | cons c across =>
        exact absurd hspans (h _ _ _ _ hbefore hafter hahead (List.cons_ne_nil c across))
  · exact hleft

/-- The search comes closer to a place that nothing lies across. -/
theorem ClearAt.exists_closer (h : pattern.ClearAt before after) (hafter : after ≠ []) {c : Char}
    (hbefore : before = passed ++ c :: ahead) :
    ∃ passed' ahead', before = passed' ++ ahead' ∧ ahead'.length < (c :: ahead).length ∧
      ∀ found ∈ pattern.matchesFrom (between passed' (ahead' ++ after)),
        found ∈ pattern.matchesFrom (between passed (c :: ahead ++ after)) := by
  have hadvance : (between passed (c :: ahead ++ after)).advance =
      between (passed ++ [c]) (ahead ++ after) :=
    advance_between passed c (ahead ++ after)
  have hnext : before = passed ++ [c] ++ ahead := by
    rw [hbefore, List.append_assoc]
    rfl
  cases hmatch : pattern.matchAt? (between passed (c :: ahead ++ after)) with
  | none =>
      refine ⟨passed ++ [c], ahead, hnext, Nat.lt_succ_self _, fun found hfound => ?_⟩
      rw [List.cons_append] at hmatch ⊢
      rw [matchesFrom_of_none hmatch]
      exact hfound
  | some earlier =>
      rcases exists_way_of_matchAt? hmatch with ⟨way, hway, hearlier⟩
      rcases spansTo_of_mem_ways _ _ _ _ way hway with ⟨text, rest, htext, hstop, hspans⟩
      rcases h.exists_left hbefore (List.cons_ne_nil c ahead) htext hspans with ⟨left, hleft, rfl⟩
      have hplace : earlier.stop = between (passed ++ text) (left ++ after) := by
        rw [hearlier, hstop]
      have hrest : earlier.stop.rest ≠ [] := by
        rw [hplace]
        exact List.append_ne_nil_of_right_ne_nil left hafter
      have hround : pattern.matchesFrom (between passed (c :: ahead ++ after)) = earlier ::
          pattern.matchesFrom (onward (between passed (c :: ahead ++ after)) earlier) := by
        rw [matchesFrom_eq, hmatch]
        exact congrArg (earlier :: ·) (if_neg hrest)
      rw [hround, onward]
      split_ifs with hlonger
      · -- The search goes on where the earlier match ends.
        have htext : text ≠ [] := by
          rintro rfl
          rw [hplace, List.append_nil] at hlonger
          exact Nat.lt_irrefl _ hlonger
        have hlength := List.length_pos_iff.mpr htext
        refine ⟨passed ++ text, left, by rw [hbefore, hleft, List.append_assoc], ?_, ?_⟩
        · rw [hleft, List.length_append]
          omega
        · rw [hplace]
          exact fun found hfound => List.mem_cons_of_mem _ hfound
      · refine ⟨passed ++ [c], ahead, hnext, Nat.lt_succ_self _, ?_⟩
        rw [hadvance]
        exact fun found hfound => List.mem_cons_of_mem _ hfound

/-- A match is found if nothing that the pattern spans lies across its start. -/
theorem mem_findAll_of_matchAt? {found : Match}
    (h : pattern.matchAt? (between before after) = some found) (hafter : after ≠ [])
    (hclear : pattern.ClearAt before after) : found ∈ pattern.findAll (before ++ after) := by
  have hfrom (passed ahead : List Char) (hbefore : before = passed ++ ahead) :
      found ∈ pattern.matchesFrom (between passed (ahead ++ after)) := by
    induction hlength : ahead.length using Nat.strongRecOn generalizing passed ahead with
    | _ n ih =>
        subst hlength
        cases ahead with
        | nil =>
            rw [List.append_nil] at hbefore
            rw [List.nil_append, ← hbefore, matchesFrom_eq, h]
            exact List.mem_cons_self
        | cons c ahead =>
            rcases hclear.exists_closer hafter hbefore with
              ⟨passed', ahead', hbefore', hless, hcloser⟩
            exact hcloser found (ih _ hless passed' ahead' hbefore' rfl)
  rw [findAll, atStart_eq_between]
  exact hfrom [] before rfl

end Pattern

end Chunking
