import Chunking.Proofs.ReturnedPlaces
import Chunking.Proofs.SpannedText

/-!
# Patterns that do not heed carriage returns

A carriage return in front of a newline makes white space longer, and most patterns
take white space of any length. That a pattern finds the same then has to be seen from
its end. Whether a place that a stretch has reached is as good as another one is a
matter of what follows the stretch, because a stretch gives up places until what follows
it matches. So a pattern is looked at with an answer for the ways behind it: what the
rest of the row makes of a way. `Tolerance` says what such an answer bears, and
`Pattern.tolerance?` computes what is borne in front of a pattern from what is borne
behind it.

An answer has to be the same for a place halfway through a line ending as for the place
before the newline, because a stretch that takes the newline has both. That is all a
stretch asks for. One character that may be the newline asks for more: in the one text
it leads behind the line ending, and in the other one to the place halfway, from which a
newline is still to be taken. The answer may be the same, as it is if another stretch
follows and nothing is found where that stretch would have to stop in front of a
newline. Two stretches of white space with a character between them that may be white
space as well do not pass: there the carriage return is one character more to share out.

## Main definitions

* `Tolerance`: What an answer bears.
* `Tolerates`: The answer bears it.
* `Pattern.followed`: The first answer from the ways of a pattern.
* `Pattern.tolerance?`: What is borne in front of a pattern.
* `Pattern.isSteady`: Carriage returns do not matter to the pattern.

## Theorems

* `tolerates_followed`: What is computed is borne.
* `Pattern.matchAt?_withReturns`: A pattern matches the same at a place.
* `Pattern.isSteady.forall₂_findAll`: A steady pattern finds the same matches.
* `foundTypes_withReturns`, `foundNames_withReturns`: What they keep is the same.
-/

namespace Chunking

open Text Cursor

variable {text : List Char}

/-! ## Answers -/

/-- What an answer for ways bears, besides carriage returns before the place: to be asked
halfway through a line ending instead of behind it, and that there is none in front of
a newline. -/
structure Tolerance where
  past : Bool
  blocked : Bool
  deriving DecidableEq

/-- The answer bears carriage returns. -/
structure Tolerates (text : List Char) (tolerance : Tolerance) (answer : Way → Option Way) :
    Prop where
  same : ∀ {place' place : Cursor} {kept' kept : Marks}, place'.WithReturns text place →
    kept'.WithReturns text kept →
      Option.Rel (Way.WithReturns text) (answer ⟨place', kept'⟩) (answer ⟨place, kept⟩)
  past : tolerance.past = true → ∀ {place' place : Cursor} {kept' kept : Marks},
    place'.PastReturn text place → kept'.WithReturns text kept →
      Option.Rel (Way.WithReturns text) (answer ⟨place', kept'⟩) (answer ⟨place, kept⟩)
  blocked : tolerance.blocked = true → ∀ {place : Cursor} {kept : Marks},
    place.rest.head? = some '\n' → answer ⟨place, kept⟩ = none

theorem rel_or {α β : Type} {rel : α → β → Prop} {first' second' : Option α}
    {first second : Option β} (h : Option.Rel rel first' first)
    (h' : Option.Rel rel second' second) :
    Option.Rel rel (first'.or second') (first.or second) := by
  cases h with
  | none => exact h'
  | some h => exact .some h

/-- Of the answer from going on and the one from here, the first in order. -/
def Pattern.preferred (eager : Bool) (more here : Option Way) : Option Way :=
  if eager then more.or here else here.or more

theorem rel_preferred {eager : Bool} {more' more here' here : Option Way}
    (hmore : Option.Rel (Way.WithReturns text) more' more)
    (hhere : Option.Rel (Way.WithReturns text) here' here) :
    Option.Rel (Way.WithReturns text) (Pattern.preferred eager more' here')
      (Pattern.preferred eager more here) := by
  cases eager with
  | true => exact rel_or hmore hhere
  | false => exact rel_or hhere hmore

-- An answer that can be had twice on the one side counts once.
theorem rel_preferred_twice {eager : Bool} {more' more here' here : Option Way}
    (hmore : Option.Rel (Way.WithReturns text) more' (Pattern.preferred eager more here))
    (hhere : Option.Rel (Way.WithReturns text) here' here) :
    Option.Rel (Way.WithReturns text) (Pattern.preferred eager more' here')
      (Pattern.preferred eager more here) := by
  cases eager with
  | true =>
      cases hhere with
      | none => simpa [Pattern.preferred] using hmore
      | @some here' here hhere =>
          cases more with
          | none =>
              cases hmore with
              | some hmore => exact .some hmore
          | some more =>
              cases hmore with
              | some hmore => exact .some hmore
  | false =>
      cases hhere with
      | none => exact hmore
      | some hhere => exact .some hhere

namespace Pattern

/-- The first answer from the ways of a pattern. -/
def followed (pattern : Pattern) (answer : Way → Option Way) (way : Way) : Option Way :=
  (pattern.ways way.stop way.kept).findSome? answer

variable {pattern first second round : Pattern} {answer : Way → Option Way} {kept : Marks}
  {allowed : Char → Bool}

-- A row asks each way of its first part, and of the second the first that answers.
theorem findSome?_flatMap {ways : List Way} {on : Way → List Way} :
    (ways.flatMap on).findSome? answer = ways.findSome? fun way => (on way).findSome? answer := by
  induction ways with
  | nil => rfl
  | cons way ways ih =>
      rw [List.flatMap_cons, List.findSome?_append, ih, List.findSome?_cons]
      cases (on way).findSome? answer <;> rfl

theorem followed_nothing : (literal []).followed answer = answer := by
  funext way
  exact List.findSome?_singleton

theorem followed_seq (way : Way) :
    (seq first second).followed answer way = first.followed (second.followed answer) way :=
  findSome?_flatMap

theorem followed_either (way : Way) :
    (either first second).followed answer way =
      (first.followed answer way).or (second.followed answer way) :=
  List.findSome?_append

variable {c : Char} {eager : Bool}

theorem followed_one (before after : List Char) :
    (one allowed).followed answer ⟨between before (c :: after), kept⟩ =
      if allowed c then answer ⟨between (before ++ [c]) after, kept⟩ else none := by
  rw [← advance_between]
  change (if allowed c then [(⟨_, kept⟩ : Way)] else []).findSome? answer = _
  split_ifs
  · exact List.findSome?_singleton
  · rfl

/-- A stretch goes on with one more character, or it stops. If it is eager, it stops only if
going on gives no answer. -/
theorem followed_stretch (hc : allowed c = true) (before after : List Char) :
    (stretch eager allowed).followed answer ⟨between before (c :: after), kept⟩ =
      preferred eager
        ((stretch eager allowed).followed answer ⟨between (before ++ [c]) after, kept⟩)
        (answer ⟨between before (c :: after), kept⟩) := by
  simp only [followed, ways, List.findSome?_map]
  rw [stretch_of_allowed rfl hc, advance_between]
  cases eager with
  | true =>
      simp only [if_true, List.findSome?_append, List.findSome?_singleton]
      rfl
  | false =>
      simp only [Bool.false_eq_true, if_false, List.reverse_append, List.reverse_singleton,
        List.findSome?_append, List.findSome?_singleton]
      rfl

theorem followed_stretch_nil (before : List Char) :
    (stretch eager allowed).followed answer ⟨between before [], kept⟩ =
      answer ⟨between before [], kept⟩ := by
  simp only [followed, ways]
  rw [stretch_of_not_allowed (by simp [between])]
  cases eager <;> exact List.findSome?_singleton

theorem followed_stretch_refused (hc : allowed c = false) (before after : List Char) :
    (stretch eager allowed).followed answer ⟨between before (c :: after), kept⟩ =
      answer ⟨between before (c :: after), kept⟩ := by
  simp only [followed, ways]
  rw [stretch_of_not_allowed (by simpa [between] using hc)]
  cases eager <;> exact List.findSome?_singleton

/-! ## The tolerance in front of a pattern -/

/-- What is borne in front of a pattern, by what is borne behind it; nothing if that is
not enough. -/
def tolerance? : Pattern → Tolerance → Option Tolerance
  | literal chars, behind =>
    if chars = [] then some behind
    else if ∀ c ∈ chars, EndsNoLine c then some ⟨false, true⟩
    else none
  | one allowed, behind =>
    if allowed '\n' = allowed '\r' ∧ (allowed '\n' = true → behind.past = true) then
      some ⟨false, !allowed '\n'⟩
    else none
  | stretch _ allowed, behind =>
    if allowed '\n' = allowed '\r' then
      some ⟨allowed '\n' && behind.blocked, !allowed '\n' && behind.blocked⟩
    else none
  | seq first second, behind => (second.tolerance? behind).bind first.tolerance?
  | either first second, behind =>
    (first.tolerance? behind).bind fun front => (second.tolerance? behind).map fun front' =>
      ⟨front.past && front'.past, front.blocked && front'.blocked⟩
  | many round, behind =>
    -- What follows a round is another one, or what follows all of them.
    (round.tolerance? ⟨false, behind.blocked⟩).bind fun front =>
      if front.blocked = true ∧ round.consumes = true then some ⟨false, behind.blocked⟩ else none
  | mark _, behind => some ⟨false, behind.blocked⟩
  | wordEdge, behind | lineStart, behind =>
    if behind.blocked = true then some ⟨false, true⟩ else none
  | textStart, _ => none
  | textEnd, _ => some ⟨false, true⟩

end Pattern

namespace Tolerates

open Pattern

variable {behind front : Tolerance} {answer : Way → Option Way} {allowed : Char → Bool}

/-- To bear less is to bear. -/
theorem weaken (h : Tolerates text front answer) (blocked : Bool)
    (hblocked : blocked = true → front.blocked = true) :
    Tolerates text ⟨false, blocked⟩ answer where
  same := h.same
  past := by simp
  blocked hthis := h.blocked (hblocked hthis)

/-- One character: either a line ending is refused as a whole, or the answer is the same
halfway through it. -/
theorem same_one (h : Tolerates text behind answer) (hends : allowed '\n' = allowed '\r')
    (hpast : allowed '\n' = true → behind.past = true) {place' place : Cursor}
    {kept' kept : Marks} (hplace : place'.WithReturns text place)
    (hkept : kept'.WithReturns text kept) :
    Option.Rel (Way.WithReturns text) ((one allowed).followed answer ⟨place', kept'⟩)
      ((one allowed).followed answer ⟨place, kept⟩) := by
  cases hplace with
  | @apart before after htext =>
      cases after with
      | nil => exact .none
      | cons c after =>
          by_cases hc : c = '\n'
          · subst hc
            rw [withReturns_cons_newline, followed_one, followed_one, ← hends]
            split_ifs with hnewline
            · exact h.past (hpast hnewline) (.intro htext) hkept
            · exact .none
          · rw [withReturns_cons hc, followed_one, followed_one, ← withReturns_concat hc]
            split_ifs
            · exact h.same (.apart (by rw [htext, List.append_assoc]; rfl)) hkept
            · exact .none
  | @halfway before after htext =>
      rw [followed_one, followed_one, ← withReturns_concat_newline]
      split_ifs
      · exact h.same (.apart (by rw [htext, List.append_assoc]; rfl)) hkept
      · exact .none

/-- A stretch either stops before a line ending, or it takes it as a whole and has stopped
halfway as well. -/
theorem same_stretch (h : Tolerates text behind answer) (hends : allowed '\n' = allowed '\r')
    {eager : Bool} {place' place : Cursor} {kept' kept : Marks}
    (hplace : place'.WithReturns text place) (hkept : kept'.WithReturns text kept) :
    Option.Rel (Way.WithReturns text) ((stretch eager allowed).followed answer ⟨place', kept'⟩)
      ((stretch eager allowed).followed answer ⟨place, kept⟩) := by
  -- Halfway the newline is still to be taken, and behind it the places are the same.
  have hhalfway {before after : List Char} (htext : text = before ++ '\n' :: after)
      (hbehind : Option.Rel (Way.WithReturns text)
        ((stretch eager allowed).followed answer
          ⟨between (withReturns (before ++ ['\n'])) (withReturns after), kept'⟩)
        ((stretch eager allowed).followed answer ⟨between (before ++ ['\n']) after, kept⟩)) :
      Option.Rel (Way.WithReturns text)
        ((stretch eager allowed).followed answer
          ⟨between (withReturns before ++ ['\r']) ('\n' :: withReturns after), kept'⟩)
        ((stretch eager allowed).followed answer ⟨between before ('\n' :: after), kept⟩) := by
    have hhere := h.same (.halfway htext) hkept
    cases hnewline : allowed '\n' with
    | true =>
        rw [followed_stretch hnewline, followed_stretch hnewline, ← withReturns_concat_newline]
        exact rel_preferred hbehind hhere
    | false =>
        rw [followed_stretch_refused hnewline, followed_stretch_refused hnewline]
        exact hhere
  have hapart (before after : List Char) (htext : text = before ++ after) :
      Option.Rel (Way.WithReturns text)
        ((stretch eager allowed).followed answer
          ⟨between (withReturns before) (withReturns after), kept'⟩)
        ((stretch eager allowed).followed answer ⟨between before after, kept⟩) := by
    induction after generalizing before with
    | nil =>
        rw [withReturns_nil, followed_stretch_nil, followed_stretch_nil]
        exact h.same (.apart htext) hkept
    | cons c after ih =>
        have hhere := h.same (.apart htext) hkept
        have hmore := ih (before ++ [c]) (by rw [htext, List.append_assoc]; rfl)
        by_cases hc : c = '\n'
        · subst hc
          rw [withReturns_cons_newline] at hhere ⊢
          cases hnewline : allowed '\n' with
          | true =>
              have hboth := hhalfway htext hmore
              rw [followed_stretch (hends.symm.trans hnewline)]
              rw [followed_stretch hnewline before after] at hboth ⊢
              exact rel_preferred_twice hboth hhere
          | false =>
              rw [followed_stretch_refused (hends.symm.trans hnewline),
                followed_stretch_refused hnewline]
              exact hhere
        · rw [withReturns_cons hc] at hhere ⊢
          cases hallowed : allowed c with
          | true =>
              rw [followed_stretch hallowed, followed_stretch hallowed, ← withReturns_concat hc]
              exact rel_preferred hmore hhere
          | false =>
              rw [followed_stretch_refused hallowed, followed_stretch_refused hallowed]
              exact hhere
  cases hplace with
  | apart htext => exact hapart _ _ htext
  | halfway htext => exact hhalfway htext (hapart _ _ (by rw [htext, List.append_assoc]; rfl))

/-- Halfway a stretch may stop, and behind the line ending it has not begun to. -/
theorem past_stretch (h : Tolerates text behind answer) (hends : allowed '\n' = allowed '\r')
    (hnewline : allowed '\n' = true) (hblocked : behind.blocked = true) {eager : Bool}
    {place' place : Cursor} {kept' kept : Marks} (hplace : place'.PastReturn text place)
    (hkept : kept'.WithReturns text kept) :
    Option.Rel (Way.WithReturns text) ((stretch eager allowed).followed answer ⟨place', kept'⟩)
      ((stretch eager allowed).followed answer ⟨place, kept⟩) := by
  cases hplace with
  | @intro before after htext =>
      have hbehind : Option.Rel (Way.WithReturns text)
          ((stretch eager allowed).followed answer
            ⟨between (withReturns (before ++ ['\n'])) (withReturns after), kept'⟩)
          ((stretch eager allowed).followed answer ⟨between (before ++ ['\n']) after, kept⟩) :=
        h.same_stretch hends (.apart (by rw [htext, List.append_assoc]; rfl)) hkept
      have hnone : answer ⟨between (withReturns before ++ ['\r']) ('\n' :: withReturns after),
          kept'⟩ = none := h.blocked hblocked rfl
      rw [followed_stretch hnewline, hnone, ← withReturns_concat_newline]
      cases eager with
      | true =>
          rw [preferred, if_pos rfl, Option.or_none]
          exact hbehind
      | false => exact hbehind

-- One place where nothing comes in front of a newline.
theorem followed_of_head? {pattern : Pattern} {place : Cursor} {kept : Marks}
    (hhead : place.rest.head? = some '\n')
    (h : ∀ rest, place.rest = '\n' :: rest → pattern.ways place kept = []) :
    pattern.followed answer ⟨place, kept⟩ = none := by
  rcases List.head?_eq_some_iff.mp hhead with ⟨rest, hrest⟩
  rw [followed, h rest hrest]
  rfl

theorem of_one (h : Tolerates text behind answer) (hends : allowed '\n' = allowed '\r')
    (hpast : allowed '\n' = true → behind.past = true) :
    Tolerates text ⟨false, !allowed '\n'⟩ ((one allowed).followed answer) where
  same := h.same_one hends hpast
  past := by simp
  blocked := by
    intro hrefused place kept hhead
    refine followed_of_head? hhead fun rest hrest => ?_
    rw [Bool.not_eq_true'] at hrefused
    simp [ways, hrest, hrefused]

theorem of_stretch (h : Tolerates text behind answer) (hends : allowed '\n' = allowed '\r')
    (eager : Bool) :
    Tolerates text ⟨allowed '\n' && behind.blocked, !allowed '\n' && behind.blocked⟩
      ((stretch eager allowed).followed answer) where
  same := h.same_stretch hends
  past := by
    intro hboth
    rw [Bool.and_eq_true] at hboth
    exact h.past_stretch hends hboth.1 hboth.2
  blocked := by
    intro hboth place kept hhead
    rw [Bool.and_eq_true, Bool.not_eq_true'] at hboth
    have hways : (stretch eager allowed).ways place kept = [⟨place, kept⟩] := by
      rw [ways, stretch_of_not_allowed]
      · cases eager <;> rfl
      · rw [hhead]
        rintro c ⟨⟩
        exact hboth.1
    rw [followed, hways, List.findSome?_singleton]
    exact h.blocked hboth.2 hhead

/-- Given characters that end no line are taken one by one. -/
theorem of_literal (h : Tolerates text behind answer) {chars : List Char}
    (hchars : ∀ c ∈ chars, EndsNoLine c) :
    Tolerates text ⟨false, !chars.isEmpty⟩ ((literal chars).followed answer) := by
  induction chars with
  | nil =>
      rw [followed_nothing]
      exact ⟨h.same, by simp, by simp⟩
  | cons c chars ih =>
      have hfirst : (literal (c :: chars)).followed answer =
          (one (· == c)).followed ((literal chars).followed answer) := by
        funext way
        rcases way with ⟨⟨offset, before, _ | ⟨d, rest⟩⟩, kept⟩
        · rfl
        · by_cases hd : d = c <;> simp [followed, ways, skip?, hd]
      have hends := hchars c List.mem_cons_self
      have hnewline : ('\n' == c) = false := beq_eq_false_iff_ne.mpr hends.1.symm
      have hreturn : ('\r' == c) = false := beq_eq_false_iff_ne.mpr hends.2.symm
      have hmore := ih fun d hd => hchars d (List.mem_cons_of_mem c hd)
      have hone := @of_one _ _ _ (· == c) hmore (hnewline.trans hreturn.symm) fun htrue =>
        absurd (hnewline.symm.trans htrue) Bool.false_ne_true
      rw [hnewline] at hone
      rw [hfirst]
      exact hone

theorem of_mark (h : Tolerates text behind answer) (edge : Mark) :
    Tolerates text ⟨false, behind.blocked⟩ ((mark edge).followed answer) := by
  have hmark : (mark edge).followed answer =
      fun way => answer ⟨way.stop, (edge, way.stop) :: way.kept⟩ := by
    funext way
    exact List.findSome?_singleton
  rw [hmark]
  exact ⟨fun hplace hkept => h.same hplace (.cons ⟨rfl, hplace⟩ hkept), by simp,
    fun hblocked _ _ hhead => h.blocked hblocked hhead⟩

theorem of_either {front' : Tolerance} {first second : Pattern}
    (h : Tolerates text front (first.followed answer))
    (h' : Tolerates text front' (second.followed answer)) :
    Tolerates text ⟨front.past && front'.past, front.blocked && front'.blocked⟩
      ((either first second).followed answer) := by
  have heither : (either first second).followed answer =
      fun way => (first.followed answer way).or (second.followed answer way) :=
    funext followed_either
  rw [heither]
  refine ⟨fun hplace hkept => rel_or (h.same hplace hkept) (h'.same hplace hkept), ?_, ?_⟩
  · intro hboth place' place kept' kept hplace hkept
    rw [Bool.and_eq_true] at hboth
    exact rel_or (h.past hboth.1 hplace hkept) (h'.past hboth.2 hplace hkept)
  · intro hboth place kept hhead
    rw [Bool.and_eq_true] at hboth
    rw [h.blocked hboth.1 hhead, h'.blocked hboth.2 hhead]
    rfl

-- A place that is tested, by a test that the carriage returns do not change, and that finds
-- nothing in front of a newline.
theorem of_test {pattern : Pattern} {test : Cursor → Prop} [DecidablePred test]
    (h : Tolerates text behind answer)
    (hways : ∀ place kept, pattern.ways place kept = if test place then [⟨place, kept⟩] else [])
    (htest : ∀ before after, test (between (withReturns before) (withReturns after)) ↔
      test (between before after))
    (hnewline : ∀ place kept, place.rest.head? = some '\n' → test place →
      answer ⟨place, kept⟩ = none) :
    Tolerates text ⟨false, true⟩ (pattern.followed answer) := by
  have hfollowed (place : Cursor) (kept : Marks) : pattern.followed answer ⟨place, kept⟩ =
      if test place then answer ⟨place, kept⟩ else none := by
    rw [followed, hways]
    split_ifs
    · exact List.findSome?_singleton
    · rfl
  have hnone {place : Cursor} {kept : Marks} (hhead : place.rest.head? = some '\n') :
      pattern.followed answer ⟨place, kept⟩ = none := by
    rw [hfollowed]
    split_ifs with hplace
    · exact hnewline place kept hhead hplace
    · rfl
  refine ⟨?_, by simp, fun _ _ _ hhead => hnone hhead⟩
  intro place' place kept' kept hplace hkept
  cases hplace with
  | apart htext =>
      rw [hfollowed, hfollowed]
      simp only [htest]
      split_ifs
      · exact h.same (.apart htext) hkept
      · exact .none
  | halfway htext =>
      rw [hnone rfl, hnone rfl]
      exact .none

theorem of_wordEdge (h : Tolerates text behind answer) (hblocked : behind.blocked = true) :
    Tolerates text ⟨false, true⟩ (wordEdge.followed answer) := by
  refine h.of_test (fun _ _ => rfl) (fun before after => ?_)
    fun _ _ hhead _ => h.blocked hblocked hhead
  have hhead : isWordAt (withReturns after).head? = isWordAt after.head? := by
    cases after with
    | nil => rfl
    | cons c after =>
        by_cases hc : c = '\n'
        · rw [hc, withReturns_cons_newline]
          exact (by decide : isWordAt (some '\r') = isWordAt (some '\n'))
        · rw [withReturns_cons hc]
          rfl
  rw [atWordEdge, atWordEdge, between, between, hhead, getLast?_withReturns]

theorem of_lineStart (h : Tolerates text behind answer) (hblocked : behind.blocked = true) :
    Tolerates text ⟨false, true⟩ (lineStart.followed answer) := by
  refine h.of_test (fun _ _ => rfl) (fun before after => ?_)
    fun _ _ hhead _ => h.blocked hblocked hhead
  rw [atLineStart, atLineStart, between, between, getLast?_withReturns]

theorem of_textEnd (h : Tolerates text behind answer) :
    Tolerates text ⟨false, true⟩ (textEnd.followed answer) := by
  refine h.of_test (fun _ _ => rfl) (fun before after => withReturns_eq_nil_iff)
    fun place kept hhead hend => ?_
  rw [hend] at hhead
  cases hhead

/-- Rounds, up to a number of them that is the same in both texts. -/
theorem of_rounds {round : Pattern} {blocked : Bool} (h : Tolerates text ⟨false, blocked⟩ answer)
    (hround : ∀ {answer : Way → Option Way}, Tolerates text ⟨false, blocked⟩ answer →
      Tolerates text front (round.followed answer))
    (hfront : front.blocked = true) (bound : List Char) :
    Tolerates text ⟨false, blocked⟩ fun way =>
      (waysOfRounds round.ways bound way.stop way.kept).findSome? answer := by
  induction bound with
  | nil =>
      simp only [waysOfRounds, List.findSome?_singleton]
      exact h
  | cons b bound ih =>
      have hmore := hround ih
      have hrounds (way : Way) :
          (waysOfRounds round.ways (b :: bound) way.stop way.kept).findSome? answer =
            (round.followed (fun way =>
              (waysOfRounds round.ways bound way.stop way.kept).findSome? answer) way).or
                (answer way) := by
        rw [waysOfRounds, List.findSome?_append, findSome?_flatMap, List.findSome?_singleton]
        rfl
      refine ⟨fun hplace hkept => ?_, by simp, fun hblocked place kept hhead => ?_⟩
      · rw [hrounds, hrounds]
        exact rel_or (hmore.same hplace hkept) (h.same hplace hkept)
      · rw [hrounds, hmore.blocked hfront hhead, h.blocked hblocked hhead]
        rfl

-- More rounds than there are characters left make no difference.
theorem waysOfRounds_congr {round : Pattern} (hround : round.consumes = true)
    (bound bound' : List Char) (place : Cursor) (kept : Marks)
    (hbound : place.rest.length ≤ bound.length) (hbound' : place.rest.length ≤ bound'.length) :
    waysOfRounds round.ways bound place kept = waysOfRounds round.ways bound' place kept := by
  -- A text is a part of itself.
  have hplace : Cursor.within [] [] = id := by
    funext place
    rcases place with ⟨offset, before, rest⟩
    simp [Cursor.within]
  have hmarks : Marks.within [] [] = id := by
    funext marks
    simp [Marks.within, hplace]
  have hway : Way.within [] [] = id := by
    funext way
    simp [Way.within, hplace, hmarks]
  have hwithin := @waysOfRounds_within [] [] round hround (by simp [hplace, hmarks, hway]) bound
    bound' place kept hbound hbound'
  rwa [hplace, hmarks, hway, List.map_id] at hwithin

theorem of_many (h : Tolerates text behind answer) {round : Pattern}
    (hround : ∀ {answer : Way → Option Way}, Tolerates text ⟨false, behind.blocked⟩ answer →
      Tolerates text front (round.followed answer))
    (hfront : front.blocked = true) (hconsumes : round.consumes = true) :
    Tolerates text ⟨false, behind.blocked⟩ ((many round).followed answer) := by
  have hmany (bound : List Char) {place : Cursor} {kept : Marks}
      (hbound : place.rest.length ≤ bound.length) :
      (many round).followed answer ⟨place, kept⟩ =
        (waysOfRounds round.ways bound place kept).findSome? answer := by
    rw [followed, ways, waysOfRounds_congr hconsumes _ bound _ _ (Nat.le_refl _) hbound]
  have hrounds := (h.weaken behind.blocked id).of_rounds hround hfront
  refine ⟨fun {place' place} _ _ hplace hkept => ?_, by simp, fun hblocked place kept hhead => ?_⟩
  · rw [hmany (place'.rest ++ place.rest) (by simp), hmany (place'.rest ++ place.rest) (by simp)]
    exact (hrounds _).same hplace hkept
  · rw [hmany place.rest (Nat.le_refl _)]
    exact (hrounds _).blocked hblocked hhead

end Tolerates

/-- What is computed is borne. -/
theorem tolerates_followed {pattern : Pattern} {behind front : Tolerance}
    {answer : Way → Option Way} (h : Tolerates text behind answer)
    (htolerance : pattern.tolerance? behind = some front) :
    Tolerates text front (pattern.followed answer) := by
  induction pattern generalizing behind front answer with
  | literal chars =>
      rw [Pattern.tolerance?] at htolerance
      split_ifs at htolerance with hnil hends
      · cases htolerance
        subst hnil
        rwa [Pattern.followed_nothing]
      · cases htolerance
        have hliteral := h.of_literal hends
        rwa [List.isEmpty_eq_false_iff.mpr hnil] at hliteral
  | one allowed =>
      rw [Pattern.tolerance?] at htolerance
      split_ifs at htolerance with hends
      cases htolerance
      exact h.of_one hends.1 hends.2
  | stretch eager allowed =>
      rw [Pattern.tolerance?] at htolerance
      split_ifs at htolerance with hends
      cases htolerance
      exact h.of_stretch hends eager
  | seq first second ihFirst ihSecond =>
      rcases Option.bind_eq_some_iff.mp htolerance with ⟨middle, hsecond, hfirst⟩
      rw [funext Pattern.followed_seq]
      exact ihFirst (ihSecond h hsecond) hfirst
  | either first second ihFirst ihSecond =>
      rcases Option.bind_eq_some_iff.mp htolerance with ⟨front₁, hfirst, hboth⟩
      rcases Option.map_eq_some_iff.mp hboth with ⟨front₂, hsecond, rfl⟩
      exact (ihFirst h hfirst).of_either (ihSecond h hsecond)
  | many round ih =>
      rcases Option.bind_eq_some_iff.mp htolerance with ⟨middle, hround, hmany⟩
      split_ifs at hmany with hconsumes
      cases hmany
      exact h.of_many (fun h => ih h hround) hconsumes.1 hconsumes.2
  | mark edge =>
      cases htolerance
      exact h.of_mark edge
  | wordEdge =>
      rw [Pattern.tolerance?] at htolerance
      split_ifs at htolerance with hblocked
      cases htolerance
      exact h.of_wordEdge hblocked
  | lineStart =>
      rw [Pattern.tolerance?] at htolerance
      split_ifs at htolerance with hblocked
      cases htolerance
      exact h.of_lineStart hblocked
  | textStart => cases htolerance
  | textEnd =>
      cases htolerance
      exact h.of_textEnd

/-! ## Matches -/

namespace Pattern

variable {pattern : Pattern} {place' place : Cursor}

/-- Carriage returns in front of newlines do not matter to the pattern. It does not match
before a newline, and it matches no empty text. -/
def isSteady (pattern : Pattern) : Bool :=
  pattern.consumes && (pattern.tolerance? ⟨false, false⟩).any Tolerance.blocked

theorem matchAt?_eq_followed (pattern : Pattern) (place : Cursor) :
    pattern.matchAt? place =
      (pattern.followed some ⟨place, []⟩).map fun way => ⟨place, way.stop, way.kept⟩ := by
  rw [matchAt?_eq, followed]
  cases pattern.ways place [] <;> rfl

theorem tolerates_followed_some {front : Tolerance}
    (h : pattern.tolerance? ⟨false, false⟩ = some front) :
    Tolerates text front (pattern.followed some) :=
  tolerates_followed ⟨fun hplace hkept => .some ⟨hplace, hkept⟩, by simp, by simp⟩ h

/-- A pattern matches the same at the same place. -/
theorem matchAt?_withReturns {front : Tolerance}
    (h : pattern.tolerance? ⟨false, false⟩ = some front) (hplace : place'.WithReturns text place) :
    Option.Rel (Match.WithReturns text) (pattern.matchAt? place') (pattern.matchAt? place) := by
  rw [matchAt?_eq_followed, matchAt?_eq_followed]
  have hsame := (tolerates_followed_some h).same hplace .nil
  generalize pattern.followed some ⟨place', []⟩ = way' at hsame ⊢
  generalize pattern.followed some ⟨place, []⟩ = way at hsame ⊢
  cases hsame with
  | none => exact .none
  | some hway => exact .some ⟨hway.stop, hway.kept⟩

theorem matchAt?_none_or_some {front : Tolerance}
    (h : pattern.tolerance? ⟨false, false⟩ = some front) (hplace : place'.WithReturns text place) :
    (pattern.matchAt? place' = none ∧ pattern.matchAt? place = none) ∨
      ∃ found' found, pattern.matchAt? place' = some found' ∧
        pattern.matchAt? place = some found ∧ found'.WithReturns text found := by
  have hsame := matchAt?_withReturns h hplace
  generalize pattern.matchAt? place' = found' at hsame ⊢
  generalize pattern.matchAt? place = found at hsame ⊢
  cases hsame with
  | none => exact .inl ⟨rfl, rfl⟩
  | some hfound => exact .inr ⟨_, _, rfl, rfl, hfound⟩

section Steady

variable (h : pattern.isSteady = true)

include h

-- The two halves of being steady.
theorem isSteady.consumes : pattern.consumes = true :=
  (Bool.and_eq_true_iff.mp h).1

theorem isSteady.exists_tolerance : ∃ front, pattern.tolerance? ⟨false, false⟩ = some front ∧
    front.blocked = true := by
  have hany := (Bool.and_eq_true_iff.mp h).2
  cases htolerance : pattern.tolerance? ⟨false, false⟩ with
  | none => rw [htolerance] at hany; cases hany
  | some front => exact ⟨front, rfl, by rwa [htolerance] at hany⟩

theorem isSteady.matchAt?_newline (hhead : place.rest.head? = some '\n') :
    pattern.matchAt? place = none := by
  rcases isSteady.exists_tolerance h with ⟨front, hfront, hblocked⟩
  have hnone : pattern.followed some ⟨place, []⟩ = none :=
    (@tolerates_followed_some [] _ _ hfront).blocked hblocked hhead
  rw [matchAt?_eq_followed, hnone]
  rfl

-- The carriage return is one more place without a match.
theorem isSteady.forall₂_halfway {before after : List Char}
    (hbehind : List.Forall₂ (Match.WithReturns text)
      (pattern.matchesFrom (between (withReturns (before ++ ['\n'])) (withReturns after)))
      (pattern.matchesFrom (between (before ++ ['\n']) after))) :
    List.Forall₂ (Match.WithReturns text)
      (pattern.matchesFrom
        (between (withReturns before ++ ['\r']) ('\n' :: withReturns after)))
      (pattern.matchesFrom (between before ('\n' :: after))) := by
  rw [matchesFrom_of_none (isSteady.matchAt?_newline h rfl),
    matchesFrom_of_none (isSteady.matchAt?_newline h rfl), ← withReturns_concat_newline]
  exact hbehind

/-- The search finds the same matches from the same place on. -/
theorem isSteady.forall₂_matchesFrom (before after : List Char) (htext : text = before ++ after) :
    List.Forall₂ (Match.WithReturns text)
      (pattern.matchesFrom (between (withReturns before) (withReturns after)))
      (pattern.matchesFrom (between before after)) := by
  have hconsumes := isSteady.consumes h
  rcases isSteady.exists_tolerance h with ⟨front, hfront, -⟩
  -- The induction is on what is left, as a match may go on for any number of characters.
  induction hlength : after.length using Nat.strongRecOn generalizing before after with
  | _ n ih =>
      subst hlength
      have hmore {before' after' : List Char} (htext' : text = before' ++ after')
          (hless : after'.length < after.length) := ih after'.length hless before' after' htext' rfl
      rcases matchAt?_none_or_some hfront (.apart htext) with
        ⟨hnone', hnone⟩ | ⟨found', found, hsome', hsome, hfound⟩
      · cases after with
        | nil =>
            rw [matchesFrom_of_rest_eq_nil hconsumes rfl, matchesFrom_of_rest_eq_nil hconsumes rfl]
            exact .nil
        | cons c after =>
            have hnext := @hmore (before ++ [c]) after (by rw [htext, List.append_assoc]; rfl)
              (Nat.lt_succ_self _)
            by_cases hc : c = '\n'
            · subst hc
              rw [withReturns_cons_newline] at hnone' ⊢
              rw [matchesFrom_of_none hnone']
              exact isSteady.forall₂_halfway h hnext
            · rw [withReturns_cons hc] at hnone' ⊢
              rw [matchesFrom_of_none hnone', matchesFrom_of_none hnone, ← withReturns_concat hc]
              exact hnext
      · rw [matchesFrom_of_some hconsumes hsome', matchesFrom_of_some hconsumes hsome]
        have hless : found.stop.rest.length < after.length := length_rest_stop_lt hconsumes hsome
        refine .cons hfound ?_
        have hplace := hfound.stop
        generalize found'.stop = stop' at hplace ⊢
        generalize found.stop = stop at hplace hless ⊢
        -- A match that ends halfway leaves a newline, and no match starts there.
        cases hplace with
        | apart htext' => exact hmore htext' hless
        | halfway htext' =>
            refine isSteady.forall₂_halfway h (hmore ?_ (Nat.lt_of_succ_lt hless))
            rw [htext', List.append_assoc]
            rfl

/-- A steady pattern finds the same matches. -/
theorem isSteady.forall₂_findAll (text : List Char) :
    List.Forall₂ (Match.WithReturns text) (pattern.findAll (withReturns text))
      (pattern.findAll text) :=
  isSteady.forall₂_matchesFrom h [] text rfl

end Steady

end Pattern

/-! ## What is kept -/

namespace Pattern

variable {pattern : Pattern} {number : Nat}

/-- What the pattern keeps under the number lies in one line. -/
def KeepsInLine (pattern : Pattern) (number : Nat) : Prop :=
  ∃ front inner rear, pattern.row = front ++ group number inner :: rear ∧
    inner.keeps (.opening number) = false ∧
    (inRow rear).keeps (.opening number) = false ∧
    (inRow rear).keeps (.closing number) = false ∧ inner.SpansOnly EndsNoLine

theorem endsNoLine_of_allowed {allowed : Char → Bool}
    (h : allowed '\n' = false ∧ allowed '\r' = false) (c : Char) (hc : allowed c = true) :
    EndsNoLine c := by
  constructor
  · rintro rfl
    exact Bool.false_ne_true (h.1.symm.trans hc)
  · rintro rfl
    exact Bool.false_ne_true (h.2.symm.trans hc)

theorem KeepsInLine.endsNoLine (h : pattern.KeepsInLine number) {before after : List Char}
    {found : Match} (hfound : pattern.matchAt? (between before after) = some found) :
    ∀ c ∈ found.group number, EndsNoLine c := by
  rcases h with ⟨front, inner, rear, hrow, hinner, hopening, hclosing, honly⟩
  rcases exists_spans_of_matchAt? hrow hinner hopening hclosing hfound with
    ⟨_, _, _, _, _, hspans, _⟩
  exact hspans.forall_mem honly

-- The name is the last thing that a declared type keeps.
theorem keepsInLine_declaredType (keywords : List String) : (declaredType keywords).KeepsInLine 1 :=
  ⟨_, _, [], row_declaredType keywords, rfl, rfl, rfl, endsNoLine_of_allowed (by decide),
    endsNoLine_of_allowed (by decide)⟩

theorem KeepsInLine.group_eq (h : pattern.KeepsInLine number) {found' found : Match}
    (hfound' : found' ∈ pattern.findAll (withReturns text)) (hfound : found ∈ pattern.findAll text)
    (hsame : found'.WithReturns text found) : found'.group number = found.group number := by
  rcases exists_between_of_mem_findAll hfound' with ⟨_, _, _, hmatch'⟩
  rcases exists_between_of_mem_findAll hfound with ⟨_, _, _, hmatch⟩
  exact (hsame.part_group number).eq_of_endsNoLine (h.endsNoLine hmatch') (h.endsNoLine hmatch)

/-- What is the same for the same match is the same for all matches of a text. -/
theorem isSteady.map_findAll (h : pattern.isSteady = true) {α : Type} {kept : Match → α}
    (hkept : ∀ found' ∈ pattern.findAll (withReturns text), ∀ found ∈ pattern.findAll text,
      found'.WithReturns text found → kept found' = kept found) :
    (pattern.findAll (withReturns text)).map kept = (pattern.findAll text).map kept := by
  have hsame := isSteady.forall₂_findAll h text
  -- The two lists run in step, so the induction is on how they are related.
  generalize pattern.findAll (withReturns text) = list' at hkept hsame ⊢
  generalize pattern.findAll text = list at hkept hsame ⊢
  induction hsame with
  | nil => rfl
  | cons hfound _ ih =>
      rw [List.map_cons, List.map_cons,
        hkept _ List.mem_cons_self _ List.mem_cons_self hfound, ih fun found' hfound' found hmem =>
          hkept found' (List.mem_cons_of_mem _ hfound') found (List.mem_cons_of_mem _ hmem)]

end Pattern

/-- The types in what a steady pattern keeps are the same. -/
theorem foundTypes_withReturns {pattern : Pattern} (h : pattern.isSteady = true)
    (builtins : List String) (number : Nat) (text : List Char) :
    foundTypes builtins pattern number (withReturns text) =
      foundTypes builtins pattern number text := by
  have hmap := Pattern.isSteady.map_findAll h fun found' (_ : found' ∈ _) found
    (_ : found ∈ pattern.findAll text) hsame =>
      (hsame.part_group number).referencedTypes_eq builtins
  rw [foundTypes, foundTypes, List.flatMap_def, List.flatMap_def, hmap]

/-- The names that a steady pattern keeps are the same. -/
theorem foundNames_withReturns {pattern : Pattern} {number : Nat} (h : pattern.isSteady = true)
    (hkeeps : pattern.KeepsInLine number) (text : List Char) :
    foundNames pattern number (withReturns text) = foundNames pattern number text :=
  Pattern.isSteady.map_findAll h fun _ hfound' _ hfound hsame => by
    rw [hkeeps.group_eq hfound' hfound hsame]

end Chunking
