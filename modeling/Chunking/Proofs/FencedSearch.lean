import Chunking.Proofs.Places
import Mathlib.Data.List.Basic

/-!
# Searching on both sides of a fence

A pattern that a character stops cannot match across it. So the matches of a
text with such a character in it are those before it and those after it, and
neither side knows of the other.

What a pattern sees of a text that is part of a larger one is the same text at
another offset, with something before it and something behind it. `within` is
this change of view. It changes no way of a pattern, as long as what comes right
before and right behind is the fence: a literal does not go on into it, nor does
a stretch, and for the edge of a word it is as good as the end of the text.

A repetition needs more care. The number of its rounds is bounded by the rest of
the text, which is longer in the larger text. Where every round consumes
something the bound is never met, and so it does not matter.

The search itself has a bound on its rounds as well, and it collects matches in
reverse. Neither shows in what it finds. `matchesFrom_eq` is one round of it.

## Main definitions

* `Pattern.consumes`: The pattern matches no empty text.
* `Pattern.stopsAt`: The pattern does not match across a character.
* `Cursor.within`, `Match.within`: The same place, and the same match, in a
  larger text.
* `Pattern.matchesFrom`: The matches from a place on.

## Theorems

* `ways_within`: A pattern matches in the same ways within a larger text.
* `matchesFrom_eq`: One round of the search.
* `matchesFrom_of_none`, `matchesFrom_of_some`: Where the search goes on.
* `findAll_append_fence`: The matches of a text with a fence in it.
* `group_within`: What a match keeps is the same within a larger text.
-/

namespace Chunking

open Text

/-- The pattern matches no empty text. -/
def Pattern.consumes : Pattern → Bool
  | literal chars => !chars.isEmpty
  | one _ => true
  | seq first second => first.consumes || second.consumes
  | either first second => first.consumes && second.consumes
  | stretch _ _ | many _ | mark _ | wordEdge | lineStart | textStart | textEnd => false

/-- The pattern does not match across the character, and takes it for the end of
a word. -/
def Pattern.stopsAt (fence : Char) : Pattern → Bool
  | literal chars => !chars.contains fence
  | one allowed | stretch _ allowed => !allowed fence
  | seq first second | either first second => first.stopsAt fence && second.stopsAt fence
  | many round => round.stopsAt fence && round.consumes
  | mark _ => true
  | wordEdge => !isWord fence
  | lineStart | textStart | textEnd => false

/-! ## Places within a larger text -/

/-- The place in a larger text, which goes on in front and at the back. -/
def Cursor.within (front back : List Char) (cursor : Cursor) : Cursor where
  offset := byteLength front + cursor.offset
  before := cursor.before.or front.getLast?
  rest := cursor.rest ++ back

/-- The marks in a larger text. -/
def Marks.within (front back : List Char) (marks : Marks) : Marks :=
  marks.map fun mark => (mark.1, mark.2.within front back)

/-- The way in a larger text. -/
def Way.within (front back : List Char) (way : Way) : Way where
  stop := way.stop.within front back
  kept := Marks.within front back way.kept

/-- The match in a larger text. -/
def Match.within (front back : List Char) (found : Match) : Match where
  start := found.start.within front back
  stop := found.stop.within front back
  marks := Marks.within front back found.marks

theorem Cursor.within_between (front back before after : List Char) :
    (between before after).within front back = between (front ++ before) (after ++ back) := by
  simp [within, between, List.getLast?_append]

theorem Marks.lookup_within (front back : List Char) (edge : Mark) (marks : Marks) :
    (within front back marks).lookup edge =
      (List.lookup edge marks).map (Cursor.within front back) := by
  induction marks with
  | nil => rfl
  | cons mark marks ih =>
      rw [within, List.map_cons, List.lookup_cons, List.lookup_cons]
      split
      · rfl
      · exact ih

/-- The larger text goes on with the fence on both sides, or not at all. -/
structure Fenced (fence : Char) (front back : List Char) : Prop where
  last_front : ∀ c, front.getLast? = some c → c = fence
  head_back : ∀ c, back.head? = some c → c = fence

namespace Cursor

variable {fence : Char} {front back : List Char}

theorem advance_within {cursor : Cursor} (h : cursor.rest ≠ []) :
    (cursor.within front back).advance = cursor.advance.within front back := by
  rcases cursor with ⟨offset, before, _ | ⟨c, rest⟩⟩
  · exact absurd rfl h
  · simp [within, advance, Nat.add_assoc]

-- Where the smaller text ends comes the fence.
theorem head_rest_within (hfenced : Fenced fence front back) {cursor : Cursor}
    (h : cursor.rest = []) : ∀ c, (cursor.within front back).rest.head? = some c → c = fence := by
  intro c hc
  rw [within, h, List.nil_append] at hc
  exact hfenced.head_back c hc

theorem skip?_within (hfenced : Fenced fence front back) {chars : List Char}
    (h : fence ∉ chars) (cursor : Cursor) :
    (cursor.within front back).skip? chars =
      (cursor.skip? chars).map (within front back) := by
  induction chars generalizing cursor with
  | nil => rfl
  | cons expected more ih =>
      rw [List.mem_cons, not_or] at h
      unfold skip?
      cases hrest : cursor.rest with
      | nil =>
          have hhead := head_rest_within hfenced hrest
          cases hback : (cursor.within front back).rest with
          | nil => rfl
          | cons c rest =>
              rw [hback] at hhead
              have hne : c ≠ expected := fun heq => h.1 (heq ▸ (hhead c rfl).symm)
              simp [hne]
      | cons c rest =>
          have hwithin : (cursor.within front back).rest = c :: (rest ++ back) := by
            rw [within, hrest, List.cons_append]
          rw [hwithin]
          dsimp only
          split_ifs
          · rw [advance_within (by simp [hrest])]
            exact ih h.2 cursor.advance
          · rfl

theorem stretch_within (hfenced : Fenced fence front back) {allowed : Char → Bool}
    (h : allowed fence = false) (cursor : Cursor) :
    (cursor.within front back).stretch allowed =
      (cursor.stretch allowed).map (within front back) := by
  cases hrest : cursor.rest with
  | nil =>
      have hsmall : cursor.stretch allowed = [cursor] :=
        stretch_of_not_allowed (by simp [hrest])
      rw [hsmall, stretch_of_not_allowed]
      · rfl
      · intro c hc
        rw [head_rest_within hfenced hrest c hc]
        exact h
  | cons c rest =>
      have hwithin : (cursor.within front back).rest = c :: (rest ++ back) := by
        rw [within, hrest, List.cons_append]
      cases hc : allowed c with
      | false =>
          have hsmall : cursor.stretch allowed = [cursor] :=
            stretch_of_not_allowed (by simpa [hrest] using hc)
          rw [hsmall, stretch_of_not_allowed (by simpa [hwithin] using hc)]
          rfl
      | true =>
          have hless := length_rest_advance hrest
          rw [stretch_of_allowed hrest hc, stretch_of_allowed hwithin hc,
            advance_within (by simp [hrest]), stretch_within hfenced h cursor.advance,
            List.map_append]
          rfl
termination_by cursor.rest.length

theorem atWordEdge_within (hfenced : Fenced fence front back) (h : isWord fence = false)
    (cursor : Cursor) : (cursor.within front back).atWordEdge = cursor.atWordEdge := by
  have hbefore : isWordAt (cursor.before.or front.getLast?) = isWordAt cursor.before := by
    cases hcursor : cursor.before with
    | some c => rfl
    | none =>
        cases hlast : front.getLast? with
        | none => rfl
        | some c =>
            rw [hfenced.last_front c hlast]
            exact h
  have hafter : isWordAt (cursor.rest ++ back).head? = isWordAt cursor.rest.head? := by
    cases hrest : cursor.rest with
    | cons c rest => rfl
    | nil =>
        cases hhead : back.head? with
        | none => rw [List.nil_append, hhead]; rfl
        | some c =>
            rw [List.nil_append, hhead, hfenced.head_back c hhead]
            exact h
  rw [atWordEdge, atWordEdge, within, hbefore, hafter]

end Cursor

namespace Pattern

/-! ## Ways within a larger text -/

-- A place ahead has no more text behind it.
theorem length_rest_le_of_ahead {cursor place : Cursor} (h : cursor.Ahead place) :
    place.rest.length ≤ cursor.rest.length := by
  rcases h.exists_passed with ⟨passed, hrest, _⟩
  rw [hrest, List.length_append]
  exact Nat.le_add_left _ _

theorem length_rest_of_skip? {chars : List Char} {cursor place : Cursor}
    (h : cursor.skip? chars = some place) :
    place.rest.length + chars.length = cursor.rest.length := by
  induction chars generalizing cursor with
  | nil =>
      cases h
      rfl
  | cons expected more ih =>
      unfold Cursor.skip? at h
      split at h
      · cases h
      · rename_i c rest hrest
        split_ifs at h
        have hlength := ih h
        rw [Cursor.advance, hrest] at hlength
        rw [hrest, List.length_cons, List.length_cons, ← hlength]
        omega

/-- A pattern that consumes something leaves less of the text. -/
theorem length_rest_lt_of_consumes {pattern : Pattern} (h : pattern.consumes = true)
    {cursor : Cursor} {kept : Marks} {way : Way} (hway : way ∈ pattern.ways cursor kept) :
    way.stop.rest.length < cursor.rest.length := by
  induction pattern generalizing cursor kept way with
  | literal chars =>
      rcases List.mem_map.mp hway with ⟨stop, hstop, rfl⟩
      have hlength := length_rest_of_skip? (Option.mem_toList.mp hstop)
      have hpos : 0 < chars.length := by
        rw [List.length_pos_iff]
        simpa [consumes] using h
      dsimp only
      omega
  | one allowed =>
      unfold ways at hway
      split at hway
      · cases hway
      · rename_i c rest hrest
        split_ifs at hway
        · rw [List.mem_singleton.mp hway]
          exact Cursor.length_rest_advance hrest
        · cases hway
  | seq first second ihFirst ihSecond =>
      rcases List.mem_flatMap.mp hway with ⟨middle, hmiddle, hway⟩
      have hfirst := length_rest_le_of_ahead (ahead_of_mem_ways first cursor kept middle hmiddle)
      have hsecond := length_rest_le_of_ahead
        (ahead_of_mem_ways second middle.stop middle.kept way hway)
      rw [consumes, Bool.or_eq_true] at h
      rcases h with h | h
      · exact Nat.lt_of_le_of_lt hsecond (ihFirst h hmiddle)
      · exact Nat.lt_of_lt_of_le (ihSecond h hway) hfirst
  | either first second ihFirst ihSecond =>
      rw [consumes, Bool.and_eq_true] at h
      rcases List.mem_append.mp hway with hway | hway
      · exact ihFirst h.1 hway
      · exact ihSecond h.2 hway
  | stretch | many | mark | wordEdge | lineStart | textStart | textEnd => cases h

-- At the end of the text there is nothing to consume.
theorem ways_eq_nil_of_consumes {pattern : Pattern} (h : pattern.consumes = true)
    {cursor : Cursor} (hrest : cursor.rest.length ≤ 0) (kept : Marks) :
    pattern.ways cursor kept = [] := by
  refine List.eq_nil_iff_forall_not_mem.mpr fun way hway => ?_
  have := length_rest_lt_of_consumes h hway
  omega

variable {fence : Char} {front back : List Char}

-- No bound that the rest of the text serves for is met, so two such bounds give
-- the same ways.
theorem waysOfRounds_within {round : Pattern} (hround : round.consumes = true)
    (ih : ∀ cursor kept, round.ways (cursor.within front back) (Marks.within front back kept) =
      (round.ways cursor kept).map (Way.within front back))
    (bound bound' : List Char) (cursor : Cursor) (kept : Marks)
    (hbound : cursor.rest.length ≤ bound.length) (hbound' : cursor.rest.length ≤ bound'.length) :
    waysOfRounds round.ways bound (cursor.within front back) (Marks.within front back kept) =
      (waysOfRounds round.ways bound' cursor kept).map (Way.within front back) := by
  induction bound generalizing bound' cursor kept with
  | nil =>
      have hend := ways_eq_nil_of_consumes hround hbound kept
      cases bound' with
      | nil => rfl
      | cons _ bound' => rw [waysOfRounds, waysOfRounds, hend]; rfl
  | cons _ bound ihBound =>
      cases bound' with
      | nil =>
          have hend := ways_eq_nil_of_consumes hround hbound' kept
          rw [waysOfRounds, waysOfRounds, ih, hend]
          rfl
      | cons _ bound' =>
          rw [waysOfRounds, waysOfRounds, ih, List.map_append, List.map_flatMap, List.flatMap_map]
          refine congrArg (· ++ _) (List.flatMap_congr fun way hway => ?_)
          have hless := length_rest_lt_of_consumes hround hway
          rw [List.length_cons] at hbound hbound'
          exact ihBound bound' way.stop way.kept (by omega) (by omega)

/-- A pattern matches in the same ways within a larger text, if it stops at what
comes right before and right behind. -/
theorem ways_within (hfenced : Fenced fence front back) {pattern : Pattern}
    (h : pattern.stopsAt fence = true) (cursor : Cursor) (kept : Marks) :
    pattern.ways (cursor.within front back) (Marks.within front back kept) =
      (pattern.ways cursor kept).map (Way.within front back) := by
  induction pattern generalizing cursor kept with
  | literal chars =>
      have hfence : fence ∉ chars := by
        simpa [stopsAt] using h
      simp only [ways, Cursor.skip?_within hfenced hfence]
      cases cursor.skip? chars <;> rfl
  | one allowed =>
      have hfence : allowed fence = false := by
        simpa [stopsAt] using h
      unfold ways
      cases hrest : cursor.rest with
      | nil =>
          have hhead := Cursor.head_rest_within hfenced hrest
          cases hback : (cursor.within front back).rest with
          | nil => rfl
          | cons c rest =>
              have hc : allowed c = false := by
                rw [hhead c (by rw [hback]; rfl)]
                exact hfence
              simp [hc]
      | cons c rest =>
          have hwithin : (cursor.within front back).rest = c :: (rest ++ back) := by
            rw [Cursor.within, hrest, List.cons_append]
          rw [hwithin]
          dsimp only
          split_ifs
          · rw [Cursor.advance_within (by simp [hrest])]
            rfl
          · rfl
  | stretch eager allowed =>
      have hfence : allowed fence = false := by
        simpa [stopsAt] using h
      simp only [ways, Cursor.stretch_within hfenced hfence]
      cases eager
      · simp [← List.map_reverse, Way.within, Function.comp_def]
      · simp [Way.within, Function.comp_def]
  | seq first second ihFirst ihSecond =>
      rw [stopsAt, Bool.and_eq_true] at h
      rw [ways, ways, ihFirst h.1, List.flatMap_map, List.map_flatMap]
      exact List.flatMap_congr fun way _ => ihSecond h.2 way.stop way.kept
  | either first second ihFirst ihSecond =>
      rw [stopsAt, Bool.and_eq_true] at h
      rw [ways, ways, ihFirst h.1, ihSecond h.2, List.map_append]
  | many round ih =>
      rw [stopsAt, Bool.and_eq_true] at h
      refine waysOfRounds_within h.2 (ih h.1) _ _ cursor kept ?_ (Nat.le_refl _)
      rw [Cursor.within, List.length_append]
      exact Nat.le_add_right _ _
  | mark edge => rfl
  | wordEdge =>
      have hfence : isWord fence = false := by
        simpa [stopsAt] using h
      rw [ways, ways, Cursor.atWordEdge_within hfenced hfence]
      split_ifs <;> rfl
  | lineStart | textStart | textEnd => cases h

theorem matchAt?_within (hfenced : Fenced fence front back) {pattern : Pattern}
    (h : pattern.stopsAt fence = true) (cursor : Cursor) :
    pattern.matchAt? (cursor.within front back) =
      (pattern.matchAt? cursor).map (Match.within front back) := by
  have hways := ways_within hfenced h cursor []
  rw [Marks.within, List.map_nil] at hways
  rw [matchAt?_eq, matchAt?_eq, hways, List.head?_map, Option.map_map, Option.map_map]
  rfl

/-! ## Searching -/

variable {pattern : Pattern}

/-- The matches from a place on. -/
def matchesFrom (pattern : Pattern) (cursor : Cursor) : List Match :=
  pattern.findAllFrom [] cursor.rest cursor

/-- The place where the search goes on after a match. -/
def onward (cursor : Cursor) (found : Match) : Cursor :=
  if cursor.offset < found.stop.offset then found.stop else cursor.advance

theorem findAllFrom_cons (newestFirst : List Match) (b : Char) (bound : List Char)
    (cursor : Cursor) :
    pattern.findAllFrom newestFirst (b :: bound) cursor =
      match pattern.matchAt? cursor with
      | some found =>
        if found.stop.rest = [] then (found :: newestFirst).reverse
        else pattern.findAllFrom (found :: newestFirst) bound (onward cursor found)
      | none =>
        if cursor.rest = [] then newestFirst.reverse
        else pattern.findAllFrom newestFirst bound cursor.advance := by
  rw [findAllFrom]
  cases pattern.matchAt? cursor <;> simp [onward]

-- What has been found already comes first.
theorem findAllFrom_eq_append (newestFirst : List Match) (bound : List Char) (cursor : Cursor) :
    pattern.findAllFrom newestFirst bound cursor =
      newestFirst.reverse ++ pattern.findAllFrom [] bound cursor := by
  induction bound generalizing newestFirst cursor with
  | nil => simp [findAllFrom]
  | cons _ bound ih =>
      rw [findAllFrom_cons, findAllFrom_cons]
      cases pattern.matchAt? cursor with
      | none =>
          dsimp only
          split_ifs
          · simp
          · exact ih newestFirst _
      | some found =>
          dsimp only
          split_ifs
          · simp
          · rw [ih (found :: newestFirst), ih [found]]
            simp

theorem length_rest_onward {cursor : Cursor} {found : Match}
    (h : pattern.matchAt? cursor = some found) (hrest : found.stop.rest ≠ []) :
    (onward cursor found).rest.length < cursor.rest.length := by
  have hahead := ahead_stop_of_matchAt? h
  have hle := length_rest_le_of_ahead hahead
  unfold onward
  rcases hcursor : cursor.rest with _ | ⟨c, rest⟩
  · rw [hcursor, List.length_nil, Nat.le_zero, List.length_eq_zero_iff] at hle
    exact absurd hle hrest
  · rw [← hcursor]
    split_ifs with hlt
    · rcases hahead with ⟨n, hn⟩
      cases n with
      | zero => exact absurd hlt (by rw [hn]; exact Nat.lt_irrefl _)
      | succ n =>
          have hafter : cursor.advance.Ahead found.stop := ⟨n, hn⟩
          exact Nat.lt_of_le_of_lt (length_rest_le_of_ahead hafter)
            (Cursor.length_rest_advance hcursor)
    · exact Cursor.length_rest_advance hcursor

theorem rest_stop_of_rest_eq_nil {cursor : Cursor} {found : Match}
    (h : pattern.matchAt? cursor = some found) (hrest : cursor.rest = []) :
    found.stop.rest = [] := by
  have hle := length_rest_le_of_ahead (ahead_stop_of_matchAt? h)
  rw [hrest] at hle
  exact List.length_eq_zero_iff.mp (Nat.le_zero.mp hle)

-- At the end of the text there is at most a match that consumes nothing.
theorem findAllFrom_of_rest_eq_nil (bound : List Char) {cursor : Cursor} (h : cursor.rest = []) :
    pattern.findAllFrom [] bound cursor = (pattern.matchAt? cursor).toList := by
  cases bound with
  | nil =>
      rw [findAllFrom, List.append_nil]
      cases pattern.matchAt? cursor <;> rfl
  | cons _ bound =>
      rw [findAllFrom_cons]
      cases hmatch : pattern.matchAt? cursor with
      | none => exact if_pos h
      | some found => exact if_pos (rest_stop_of_rest_eq_nil hmatch h)

-- The bound on the rounds of the search is never met.
theorem findAllFrom_congr (bound bound' : List Char) (cursor : Cursor)
    (hbound : cursor.rest.length ≤ bound.length) (hbound' : cursor.rest.length ≤ bound'.length) :
    pattern.findAllFrom [] bound cursor = pattern.findAllFrom [] bound' cursor := by
  induction bound generalizing bound' cursor with
  | nil =>
      have hrest : cursor.rest = [] := List.length_eq_zero_iff.mp (Nat.le_zero.mp hbound)
      rw [findAllFrom_of_rest_eq_nil _ hrest, findAllFrom_of_rest_eq_nil _ hrest]
  | cons _ bound ih =>
      cases bound' with
      | nil =>
          have hrest : cursor.rest = [] := List.length_eq_zero_iff.mp (Nat.le_zero.mp hbound')
          rw [findAllFrom_of_rest_eq_nil _ hrest, findAllFrom_of_rest_eq_nil _ hrest]
      | cons _ bound' =>
          rw [List.length_cons] at hbound hbound'
          rw [findAllFrom_cons, findAllFrom_cons]
          cases hmatch : pattern.matchAt? cursor with
          | none =>
              by_cases hrest : cursor.rest = []
              · rw [if_pos hrest, if_pos hrest]
              · rcases List.exists_cons_of_ne_nil hrest with ⟨c, rest, hcons⟩
                have hless := Cursor.length_rest_advance hcons
                rw [if_neg hrest, if_neg hrest]
                exact ih bound' _ (by omega) (by omega)
          | some found =>
              dsimp only
              by_cases hstop : found.stop.rest = []
              · rw [if_pos hstop, if_pos hstop]
              · have hless := length_rest_onward hmatch hstop
                rw [if_neg hstop, if_neg hstop, findAllFrom_eq_append,
                  findAllFrom_eq_append [found] bound', ih bound' _ (by omega) (by omega)]

/-- One round of the search. -/
theorem matchesFrom_eq (cursor : Cursor) :
    pattern.matchesFrom cursor =
      match pattern.matchAt? cursor with
      | some found =>
        found :: if found.stop.rest = [] then [] else pattern.matchesFrom (onward cursor found)
      | none => if cursor.rest = [] then [] else pattern.matchesFrom cursor.advance := by
  -- One more round than the rest of the text allows for makes no difference.
  have hmore : pattern.matchesFrom cursor = pattern.findAllFrom [] (' ' :: cursor.rest) cursor :=
    findAllFrom_congr _ _ _ (Nat.le_refl _) (Nat.le_succ _)
  rw [hmore, findAllFrom_cons]
  cases hmatch : pattern.matchAt? cursor with
  | none =>
      by_cases hrest : cursor.rest = []
      · rw [if_pos hrest]
        exact (if_pos hrest).symm
      · rcases List.exists_cons_of_ne_nil hrest with ⟨c, rest, hcons⟩
        have hless := Cursor.length_rest_advance hcons
        dsimp only
        rw [if_neg hrest, if_neg hrest]
        exact findAllFrom_congr _ _ _ (Nat.le_of_lt hless) (Nat.le_refl _)
  | some found =>
      by_cases hstop : found.stop.rest = []
      · simp [hstop]
      · have hless := length_rest_onward hmatch hstop
        dsimp only
        rw [if_neg hstop, if_neg hstop, findAllFrom_eq_append]
        exact congrArg (found :: ·)
          (findAllFrom_congr _ _ _ (Nat.le_of_lt hless) (Nat.le_refl _))

theorem matchAt?_of_rest_eq_nil (h : pattern.consumes = true) {cursor : Cursor}
    (hrest : cursor.rest = []) : pattern.matchAt? cursor = none := by
  rw [matchAt?_eq, ways_eq_nil_of_consumes h (by simp [hrest])]
  rfl

theorem matchesFrom_of_rest_eq_nil (h : pattern.consumes = true) {cursor : Cursor}
    (hrest : cursor.rest = []) : pattern.matchesFrom cursor = [] := by
  rw [matchesFrom_eq, matchAt?_of_rest_eq_nil h hrest]
  exact if_pos hrest

-- A match that consumes something ends behind its start.
theorem length_rest_stop_lt (h : pattern.consumes = true) {cursor : Cursor} {found : Match}
    (hfound : pattern.matchAt? cursor = some found) :
    found.stop.rest.length < cursor.rest.length := by
  rcases exists_way_of_matchAt? hfound with ⟨way, hway, rfl⟩
  exact length_rest_lt_of_consumes h hway

theorem onward_of_consumes (h : pattern.consumes = true) {cursor : Cursor} {found : Match}
    (hfound : pattern.matchAt? cursor = some found) : onward cursor found = found.stop := by
  have hless := length_rest_stop_lt h hfound
  rcases (ahead_stop_of_matchAt? hfound).exists_passed with ⟨passed, hrest, hoffset, -⟩
  refine if_pos ?_
  cases passed with
  | nil =>
      rw [List.nil_append] at hrest
      rw [hrest] at hless
      exact absurd hless (Nat.lt_irrefl _)
  | cons c passed =>
      have hpos := c.utf8Size_pos
      rw [byteLength_cons] at hoffset
      omega

/-- Without a match the search goes on behind the next character. -/
theorem matchesFrom_of_none {before after : List Char} {c : Char}
    (hnone : pattern.matchAt? (Cursor.between before (c :: after)) = none) :
    pattern.matchesFrom (Cursor.between before (c :: after)) =
      pattern.matchesFrom (Cursor.between (before ++ [c]) after) := by
  rw [matchesFrom_eq, hnone, ← Cursor.advance_between]
  exact if_neg (List.cons_ne_nil c after)

/-- Behind a match that consumes something the search goes on at its end. -/
theorem matchesFrom_of_some (h : pattern.consumes = true) {cursor : Cursor} {found : Match}
    (hfound : pattern.matchAt? cursor = some found) :
    pattern.matchesFrom cursor = found :: pattern.matchesFrom found.stop := by
  rw [matchesFrom_eq, hfound]
  dsimp only
  rw [onward_of_consumes h hfound]
  split_ifs with hrest
  · rw [matchesFrom_of_rest_eq_nil h hrest]
  · rfl

/-- Behind a fence the search goes on as from the start of a text. -/
theorem matchesFrom_behind (hstops : pattern.stopsAt fence = true)
    (hfenced : Fenced fence front []) (cursor : Cursor) :
    pattern.matchesFrom (cursor.within front []) =
      (pattern.matchesFrom cursor).map (Match.within front []) := by
  induction hlength : cursor.rest.length using Nat.strongRecOn generalizing cursor with
  | _ n ih =>
      subst hlength
      have hrest (place : Cursor) : (place.within front []).rest = place.rest :=
        List.append_nil _
      rw [matchesFrom_eq, matchesFrom_eq cursor, matchAt?_within hfenced hstops]
      cases hmatch : pattern.matchAt? cursor with
      | none =>
          simp only [Option.map_none, hrest]
          by_cases hcursor : cursor.rest = []
          · rw [if_pos hcursor, if_pos hcursor, List.map_nil]
          · rcases List.exists_cons_of_ne_nil hcursor with ⟨c, rest, hcons⟩
            rw [if_neg hcursor, if_neg hcursor, Cursor.advance_within hcursor]
            exact ih _ (Cursor.length_rest_advance hcons) _ rfl
      | some found =>
          simp only [Option.map_some, Match.within, hrest, List.map_cons]
          by_cases hstop : found.stop.rest = []
          · rw [if_pos hstop, if_pos hstop, List.map_nil]
          · have hless := length_rest_onward hmatch hstop
            have hcursor : cursor.rest ≠ [] := fun h => by simp [h] at hless
            have honward : onward (cursor.within front []) (found.within front []) =
                (onward cursor found).within front [] := by
              unfold onward
              rw [Cursor.advance_within hcursor]
              simp only [Match.within, Cursor.within, Nat.add_lt_add_iff_left]
              split_ifs <;> rfl
            rw [if_neg hstop, if_neg hstop, ← ih _ hless _ rfl, ← honward]
            rfl

/-- Up to a fence the search finds what it finds in the text before it, and then
it goes on behind the fence. -/
theorem matchesFrom_upTo (hconsumes : pattern.consumes = true)
    (hstops : pattern.stopsAt fence = true) (before after second : List Char) :
    pattern.matchesFrom (Cursor.between before (after ++ fence :: second)) =
      (pattern.matchesFrom (Cursor.between before after)).map
          (Match.within [] (fence :: second)) ++
        pattern.matchesFrom (Cursor.between (before ++ after ++ [fence]) second) := by
  have hfenced : Fenced fence [] (fence :: second) := by
    constructor
    · intro c hc
      cases hc
    · intro c hc
      cases hc
      rfl
  -- Every round of the search leaves less of the text before the fence.
  induction hlength : after.length using Nat.strongRecOn generalizing before after with
  | _ n ih =>
      subst hlength
      have hmatch' : pattern.matchAt? (Cursor.between before (after ++ fence :: second)) =
          (pattern.matchAt? (Cursor.between before after)).map
            (Match.within [] (fence :: second)) := by
        rw [← matchAt?_within hfenced hstops, Cursor.within_between, List.nil_append]
      cases hmatch : pattern.matchAt? (Cursor.between before after) with
      | none =>
          rw [hmatch, Option.map_none] at hmatch'
          cases after with
          | nil =>
              -- The search has come to the fence.
              have hnone : pattern.matchesFrom (Cursor.between before []) = [] :=
                matchesFrom_of_rest_eq_nil hconsumes rfl
              rw [List.nil_append] at hmatch' ⊢
              rw [hnone, matchesFrom_of_none hmatch', List.append_nil]
              rfl
          | cons c after =>
              rw [List.cons_append] at hmatch' ⊢
              rw [matchesFrom_of_none hmatch', matchesFrom_of_none hmatch,
                ih _ (Nat.lt_succ_self _) _ _ rfl]
              simp
      | some found =>
          rw [hmatch, Option.map_some] at hmatch'
          rcases Cursor.exists_between_of_ahead (ahead_stop_of_matchAt? hmatch) with
            ⟨passed, rest, rfl, hplace⟩
          have hless : rest.length < (passed ++ rest).length := by
            have hstop := length_rest_stop_lt hconsumes hmatch
            rwa [hplace] at hstop
          have hstop : (found.within [] (fence :: second)).stop =
              Cursor.between (before ++ passed) (rest ++ fence :: second) := by
            rw [Match.within, hplace]
            exact Cursor.within_between [] (fence :: second) (before ++ passed) rest
          rw [matchesFrom_of_some hconsumes hmatch', matchesFrom_of_some hconsumes hmatch, hstop,
            hplace, ih _ hless _ _ rfl, List.map_cons, List.cons_append, List.append_assoc before]

/-- The matches of a text with a fence in it are those before the fence and those
behind it. -/
theorem findAll_append_fence (hconsumes : pattern.consumes = true)
    (hstops : pattern.stopsAt fence = true) (first second : List Char) :
    pattern.findAll (first ++ fence :: second) =
      (pattern.findAll first).map (Match.within [] (fence :: second)) ++
        (pattern.findAll second).map (Match.within (first ++ [fence]) []) := by
  have hfenced : Fenced fence (first ++ [fence]) [] := by
    constructor
    · intro c hc
      simpa using hc.symm
    · intro c hc
      cases hc
  have hbehind := matchesFrom_behind hstops hfenced (Cursor.between [] second)
  rw [Cursor.within_between, List.append_nil, List.append_nil] at hbehind
  exact (matchesFrom_upTo hconsumes hstops [] first second).trans (congrArg (_ ++ ·) hbehind)

end Pattern

/-! ## What is kept -/

/-- What lies between two places does not depend on what is around them. -/
theorem Cursor.textUpTo_within (front back : List Char) {origin start stop : Cursor}
    (hstart : origin.Ahead start) (hstop : origin.Ahead stop) :
    (start.within front back).textUpTo (stop.within front back) = start.textUpTo stop := by
  have hcount : (stop.within front back).offset - (start.within front back).offset =
      stop.offset - start.offset :=
    Nat.add_sub_add_left _ _ _
  rw [textUpTo, textUpTo, hcount]
  rcases Nat.le_total start.offset stop.offset with hle | hle
  · rcases (hstart.of_offset_le hstop hle).exists_passed with ⟨passed, hrest, hoffset, _⟩
    have hpassed : byteLength passed = stop.offset - start.offset := by
      omega
    rw [takeBytes?_eq_some_iff.mpr ⟨stop.rest, hrest, hpassed⟩,
      takeBytes?_eq_some_iff.mpr ⟨stop.rest ++ back, by simp [within, hrest], hpassed⟩]
  · -- Places in the wrong order have nothing between them.
    have hnone (text : List Char) : takeBytes? text 0 = some [] :=
      takeBytes?_eq_some_iff.mpr ⟨text, rfl, rfl⟩
    rw [Nat.sub_eq_zero_of_le hle, hnone, hnone]

/-- What a match keeps is the same within a larger text. -/
theorem Match.group_within (front back : List Char) {pattern : Pattern} {text : List Char}
    {found : Match} (h : found ∈ pattern.findAll text) (number : Nat) :
    (found.within front back).group number = found.group number := by
  rcases Pattern.exists_between_of_mem_findAll h with ⟨before, after, _, hmatch⟩
  rcases Pattern.exists_way_of_matchAt? hmatch with ⟨way, hway, rfl⟩
  have hahead {edge : Mark} {place : Cursor} (hlookup : List.lookup edge way.kept = some place) :
      (Cursor.between before after).Ahead place := by
    rcases List.lookup_eq_some_iff.mp hlookup with ⟨later, earlier, hkept, _⟩
    have hmem : (edge, place) ∈ way.kept := by
      simp [hkept]
    exact (Pattern.ahead_of_mem_kept pattern _ [] way hway _ hmem).resolve_left List.not_mem_nil
  have hgroup : (Match.within front back ⟨Cursor.between before after, way.stop, way.kept⟩).group?
      number = Match.group? ⟨Cursor.between before after, way.stop, way.kept⟩ number := by
    simp only [group?, Match.within, Marks.lookup_within]
    cases hstart : List.lookup (.opening number) way.kept with
    | none => rfl
    | some start =>
        cases hstop : List.lookup (.closing number) way.kept with
        | none => rfl
        | some stop =>
            exact congrArg some (Cursor.textUpTo_within front back (hahead hstart) (hahead hstop))
  rw [group, group, hgroup]

end Chunking
