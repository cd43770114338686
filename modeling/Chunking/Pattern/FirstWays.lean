import Chunking.Pattern.Basic

/-!
# The first ways

All the ways of a pattern can be too many to list: three repetitions in a row
that may share a stretch of white space have as many ways as there are ways to
share it. What can follow a way depends on the place it leads to and on
nothing else, so of several ways to one place only the first can be the match
in the end.

`firstWays` takes all the ways that have led so far one pattern further, and it
leaves out ways that lead where an earlier one has led. They arise where
stretches overlap. A stretch that starts inside the one listed before adds no
place, and one that runs into it adds the places up to there. So the work for
a row of stretches is proportional to the text they cover.

Two lists of ways are `Alike` if every test on places picks the same way from
both as the first that passes. All that comes after a way is such a test, and
so what is left out can be dealt with where it is left out.

## Main definitions

* `Stretches`: The ways over stretches, and which stretch was listed last.
* `stretchAll`: The ways on from several ways over stretches.
* `Pattern.firstWays`: The ways on from several ways, but for repetitions.
* `Alike`: No test on places tells the lists apart.

## Theorems

* `alike_firstWays`: The first ways and all the ways are alike.
* `head?_firstWays`: The first of them is the first of all ways.
-/

namespace Chunking

/-- The stretch listed last, by the offsets of its ends. -/
structure Listed where
  nearest : Nat
  farthest : Nat

/-- The ways over stretches of characters of one kind. -/
structure Stretches where
  /-- The stretch listed last. -/
  last : Option Listed := none
  /-- The ways, the latest one first. -/
  newestFirst : List Way := []

/-- Whether a stretch from an offset would add no place. -/
def Stretches.covers (stretches : Stretches) (offset : Nat) : Bool :=
  match stretches.last with
  | none => false
  | some last => last.nearest ≤ offset && offset ≤ last.farthest

/-- Add the places of the stretch from the place of a way, but for those that
the stretch listed last has added. -/
def Stretches.add (eager : Bool) (allowed : Char → Bool) (stretches : Stretches) (way : Way) :
    Stretches :=
  if stretches.covers way.stop.offset then stretches
  else
    let (places, reached) := way.stop.stretchShort allowed (stretches.last.map Listed.nearest)
    let farthest :=
      match reached, stretches.last with
      | true, some last => last.farthest
      | _, _ => (places.head?.getD way.stop).offset
    { last := some ⟨way.stop.offset, farthest⟩
      newestFirst :=
        (if eager then places else places.reverse).foldl
          (fun ways stop => ⟨stop, way.kept⟩ :: ways) stretches.newestFirst }

/-- The ways on from several ways over characters of one kind. -/
def stretchAll (eager : Bool) (allowed : Char → Bool) (ways : List Way) : List Way :=
  (ways.foldl (Stretches.add eager allowed) {}).newestFirst.reverse

/-- The ways on from several ways, in order, where those may be left out that
lead where an earlier one leads. -/
def Pattern.firstWays : Pattern → List Way → List Way
  | .seq first second, ways => second.firstWays (first.firstWays ways)
  | .either first second, ways =>
    ways.flatMap fun way => first.firstWays [way] ++ second.firstWays [way]
  | .stretch eager allowed, ways => stretchAll eager allowed ways
  | pattern, ways => ways.flatMap fun way => pattern.ways way.stop way.kept

/-- The first way that leads to a place with an accepted offset. -/
def firstTo? (accepts : Nat → Bool) (ways : List Way) : Option Way :=
  ways.find? fun way => accepts way.stop.offset

/-- No test on places tells the lists apart by the first way that passes it. -/
def Alike (ways others : List Way) : Prop :=
  ∀ accepts : Nat → Bool, firstTo? accepts ways = firstTo? accepts others

/-- Lists that are alike are alike to a third one. -/
theorem Alike.trans {first second third : List Way} (h₁ : Alike first second)
    (h₂ : Alike second third) : Alike first third :=
  fun accepts => (h₁ accepts).trans (h₂ accepts)

/-- Putting lists together keeps them alike. -/
theorem Alike.append {ways others ways' others' : List Way} (h : Alike ways others)
    (h' : Alike ways' others') : Alike (ways ++ ways') (others ++ others') := by
  intro accepts
  have hfirst := h accepts
  have hsecond := h' accepts
  rw [firstTo?, firstTo?] at hfirst hsecond
  rw [firstTo?, firstTo?, List.find?_append, List.find?_append, hfirst, hsecond]

/-- Ways on that are alike from each way are alike. -/
theorem alike_flatMap {ways : List Way} {onward onward' : Way → List Way}
    (h : ∀ way ∈ ways, Alike (onward way) (onward' way)) :
    Alike (ways.flatMap onward) (ways.flatMap onward') := by
  induction ways with
  | nil => exact fun _ => rfl
  | cons way rest ih =>
    rw [List.flatMap_cons, List.flatMap_cons]
    exact (h way List.mem_cons_self).append
      (ih fun other hother => h other (List.mem_cons_of_mem way hother))

/-- Ways may be left out behind ways to the same places. -/
theorem firstTo?_append_of_subset (accepts : Nat → Bool) {before more : List Way}
    (after : List Way)
    (h : ∀ way ∈ more, ∃ earlier ∈ before, earlier.stop = way.stop) :
    firstTo? accepts (before ++ (more ++ after)) = firstTo? accepts (before ++ after) := by
  simp only [firstTo?, List.find?_append]
  cases hmore : more.find? fun way => accepts way.stop.offset with
  | none => rfl
  | some way =>
    obtain ⟨earlier, hearlier, hsame⟩ := h way (List.mem_of_find?_eq_some hmore)
    have hsome : (before.find? fun way => accepts way.stop.offset).isSome = true := by
      refine List.find?_isSome.2 ⟨earlier, hearlier, ?_⟩
      rw [hsame]
      exact List.find?_some (p := fun way : Way => accepts way.stop.offset) hmore
    rw [Option.or_of_isSome hsome, Option.or_of_isSome hsome]

/-- Every place of the stretch listed last is listed. `origin` is a place before
all of them. -/
def Stretches.Sound (origin : Cursor) (allowed : Char → Bool) (stretches : Stretches) : Prop :=
  ∀ last ∈ stretches.last, ∃ start, origin.Ahead start ∧ start.offset = last.nearest ∧
    (∃ stop ∈ start.stretch allowed, stop.offset = last.farthest) ∧
    ∀ place ∈ start.stretch allowed, ∃ way ∈ stretches.newestFirst, way.stop = place

/-- A covered stretch is listed. -/
theorem Stretches.Sound.of_covers {origin : Cursor} {allowed : Char → Bool}
    {stretches : Stretches} (h : stretches.Sound origin allowed) {cursor : Cursor}
    (hcursor : origin.Ahead cursor) (hcovers : stretches.covers cursor.offset = true) :
    ∀ place ∈ cursor.stretch allowed, ∃ way ∈ stretches.newestFirst, way.stop = place := by
  rw [Stretches.covers] at hcovers
  split at hcovers
  · contradiction
  · rename_i last hlast
    rw [Bool.and_eq_true, decide_eq_true_eq, decide_eq_true_eq] at hcovers
    obtain ⟨start, hstart, hnearest, ⟨stop, hstop, hfarthest⟩, hlisted⟩ := h last hlast
    have hinside : cursor ∈ start.stretch allowed :=
      Cursor.mem_stretch_of_offset_le
        (hstart.of_offset_le hcursor (by omega)) hstop (by omega)
    exact fun place hplace => hlisted place (Cursor.mem_stretch_trans hinside hplace)

/-- Putting ways in front of others one by one. -/
theorem foldl_cons_way (kept : Marks) (places : List Cursor) (newestFirst : List Way) :
    places.foldl (fun ways stop => (⟨stop, kept⟩ : Way) :: ways) newestFirst =
      (places.map fun stop => (⟨stop, kept⟩ : Way)).reverse ++ newestFirst := by
  induction places generalizing newestFirst with
  | nil => rfl
  | cons place rest ih => simp [ih]

/-- Adding the stretch of a way: the ways are those of the stretch but for some
that are listed already, and the stretch counts as the one listed last. -/
theorem Stretches.add_spec {origin : Cursor} (eager : Bool) {allowed : Char → Bool}
    {stretches : Stretches} (h : stretches.Sound origin allowed) {way : Way}
    (hway : origin.Ahead way.stop) :
    (stretches.add eager allowed way).Sound origin allowed ∧
      ∀ accepts after, firstTo? accepts
          ((stretches.add eager allowed way).newestFirst.reverse ++ after) =
        firstTo? accepts (stretches.newestFirst.reverse ++
          ((Pattern.stretch eager allowed).ways way.stop way.kept ++ after)) := by
  by_cases hcovers : stretches.covers way.stop.offset = true
  · -- Nothing is added, and nothing is missed: all places of the stretch are listed.
    rw [Stretches.add, if_pos hcovers]
    refine ⟨h, fun accepts after => ?_⟩
    rw [firstTo?_append_of_subset]
    intro onward honward
    obtain ⟨place, hplace, rfl⟩ := List.mem_map.1 honward
    have hmem : place ∈ way.stop.stretch allowed := by
      cases eager
      · exact List.mem_reverse.1 hplace
      · exact hplace
    obtain ⟨earlier, hearlier, hsame⟩ := h.of_covers hway hcovers place hmem
    exact ⟨earlier, List.mem_reverse.2 hearlier, hsame⟩
  · rw [Stretches.add, if_neg hcovers]
    rcases hshort : way.stop.stretchShort allowed (stretches.last.map Listed.nearest) with
      ⟨places, reached⟩
    have hmem (place : Cursor) : (place ∈ if eager = true then places else places.reverse) ↔
        place ∈ places := by
      cases eager <;> simp
    cases reached with
    | false =>
      -- The stretch keeps clear of the last one, so all of its places are added.
      have hall := Cursor.stretch_eq_of_not_reached hshort
      dsimp only
      rw [foldl_cons_way]
      constructor
      · intro last hlast
        cases hlast
        refine ⟨way.stop, hway, rfl, ?_, ?_⟩
        · cases hplaces : places with
          | nil =>
            have := Cursor.mem_stretch_self allowed way.stop
            rw [hall, hplaces] at this
            contradiction
          | cons place rest => exact ⟨place, by rw [hall, hplaces]; exact List.mem_cons_self, rfl⟩
        · intro place hplace
          rw [hall] at hplace
          refine ⟨⟨place, way.kept⟩, List.mem_append_left _ (List.mem_reverse.2 ?_), rfl⟩
          exact List.mem_map.2 ⟨place, (hmem place).2 hplace, rfl⟩
      · intro accepts after
        rw [List.reverse_append, List.reverse_reverse, List.append_assoc, Pattern.ways, hall]
    | true =>
      -- The stretch runs into the last one at `joint`, and it goes on as that one does.
      obtain ⟨joint, hjoint, hlimit, hall⟩ := Cursor.stretch_eq_of_reached hshort
      cases hlast : stretches.last with
      | none =>
        rw [hlast] at hlimit
        contradiction
      | some last =>
        rw [hlast] at hlimit
        have hoffset : last.nearest = joint.offset := Option.some.inj hlimit
        obtain ⟨start, hstart, hnearest, ⟨stop, hstop, hfarthest⟩, hlisted⟩ := h last hlast
        -- A place ahead of `origin` is known by its offset.
        have hsame : joint = start :=
          (hway.trans (Cursor.ahead_of_mem_stretch hjoint)).eq_of_offset_eq hstart (by omega)
        rw [hsame] at hall
        dsimp only
        rw [foldl_cons_way]
        have hfront (place : Cursor) (hplace : place ∈ start.stretch allowed) :
            ∃ earlier ∈ stretches.newestFirst.reverse, earlier.stop = place := by
          obtain ⟨earlier, hearlier, heq⟩ := hlisted place hplace
          exact ⟨earlier, List.mem_reverse.2 hearlier, heq⟩
        constructor
        · intro last' hlast'
          cases hlast'
          refine ⟨way.stop, hway, rfl, ⟨stop, ?_, hfarthest⟩, ?_⟩
          · rw [hall]
            exact List.mem_append_left _ hstop
          · intro place hplace
            rw [hall] at hplace
            rcases List.mem_append.1 hplace with hplace | hplace
            · obtain ⟨earlier, hearlier, heq⟩ := hlisted place hplace
              exact ⟨earlier, List.mem_append_right _ hearlier, heq⟩
            · refine ⟨⟨place, way.kept⟩, List.mem_append_left _ (List.mem_reverse.2 ?_), rfl⟩
              exact List.mem_map.2 ⟨place, (hmem place).2 hplace, rfl⟩
        · intro accepts after
          rw [List.reverse_append, List.reverse_reverse, List.append_assoc, Pattern.ways, hall]
          -- What was left out comes first or last in the stretch, and behind the last one.
          cases eager with
          | true =>
            simp only [if_true, List.map_append, List.append_assoc]
            refine (firstTo?_append_of_subset accepts _ fun onward honward => ?_).symm
            obtain ⟨place, hplace, rfl⟩ := List.mem_map.1 honward
            exact hfront place hplace
          | false =>
            simp only [Bool.false_eq_true, if_false, List.reverse_append, List.map_append,
              List.append_assoc]
            rw [← List.append_assoc, ← List.append_assoc stretches.newestFirst.reverse]
            refine (firstTo?_append_of_subset accepts _ fun onward honward => ?_).symm
            obtain ⟨place, hplace, rfl⟩ := List.mem_map.1 honward
            obtain ⟨earlier, hearlier, heq⟩ := hfront place (List.mem_reverse.1 hplace)
            exact ⟨earlier, List.mem_append_left _ hearlier, heq⟩

/-- Stretching all ways lists the stretch from each way, but for repetitions. -/
theorem alike_stretchAll (eager : Bool) (allowed : Char → Bool) (origin : Cursor)
    (ways : List Way) (hahead : ∀ way ∈ ways, origin.Ahead way.stop) :
    Alike (stretchAll eager allowed ways)
      (ways.flatMap fun way => (Pattern.stretch eager allowed).ways way.stop way.kept) := by
  intro accepts
  have key (stretches : Stretches) (h : stretches.Sound origin allowed) :
      firstTo? accepts (ways.foldl (Stretches.add eager allowed) stretches).newestFirst.reverse =
        firstTo? accepts (stretches.newestFirst.reverse ++
          ways.flatMap fun way => (Pattern.stretch eager allowed).ways way.stop way.kept) := by
    induction ways generalizing stretches with
    | nil => rw [List.foldl_nil, List.flatMap_nil, List.append_nil]
    | cons way rest ih =>
      obtain ⟨hsound, hadd⟩ := Stretches.add_spec eager h (hahead way List.mem_cons_self)
      rw [List.foldl_cons, List.flatMap_cons,
        ih (fun other hother => hahead other (List.mem_cons_of_mem way hother)) _ hsound, hadd]
  exact key {} fun last hlast => by contradiction

/-- The first answer from a list is the answer of the first member that has
one. -/
theorem findSome?_eq_bind_find? {α β : Type} (answer : α → Option β) (l : List α) :
    l.findSome? answer = (l.find? fun a => (answer a).isSome).bind answer := by
  induction l with
  | nil => rfl
  | cons a l ih =>
    rw [List.findSome?_cons, List.find?_cons]
    cases h : answer a with
    | none => exact ih
    | some b => simp [h]

/-- Lists of ways that are alike give the same first answer, if it depends only
on the place whether there is one. -/
theorem Alike.findSome?_eq {ways others : List Way} (h : Alike ways others) {β : Type}
    (answer : Way → Option β)
    (hanswer : ∀ way ∈ ways ++ others, ∀ other ∈ ways ++ others,
      way.stop.offset = other.stop.offset → (answer way).isSome = (answer other).isSome) :
    ways.findSome? answer = others.findSome? answer := by
  classical
  -- Whether there is an answer is a test on offsets, so the lists agree on it.
  have test (l : List Way) (hl : ∀ way ∈ l, way ∈ ways ++ others) :
      (l.find? fun way => (answer way).isSome) =
        firstTo? (fun offset => decide (∃ way ∈ ways ++ others,
          way.stop.offset = offset ∧ (answer way).isSome = true)) l := by
    induction l with
    | nil => rfl
    | cons way rest ih =>
      have hway := hl way List.mem_cons_self
      have hrest := ih fun other hother => hl other (List.mem_cons_of_mem way hother)
      have hsame : (answer way).isSome = decide (∃ other ∈ ways ++ others,
          other.stop.offset = way.stop.offset ∧ (answer other).isSome = true) := by
        rw [Bool.eq_iff_iff, decide_eq_true_eq]
        constructor
        · intro hsome
          exact ⟨way, hway, rfl, hsome⟩
        · rintro ⟨other, hother, hoffset, hsome⟩
          rw [hanswer way hway other hother hoffset.symm, hsome]
      rw [firstTo?, List.find?_cons, List.find?_cons, ← hsame, hrest, firstTo?]
  rw [findSome?_eq_bind_find?, findSome?_eq_bind_find?,
    test ways fun way hway => List.mem_append_left others hway,
    test others fun way hway => List.mem_append_right ways hway, h]

/-- Taking ways that are alike one pattern further gives ways that are alike. -/
theorem Alike.flatMap_ways {ways others : List Way} (h : Alike ways others) (origin : Cursor)
    (hahead : ∀ way ∈ ways ++ others, origin.Ahead way.stop) (pattern : Pattern) :
    Alike (ways.flatMap fun way => pattern.ways way.stop way.kept)
      (others.flatMap fun way => pattern.ways way.stop way.kept) := by
  intro accepts
  simp only [firstTo?, List.find?_flatMap]
  refine h.findSome?_eq _ ?_
  intro way hway other hother hoffset
  -- Equal offsets mean equal places, and from one place the ways lead alike.
  have hplace : way.stop = other.stop :=
    (hahead way hway).eq_of_offset_eq (hahead other hother) hoffset
  have hany (l : List Way) : (l.find? fun way => accepts way.stop.offset).isSome =
      (l.map Way.stop).any fun stop => accepts stop.offset := by
    rw [Bool.eq_iff_iff, List.find?_isSome, List.any_map, List.any_eq_true]
    rfl
  rw [hany, hany, hplace, pattern.map_stop_ways other.stop way.kept other.kept]

/-- A short stretch is part of the stretch. -/
theorem mem_stretch_of_mem_stretchShort {cursor place : Cursor} {allowed : Char → Bool}
    {limit : Option Nat} (h : place ∈ (cursor.stretchShort allowed limit).1) :
    place ∈ cursor.stretch allowed := by
  rcases hshort : cursor.stretchShort allowed limit with ⟨places, reached⟩
  rw [hshort] at h
  cases reached with
  | false =>
    rw [Cursor.stretch_eq_of_not_reached hshort]
    exact h
  | true =>
    obtain ⟨joint, -, -, hall⟩ := Cursor.stretch_eq_of_reached hshort
    rw [hall]
    exact List.mem_append_right _ h

/-- Stretching leads ahead. -/
theorem ahead_of_mem_stretchAll {eager : Bool} {allowed : Char → Bool} {origin : Cursor}
    {ways : List Way} (hahead : ∀ way ∈ ways, origin.Ahead way.stop) :
    ∀ way ∈ stretchAll eager allowed ways, origin.Ahead way.stop := by
  have key (stretches : Stretches)
      (h : ∀ way ∈ stretches.newestFirst, origin.Ahead way.stop) :
      ∀ way ∈ (ways.foldl (Stretches.add eager allowed) stretches).newestFirst,
        origin.Ahead way.stop := by
    induction ways generalizing stretches with
    | nil => exact h
    | cons first rest ih =>
      refine ih (fun way hway => hahead way (List.mem_cons_of_mem first hway)) _ ?_
      unfold Stretches.add
      split
      · exact h
      · intro way hway
        dsimp only at hway
        rw [foldl_cons_way] at hway
        rcases List.mem_append.1 hway with hway | hway
        · obtain ⟨place, hplace, rfl⟩ := List.mem_map.1 (List.mem_reverse.1 hway)
          have hshort : place ∈
              (first.stop.stretchShort allowed (stretches.last.map Listed.nearest)).1 := by
            cases eager
            · exact List.mem_reverse.1 hplace
            · exact hplace
          exact (hahead first List.mem_cons_self).trans
            (Cursor.ahead_of_mem_stretch (mem_stretch_of_mem_stretchShort hshort))
        · exact h way hway
  intro way hway
  exact key {} (fun way hway => by contradiction) way (List.mem_reverse.1 hway)

namespace Pattern

/-- The first ways lead ahead. -/
theorem ahead_of_mem_firstWays (pattern : Pattern) {origin : Cursor} {ways : List Way}
    (hahead : ∀ way ∈ ways, origin.Ahead way.stop) :
    ∀ way ∈ pattern.firstWays ways, origin.Ahead way.stop := by
  induction pattern generalizing ways with
  | seq first second ihFirst ihSecond => exact ihSecond (ihFirst hahead)
  | either first second ihFirst ihSecond =>
    intro way hway
    obtain ⟨start, hstart, hway⟩ := List.mem_flatMap.1 hway
    have hone : ∀ way ∈ [start], origin.Ahead way.stop := by
      intro way hway
      rw [List.mem_singleton.1 hway]
      exact hahead start hstart
    rcases List.mem_append.1 hway with hway | hway
    · exact ihFirst hone way hway
    · exact ihSecond hone way hway
  | stretch eager allowed => exact ahead_of_mem_stretchAll hahead
  | literal | one | many | mark | wordEdge | lineStart | textStart | textEnd =>
    intro way hway
    obtain ⟨start, hstart, hway⟩ := List.mem_flatMap.1 hway
    exact (hahead start hstart).trans (ahead_of_mem_ways _ start.stop start.kept way hway)

/-- The first ways are all the ways on, but for those that cannot be the match in
the end. -/
theorem alike_firstWays (pattern : Pattern) (origin : Cursor) (ways : List Way)
    (hahead : ∀ way ∈ ways, origin.Ahead way.stop) :
    Alike (pattern.firstWays ways)
      (ways.flatMap fun way => pattern.ways way.stop way.kept) := by
  induction pattern generalizing ways with
  | seq first second ihFirst ihSecond =>
    have hfirst := ahead_of_mem_firstWays first hahead
    refine (ihSecond _ hfirst).trans ?_
    simp only [Pattern.ways]
    rw [← List.flatMap_assoc]
    refine (ihFirst ways hahead).flatMap_ways origin ?_ second
    intro way hway
    rcases List.mem_append.1 hway with hway | hway
    · exact hfirst way hway
    · obtain ⟨start, hstart, hway⟩ := List.mem_flatMap.1 hway
      exact (hahead start hstart).trans (ahead_of_mem_ways first start.stop start.kept way hway)
  | either first second ihFirst ihSecond =>
    refine alike_flatMap fun way hway => ?_
    have hone : ∀ other ∈ [way], origin.Ahead other.stop := by
      intro other hother
      rw [List.mem_singleton.1 hother]
      exact hahead way hway
    have hfirst := ihFirst [way] hone
    have hsecond := ihSecond [way] hone
    rw [List.flatMap_singleton] at hfirst hsecond
    exact hfirst.append hsecond
  | stretch eager allowed => exact alike_stretchAll eager allowed origin ways hahead
  | literal | one | many | mark | wordEdge | lineStart | textStart | textEnd =>
    exact fun _ => rfl

/-- The first of the first ways is the first of all ways. -/
theorem head?_firstWays (pattern : Pattern) (cursor : Cursor) :
    (pattern.firstWays [⟨cursor, []⟩]).head? = (pattern.ways cursor []).head? := by
  have h := alike_firstWays pattern cursor [⟨cursor, []⟩]
    (fun way hway => by rw [List.mem_singleton.1 hway]; exact .refl cursor) fun _ => true
  have key (l : List Way) : firstTo? (fun _ => true) l = l.head? := by
    cases l <;> rfl
  rw [key, key, List.flatMap_singleton] at h
  exact h

end Pattern

end Chunking
