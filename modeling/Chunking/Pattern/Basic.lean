import Chunking.Pattern.Cursor

/-!
# Patterns

Names are found in source text by patterns. A pattern matches at a place in
possibly many ways, and the ways have an order: of two alternatives the first
comes first, and a repetition is eager, so that more comes before less, or
lazy, where it is the other way round. The first way is the match.

`ways` lists all the ways in order, and it says what a pattern means. A list
of patterns in a row is put together from the left, so that the ways of a row
grow out of the ways of its beginning.

Repeating one kind of character is by far the most common repetition, and it
is a pattern of its own, `stretch`: the places it reaches are listed without
recursion on the pattern. The other repetition, `many`, counts its rounds down
on the text itself, because every round consumes some of it.

What a match is wanted for is the text of its parts. A part is marked by a
pattern before it and another behind it, and a mark is kept with its place.

## Main definitions

* `Pattern`: What to look for.
* `Mark`: The edges of the parts that are kept.
* `Way`: One way to match.
* `Pattern.ways`: All ways to match, in order.
* `Pattern.group`: A pattern whose text is kept.

## Theorems

* `ahead_of_mem_ways`: A way leads ahead.
* `map_stop_ways`: Where the ways lead does not depend on what was kept before.
-/

namespace Chunking

/-- An edge of a part of a match. The parts have numbers. -/
inductive Mark where
  | opening (number : Nat)
  | closing (number : Nat)
  deriving DecidableEq, Repr

/-- What to look for at a place in a text. -/
inductive Pattern where
  /-- The given characters in order. -/
  | literal (chars : List Char)
  /-- One character of a kind. -/
  | one (allowed : Char → Bool)
  /-- Any number of characters of a kind, as many as possible if eager, and as
  few as possible otherwise. -/
  | stretch (eager : Bool) (allowed : Char → Bool)
  /-- One pattern after the other. -/
  | seq (first second : Pattern)
  /-- The first pattern, or else the second. -/
  | either (first second : Pattern)
  /-- Any number of rounds of a pattern, as many as possible. -/
  | many (round : Pattern)
  /-- The edge of a part. -/
  | mark (edge : Mark)
  /-- The edge of a word. -/
  | wordEdge
  /-- The start of a line. -/
  | lineStart
  /-- The start of the text. -/
  | textStart
  /-- The end of the text. -/
  | textEnd

/-- The marks that a pattern has met with their places, the latest one first. -/
abbrev Marks := List (Mark × Cursor)

/-- One way to match. -/
structure Way where
  /-- The place that it leads to. -/
  stop : Cursor
  /-- The marks met on it. -/
  kept : Marks
  deriving DecidableEq, Repr

namespace Pattern

/-- All ways to match rounds of a pattern, more rounds first. The number of
rounds is bounded by the length of a list, for which the rest of the text will
serve. -/
def waysOfRounds (round : Cursor → Marks → List Way) :
    List Char → Cursor → Marks → List Way
  | [], cursor, kept => [⟨cursor, kept⟩]
  | _ :: bound, cursor, kept =>
    ((round cursor kept).flatMap fun way => waysOfRounds round bound way.stop way.kept) ++
      [⟨cursor, kept⟩]

/-- All ways to match at a place, in order, with the marks kept before. -/
def ways : Pattern → Cursor → Marks → List Way
  | literal chars, cursor, kept => (cursor.skip? chars).toList.map fun stop => ⟨stop, kept⟩
  | one allowed, cursor, kept =>
    match cursor.rest with
    | [] => []
    | c :: _ => if allowed c then [⟨cursor.advance, kept⟩] else []
  | stretch eager allowed, cursor, kept =>
    let farthestFirst := cursor.stretch allowed
    (if eager then farthestFirst else farthestFirst.reverse).map fun stop => ⟨stop, kept⟩
  | seq first second, cursor, kept =>
    (first.ways cursor kept).flatMap fun way => second.ways way.stop way.kept
  | either first second, cursor, kept => first.ways cursor kept ++ second.ways cursor kept
  | many round, cursor, kept => waysOfRounds round.ways cursor.rest cursor kept
  | mark edge, cursor, kept => [⟨cursor, (edge, cursor) :: kept⟩]
  | wordEdge, cursor, kept => if cursor.atWordEdge then [⟨cursor, kept⟩] else []
  | lineStart, cursor, kept => if cursor.atLineStart then [⟨cursor, kept⟩] else []
  | textStart, cursor, kept => if cursor.before = none then [⟨cursor, kept⟩] else []
  | textEnd, cursor, kept => if cursor.rest = [] then [⟨cursor, kept⟩] else []

/-- Rounds lead ahead if each of them does. -/
theorem ahead_of_mem_waysOfRounds {round : Cursor → Marks → List Way}
    (h : ∀ cursor kept, ∀ way ∈ round cursor kept, cursor.Ahead way.stop)
    (bound : List Char) (cursor : Cursor) (kept : Marks) :
    ∀ way ∈ waysOfRounds round bound cursor kept, cursor.Ahead way.stop := by
  induction bound generalizing cursor kept with
  | nil =>
    intro way hway
    rw [List.mem_singleton.1 hway]
    exact .refl cursor
  | cons _ bound ih =>
    intro way hway
    rcases List.mem_append.1 hway with hway | hway
    · obtain ⟨first, hfirst, hway⟩ := List.mem_flatMap.1 hway
      exact (h cursor kept first hfirst).trans (ih first.stop first.kept way hway)
    · rw [List.mem_singleton.1 hway]
      exact .refl cursor

/-- A way leads ahead. -/
theorem ahead_of_mem_ways (pattern : Pattern) (cursor : Cursor) (kept : Marks) :
    ∀ way ∈ pattern.ways cursor kept, cursor.Ahead way.stop := by
  induction pattern generalizing cursor kept with
  | literal chars =>
    intro way hway
    obtain ⟨stop, hstop, rfl⟩ := List.mem_map.1 hway
    exact Cursor.ahead_of_skip?_eq_some (Option.mem_toList.1 hstop)
  | one allowed =>
    intro way hway
    unfold ways at hway
    split at hway
    · contradiction
    · split at hway
      · rw [List.mem_singleton.1 hway]
        exact .advance cursor
      · contradiction
  | stretch eager allowed =>
    intro way hway
    obtain ⟨stop, hstop, rfl⟩ := List.mem_map.1 hway
    have hstretch : stop ∈ cursor.stretch allowed := by
      cases eager
      · exact List.mem_reverse.1 hstop
      · exact hstop
    exact Cursor.ahead_of_mem_stretch hstretch
  | seq first second ihFirst ihSecond =>
    intro way hway
    obtain ⟨middle, hmiddle, hway⟩ := List.mem_flatMap.1 hway
    exact (ihFirst cursor kept middle hmiddle).trans
      (ihSecond middle.stop middle.kept way hway)
  | either first second ihFirst ihSecond =>
    intro way hway
    rcases List.mem_append.1 hway with hway | hway
    · exact ihFirst cursor kept way hway
    · exact ihSecond cursor kept way hway
  | many round ih => exact ahead_of_mem_waysOfRounds ih cursor.rest cursor kept
  | mark edge =>
    intro way hway
    rw [List.mem_singleton.1 hway]
    exact .refl cursor
  | wordEdge | lineStart | textStart | textEnd =>
    intro way hway
    unfold ways at hway
    split at hway
    · rw [List.mem_singleton.1 hway]
      exact .refl cursor
    · contradiction

/-- Where the ways on from several ways lead depends only on where these lead. -/
theorem map_stop_flatMap {on : Cursor → Marks → List Way}
    (h : ∀ cursor kept kept', (on cursor kept).map Way.stop = (on cursor kept').map Way.stop)
    {from₁ from₂ : List Way} (hfrom : from₁.map Way.stop = from₂.map Way.stop) :
    (from₁.flatMap fun way => on way.stop way.kept).map Way.stop =
      (from₂.flatMap fun way => on way.stop way.kept).map Way.stop := by
  -- What was kept may be left out on the way on, as only the places count.
  have key (ways : List Way) : (ways.flatMap fun way => on way.stop way.kept).map Way.stop =
      (ways.map Way.stop).flatMap fun stop => (on stop []).map Way.stop := by
    rw [List.map_flatMap, List.flatMap_map]
    congr 1
    funext way
    exact h way.stop way.kept []
  rw [key, key, hfrom]

/-- Where rounds lead does not depend on what was kept before. -/
theorem map_stop_waysOfRounds {round : Cursor → Marks → List Way}
    (h : ∀ cursor kept kept', (round cursor kept).map Way.stop = (round cursor kept').map Way.stop)
    (bound : List Char) (cursor : Cursor) (kept kept' : Marks) :
    (waysOfRounds round bound cursor kept).map Way.stop =
      (waysOfRounds round bound cursor kept').map Way.stop := by
  induction bound generalizing cursor kept kept' with
  | nil => rfl
  | cons _ bound ih =>
    rw [waysOfRounds, waysOfRounds, List.map_append, List.map_append,
      map_stop_flatMap ih (h cursor kept kept')]
    rfl

/-- Where the ways lead does not depend on what was kept before. -/
theorem map_stop_ways (pattern : Pattern) (cursor : Cursor) (kept kept' : Marks) :
    (pattern.ways cursor kept).map Way.stop = (pattern.ways cursor kept').map Way.stop := by
  induction pattern generalizing cursor kept kept' with
  | literal chars => simp only [ways, List.map_map]; rfl
  | one allowed =>
    unfold ways
    split
    · rfl
    · split <;> rfl
  | stretch eager allowed => simp only [ways, List.map_map]; rfl
  | seq first second ihFirst ihSecond =>
    exact map_stop_flatMap ihSecond (ihFirst cursor kept kept')
  | either first second ihFirst ihSecond =>
    simp only [ways, List.map_append, ihFirst cursor kept kept', ihSecond cursor kept kept']
  | many round ih => exact map_stop_waysOfRounds ih cursor.rest cursor kept kept'
  | mark edge => rfl
  | wordEdge | lineStart | textStart | textEnd =>
    unfold ways
    split <;> rfl

/-- A pattern whose text is kept under a number. -/
def group (number : Nat) (inner : Pattern) : Pattern :=
  seq (seq (mark (.opening number)) inner) (mark (.closing number))

/-- Patterns in a row; nothing at all if there are none. -/
def sequence : List Pattern → Pattern
  | [] => literal []
  | first :: rest => rest.foldl seq first

/-- One of the given words, the first that fits. -/
def words : List String → Pattern
  | [] => one fun _ => false
  | [last] => literal last.toList
  | first :: rest => either (literal first.toList) (words rest)

/-- A pattern, or nothing if it does not match. -/
def optional (pattern : Pattern) : Pattern :=
  either pattern (literal [])

/-- At least one character of a kind, and as many as possible. -/
def atLeastOne (allowed : Char → Bool) : Pattern :=
  seq (one allowed) (stretch true allowed)

/-- At least one character of a kind, and as few as possible. -/
def atLeastOneLazy (allowed : Char → Bool) : Pattern :=
  seq (one allowed) (stretch false allowed)

end Pattern

end Chunking
