import Chunking.Pattern.FirstWays

/-!
# Finding a pattern in a text

The match at a place is the first way in which the pattern matches there. The
search for all matches goes through a text from left to right: a match is
taken at the first place that has one, and the search goes on where the match
ends, so matches do not overlap.

## Main definitions

* `Match`: A place where a pattern matches.
* `Match.group`: The text that a match keeps under a number.
* `Pattern.matchAt?`: The match at a place.
* `Pattern.findAll`: All matches of a text, from left to right.

## Theorems

* `matchAt?_eq`: The match at a place is the first of the ways.
-/

namespace Chunking

/-- A place where a pattern matches. -/
structure Match where
  /-- Where the match starts. -/
  start : Cursor
  /-- Where it ends. -/
  stop : Cursor
  /-- The marks it keeps. -/
  marks : Marks
  deriving DecidableEq, Repr

/-- The text kept under a number, if the match kept one. -/
def Match.group? (found : Match) (number : Nat) : Option (List Char) := do
  let start ← found.marks.lookup (.opening number)
  let stop ← found.marks.lookup (.closing number)
  return start.textUpTo stop

/-- The text kept under a number, or nothing. -/
def Match.group (found : Match) (number : Nat) : List Char :=
  (found.group? number).getD []

namespace Pattern

/-- The match at a place. -/
def matchAt? (pattern : Pattern) (cursor : Cursor) : Option Match :=
  (pattern.firstWays [⟨cursor, []⟩]).head?.map fun way => ⟨cursor, way.stop, way.kept⟩

/-- The match at a place is the first of the ways to match there. -/
theorem matchAt?_eq (pattern : Pattern) (cursor : Cursor) :
    pattern.matchAt? cursor =
      (pattern.ways cursor []).head?.map fun way => ⟨cursor, way.stop, way.kept⟩ := by
  rw [matchAt?, head?_firstWays]

/-- The matches from a place on. The search goes on where a match ends, or
after the next character when nothing matches or the match is empty. The
number of places is bounded by the length of a list, for which the rest of the
text will serve. -/
def findAllFrom (pattern : Pattern) (newestFirst : List Match) :
    List Char → Cursor → List Match
  | [], cursor => ((pattern.matchAt? cursor).toList ++ newestFirst).reverse
  | _ :: bound, cursor =>
    match pattern.matchAt? cursor with
    | some found =>
      let next := if cursor.offset < found.stop.offset then found.stop else cursor.advance
      if found.stop.rest.isEmpty then (found :: newestFirst).reverse
      else findAllFrom pattern (found :: newestFirst) bound next
    | none =>
      if cursor.rest.isEmpty then newestFirst.reverse
      else findAllFrom pattern newestFirst bound cursor.advance

/-- All matches of a text, from left to right and without overlaps. -/
def findAll (pattern : Pattern) (text : List Char) : List Match :=
  findAllFrom pattern [] text (Cursor.atStart text)

end Pattern

end Chunking
