import Chunking.Scan.Depth
import Chunking.Scan.Run
import Chunking.Text.CharClass

/-!
# Safe splits

The offsets at which a source text may be cut. Besides its two ends these are
the ends of lines of two kinds: a line with a closing brace that ends the last
open block, and a line that starts with a directive ending a region.

Both are noticed in the middle of a line, and the line ends later. The scan
therefore carries a flag, `cutAtLineEnd`, from the place where the line was
marked to the newline, wherever that stands. Every character is read once, so
the scan takes time proportional to the text however often a line is marked.

## Main definitions

* `startsRegionEnd`: Whether a text starts with a directive that ends a region.
* `LineScan`: What the scan has found up to an offset.
* `LineScan.read`: Reading one character.
* `LineScan.visit`: Reading the characters of one step.
* `scanLines`: What the scan has found at the end of a text.
* `safeSplits`: The offsets at which a text may be cut.
-/

namespace Chunking

open Text

/-- The directives that end a region. -/
def regionEndDirectives : List (List Char) :=
  ["#endif".toList, "#endregion".toList]

/-- Whether a text starts with a directive that ends a region, as a word of its
own: no alphanumeric character or underscore follows it. -/
def startsRegionEnd (text : List Char) : Bool :=
  regionEndDirectives.any fun directive =>
    directive.isPrefixOf text &&
      match (text.drop directive.length).head? with
      | none => true
      | some next => !(isAlphanumeric next || next == '_')

/-- What the scan has found up to an offset. -/
structure LineScan where
  /-- The brace depth. -/
  depth : Depth := {}
  /-- Only white space stands before the offset on its line. -/
  lineBlank : Bool := true
  /-- The end of this line is a safe split. -/
  cutAtLineEnd : Bool := false
  /-- The ends of the marked lines before, the last one first. -/
  lineEnds : List Nat := []
  deriving DecidableEq, Repr

namespace LineScan

/-- Read one character at an offset. A newline ends the line, and the offset
after it is kept if the line was marked. -/
def read (scan : LineScan) (position : Nat) (c : Char) : LineScan :=
  if c = '\n' then
    { scan with
      lineBlank := true
      cutAtLineEnd := false
      lineEnds := if scan.cutAtLineEnd then (position + 1) :: scan.lineEnds else scan.lineEnds }
  else
    { scan with lineBlank := scan.lineBlank && isBlank c }

/-- Read characters that follow one another, the first of them at an offset. -/
def readAll (scan : LineScan) (position : Nat) : List Char → LineScan
  | [] => scan
  | c :: rest => readAll (scan.read position c) (position + 1) rest

/-- Whether a visit marks its line for a reason other than a brace: a directive
that ends a region starts the line there. -/
def atRegionEnd (scan : LineScan) (visit : Visit) : Bool :=
  visit.state == .code && visit.current == '#' && scan.lineBlank && startsRegionEnd visit.text

/-- Take one step: count a brace, mark the line if this is a place to mark it,
and read the characters of the step. -/
def visit (scan : LineScan) (visit : Visit) : LineScan :=
  let (depth, crossing) := scan.depth.after visit.step.token
  let cutAtLineEnd := scan.cutAtLineEnd || crossing || scan.atRegionEnd visit
  { scan with depth, cutAtLineEnd }.readAll visit.position visit.read

end LineScan

/-- What the scan has found at the end of a text. -/
def scanLines (text : List Char) : LineScan :=
  foldVisits LineScan.visit {} .code 0 text

/-- The offsets at which a text may be cut, in ascending order: its start, the
ends of its marked lines, and its end. A marked line that no newline ends
reaches the end of the text. -/
def safeSplits (text : List Char) : List Nat :=
  let length := text.length
  if length = 0 then [0]
  else 0 :: (scanLines text).lineEnds.reverse.filter (· < length) ++ [length]

end Chunking
