/-!
# Tables of character ranges

A character property is written down as the ranges of code points that have
it, in ascending order and without overlaps. Looking a code point up halves
the table at each step, so even the largest property costs about ten
comparisons.

## Main definitions

* `RangeTable`: Ascending ranges of code points, both ends included.
* `RangeTable.has`: Whether some range of the table holds a code point.
-/

namespace Chunking.Text

/-- Ascending ranges of code points without overlaps, both ends included. -/
abbrev RangeTable := Array (Nat × Nat)

namespace RangeTable

/-- Whether a range with an index from `low` up to, not including, `high` holds
the code point. -/
def hasBetween (table : RangeTable) (code low high : Nat) : Bool :=
  if low < high then
    let middle := (low + high) / 2
    match table[middle]? with
    | none => false
    | some (first, last) =>
      if code < first then hasBetween table code low middle
      else if last < code then hasBetween table code (middle + 1) high
      else true
  else
    false
termination_by high - low

/-- Whether some range of the table holds the code point. -/
def has (table : RangeTable) (code : Nat) : Bool :=
  hasBetween table code 0 table.size

end RangeTable

end Chunking.Text
