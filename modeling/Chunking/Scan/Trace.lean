import Chunking.Scan.Depth
import Chunking.Scan.Run

/-!
# The trace of a scan

A record of a run to look at: where each step starts, what it found, and how
many blocks are open after it. Nothing is decided here about lines or splits,
but the record is of the run that decides about them.

## Main definitions

* `TraceEntry`: One step of a run with its place and the depth after it.
* `trace`: The record of the run over a text.
-/

namespace Chunking

/-- One step of a run. -/
structure TraceEntry where
  /-- The offset of the first character read. -/
  position : Nat
  /-- What was read there. -/
  step : Step
  /-- The brace depth after the step. -/
  depth : Depth
  /-- Whether the step ended the last open block. -/
  crossing : Bool
  deriving DecidableEq, Repr

/-- What is recorded of a run so far: the depth, and the steps with the newest
first. -/
structure TraceLog where
  depth : Depth := {}
  newestFirst : List TraceEntry := []

/-- Record a visit. -/
def TraceLog.add (log : TraceLog) (visit : Visit) : TraceLog :=
  let (depth, crossing) := log.depth.after visit.step.token
  { depth, newestFirst := ⟨visit.position, visit.step, depth, crossing⟩ :: log.newestFirst }

/-- The record of the run over a text from a state. -/
def trace (state : ScanState) (text : List Char) : List TraceEntry :=
  (foldVisits TraceLog.add {} state 0 text).newestFirst.reverse

end Chunking
