import Chunking.Chunk
import Chunking.Options
import Chunking.Span

/-!
# Sliding windows

The plain way to split a text: windows of one size, each starting a fixed
number of characters before the end of its predecessor. It ignores what the
text says, so it serves prose, and source for which no boundaries are known.

Where the windows lie depends on the length of the text alone. `windowsFrom`
is that rule, and it ends because the step of a frame is positive: the next
window starts later.

## Main definitions

* `windowsFrom`: The windows over a text of a given length, from an offset on.
* `windowSpans`: The windows the options ask for.
* `chunkText`: The chunks of a text under the options.
-/

namespace Chunking

/-- The windows over a text of `length` characters, the first at `start`. The
one that reaches the end is the last. -/
def windowsFrom (frame : Frame) (length start : Nat) : List Span :=
  if start + frame.size < length then
    ⟨start, start + frame.size⟩ :: windowsFrom frame length (start + frame.step)
  else
    [⟨start, length⟩]
termination_by length - start
decreasing_by
  have := frame.step_pos
  omega

/-- The windows over a text of `length` characters. A text up to the threshold
is one window. -/
def windowSpans (options : TextOptions) (length : Nat) : List Span :=
  if length ≤ options.threshold.toNat then [⟨0, length⟩]
  else windowsFrom options.frame length 0

/-- Split a text into windows that overlap. Content up to the threshold, the
empty text included, is one chunk. -/
def chunkText (options : TextOptions) (content : String) : List Chunk :=
  Chunk.ofTexts (Span.cutAll content (windowSpans options content.length))

end Chunking
