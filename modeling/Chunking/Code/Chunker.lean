import Chunking.Code.Select
import Chunking.Language
import Chunking.Scan.SafeSplit
import Chunking.Window

/-!
# Splitting source code

Source code is cut at safe splits only, so the chunks put together again are
the text, and no chunk begins inside a string or a comment.

The first chunk starts the text, and every other one starts where its
predecessor ended. A chunk whose end would not lie strictly between its start
and the end of the text is the last one, and takes all that is left.

A file that is not source code is split into windows instead, as large as the
preferred length of a chunk.

## Main definitions

* `codeSpansFrom`: The chunks over a text of a given length, from an offset on.
* `codeSpans`: The chunks of a source text.
* `chunkCode`: The chunks of a file's content.
-/

namespace Chunking

/-- The chunks over a text of `length` characters from `start` on, with the
given candidates for their ends. Those a chunk has passed are left behind. -/
def codeSpansFrom (options : CodeOptions) (candidates : List Nat) (length start : Nat) :
    List Span :=
  let stop := selectSplit options candidates start length
  if start < stop ∧ stop < length then
    ⟨start, stop⟩ :: codeSpansFrom options (candidates.dropWhile (· ≤ stop)) length stop
  else
    [⟨start, length⟩]
termination_by length - start

/-- The chunks of a source text. A text up to the threshold is one chunk. -/
def codeSpans (options : CodeOptions) (chars : List Char) : List Span :=
  let length := chars.length
  if length ≤ options.threshold.toNat then [⟨0, length⟩]
  else
    let candidates := safeSplits chars
    if candidates.length < 2 then windowSpans options.asText length
    else codeSpansFrom options candidates length 0

/-- Split a file's content at safe splits, or into windows when the file is not
source code. -/
def chunkCode (options : CodeOptions) (fileName content : String) : List Chunk :=
  if isCodeFile fileName then
    Chunk.ofTexts (Span.cutAll content (codeSpans options content.toList))
  else
    chunkText options.asText content

end Chunking
