/-!
# Spans

Where a piece of text lies, before the text itself is looked at.

Both splitters are decided by lengths and offsets alone, so they answer with
spans, and cutting the text is one step after that. `Span.cutAll` cuts all the
pieces of one text from one array of its characters, which keeps every piece
as cheap as its own length.

## Main definitions

* `Span`: A half-open range of character offsets.
* `Span.cut`: The characters of a span.
* `Span.cutAll`: The pieces of a text at the given spans.
-/

namespace Chunking

/-- The characters from the offset `start` up to, not including, `stop`. -/
structure Span where
  start : Nat
  stop : Nat
  deriving DecidableEq, Repr

namespace Span

/-- The characters of the text that lie in the span. -/
def cut (chars : List Char) (span : Span) : List Char :=
  chars.extract span.start span.stop

/-- The pieces of a text at the given spans. -/
def cutAll (content : String) (spans : List Span) : List String :=
  let chars := content.toList.toArray
  spans.map fun span => String.ofList (chars.extract span.start span.stop).toList

/-- Cutting all pieces cuts each one. -/
theorem cutAll_eq (content : String) (spans : List Span) :
    cutAll content spans = spans.map fun span => String.ofList (span.cut content.toList) := by
  simp [cutAll, cut]

end Span

end Chunking
