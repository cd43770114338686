import Chunking.Prepared

/-!
# Planning a re-index

Which chunks of a prepared document are stored already. A stored text is known
by its digest alone, so the order of the stored texts and how often one occurs
make no difference.

## Main definitions

* `ReindexPlan`: The chunks to reuse and the chunks to embed.
* `planReindex`: Compare a prepared document with stored texts.
* `ReindexPlan.isUnchanged`: Whether nothing is left to embed.
-/

namespace Chunking

/-- What is to be done with the chunks of a document. -/
structure ReindexPlan where
  /-- The chunks that are stored already, with the digests of their texts. -/
  reuse : List (Nat × String)
  /-- The chunks that have to be embedded. -/
  embed : List Nat
  deriving DecidableEq, Repr

/-- Whether every chunk is stored already. -/
def ReindexPlan.isUnchanged (plan : ReindexPlan) : Bool :=
  plan.embed.isEmpty

/-- Compare a prepared document with the texts that are stored. -/
def planReindex (prepared : PreparedDocument) (stored : List String) : ReindexPlan :=
  let known := stored.map textDigest
  let numbered := prepared.chunkHashes.mapIdx fun position hash => (position, hash)
  { reuse := numbered.filter fun chunk => known.contains chunk.2
    embed := (numbered.filter fun chunk => !known.contains chunk.2).map Prod.fst }

end Chunking
