import Chunking.Chunker
import Chunking.Digest.Sha256
import Chunking.Document
import Chunking.Metadata
import Chunking.Uuid

/-!
# Prepared documents

A document that is ready to be stored: its chunks, each with the digest of its
text, the digest of the whole document, and the metadata of the file. The
metadata comes with every chunk, because chunks are stored one by one.

Every record has an identifier of its own. Identifiers are drawn from a supply
that the caller gives, one for each position, so preparing stays a function
of its inputs; nothing else in a record depends on them.

## Main definitions

* `SourceType`: Whether a document is source or prose.
* `Record`: A chunk ready to be stored.
* `PreparedDocument`: All records of a document.
* `prepareWith`: Prepare a document with a strategy.
* `prepare`: Prepare a document the way its file name asks for.
-/

namespace Chunking

/-- Whether a document is program source or prose. -/
inductive SourceType where
  | code
  | doc
  deriving DecidableEq, Repr

/-- The name of a source type. -/
def SourceType.name : SourceType → String
  | .code => "code"
  | .doc => "doc"

/-- A chunk ready to be stored. -/
structure Record where
  /-- The identifier of the record. -/
  id : Uuid
  /-- The chunk itself. -/
  chunk : Chunk
  /-- The path of the document. -/
  sourcePath : String
  /-- The project of the document. -/
  project : String
  /-- Whether the document is source or prose. -/
  sourceType : SourceType
  /-- The digest of the whole document. -/
  contentHash : String
  /-- The digest of the chunk's text. -/
  chunkHash : String
  /-- The metadata of the file, if it has any. -/
  metadata : Option CodeMetadata
  deriving DecidableEq

/-- All records of one document. -/
structure PreparedDocument where
  /-- The path of the document. -/
  sourcePath : String
  /-- The records in the order of the chunks. -/
  records : List Record
  /-- The metadata of the file, if it has any. -/
  metadata : Option CodeMetadata
  /-- The way the document was split. -/
  strategy : Strategy
  deriving DecidableEq

namespace PreparedDocument

/-- The texts of the chunks in order. -/
def texts (prepared : PreparedDocument) : List String :=
  prepared.records.map fun record => record.chunk.text

/-- The digests of the chunks in order. -/
def chunkHashes (prepared : PreparedDocument) : List String :=
  prepared.records.map Record.chunkHash

end PreparedDocument

/-- The type of a document that is split in a given way: source if it is split
as source or has metadata. -/
def sourceTypeOf (strategy : Strategy) (metadata : Option CodeMetadata) : SourceType :=
  if strategy = .code ∨ metadata.isSome then .code else .doc

/-- Prepare a document with a strategy. The identifier of each record is taken
from the supply at the position of its chunk. -/
def prepareWith (config : Config) (strategy : Strategy) (ids : Nat → Uuid)
    (document : Document) : PreparedDocument :=
  let fileName := document.fileName
  let metadata := metadataOf? fileName document.content
  let contentHash := textDigest document.content
  let chunks := (config.chunker strategy).chunk fileName document.content
  { sourcePath := document.sourcePath
    metadata
    strategy
    records := chunks.mapIdx fun position chunk =>
      { id := ids position
        chunk
        sourcePath := document.sourcePath
        project := document.project
        sourceType := sourceTypeOf strategy metadata
        contentHash
        chunkHash := textDigest chunk.text
        metadata } }

/-- Prepare a document the way its file name asks for. -/
def prepare (config : Config) (ids : Nat → Uuid) (document : Document) : PreparedDocument :=
  prepareWith config (Strategy.ofFileName document.fileName) ids document

end Chunking
