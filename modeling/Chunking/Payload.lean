import Chunking.Prepared

/-!
# Payloads

What is stored next to a chunk's vector: the record of the chunk, flattened. A
payload has no identifier, and the metadata of the file appears as four more
fields, or not at all.

## Main definitions

* `Payload`: The flat form of a record.
* `Record.payload`: The payload of a record.
* `PreparedDocument.payloads`: The payloads of a document.
-/

namespace Chunking

/-- The flat form of a record. -/
structure Payload where
  /-- The path of the document, which serves as its title. -/
  title : String
  /-- The text of the chunk. -/
  content : String
  /-- The path of the document. -/
  sourcePath : String
  /-- The project of the document. -/
  project : String
  /-- The position of the chunk. -/
  chunkIndex : Nat
  /-- The number of chunks of the document. -/
  totalChunks : Nat
  /-- Whether the document is source or prose. -/
  sourceType : SourceType
  /-- The digest of the whole document. -/
  contentHash : String
  /-- The metadata of the file, if it has any. -/
  metadata : Option CodeMetadata
  deriving DecidableEq

/-- The payload of a record. -/
def Record.payload (record : Record) : Payload where
  title := record.sourcePath
  content := record.chunk.text
  sourcePath := record.sourcePath
  project := record.project
  chunkIndex := record.chunk.index
  totalChunks := record.chunk.total
  sourceType := record.sourceType
  contentHash := record.contentHash
  metadata := record.metadata

/-- The payloads of a document in the order of its chunks. -/
def PreparedDocument.payloads (prepared : PreparedDocument) : List Payload :=
  prepared.records.map Record.payload

end Chunking
