import Chunking.Json.Codec
import Chunking.Payload

/-!
# The stored form of records

How each type of record is written as JSON, with the names its members have
there. Reading accepts what writing produces and whatever else says the same.

Sets of names are lists that may come in any order and with duplicates. A
document without a project has the empty one. A payload has the metadata of
its file among its own members, which are in ascending order of their names.

## Main definitions

* `Chunk.codec`, `Document.codec`, `CodeMetadata.codec`, `Record.codec`,
  `PreparedDocument.codec`: Codecs of documents and what is made of them.
* `TextOptions.codec`, `CodeOptions.codec`, `Config.codec`: Codecs of options.
* `SourceType.codec`, `Strategy.codec`, `NameSet.codec`, `Uuid.codec`: Codecs of
  their parts.
* `Payload.codec`: The codec of payloads.
-/

namespace Chunking

open Json Json.Codec Json.Shape

/-- Identifiers, in any spelling. -/
def Uuid.codec : Codec Uuid :=
  string.via Uuid.parse? Uuid.text

/-- Sets of names, as lists. -/
def NameSet.codec : Codec NameSet :=
  (list string).via (fun names => some (.ofList names)) NameSet.names

/-- Source types, by name. -/
def SourceType.codec : Codec SourceType :=
  oneOf [.code, .doc] SourceType.name

/-- Strategies, by name. -/
def Strategy.codec : Codec Strategy :=
  oneOf [.code, .text] Strategy.name

/-- Chunks. -/
def Chunk.codec : Codec Chunk :=
  ofShape <|
    ((member "text" string).and <| (member "chunk_index" natural).and <|
      member "total_chunks" natural).via
    (fun (text, index, total) => some { text, index, total })
    fun chunk => (chunk.text, chunk.index, chunk.total)

/-- Documents. -/
def Document.codec : Codec Document :=
  ofShape <|
    ((member "source_path" string).and <| (memberOr "project" string "" true).and <|
      member "content" string).via
    (fun (sourcePath, project, content) => some { sourcePath, project, content })
    fun document => (document.sourcePath, document.project, document.content)

/-- Metadata. -/
def CodeMetadata.codec : Codec CodeMetadata :=
  ofShape <|
    ((member "file_name" string).and <| (member "class_names" NameSet.codec).and <|
      (member "property_names" NameSet.codec).and <|
      member "referenced_types" NameSet.codec).via
    (fun (fileName, classNames, propertyNames, referencedTypes) =>
      some { fileName, classNames, propertyNames, referencedTypes })
    fun metadata =>
      (metadata.fileName, metadata.classNames, metadata.propertyNames, metadata.referencedTypes)

/-- Records. -/
def Record.codec : Codec Record :=
  ofShape <|
    ((member "id" Uuid.codec).and <| (member "chunk" Chunk.codec).and <|
      (member "source_path" string).and <| (member "project" string).and <|
      (member "source_type" SourceType.codec).and <| (member "content_hash" string).and <|
      (member "chunk_hash" string).and <|
      memberOr "code_metadata" (nullable CodeMetadata.codec) none false).via
    (fun (id, chunk, sourcePath, project, sourceType, contentHash, chunkHash, metadata) =>
      some { id, chunk, sourcePath, project, sourceType, contentHash, chunkHash, metadata })
    fun record =>
      (record.id, record.chunk, record.sourcePath, record.project, record.sourceType,
        record.contentHash, record.chunkHash, record.metadata)

/-- Prepared documents. -/
def PreparedDocument.codec : Codec PreparedDocument :=
  ofShape <|
    ((member "source_path" string).and <| (member "chunks" (list Record.codec)).and <|
      (memberOr "code_metadata" (nullable CodeMetadata.codec) none false).and <|
      member "strategy" Strategy.codec).via
    (fun (sourcePath, records, metadata, strategy) =>
      some { sourcePath, records, metadata, strategy })
    fun prepared => (prepared.sourcePath, prepared.records, prepared.metadata, prepared.strategy)

/-- Options for prose. -/
def TextOptions.codec : Codec TextOptions :=
  ofShape <|
    ((member "chunk_size" size).and <| (member "overlap" size).and <|
      member "threshold" size).via
    (fun (chunkSize, overlap, threshold) => some { chunkSize, overlap, threshold })
    fun options => (options.chunkSize, options.overlap, options.threshold)

/-- Options for source code. -/
def CodeOptions.codec : Codec CodeOptions :=
  ofShape <|
    ((member "target_size" size).and <| (member "margin" size).and <|
      (member "min_chunk_size" size).and <| member "threshold" size).via
    (fun (targetSize, margin, minChunkSize, threshold) =>
      some { targetSize, margin, minChunkSize, threshold })
    fun options => (options.targetSize, options.margin, options.minChunkSize, options.threshold)

/-- Configurations. -/
def Config.codec : Codec Config :=
  ofShape <|
    ((member "text" TextOptions.codec).and <| (member "code" CodeOptions.codec).and <|
      (member "batch_concurrency" size).and <| member "max_content_size" size).via
    (fun (text, code, batchConcurrency, maxContentSize) =>
      some { text, code, batchConcurrency, maxContentSize })
    fun config => (config.text, config.code, config.batchConcurrency, config.maxContentSize)

/-- The metadata that four members of a payload make up: all of them or none
are there. -/
def metadataOfMembers? :
    Option String → Option NameSet → Option NameSet → Option NameSet →
      Option (Option CodeMetadata)
  | some fileName, some classNames, some propertyNames, some referencedTypes =>
    some (some { fileName, classNames, propertyNames, referencedTypes })
  | none, none, none, none => some none
  | _, _, _, _ => none

/-- Payloads, with their members in ascending order of names. -/
def Payload.codec : Codec Payload :=
  ofShape <|
    ((member "chunk_index" natural).and <| (optional "class_names" NameSet.codec).and <|
      (member "content" string).and <| (member "content_hash" string).and <|
      (optional "file_name" string).and <| (member "project" string).and <|
      (optional "property_names" NameSet.codec).and <|
      (optional "referenced_types" NameSet.codec).and <|
      (member "source_path" string).and <| (member "source_type" SourceType.codec).and <|
      (member "title" string).and <| member "total_chunks" natural).via
    (fun (chunkIndex, classes, content, contentHash, fileName, project, properties, types,
        sourcePath, sourceType, title, totalChunks) =>
      (metadataOfMembers? fileName classes properties types).map fun metadata =>
        { title, content, sourcePath, project, chunkIndex, totalChunks, sourceType, contentHash,
          metadata })
    fun payload =>
      (payload.chunkIndex, payload.metadata.map CodeMetadata.classNames, payload.content,
        payload.contentHash, payload.metadata.map CodeMetadata.fileName, payload.project,
        payload.metadata.map CodeMetadata.propertyNames,
        payload.metadata.map CodeMetadata.referencedTypes, payload.sourcePath,
        payload.sourceType, payload.title, payload.totalChunks)

end Chunking
