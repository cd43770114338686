import Chunking.Prepared

/-!
# Batches

Preparing many documents. Each document has an outcome of its own: it is
prepared, or it is refused because it is larger than the limit. A batch
collects the outcomes in the order of the documents. The documents that were
prepared come out in this order, and so do the reports on the others, unless
the batch is to stop at the first refusal, which is then all that comes out.

How many documents are worked on at the same time is part of the settings. The
outcome of a document does not depend on any other document, so the number
makes no difference to what is collected.

## Main definitions

* `IngestError`: Why a document is not prepared.
* `BatchConfig`: The settings of a batch.
* `BatchReport`: What became of a batch.
* `outcomeOf`: What becomes of one document.
* `collectOutcomes`: Collect outcomes in order.
* `processBatch`: Prepare documents.
-/

namespace Chunking

/-- Why a document is not prepared. -/
inductive IngestError where
  /-- The document is larger than the limit. Both are in bytes. -/
  | contentTooLarge (path : String) (size : Nat) (limit : UInt64)
  /-- The document cannot be read. -/
  | read (path reason : String)
  /-- The worker that prepared the document broke off. -/
  | worker (path message : String)
  deriving DecidableEq, Repr

/-- The text shown for a document that is not prepared. -/
def IngestError.message : IngestError → String
  | .contentTooLarge path size limit =>
    s!"document {path} is {size} bytes, above the {limit} byte limit"
  | .read path reason => s!"failed to read {path}: {reason}"
  | .worker path message => s!"worker for {path} failed: {message}"

/-- The settings of a batch. -/
structure BatchConfig where
  /-- The documents that are worked on at the same time. -/
  concurrency : UInt64 := 4
  /-- Whether a refused document is passed over. -/
  continueOnError : Bool := true
  /-- The most bytes in one document. -/
  maxContentSize : UInt64 := 10485760
  /-- The strategy for every document, instead of the one its name asks for. -/
  strategy : Option Strategy := none
  deriving DecidableEq, Repr

/-- The settings of a batch that a configuration asks for. -/
def Config.batch (config : Config) : BatchConfig where
  concurrency := config.batchConcurrency
  maxContentSize := config.maxContentSize

/-- A document that was not prepared, and the reason in words. -/
structure BatchFailure where
  sourcePath : String
  error : String
  deriving DecidableEq, Repr

/-- What became of a batch. -/
structure BatchReport where
  /-- The number of documents. -/
  totalDocuments : Nat
  /-- The number of documents prepared. -/
  processedDocuments : Nat := 0
  /-- The number of documents refused. -/
  failedDocuments : Nat := 0
  /-- The number of chunks of all documents prepared. -/
  totalChunks : Nat := 0
  /-- The documents refused, in order. -/
  failures : List BatchFailure := []
  deriving DecidableEq, Repr

/-- What becomes of one document. -/
def outcomeOf (config : Config) (settings : BatchConfig) (ids : Nat → Uuid)
    (document : Document) : Except IngestError PreparedDocument :=
  let size := document.content.utf8ByteSize
  if settings.maxContentSize.toNat < size then
    .error (.contentTooLarge document.sourcePath size settings.maxContentSize)
  else
    match settings.strategy with
    | some strategy => .ok (prepareWith config strategy ids document)
    | none => .ok (prepare config ids document)

/-- The report after one more document was prepared. -/
def BatchReport.addPrepared (report : BatchReport) (prepared : PreparedDocument) : BatchReport :=
  { report with
    processedDocuments := report.processedDocuments + 1
    totalChunks := report.totalChunks + prepared.records.length }

/-- The report after one more document was refused. -/
def BatchReport.addFailed (report : BatchReport) (sourcePath : String) (error : IngestError) :
    BatchReport :=
  { report with
    failedDocuments := report.failedDocuments + 1
    failures := report.failures ++ [⟨sourcePath, error.message⟩] }

/-- Collect the outcomes of documents, each with the path of its document, in
order. Those prepared so far are given in reverse. -/
def collectFrom (continueOnError : Bool) (newestFirst : List PreparedDocument)
    (report : BatchReport) :
    List (String × Except IngestError PreparedDocument) →
      Except IngestError (List PreparedDocument × BatchReport)
  | [] => .ok (newestFirst.reverse, report)
  | (_, .ok prepared) :: rest =>
    collectFrom continueOnError (prepared :: newestFirst) (report.addPrepared prepared) rest
  | (sourcePath, .error error) :: rest =>
    if continueOnError then
      collectFrom continueOnError newestFirst (report.addFailed sourcePath error) rest
    else
      .error error

/-- Collect the outcomes of all documents of a batch, in order. -/
def collectOutcomes (continueOnError : Bool)
    (outcomes : List (String × Except IngestError PreparedDocument)) :
    Except IngestError (List PreparedDocument × BatchReport) :=
  collectFrom continueOnError [] { totalDocuments := outcomes.length } outcomes

/-- Prepare documents. The identifiers of each document's records are taken
from a supply of its own. -/
def processBatch (config : Config) (settings : BatchConfig) (ids : Nat → Nat → Uuid)
    (documents : List Document) : Except IngestError (List PreparedDocument × BatchReport) :=
  collectOutcomes settings.continueOnError
    (documents.mapIdx fun position document =>
      (document.sourcePath, outcomeOf config settings (ids position) document))

end Chunking
