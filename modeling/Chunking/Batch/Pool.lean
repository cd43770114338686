import Chunking.Batch

/-!
# Batches at work

A batch works on several documents at the same time. They are started in the
order of the batch, as long as fewer are under way than the settings allow, and
each of them finishes when it likes. The outcomes are collected in the order of
the batch all the same: the outcome of a document that finishes early waits
until those before it have been collected, and until then the document counts
as under way.

A step is one of these three events, and nothing says which of the documents
under way is the next one to finish. So the runs of a pool are all schedules
that a batch can have.

## Main definitions

* `Task`: A document of a batch, with its position there.
* `Job`: A task that is under way.
* `Collection`: What has been collected of a batch.
* `Pool`: A batch at work.
* `Pool.Step`: One event.
* `Pool.Run`: A counted row of events.
* `Pool.answer?`: What a batch comes to, once it has ended.
-/

namespace Chunking

/-- A document of a batch, with its position there. -/
structure Task where
  position : Nat
  document : Document

/-- The tasks of a batch in order. -/
def Task.ofDocuments (documents : List Document) : List Task :=
  documents.mapIdx fun position document => ⟨position, document⟩

/-- A task that is under way, with its outcome once it has finished. -/
structure Job where
  task : Task
  outcome : Option (Except IngestError PreparedDocument) := none

/-- What has been collected of a batch. -/
inductive Collection where
  /-- The documents prepared so far, the last one first, and the report. -/
  | growing (newestFirst : List PreparedDocument) (report : BatchReport)
  /-- The error that has ended the batch. -/
  | stopped (error : IngestError)

namespace Collection

/-- Collect one more outcome. A batch that has ended takes none. -/
def add (continueOnError : Bool) (collection : Collection) (sourcePath : String)
    (outcome : Except IngestError PreparedDocument) : Collection :=
  match collection, outcome with
  | .growing newestFirst report, .ok prepared =>
    .growing (prepared :: newestFirst) (report.addPrepared prepared)
  | .growing newestFirst report, .error error =>
    if continueOnError then .growing newestFirst (report.addFailed sourcePath error)
    else .stopped error
  | .stopped error, _ => .stopped error

/-- What a batch comes to when nothing is added. -/
def answer : Collection → Except IngestError (List PreparedDocument × BatchReport)
  | .growing newestFirst report => .ok (newestFirst.reverse, report)
  | .stopped error => .error error

end Collection

/-- A batch at work. -/
structure Pool where
  /-- The tasks that have not been started. -/
  waiting : List Task
  /-- The tasks that have been started and whose outcomes have not been
  collected, in order. -/
  underWay : List Job
  /-- What has been collected. -/
  collection : Collection

namespace Pool

/-- A batch before it starts. -/
def ofDocuments (documents : List Document) : Pool where
  waiting := Task.ofDocuments documents
  underWay := []
  collection := .growing [] { totalDocuments := documents.length }

/-- What a batch comes to, once it has ended: with an error, or when all
outcomes have been collected. -/
def answer? (pool : Pool) : Option (Except IngestError (List PreparedDocument × BatchReport)) :=
  match pool.collection with
  | .growing _ _ =>
    if pool.waiting.isEmpty && pool.underWay.isEmpty then some pool.collection.answer else none
  | .stopped error => some (.error error)

end Pool

/-- How many documents may be under way at the same time: at least one. -/
def BatchConfig.capacity (settings : BatchConfig) : Nat :=
  max settings.concurrency.toNat 1

section Work

variable (config : Config) (settings : BatchConfig) (ids : Nat → Nat → Uuid)

/-- What becomes of a task. Its identifiers come from a supply of its own. -/
def Task.outcome (task : Task) : Except IngestError PreparedDocument :=
  outcomeOf config settings (ids task.position) task.document

/-- One event in a batch that has not ended. -/
inductive Pool.Step : Pool → Pool → Prop where
  /-- The next task is started. -/
  | start {task : Task} {waiting : List Task} {underWay : List Job}
      {newestFirst : List PreparedDocument} {report : BatchReport}
      (room : underWay.length < settings.capacity) :
      Step ⟨task :: waiting, underWay, .growing newestFirst report⟩
        ⟨waiting, underWay ++ [⟨task, none⟩], .growing newestFirst report⟩
  /-- One of the tasks under way finishes. -/
  | finish {task : Task} {waiting : List Task} (before after : List Job)
      {newestFirst : List PreparedDocument} {report : BatchReport} :
      Step ⟨waiting, before ++ ⟨task, none⟩ :: after, .growing newestFirst report⟩
        ⟨waiting, before ++ ⟨task, some (task.outcome config settings ids)⟩ :: after,
          .growing newestFirst report⟩
  /-- The outcome of the first task under way is collected. -/
  | collect {task : Task} {outcome : Except IngestError PreparedDocument} {waiting : List Task}
      {underWay : List Job} {newestFirst : List PreparedDocument} {report : BatchReport} :
      Step ⟨waiting, ⟨task, some outcome⟩ :: underWay, .growing newestFirst report⟩
        ⟨waiting, underWay, (Collection.growing newestFirst report).add settings.continueOnError
          task.document.sourcePath outcome⟩

/-- A row of as many events as the number says. -/
inductive Pool.Run : Nat → Pool → Pool → Prop where
  | nil (pool : Pool) : Run 0 pool pool
  | snoc {n : Nat} {first pool next : Pool} (run : Run n first pool)
      (step : Pool.Step config settings ids pool next) : Run (n + 1) first next

end Work

end Chunking
