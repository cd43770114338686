import Mathlib.Algebra.GroupWithZero.Nat
import Mathlib.Data.List.Basic
import Chunking.Batch

/-!
# What a batch comes to

What comes out of a batch, said of its documents and not of the loop over
them. Only the size of a document decides whether it is refused, so the
documents fall into two lists, each in the order of the batch: those that fit
and those that do not. Everything in the report is a count or a listing of one
of the two.

## Main definitions

* `BatchConfig.tooLarge`: Whether a document is refused.
* `BatchConfig.refusal`: The error of a refused document.
* `prepareAs`: Prepare a document with the strategy of a batch.
* `preparedOf`, `refusedOf`: The two kinds of outcomes.
* `BatchReport.addAll`: A report to which outcomes have been added.
* `outcomesOf`: The outcomes of a batch.
* `BatchConfig.stopsAt?`: The document at which a batch stops.
* `BatchConfig.reportOn`: The report on a batch that does not stop.

## Theorems

* `collectFrom_of_continue`: Outcomes that are collected to the end.
* `collectFrom_of_error`: Outcomes that are collected up to an error.
* `preparedOf_outcomesOf`, `refusedOf_outcomesOf`: The two lists.
* `processBatch_eq`: What a batch comes to.
-/

namespace Chunking

/-- Whether a document is refused for its size in bytes. -/
def BatchConfig.tooLarge (settings : BatchConfig) (document : Document) : Bool :=
  settings.maxContentSize.toNat < document.content.utf8ByteSize

/-- The error of a document that is refused. -/
def BatchConfig.refusal (settings : BatchConfig) (document : Document) : IngestError :=
  .contentTooLarge document.sourcePath document.content.utf8ByteSize settings.maxContentSize

/-- Prepare a document with a strategy, or the way its file name asks for. -/
def prepareAs (config : Config) (strategy : Option Strategy) (ids : Nat → Uuid)
    (document : Document) : PreparedDocument :=
  match strategy with
  | some strategy => prepareWith config strategy ids document
  | none => prepare config ids document

theorem outcomeOf_of_tooLarge (config : Config) {settings : BatchConfig} (ids : Nat → Uuid)
    {document : Document} (h : settings.tooLarge document = true) :
    outcomeOf config settings ids document = .error (settings.refusal document) := by
  rw [BatchConfig.tooLarge, decide_eq_true_eq] at h
  simp only [outcomeOf, if_pos h, BatchConfig.refusal]

theorem outcomeOf_of_fits (config : Config) {settings : BatchConfig} (ids : Nat → Uuid)
    {document : Document} (h : settings.tooLarge document = false) :
    outcomeOf config settings ids document =
      .ok (prepareAs config settings.strategy ids document) := by
  rw [BatchConfig.tooLarge, decide_eq_false_iff_not] at h
  simp only [outcomeOf, if_neg h, prepareAs]
  cases settings.strategy <;> rfl

section Outcomes

variable (outcomes : List (String × Except IngestError PreparedDocument))

/-- The documents that were prepared, in order. -/
def preparedOf : List PreparedDocument :=
  outcomes.filterMap fun outcome => outcome.2.toOption

/-- The paths of the others with the errors, in order. -/
def refusedOf : List (String × IngestError) :=
  outcomes.filterMap fun outcome =>
    match outcome.2 with
    | .ok _ => none
    | .error error => some (outcome.1, error)

/-- A report to which outcomes have been added. -/
def BatchReport.addAll (report : BatchReport) : BatchReport where
  totalDocuments := report.totalDocuments
  processedDocuments := report.processedDocuments + (preparedOf outcomes).length
  failedDocuments := report.failedDocuments + (refusedOf outcomes).length
  totalChunks :=
    report.totalChunks + ((preparedOf outcomes).map fun prepared => prepared.records.length).sum
  failures := report.failures ++ (refusedOf outcomes).map fun refused =>
    ⟨refused.1, refused.2.message⟩

end Outcomes

section Collect

variable {outcomes : List (String × Except IngestError PreparedDocument)} {report : BatchReport}

theorem BatchReport.addAll_nil : report.addAll [] = report := by
  simp [BatchReport.addAll, preparedOf, refusedOf]

-- Adding the first outcome first comes to the same, whichever kind it is of.
theorem BatchReport.addAll_cons_ok (sourcePath : String) (prepared : PreparedDocument) :
    report.addAll ((sourcePath, .ok prepared) :: outcomes) =
      (report.addPrepared prepared).addAll outcomes := by
  simp only [BatchReport.addAll, BatchReport.addPrepared, preparedOf, refusedOf, Except.toOption,
    List.filterMap_cons, List.length_cons, List.map_cons, List.sum_cons, BatchReport.mk.injEq,
    true_and, and_true]
  omega

theorem BatchReport.addAll_cons_error (sourcePath : String) (error : IngestError) :
    report.addAll ((sourcePath, .error error) :: outcomes) =
      (report.addFailed sourcePath error).addAll outcomes := by
  simp only [BatchReport.addAll, BatchReport.addFailed, preparedOf, refusedOf, Except.toOption,
    List.filterMap_cons, List.length_cons, List.map_cons, List.append_assoc, List.singleton_append,
    BatchReport.mk.injEq, true_and, and_true]
  omega

/-- Outcomes that are collected to the end, because errors are passed over or
there are none. -/
theorem collectFrom_of_continue {continueOnError : Bool} (newestFirst : List PreparedDocument)
    (h : continueOnError = true ∨ refusedOf outcomes = []) :
    collectFrom continueOnError newestFirst report outcomes =
      .ok (newestFirst.reverse ++ preparedOf outcomes, report.addAll outcomes) := by
  induction outcomes generalizing newestFirst report with
  | nil => simp [collectFrom, preparedOf, BatchReport.addAll_nil]
  | cons outcome outcomes ih =>
      rcases outcome with ⟨sourcePath, error | prepared⟩
      · have hcontinue : continueOnError = true := h.resolve_right (by simp [refusedOf])
        rw [collectFrom, if_pos hcontinue, ih newestFirst (Or.inl hcontinue),
          BatchReport.addAll_cons_error]
        rfl
      · have hrest : continueOnError = true ∨ refusedOf outcomes = [] := h.imp_right fun hnone => by
          simpa [refusedOf] using hnone
        rw [collectFrom, ih (prepared :: newestFirst) hrest, BatchReport.addAll_cons_ok]
        simp [preparedOf, Except.toOption]

-- Outcomes that are collected up to the first error.
theorem collectFrom_of_error (newestFirst : List PreparedDocument)
    {refused : String × IngestError} (h : (refusedOf outcomes).head? = some refused) :
    collectFrom false newestFirst report outcomes = .error refused.2 := by
  induction outcomes generalizing newestFirst report with
  | nil => exact absurd h (by simp [refusedOf])
  | cons outcome outcomes ih =>
      rcases outcome with ⟨sourcePath, error | prepared⟩
      · rcases Option.some.inj h with rfl
        rw [collectFrom, if_neg Bool.false_ne_true]
      · rw [collectFrom]
        exact ih (prepared :: newestFirst) h

end Collect

section Batch

variable (config : Config) (settings : BatchConfig) (ids : Nat → Nat → Uuid)
  (documents : List Document)

/-- The outcomes of a batch in order. -/
def outcomesOf : List (String × Except IngestError PreparedDocument) :=
  documents.mapIdx fun position document =>
    (document.sourcePath, outcomeOf config settings (ids position) document)

/-- The documents that fit are prepared, in order, each with its own supply. -/
theorem preparedOf_outcomesOf :
    preparedOf (outcomesOf config settings ids documents) =
      (documents.zipIdx.filter fun task => !settings.tooLarge task.1).map fun task =>
        prepareAs config settings.strategy (ids task.2) task.1 := by
  rw [preparedOf, outcomesOf, List.mapIdx_eq_zipIdx_map, List.filterMap_map]
  -- That the positions are in order plays no part.
  generalize documents.zipIdx = tasks
  induction tasks with
  | nil => rfl
  | cons task tasks ih =>
      rw [List.filterMap_cons, List.filter_cons, ih]
      by_cases hlarge : settings.tooLarge task.1 = true
      · simp [outcomeOf_of_tooLarge config _ hlarge, hlarge, Except.toOption]
      · rw [Bool.not_eq_true] at hlarge
        simp [outcomeOf_of_fits config _ hlarge, hlarge, Except.toOption]

-- The others are refused, in order.
theorem refusedOf_outcomesOf :
    refusedOf (outcomesOf config settings ids documents) =
      (documents.filter settings.tooLarge).map fun document =>
        (document.sourcePath, settings.refusal document) := by
  rw [refusedOf, outcomesOf, List.mapIdx_eq_zipIdx_map, List.filterMap_map]
  -- The positions play no part, and may be counted from anywhere.
  generalize 0 = offset
  induction documents generalizing offset with
  | nil => rfl
  | cons document documents ih =>
      rw [List.zipIdx_cons, List.filterMap_cons, List.filter_cons, ih]
      by_cases hlarge : settings.tooLarge document = true
      · simp [outcomeOf_of_tooLarge config _ hlarge, hlarge]
      · rw [Bool.not_eq_true] at hlarge
        simp [outcomeOf_of_fits config _ hlarge, hlarge]

-- Positions make no difference to what is left of a list.
theorem filter_eq_map_fst (keep : Document → Bool) :
    documents.filter keep = (documents.zipIdx.filter fun task => keep task.1).map Prod.fst := by
  rw [← Function.comp_def keep, ← List.filter_map, List.zipIdx_map_fst]

/-- Each document of a batch is prepared or refused. -/
theorem length_preparedOf_add_length_refusedOf :
    (preparedOf (outcomesOf config settings ids documents)).length +
      (documents.filter settings.tooLarge).length = documents.length := by
  have hsplit := List.length_eq_length_filter_add (l := documents.zipIdx)
    fun task => settings.tooLarge task.1
  rw [List.length_zipIdx] at hsplit
  rw [preparedOf_outcomesOf, List.length_map, filter_eq_map_fst, List.length_map]
  omega

/-- The document at which a batch stops: the first one that is too large, unless
such documents are passed over. -/
def BatchConfig.stopsAt? : Option Document :=
  if settings.continueOnError then none else documents.find? settings.tooLarge

/-- The report on a batch that does not stop, for the documents it has prepared. -/
def BatchConfig.reportOn (prepared : List PreparedDocument) : BatchReport where
  totalDocuments := documents.length
  processedDocuments := prepared.length
  failedDocuments := (documents.filter settings.tooLarge).length
  totalChunks := (prepared.map fun document => document.records.length).sum
  failures := (documents.filter settings.tooLarge).map fun document =>
    ⟨document.sourcePath, (settings.refusal document).message⟩

theorem addAll_outcomesOf :
    BatchReport.addAll (outcomesOf config settings ids documents)
        { totalDocuments := documents.length } =
      settings.reportOn documents (preparedOf (outcomesOf config settings ids documents)) := by
  simp only [BatchReport.addAll, BatchConfig.reportOn, refusedOf_outcomesOf, List.length_map,
    List.map_map, Function.comp_def, Nat.zero_add, List.nil_append]

theorem processBatch_eq_collectFrom :
    processBatch config settings ids documents =
      collectFrom settings.continueOnError [] { totalDocuments := documents.length }
        (outcomesOf config settings ids documents) := by
  have hlength : (outcomesOf config settings ids documents).length = documents.length := by
    rw [outcomesOf, List.length_mapIdx]
  rw [← hlength]
  rfl

/-- A batch stops at a document, or comes to the documents that fit. -/
theorem processBatch_eq :
    processBatch config settings ids documents =
      match settings.stopsAt? documents with
      | none =>
        .ok (preparedOf (outcomesOf config settings ids documents),
          settings.reportOn documents (preparedOf (outcomesOf config settings ids documents)))
      | some document => .error (settings.refusal document) := by
  rw [processBatch_eq_collectFrom, BatchConfig.stopsAt?]
  by_cases hcontinue : settings.continueOnError = true
  · rw [collectFrom_of_continue [] (Or.inl hcontinue), addAll_outcomesOf, if_pos hcontinue]
    rfl
  · rw [if_neg hcontinue]
    cases hfirst : documents.find? settings.tooLarge with
    | none =>
        have hnone : refusedOf (outcomesOf config settings ids documents) = [] := by
          rw [refusedOf_outcomesOf, List.map_eq_nil_iff, List.filter_eq_nil_iff]
          exact List.find?_eq_none.mp hfirst
        rw [collectFrom_of_continue [] (Or.inr hnone), addAll_outcomesOf]
        rfl
    | some document =>
        have hhead : (refusedOf (outcomesOf config settings ids documents)).head? =
            some (document.sourcePath, settings.refusal document) := by
          rw [refusedOf_outcomesOf, List.head?_map, List.head?_filter, hfirst]
          rfl
        rw [Bool.not_eq_true] at hcontinue
        rw [hcontinue, collectFrom_of_error [] hhead]

end Batch

end Chunking
