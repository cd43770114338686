import Chunking.Batch.Pool
import Chunking.Proofs.BatchReport

/-!
# Every schedule comes to the same

A batch works on several documents at once and they finish in any order. None
of this can be seen from outside: whatever the schedule, the batch comes to
what `processBatch` says, which takes the documents one after the other.

What has been collected, what is under way and what is waiting are always the
tasks of the batch in their order, so nothing is lost, doubled or moved. This
is the invariant `Pool.InOrder`. Each event takes one off a count that starts
at three for each document: it is started, it finishes and it is collected. So
a batch ends, and as long as it has not ended some event is possible.

## Main definitions

* `Collection.addAll`: A collection to which outcomes have been added.
* `Task.entry`: The outcome of a task with the path of its document.
* `Pool.InOrder`: What is known of a batch at work.
* `Pool.eventsLeft`: How many events are to come.

## Theorems

* `Collection.answer_addAll`: Collecting one by one is collecting all.
* `Pool.InOrder.step`: An event leaves the tasks in order.
* `Pool.Step.eventsLeft`: An event counts as one.
* `Pool.answer?_eq_none_iff`: A batch that has not ended can go on.
* `Pool.InOrder.answer_eq`: A batch that has ended has taken all tasks.
* `answer_of_schedule`: What a batch comes to on any schedule.
-/

namespace Chunking

namespace Collection

variable {continueOnError : Bool}

/-- A collection to which outcomes have been added, one by one. -/
def addAll (continueOnError : Bool) (collection : Collection)
    (outcomes : List (String × Except IngestError PreparedDocument)) : Collection :=
  outcomes.foldl (fun collection outcome => collection.add continueOnError outcome.1 outcome.2)
    collection

theorem addAll_append (collection : Collection)
    (first second : List (String × Except IngestError PreparedDocument)) :
    collection.addAll continueOnError (first ++ second) =
      (collection.addAll continueOnError first).addAll continueOnError second :=
  List.foldl_append

-- A batch that has ended takes no more outcomes.
theorem addAll_stopped (error : IngestError)
    (outcomes : List (String × Except IngestError PreparedDocument)) :
    (stopped error).addAll continueOnError outcomes = stopped error := by
  induction outcomes with
  | nil => rfl
  | cons outcome outcomes ih => exact ih

/-- Collecting outcomes one by one comes to what collecting all of them does. -/
theorem answer_addAll (newestFirst : List PreparedDocument) (report : BatchReport)
    (outcomes : List (String × Except IngestError PreparedDocument)) :
    ((growing newestFirst report).addAll continueOnError outcomes).answer =
      collectFrom continueOnError newestFirst report outcomes := by
  induction outcomes generalizing newestFirst report with
  | nil => rfl
  | cons outcome outcomes ih =>
      rcases outcome with ⟨sourcePath, error | prepared⟩
      · by_cases hcontinue : continueOnError = true
        · subst hcontinue
          exact ih newestFirst (report.addFailed sourcePath error)
        · rw [Bool.not_eq_true] at hcontinue
          subst hcontinue
          -- The rest is passed over.
          change ((stopped error).addAll false outcomes).answer = .error error
          rw [addAll_stopped, answer]
      · exact ih (prepared :: newestFirst) (report.addPrepared prepared)

end Collection

section Work

variable {config : Config} {settings : BatchConfig} {ids : Nat → Nat → Uuid}
  {documents : List Document} {pool next : Pool}

/-- The outcome of a task with the path of its document. -/
def Task.entry (config : Config) (settings : BatchConfig) (ids : Nat → Nat → Uuid) (task : Task) :
    String × Except IngestError PreparedDocument :=
  (task.document.sourcePath, task.outcome config settings ids)

-- The tasks of a batch have its outcomes.
theorem map_entry_ofDocuments :
    (Task.ofDocuments documents).map (Task.entry config settings ids) =
      outcomesOf config settings ids documents := by
  rw [Task.ofDocuments, outcomesOf, List.mapIdx_eq_zipIdx_map, List.mapIdx_eq_zipIdx_map,
    List.map_map]
  rfl

/-- The tasks of a batch are in order: those whose outcomes were collected,
those under way and those waiting. -/
structure Pool.InOrder (config : Config) (settings : BatchConfig) (ids : Nat → Nat → Uuid)
    (documents : List Document) (pool : Pool) : Prop where
  /-- The collection holds the outcomes of the tasks that are neither under way
  nor waiting. -/
  collected : ∃ done : List Task,
    done ++ (pool.underWay.map Job.task ++ pool.waiting) = Task.ofDocuments documents ∧
    pool.collection = (Collection.growing [] { totalDocuments := documents.length }).addAll
      settings.continueOnError (done.map (Task.entry config settings ids))
  /-- A task that has finished has the outcome it would have alone. -/
  finished : ∀ job ∈ pool.underWay, ∀ outcome, job.outcome = some outcome →
    outcome = job.task.outcome config settings ids
  /-- No more tasks are under way than the settings allow. -/
  room : pool.underWay.length ≤ settings.capacity

theorem Pool.inOrder_ofDocuments :
    Pool.InOrder config settings ids documents (Pool.ofDocuments documents) where
  collected := ⟨[], rfl, rfl⟩
  finished := fun _ hmem => absurd hmem List.not_mem_nil
  room := Nat.zero_le _

theorem Pool.InOrder.step (horder : Pool.InOrder config settings ids documents pool)
    (hstep : Pool.Step config settings ids pool next) :
    Pool.InOrder config settings ids documents next := by
  rcases horder.collected with ⟨done, htasks, hcollection⟩
  -- Each event moves one task on, and only collecting one adds to `done`.
  cases hstep with
  | @start task waiting underWay newestFirst report hroom =>
      refine ⟨⟨done, ?_, hcollection⟩, ?_, ?_⟩
      · -- The task moves from the head of one list to the end of the other.
        rw [← htasks]
        simp only [List.map_append, List.map_cons, List.map_nil, List.append_assoc,
          List.singleton_append]
      · intro job hmem outcome houtcome
        rcases List.mem_append.mp hmem with hbefore | hnew
        · exact horder.finished job hbefore outcome houtcome
        · rw [List.mem_singleton.mp hnew] at houtcome
          exact absurd houtcome (by simp)
      · simp only [List.length_append, List.length_singleton]
        omega
  | @finish task waiting newestFirst report before after =>
      refine ⟨⟨done, ?_, hcollection⟩, ?_, ?_⟩
      · rw [← htasks]
        simp only [List.map_append, List.map_cons]
      · intro job hmem outcome houtcome
        rcases List.mem_append.mp hmem with hbefore | hrest
        · exact horder.finished job (List.mem_append_left _ hbefore) outcome houtcome
        · rcases List.mem_cons.mp hrest with hjob | hafter
          · subst hjob
            exact (Option.some.inj houtcome).symm
          · exact horder.finished job
              (List.mem_append_right _ (List.mem_cons_of_mem _ hafter)) outcome houtcome
      · have hroom := horder.room
        simp only [List.length_append, List.length_cons] at hroom ⊢
        exact hroom
  | @collect task outcome waiting underWay newestFirst report =>
      refine ⟨⟨done ++ [task], ?_, ?_⟩, ?_, ?_⟩
      · rw [← htasks]
        simp only [List.map_cons, List.append_assoc, List.cons_append, List.nil_append]
      · -- What is collected is what the task had to come to.
        have houtcome : outcome = task.outcome config settings ids :=
          horder.finished ⟨task, some outcome⟩ List.mem_cons_self outcome rfl
        change Collection.growing newestFirst report = _ at hcollection
        rw [List.map_append, Collection.addAll_append, ← hcollection, houtcome]
        rfl
      · intro job hmem
        exact horder.finished job (List.mem_cons_of_mem _ hmem)
      · have hroom := horder.room
        simp only [List.length_cons] at hroom
        exact Nat.le_of_succ_le hroom

theorem Pool.InOrder.run {n : Nat} (hrun : Pool.Run config settings ids n pool next)
    (horder : Pool.InOrder config settings ids documents pool) :
    Pool.InOrder config settings ids documents next := by
  induction hrun with
  | nil pool => exact horder
  | snoc _ hstep ih => exact (ih horder).step hstep

/-- The events to come for a task under way. -/
def Job.eventsLeft (job : Job) : Nat :=
  if job.outcome.isSome then 1 else 2

/-- The events to come in a batch that is carried through. -/
def Pool.eventsLeft (pool : Pool) : Nat :=
  3 * pool.waiting.length + (pool.underWay.map Job.eventsLeft).sum

-- To start leaves two events of three, to finish one of two, to collect none of one.
theorem Pool.Step.eventsLeft (hstep : Pool.Step config settings ids pool next) :
    next.eventsLeft + 1 = pool.eventsLeft := by
  cases hstep with
  | start _ =>
      simp only [Pool.eventsLeft, Job.eventsLeft, List.length_cons, List.map_append, List.map_cons,
        List.map_nil, List.sum_append, List.sum_cons, List.sum_nil, Option.isSome_none,
        Bool.false_eq_true, if_false]
      omega
  | finish =>
      simp only [Pool.eventsLeft, Job.eventsLeft, List.map_append, List.map_cons, List.sum_append,
        List.sum_cons, Option.isSome_none, Option.isSome_some, Bool.false_eq_true, if_false,
        if_true]
      omega
  | collect =>
      simp only [Pool.eventsLeft, Job.eventsLeft, List.map_cons, List.sum_cons, Option.isSome_some,
        if_true]
      omega

theorem Pool.Run.eventsLeft {n : Nat} (hrun : Pool.Run config settings ids n pool next) :
    next.eventsLeft + n = pool.eventsLeft := by
  induction hrun with
  | nil pool => rfl
  | snoc _ hstep ih =>
      have hone := hstep.eventsLeft
      omega

/-- A batch has ended exactly when no event is possible. In particular there is
always a place for the first task. -/
theorem Pool.answer?_eq_none_iff :
    pool.answer? = none ↔ ∃ next, Pool.Step config settings ids pool next := by
  constructor
  · intro hnone
    rcases pool with ⟨waiting, underWay, ⟨newestFirst, report⟩ | error⟩
    · cases underWay with
      | nil =>
          cases waiting with
          | nil => exact absurd hnone (by simp [Pool.answer?])
          | cons task waiting =>
              have hroom : ([] : List Job).length < settings.capacity :=
                Nat.lt_of_lt_of_le Nat.zero_lt_one (Nat.le_max_right _ 1)
              exact ⟨_, .start hroom⟩
      | cons job underWay =>
          rcases job with ⟨task, none | outcome⟩
          · exact ⟨_, .finish [] underWay⟩
          · exact ⟨_, .collect⟩
    · exact absurd hnone (by simp [Pool.answer?])
  · intro hstep
    rcases hstep with ⟨next, hstep⟩
    cases hstep <;> simp [Pool.answer?]

/-- A batch that has ended comes to what it comes to in order, whatever it has
not collected. -/
theorem Pool.InOrder.answer_eq (horder : Pool.InOrder config settings ids documents pool)
    {answer : Except IngestError (List PreparedDocument × BatchReport)}
    (hanswer : pool.answer? = some answer) :
    answer = processBatch config settings ids documents := by
  rcases horder.collected with ⟨done, htasks, hcollection⟩
  have hbatch : processBatch config settings ids documents =
      (pool.collection.addAll settings.continueOnError ((pool.underWay.map Job.task ++
        pool.waiting).map (Task.entry config settings ids))).answer := by
    rw [hcollection, ← Collection.addAll_append, ← List.map_append, htasks,
      Collection.answer_addAll, map_entry_ofDocuments, processBatch_eq_collectFrom]
  rw [hbatch]
  -- Either nothing is left to be added, or the batch takes nothing more.
  rcases pool with ⟨waiting, underWay, ⟨newestFirst, report⟩ | error⟩
  · simp only [Pool.answer?, Option.ite_none_right_eq_some, Bool.and_eq_true,
      List.isEmpty_iff] at hanswer
    rcases hanswer with ⟨⟨rfl, rfl⟩, hcollected⟩
    exact (Option.some.inj hcollected).symm
  · rw [Collection.addAll_stopped]
    exact (Option.some.inj hanswer).symm

end Work

/-- A batch comes to the same on every schedule, and it does come to something.
At most as many documents are under way as the settings allow, and at least one
may be. There are three events for each document and no more, and as long as
the batch has not ended one of them is possible. Once it has ended it has come
to what it comes to one document after the other: the first document that is
too large ends it with an error if such documents are not passed over, and
otherwise the documents that fit come out in order, each prepared as it would
be alone, with a report on all of them. -/
theorem answer_of_schedule (config : Config) (settings : BatchConfig) (ids : Nat → Nat → Uuid)
    (documents : List Document) {n : Nat} {pool : Pool}
    (hrun : Pool.Run config settings ids n (Pool.ofDocuments documents) pool) :
    let prepared := (documents.zipIdx.filter fun task => !settings.tooLarge task.1).map fun task =>
      prepareAs config settings.strategy (ids task.2) task.1
    let report := settings.reportOn documents prepared
    pool.underWay.length ≤ max settings.concurrency.toNat 1 ∧
      n ≤ 3 * documents.length ∧
      (pool.answer? = none ↔ ∃ next, Pool.Step config settings ids pool next) ∧
      report.processedDocuments + report.failedDocuments = report.totalDocuments ∧
      ∀ answer, pool.answer? = some answer →
        answer = processBatch config settings ids documents ∧
          answer =
            match settings.stopsAt? documents with
            | none => .ok (prepared, report)
            | some document => .error (settings.refusal document) := by
  intro prepared report
  have hprepared : preparedOf (outcomesOf config settings ids documents) = prepared :=
    preparedOf_outcomesOf config settings ids documents
  have horder := Pool.inOrder_ofDocuments.run hrun
  refine ⟨horder.room, ?_, Pool.answer?_eq_none_iff, ?_, fun answer hanswer => ?_⟩
  · have hevents := hrun.eventsLeft
    have hlength : (Pool.ofDocuments documents).eventsLeft = 3 * documents.length := by
      simp [Pool.eventsLeft, Pool.ofDocuments, Task.ofDocuments]
    omega
  · have hcount := length_preparedOf_add_length_refusedOf config settings ids documents
    rw [hprepared] at hcount
    exact hcount
  · have hbatch := horder.answer_eq hanswer
    have hinorder := processBatch_eq config settings ids documents
    rw [hprepared] at hinorder
    exact ⟨hbatch, hbatch.trans hinorder⟩

/-- Of two documents under way the second one finishes first, and is refused. -/
theorem answer_of_schedule_second_first :
    let settings : BatchConfig := { concurrency := 2, maxContentSize := 3 }
    let ids : Nat → Nat → Uuid := fun _ _ => ⟨0⟩
    let first : Document := { sourcePath := "a.txt", content := "x" }
    let second : Document := { sourcePath := "b.txt", content := "large" }
    ∃ pool, Pool.Run {} settings ids 6 (Pool.ofDocuments [first, second]) pool ∧
      pool.answer? = some (processBatch {} settings ids [first, second]) ∧
      processBatch {} settings ids [first, second] =
        .ok ([prepare {} (ids 0) first],
          { totalDocuments := 2
            processedDocuments := 1
            failedDocuments := 1
            totalChunks := 1
            failures := [⟨"b.txt", "document b.txt is 5 bytes, above the 3 byte limit"⟩] }) := by
  intro settings ids first second
  have hroom : 0 < settings.capacity ∧ 1 < settings.capacity := by
    decide
  -- Both are started, the second finishes before the first, and both are collected.
  have hstart : Pool.Run {} settings ids 0 (Pool.ofDocuments [first, second]) _ := .nil _
  have hrun := Pool.Run.snoc (.snoc (.snoc (.snoc (.snoc (.snoc hstart (.start hroom.1))
    (.start hroom.2)) (.finish [⟨⟨0, first⟩, none⟩] [])) (.finish [] _)) .collect) .collect
  have hends := (answer_of_schedule {} settings ids [first, second] hrun).2.2.2.2 _ rfl
  have hreport : settings.reportOn [first, second] [prepare {} (ids 0) first] =
      { totalDocuments := 2
        processedDocuments := 1
        failedDocuments := 1
        totalChunks := 1
        failures := [⟨"b.txt", "document b.txt is 5 bytes, above the 3 byte limit"⟩] } := by
    decide +kernel
  refine ⟨_, hrun, congrArg some hends.1, ?_⟩
  rw [← hends.1, hends.2, ← hreport]
  rfl

end Chunking
