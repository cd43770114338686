import Chunking.Options
import Chunking.Size

/-!
# Settings from the environment

A configuration may be given by variables, one for each size. A variable that
is not set, or does not spell a size, leaves the default.

The value of a variable ends at a character of code zero, so a text with such a
character cannot be one. To set a variable to it is an error.

## Main definitions

* `Environment`: Variables with their values.
* `Environment.get?`: The value of a variable.
* `Environment.setDefault?`: Set a variable unless it is set.
* `Config.ofEnvironment`: The configuration that variables ask for.
-/

namespace Chunking

/-- Variables with their values. The first value of a variable counts. -/
structure Environment where
  bindings : List (String × String) := []
  deriving DecidableEq, Repr

namespace Environment

/-- The value of a variable, if it is set. -/
def get? (env : Environment) (name : String) : Option String :=
  env.bindings.lookup name

/-- Set a variable unless it is set; nothing if that would set it to a text that
cannot be a value. -/
def setDefault? (env : Environment) (name value : String) : Option Environment :=
  if (env.get? name).isSome then some env
  else if value.toList.contains '\x00' then none
  else some ⟨env.bindings ++ [(name, value)]⟩

/-- The size that a variable spells, or a default. -/
def sizeOr (env : Environment) (name : String) (default : UInt64) : UInt64 :=
  ((env.get? name).bind parseSize?).getD default

end Environment

/-- The configuration that variables ask for. -/
def Config.ofEnvironment (env : Environment) : Config :=
  let default : Config := {}
  { text :=
      { chunkSize := env.sizeOr "CHUNK_SIZE" default.text.chunkSize
        overlap := env.sizeOr "CHUNK_OVERLAP" default.text.overlap
        threshold := env.sizeOr "CHUNK_THRESHOLD" default.text.threshold }
    code :=
      { targetSize := env.sizeOr "CODE_TARGET_SIZE" default.code.targetSize
        margin := env.sizeOr "CODE_MARGIN" default.code.margin
        minChunkSize := env.sizeOr "CODE_MIN_CHUNK_SIZE" default.code.minChunkSize
        threshold := env.sizeOr "CODE_CHUNK_THRESHOLD" default.code.threshold }
    batchConcurrency := env.sizeOr "BATCH_CONCURRENCY" default.batchConcurrency
    maxContentSize := env.sizeOr "MAX_CONTENT_SIZE" default.maxContentSize }

end Chunking
