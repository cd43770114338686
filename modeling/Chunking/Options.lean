/-!
# Options

How large the pieces should be. Sizes of chunks are in characters and the
limit on a document is in bytes. All of them are 64-bit, because that is what
a stored configuration may hold, and every value is accepted by the splitters:
a size that would stall a splitter is raised to one when it is used.
`validate` tells beforehand whether any such change would be made.

## Main definitions

* `TextOptions`: Sizes for the sliding window.
* `TextOptions.frame`: The window that is really used, which always advances.
* `CodeOptions`: Sizes for source code.
* `CodeOptions.asText`: The window used where code boundaries are not.
* `Config`: All options of a run.
* `ConfigError`: Why a configuration is refused.
* `Config.validate`: Refuse what would be changed in use.
-/

namespace Chunking

/-- Why a configuration is refused. -/
inductive ConfigError where
  /-- The size of the given name is zero. -/
  | zeroSize (name : String)
  /-- The overlap is not smaller than the window. -/
  | overlapTooLarge (overlap chunkSize : UInt64)
  deriving DecidableEq, Repr

/-- The text shown for a refused configuration. -/
def ConfigError.message : ConfigError → String
  | .zeroSize name => s!"{name} must be greater than zero"
  | .overlapTooLarge overlap chunkSize =>
    s!"overlap ({overlap}) must be smaller than chunk_size ({chunkSize})"

/-- The characters a window repeats from its predecessor, by default. -/
def defaultOverlap : UInt64 := 200

/-- The length up to which content is never split, by default. -/
def defaultThreshold : UInt64 := 500

/-- Sizes for the sliding window, in characters. -/
structure TextOptions where
  /-- The most characters in one chunk. -/
  chunkSize : UInt64 := 2400
  /-- Characters repeated from the end of one chunk at the start of the next. -/
  overlap : UInt64 := defaultOverlap
  /-- Content up to this length is one chunk. -/
  threshold : UInt64 := defaultThreshold
  deriving DecidableEq, Repr

/-- A window that advances: what it repeats is less than what it holds. -/
structure Frame where
  /-- The characters in a full window. -/
  size : Nat
  /-- The characters it shares with the next window. -/
  overlap : Nat
  /-- Every window reaches past its predecessor. -/
  overlap_lt_size : overlap < size

/-- The distance between the starts of two consecutive windows. -/
def Frame.step (frame : Frame) : Nat :=
  frame.size - frame.overlap

/-- The next window starts later. -/
theorem Frame.step_pos (frame : Frame) : 0 < frame.step :=
  Nat.sub_pos_of_lt frame.overlap_lt_size

namespace TextOptions

/-- Default options with the given window. -/
def ofSize (chunkSize : UInt64) : TextOptions :=
  { chunkSize }

/-- The same options with another overlap. -/
def withOverlap (options : TextOptions) (overlap : UInt64) : TextOptions :=
  { options with overlap }

/-- The same options with another threshold. -/
def withThreshold (options : TextOptions) (threshold : UInt64) : TextOptions :=
  { options with threshold }

/-- The window that is really used: it holds at least one character, and it
repeats fewer than it holds. -/
def frame (options : TextOptions) : Frame where
  size := max options.chunkSize.toNat 1
  overlap := min options.overlap.toNat (max options.chunkSize.toNat 1 - 1)
  overlap_lt_size := by omega

/-- Refuse options whose frame would differ from what they say. -/
def validate (options : TextOptions) : Except ConfigError Unit :=
  if options.chunkSize = 0 then
    .error (.zeroSize "chunk_size")
  else if options.chunkSize ≤ options.overlap then
    .error (.overlapTooLarge options.overlap options.chunkSize)
  else
    .ok ()

end TextOptions

/-- Sizes for source code, in characters. -/
structure CodeOptions where
  /-- The preferred length of a chunk. -/
  targetSize : UInt64 := 2400
  /-- How far from the target a split may lie. -/
  margin : UInt64 := 600
  /-- The least length of a chunk that is not the last. -/
  minChunkSize : UInt64 := 800
  /-- Content up to this length is one chunk. -/
  threshold : UInt64 := defaultThreshold
  deriving DecidableEq, Repr

namespace CodeOptions

/-- Default options with the given target. -/
def ofTarget (targetSize : UInt64) : CodeOptions :=
  { targetSize }

/-- The same options with another margin. -/
def withMargin (options : CodeOptions) (margin : UInt64) : CodeOptions :=
  { options with margin }

/-- The same options with another least length. -/
def withMinChunkSize (options : CodeOptions) (minChunkSize : UInt64) : CodeOptions :=
  { options with minChunkSize }

/-- The same options with another threshold. -/
def withThreshold (options : CodeOptions) (threshold : UInt64) : CodeOptions :=
  { options with threshold }

/-- The window used where code boundaries are not: as large as the target, with
the default overlap. -/
def asText (options : CodeOptions) : TextOptions where
  chunkSize := options.targetSize
  overlap := defaultOverlap
  threshold := options.threshold

/-- Refuse sizes that would be raised to one. -/
def validate (options : CodeOptions) : Except ConfigError Unit :=
  if options.targetSize = 0 then
    .error (.zeroSize "target_size")
  else if options.minChunkSize = 0 then
    .error (.zeroSize "min_chunk_size")
  else
    .ok ()

end CodeOptions

/-- All options of a run. -/
structure Config where
  /-- Sizes for prose. -/
  text : TextOptions := {}
  /-- Sizes for source code. -/
  code : CodeOptions := {}
  /-- Documents of a batch that are prepared at the same time. -/
  batchConcurrency : UInt64 := 4
  /-- The most bytes in one document. -/
  maxContentSize : UInt64 := 10485760
  deriving DecidableEq, Repr

/-- Refuse a configuration of which some part would be changed in use. The
text options are looked at first, then the code options. -/
def Config.validate (config : Config) : Except ConfigError Unit := do
  config.text.validate
  config.code.validate
  if config.batchConcurrency = 0 then
    throw (.zeroSize "batch_concurrency")

end Chunking
