import Chunking.CommandLine.Arguments
import Chunking.FileTree
import Chunking.SettingsFile.Basic
import Chunking.Stored.Codecs

/-!
# Running the command line

Files in, one line of JSON per chunk out. All of it is decided before anything
is printed: a run that fails prints nothing.

Three things can make a run fail, and they are looked at in this order. The
configuration may be refused. A file may be unreadable, and a document may be
too large; both are passed over, unless the run is to stop at the first
failure.

Two things make it crash. A variable tells how many threads there are to be, and
without a number in it nothing can start, not even the reading of the words. And
the settings file may give a variable a value that no variable can have.

What is printed may not arrive. `Outcome.deliver` says what does, where standard
output takes some bytes and then no more: a run fails, and leaves a beginning of
its lines, while a question about the program is answered as far as possible.

## Main definitions

* `Surroundings`: What a run finds around it.
* `nearestSettings`: The settings file among those in several directories.
* `ExitCode`: How a run ends.
* `Outcome`: How a run ends, and what it has to print.
* `loadAll`: Read the documents of a run.
* `Invocation.run`: Chunk files.
* `runCommandLine`: Do what the words on the command line ask for.
* `Outcome.deliver`: What arrives of what is printed.
-/

namespace Chunking

/-- What a run finds around it. -/
structure Surroundings where
  /-- The variables of the process. -/
  environment : Environment
  /-- The settings file, if there is one. -/
  settings : Option ByteArray
  /-- Read a file. -/
  read : String → Except ReadFault ByteArray

/-- The settings file among those that were looked for, the nearest one first. It is
looked for in the next place only if there is none, or a directory of its name. -/
def nearestSettings : List (Except ReadFault ByteArray) → Option ByteArray
  | [] => none
  | .ok bytes :: _ => some bytes
  | .error .notFound :: rest | .error .isADirectory :: rest => nearestSettings rest
  -- A file that is there and cannot be read ends the search.
  | .error _ :: _ => none

/-- The surroundings in the root of a tree of files. -/
def Surroundings.ofTree (environment : Environment) (tree : FileTree) : Surroundings where
  environment
  settings := nearestSettings [tree.read ".env"]
  read := tree.read

/-- How a run ends. -/
inductive ExitCode where
  | success
  | failure
  | misuse
  | crash
  deriving DecidableEq, Repr

/-- The number that stands for an exit code. -/
def ExitCode.number : ExitCode → UInt32
  | .success => 0
  | .failure => 1
  | .misuse => 2
  | .crash => 101

/-- How a run ends, and the lines it has to print. -/
structure Outcome where
  exit : ExitCode
  lines : List String := []
  /-- How it ends instead if the lines cannot all be written. -/
  ifBroken : ExitCode := .failure
  deriving DecidableEq, Repr

/-- The documents of the given files in order, but for those that cannot be
read. With `failFast` such a file is an error instead. -/
def loadAll (read : String → Except ReadFault ByteArray) (failFast : Bool) (project : String) :
    List String → Except IngestError (List Document)
  | [] => .ok []
  | path :: rest =>
    match loadDocument read project path with
    | .ok document => (loadAll read failFast project rest).map (document :: ·)
    | .error error => if failFast then .error error else loadAll read failFast project rest

/-- The identifier of every record of a run, which prints none. -/
def unnamed : Uuid :=
  ⟨0⟩

/-- The lines that a run prints for prepared documents. -/
def linesOf (documents : List PreparedDocument) : List String :=
  documents.flatMap fun document => document.payloads.map Payload.codec.encode

/-- The variable that tells how many threads there are to be. -/
def threadsVariable : String :=
  "TOKIO_WORKER_THREADS"

/-- Whether a run can start: the number of threads is not given, or it is a positive
size. -/
def Surroundings.canStart (surroundings : Surroundings) : Bool :=
  match surroundings.environment.get? threadsVariable with
  | none => true
  | some value => (parseSize? value).any (0 < ·)

/-- The configuration of a run; nothing if the settings file makes it crash. -/
def Surroundings.config? (surroundings : Surroundings) : Option Config :=
  (match surroundings.settings with
    | some bytes => surroundings.environment.withSettings? bytes
    | none => some surroundings.environment).map Config.ofEnvironment

namespace Invocation

/-- The settings of the batch that a run prepares. -/
def batch (invocation : Invocation) (config : Config) : BatchConfig :=
  { config.batch with
    continueOnError := !invocation.failFast
    strategy := invocation.strategy }

/-- Read and prepare the documents of a run. -/
def prepare (invocation : Invocation) (surroundings : Surroundings) (config : Config) :
    Except IngestError (List PreparedDocument) := do
  let documents ← loadAll surroundings.read invocation.failFast invocation.project
    invocation.files
  let (prepared, _) ← processBatch config (invocation.batch config) (fun _ _ => unnamed) documents
  return prepared

/-- Chunk files. -/
def run (invocation : Invocation) (surroundings : Surroundings) : Outcome :=
  -- The settings come first, so a crash is one whatever the files are.
  match surroundings.config? with
  | none => { exit := .crash }
  | some config =>
    match config.validate with
    | .error _ => { exit := .failure }
    | .ok () =>
      match invocation.prepare surroundings config with
      | .error _ => { exit := .failure }
      | .ok prepared => { exit := .success, lines := linesOf prepared }

end Invocation

/-- The name and version of the program. -/
def versionLine : String :=
  "ingest-chunker 0.1.0"

/-- How the program is used, in short. -/
def shortHelp : List String :=
  ["Chunk files for knowledge-base ingestion",
   "",
   "Usage: ingest-chunker [OPTIONS] <FILES>...",
   "",
   "Arguments:",
   "  <FILES>...  Files to chunk",
   "",
   "Options:",
   "      --project <PROJECT>    Project name stored in every payload [default: ]",
   "      --strategy <STRATEGY>  Chunking strategy [default: auto] [possible values: auto, code, text]",
   "      --fail-fast            Stop at the first file that fails",
   "  -h, --help                 Print help (see more with '--help')",
   "  -V, --version              Print version"]

/-- How the program is used, at length. What belongs to an argument is indented, and so
is the blank line before its default. -/
def longHelp : List String :=
  ["Chunk files for knowledge-base ingestion",
   "",
   "Usage: ingest-chunker [OPTIONS] <FILES>...",
   "",
   "Arguments:",
   "  <FILES>...",
   "          Files to chunk",
   "",
   "Options:",
   "      --project <PROJECT>",
   "          Project name stored in every payload",
   "          ",
   "          [default: ]",
   "",
   "      --strategy <STRATEGY>",
   "          Chunking strategy",
   "          ",
   "          [default: auto]",
   "",
   "          Possible values:",
   "          - auto: Pick by file extension",
   "          - code: Force boundary-aware code chunking",
   "          - text: Force plain sliding-window chunking",
   "",
   "      --fail-fast",
   "          Stop at the first file that fails",
   "",
   "  -h, --help",
   "          Print help (see a summary with '-h')",
   "",
   "  -V, --version",
   "          Print version"]

/-- Do what the words on the command line ask for. -/
def runCommandLine (surroundings : Surroundings) (words : List String) : Outcome :=
  if surroundings.canStart then
    match Request.ofArguments words with
    | .run invocation => invocation.run surroundings
    | .version => { exit := .success, lines := [versionLine], ifBroken := .success }
    | .help long =>
      { exit := .success, lines := if long then longHelp else shortHelp, ifBroken := .success }
    | .misuse => { exit := .misuse }
  else { exit := .crash }

/-- The bytes of a line with its newline. -/
def bytesOfLine (line : String) : ByteArray :=
  (line.push '\n').toUTF8

/-- The bytes of all lines. -/
def Outcome.bytes (outcome : Outcome) : List UInt8 :=
  outcome.lines.flatMap fun line => (bytesOfLine line).toList

end Chunking
