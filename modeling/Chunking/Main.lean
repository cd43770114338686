import Chunking.CommandLine.Run

/-!
# The program

Gathers what a run finds around it, and prints what the run decides. Every
file is read before the run starts, because the run itself only looks things
up.

## Main definitions

* `variablesIn`: The variables in the list that the system keeps of them.
* `readFile`: Read a file, with the reason if that fails.
* `settingsPaths`: Where a settings file is looked for.
* `surroundingsOf`: What a run with the given words finds around it.
* `main`: The program.
-/

namespace Chunking

/-- The file in which the system keeps the variables of the process. -/
def variablesPath : String :=
  "/proc/self/environ"

/-- The variable that an entry sets; nothing if the entry is not text, or has no equals
sign behind a name. -/
def variableOf? (entry : List UInt8) : Option (String × String) := do
  let chars := (← String.fromUTF8? ⟨entry.toArray⟩).toList
  let name := chars.takeWhile (· != '=')
  if name.isEmpty || name.length = chars.length then none
  else some (String.ofList name, String.ofList (chars.drop (name.length + 1)))

/-- The variables in a list of entries, each with a zero byte at its end. -/
def variablesIn (bytes : ByteArray) : Environment :=
  ⟨(bytes.toList.splitOnP (· == 0)).filterMap variableOf?⟩

/-- The code of the error that a directory is read as a file. -/
def directoryCode : UInt32 :=
  21

/-- Read a file, with the reason if that fails. -/
def readFile (path : String) : IO (Except ReadFault ByteArray) := do
  try
    return .ok (← IO.FS.readBinFile path)
  catch
    | .noFileOrDirectory .. => return .error .notFound
    | .inappropriateType _ code _ =>
      return .error (if code = directoryCode then .isADirectory else .notADirectory)
    | _ => return .error .denied

/-- Where a settings file is looked for: in a directory that lies so many levels deep,
and in those above it. -/
def settingsPaths (levels : Nat) : List String :=
  (List.range levels).map fun level => String.join (List.replicate level "../") ++ ".env"

/-- What a run with the given words finds around it. -/
def surroundingsOf (words : List String) : IO Surroundings := do
  let files := match Request.ofArguments words with
    | .run invocation => invocation.files
    | _ => []
  let mut contents := []
  for file in files do
    contents := contents ++ [(file, ← readFile file)]
  let found := contents
  let entries ← readFile variablesPath
  let levels := (← IO.currentDir).components.length
  let settings ← (settingsPaths levels).mapM readFile
  return {
    environment := (entries.toOption.map variablesIn).getD {}
    settings := nearestSettings settings
    read := fun path => (found.lookup path).getD (.error .notFound) }

end Chunking

/-- Run the command line, print its lines and answer with its exit code. -/
def main (words : List String) : IO UInt32 := do
  let outcome := Chunking.runCommandLine (← Chunking.surroundingsOf words) words
  try
    let output ← IO.getStdout
    for line in outcome.lines do
      output.write (Chunking.bytesOfLine line)
    output.flush
    return outcome.exit.number
  catch _ =>
    return outcome.ifBroken.number
