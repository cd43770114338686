import Chunking.Chunker

/-!
# Arguments

What the words on the command line ask for. Options are read from left to
right, each at most once, and the first fault ends the reading. Asking for the
version ends it too, so a fault behind that goes unnoticed.

The value of an option is the next word, or what follows an equals sign. A
word that starts with a hyphen is no value, but a single hyphen is. Behind two
hyphens every word is a file.

## Main definitions

* `Invocation`: What is to be done.
* `Request`: What the words ask for.
* `Request.ofArguments`: Read the words.
-/

namespace Chunking

/-- What is to be done. -/
structure Invocation where
  /-- The project of the documents. -/
  project : String := ""
  /-- The strategy for every document, or the one its name asks for. -/
  strategy : Option Strategy := none
  /-- Stop at the first file that fails. -/
  failFast : Bool := false
  /-- The files to chunk. -/
  files : List String := []
  deriving DecidableEq, Repr

/-- What the words on the command line ask for. -/
inductive Request where
  /-- To chunk files. -/
  | run (invocation : Invocation)
  /-- To tell the version. -/
  | version
  /-- To tell how the program is used, at length or in short. -/
  | help (long : Bool)
  /-- Nothing that can be done. -/
  | misuse
  deriving DecidableEq, Repr

namespace Request

/-- What has been read of the words so far. -/
structure Reading where
  project : Option String := none
  strategy : Option (Option Strategy) := none
  failFast : Bool := false
  /-- The files, the last one first. -/
  files : List String := []
  deriving DecidableEq, Repr

/-- The strategies by the names that the option takes. Automatic choice is no
strategy. -/
def strategyNamed? : String → Option (Option Strategy)
  | "auto" => some none
  | "code" => some (some .code)
  | "text" => some (some .text)
  | _ => none

/-- Take the value of the option with the given name; nothing if the option
does not exist, has come before, or does not take the value. -/
def Reading.setOption? (reading : Reading) (name value : String) : Option Reading :=
  match name with
  | "--project" =>
    if reading.project.isSome then none else some { reading with project := some value }
  | "--strategy" =>
    if reading.strategy.isSome then none
    else (strategyNamed? value).map fun strategy => { reading with strategy := some strategy }
  | _ => none

/-- Take a file; nothing if its name is empty. -/
def Reading.addFile? (reading : Reading) (file : String) : Option Reading :=
  if file.isEmpty then none else some { reading with files := file :: reading.files }

/-- What the words ask for once all are read: there must be a file. -/
def Reading.finish (reading : Reading) : Request :=
  if reading.files.isEmpty then .misuse
  else
    .run
      { project := reading.project.getD ""
        strategy := reading.strategy.join
        failFast := reading.failFast
        files := reading.files.reverse }

/-- Whether a word is an option, or a fault, rather than a value or a file. -/
def isOption (word : String) : Bool :=
  word.startsWith "-" && word != "-"

/-- The name and the value of an option that has both in one word. -/
def splitAtEquals (word : String) : String × Option String :=
  let chars := word.toList
  let name := chars.takeWhile (· != '=')
  (String.ofList name,
    if name.length < chars.length then some (String.ofList (chars.drop (name.length + 1)))
    else none)

/-- Read the words behind two hyphens. -/
def ofFiles (reading : Reading) : List String → Request
  | [] => reading.finish
  | file :: rest =>
    match reading.addFile? file with
    | some reading => ofFiles reading rest
    | none => .misuse

/-- What a word with a single hyphen asks for. Only the letters that end the
reading exist. -/
def ofLetters (word : String) : Request :=
  match word.toList with
  | '-' :: 'V' :: _ => .version
  | '-' :: 'h' :: _ => .help false
  | _ => .misuse

/-- Read the words from left to right. -/
def ofWords (reading : Reading) : List String → Request
  | [] => reading.finish
  | word :: rest =>
    if word = "--" then ofFiles reading rest
    else if !isOption word then
      match reading.addFile? word with
      | some reading => ofWords reading rest
      | none => .misuse
    -- A word that asks for something else ends the reading, so what follows is not looked at.
    else if !word.startsWith "--" then ofLetters word
    else
      match splitAtEquals word with
      | (name, some value) =>
        match reading.setOption? name value with
        | some reading => ofWords reading rest
        | none => .misuse
      | ("--version", none) => .version
      | ("--help", none) => .help true
      | ("--fail-fast", none) =>
        if reading.failFast then .misuse else ofWords { reading with failFast := true } rest
      | (name, none) =>
        match rest with
        | [] => .misuse
        | value :: rest =>
          -- The next word is the value unless it is an option itself.
          if isOption value then .misuse
          else match reading.setOption? name value with
            | some reading => ofWords reading rest
            | none => .misuse

/-- What the words on the command line ask for. -/
def ofArguments (words : List String) : Request :=
  ofWords {} words

end Request

end Chunking
