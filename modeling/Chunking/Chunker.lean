import Chunking.Code.Chunker

/-!
# Choosing how to split

There are two ways to split a document, and a document is given one by its
file name: source code goes to the code chunker and everything else to the
plain one. A caller may also name the way himself.

## Main definitions

* `Strategy`: The two ways to split.
* `Strategy.ofFileName`: The way a file name asks for.
* `Chunker`: A way to split with its options.
* `Config.chunker`: The chunker of a configuration for a strategy.
* `Chunker.chunk`: Split a file's content.
-/

namespace Chunking

/-- The two ways to split a document. -/
inductive Strategy where
  /-- At safe splits of source code. -/
  | code
  /-- Into windows that overlap. -/
  | text
  deriving DecidableEq, Repr

namespace Strategy

/-- The name of a strategy. -/
def name : Strategy → String
  | .code => "code"
  | .text => "text"

/-- The way a file name asks for. -/
def ofFileName (fileName : String) : Strategy :=
  if isCodeFile fileName then .code else .text

/-- The strategy that a name stands for, without regard to case. Each has two
names. -/
def ofName? (name : String) : Option Strategy :=
  match String.ofList (name.toList.map Char.toLower) with
  | "code" | "source" => some .code
  | "text" | "plain" => some .text
  | _ => none

/-- What the strategy does, in a sentence. -/
def description : Strategy → String
  | .code => "Splits source code at balanced-brace and #endif/#endregion boundaries"
  | .text => "Splits text into fixed-size character windows with overlap"

/-- Every strategy, the plain one first. -/
def all : List Strategy :=
  [.text, .code]

end Strategy

/-- A way to split with its options. -/
inductive Chunker where
  | code (options : CodeOptions)
  | text (options : TextOptions)
  deriving DecidableEq, Repr

namespace Chunker

/-- The way a chunker splits. -/
def strategy : Chunker → Strategy
  | .code _ => .code
  | .text _ => .text

/-- Whether the chunker is meant for a file. The plain one is meant for all. -/
def supportsFile (chunker : Chunker) (fileName : String) : Bool :=
  match chunker with
  | .code _ => isCodeFile fileName
  | .text _ => true

/-- Split a file's content. -/
def chunk (chunker : Chunker) (fileName content : String) : List Chunk :=
  match chunker with
  | .code options => chunkCode options fileName content
  | .text options => chunkText options content

/-- The chunker of a strategy with default options. -/
def ofStrategy : Strategy → Chunker
  | .code => .code {}
  | .text => .text {}

end Chunker

/-- The chunker of a configuration for a strategy. -/
def Config.chunker (config : Config) : Strategy → Chunker
  | .code => .code config.code
  | .text => .text config.text

/-- Split a file's content the way its name asks for. -/
def Config.chunk (config : Config) (fileName content : String) : List Chunk :=
  (config.chunker (Strategy.ofFileName fileName)).chunk fileName content

end Chunking
