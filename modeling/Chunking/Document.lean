/-!
# Documents

A document is a text with the place it came from. The place is a path, and its
last component, the file name, decides how the text is treated; directories
never do.

A path is read as a list of names between slashes. Empty names and single dots
say nothing and are passed over. A path whose last name is a double dot, or
which has no name at all, names no file, and stands for itself.

## Main definitions

* `Document`: A text and where it came from.
* `pathNames`: The names a path consists of.
* `fileNameOfPath`: The file name of a path.
* `Document.fileName`: The file name of a document.
-/

namespace Chunking

/-- A text and where it came from. -/
structure Document where
  /-- The path of the document inside its project. -/
  sourcePath : String
  /-- The project the document belongs to. -/
  project : String := ""
  /-- The text. -/
  content : String
  deriving DecidableEq, Repr

/-- The parts of a text between slashes: one more than there are slashes. -/
def splitAtSlashes (path : List Char) : List (List Char) :=
  path.splitOn '/'

/-- The names a path consists of, without the empty ones and the single
dots. -/
def pathNames (path : String) : List String :=
  ((splitAtSlashes path.toList).map String.ofList).filter fun name => name != "" && name != "."

/-- The file name of a path: its last name, or the whole path when that does
not name a file. -/
def fileNameOfPath (path : String) : String :=
  match (pathNames path).getLast? with
  | none | some ".." => path
  | some name => name

/-- The file name of a document. -/
def Document.fileName (document : Document) : String :=
  fileNameOfPath document.sourcePath

end Chunking
