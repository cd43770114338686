import Chunking.Batch

/-!
# Files

Reading a document from a tree of files. A path is followed name by name from
the directory at the root of the tree. A name below a file, and a slash behind
one, is an error of its own, because only a directory can be entered. Names
outside the tree, above its root or behind a leading slash, name nothing; only
the directories there are known to be directories.

The text of a document has to be UTF-8, and a byte order mark at its start is
part of it.

## Main definitions

* `ReadFault`: Why a file cannot be read.
* `FileTree`: Files with the names that lead to them.
* `FileTree.read`: The bytes at a path.
* `decodeText`: The text of a file.
* `loadDocument`: The document at a path.
-/

namespace Chunking

/-- Why a file cannot be read. -/
inductive ReadFault where
  | notFound
  | denied
  | notADirectory
  | isADirectory
  | notText
  deriving DecidableEq, Repr

/-- The text shown for a file that cannot be read. -/
def ReadFault.message : ReadFault → String
  | .notFound => "No such file or directory (os error 2)"
  | .denied => "Permission denied (os error 13)"
  | .notADirectory => "Not a directory (os error 20)"
  | .isADirectory => "Is a directory (os error 21)"
  | .notText => "stream did not contain valid UTF-8"

/-- Files, each with the names that lead to it from the root. -/
structure FileTree where
  files : List (List String × ByteArray)

namespace FileTree

/-- Whether names lead to a file. -/
def isFile (tree : FileTree) (names : List String) : Bool :=
  tree.files.any fun file => file.1 == names

/-- Whether names lead to a directory, which is the root or holds a file. -/
def isDirectory (tree : FileTree) (names : List String) : Bool :=
  names.isEmpty || tree.files.any fun file => names.isPrefixOf file.1 && names != file.1

/-- Where a path has led so far. -/
inductive Place where
  /-- A directory of the tree. -/
  | directory (names : List String)
  /-- A file of the tree. -/
  | file (names : List String)
  /-- A directory outside the tree. -/
  | outside
  deriving DecidableEq, Repr

/-- Follow one name. An empty name and a single dot stay in a directory, and a
double dot leaves it. -/
def follow (tree : FileTree) (place : Place) (name : String) : Except ReadFault Place :=
  match place with
  | .file _ => .error .notADirectory
  | .outside => if name = "" ∨ name = "." ∨ name = ".." then .ok .outside else .error .notFound
  | .directory names =>
    if name = "" ∨ name = "." then .ok place
    else if name = ".." then
      .ok (if names.isEmpty then .outside else .directory names.dropLast)
    else
      let inside := names ++ [name]
      if tree.isFile inside then .ok (.file inside)
      else if tree.isDirectory inside then .ok (.directory inside)
      else .error .notFound

/-- Where a path leads. A leading slash leaves the tree at once. -/
def resolve (tree : FileTree) (path : String) : Except ReadFault Place :=
  if path = "" then .error .notFound
  else
    let names := (splitAtSlashes path.toList).map String.ofList
    if path.startsWith "/" then names.foldlM tree.follow .outside
    else names.foldlM tree.follow (.directory [])

/-- The bytes at a path. -/
def read (tree : FileTree) (path : String) : Except ReadFault ByteArray := do
  match ← tree.resolve path with
  | .directory _ | .outside => throw .isADirectory
  | .file names =>
    match tree.files.lookup names with
    | some bytes => return bytes
    | none => throw .notFound

end FileTree

/-- The text of a file. -/
def decodeText (bytes : ByteArray) : Except ReadFault String :=
  match String.fromUTF8? bytes with
  | some text => .ok text
  | none => .error .notText

/-- The document at a path, with the means to read one. -/
def loadDocument (read : String → Except ReadFault ByteArray) (project path : String) :
    Except IngestError Document :=
  match read path >>= decodeText with
  | .ok content => .ok { sourcePath := path, project, content }
  | .error fault => .error (.read path fault.message)

end Chunking
