import Chunking.SettingsFile.Line

/-!
# Settings files

A file of assignments, read line by line. A line goes on as long as a quote is
open in it, so a quoted value may hold newlines. Whether a quote is open is
told by a rule of its own, in which a backslash escapes inside single quotes
as well, and a number sign behind a blank starts a comment.

Assignments take effect one after the other, so a value may refer to those
before it, and none changes a variable that is set. Reading stops at the first
faulty line; what was assigned before stays. A value that no variable can have
is no fault of its line. It is found out only when the variable is set, and
then nothing can go on.

## Main definitions

* `SettingsFile.LineState`: Where in a line a reader stands.
* `SettingsFile.logicalLines`: The lines of a file, up to the first that does
  not end.
* `Environment.withSettings?`: The variables after a settings file.
-/

namespace Chunking

namespace SettingsFile

open Text SettingsLine

/-- Where in a line a reader stands. -/
inductive LineState where
  /-- Nothing is open. -/
  | complete
  /-- Behind a blank. -/
  | blank
  /-- Behind a backslash outside quotes. -/
  | escape
  /-- Inside single quotes. -/
  | single
  /-- Behind a backslash inside single quotes. -/
  | singleEscape
  /-- Inside double quotes. -/
  | double
  /-- Behind a backslash inside double quotes. -/
  | doubleEscape
  deriving DecidableEq, Repr

/-- The state behind a character that something may start with. -/
def opening (c : Char) : LineState :=
  if c = '\\' then .escape
  else if c = '"' then .double
  else if c = '\'' then .single
  else .complete

/-- The state behind a character. -/
def LineState.next (state : LineState) (c : Char) : LineState :=
  match state with
  | .complete =>
    if isBlank c && c != '\n' && c != '\r' then .blank else opening c
  | .blank => opening c
  | .escape => .complete
  | .single => if c = '\\' then .singleEscape else if c = '\'' then .complete else .single
  | .singleEscape => .single
  | .double => if c = '\\' then .doubleEscape else if c = '"' then .complete else .double
  | .doubleEscape => .double

/-- The state at the end of a piece of text, and the text before a comment if
one starts in it. What comes before the piece is given in reverse. -/
def scanPiece (state : LineState) (taken : List Char) :
    List Char → LineState × List Char × Bool
  | [] => (state, taken, false)
  | c :: rest =>
    if state = .blank ∧ c = '#' then (.complete, taken, true)
    else scanPiece (state.next c) (c :: taken) rest

/-- A line without its end. The line is given in reverse. -/
def withoutEnd : List Char → List Char
  | '\n' :: '\r' :: rest => rest.reverse
  | '\n' :: rest => rest.reverse
  | line => line.reverse

/-- The lines that pieces of text make up, each piece with its newline. What
the line holds so far is given in reverse. The last line is missing if
something is open at its end. -/
def joinPieces (state : LineState) (taken : List Char) : List (List Char) → List (List Char)
  | [] => []
  | piece :: rest =>
    let line := taken.reverse ++ piece
    if (line.dropWhile isBlank).head? = some '#' then
      [] :: joinPieces .complete [] rest
    else
      match scanPiece state taken piece with
      | (_, taken, true) => taken.reverse :: joinPieces .complete [] rest
      | (.complete, taken, false) => withoutEnd taken :: joinPieces .complete [] rest
      | (state, taken, false) => joinPieces state taken rest

/-- The pieces of a file that newlines end, each with its newline, before the
first that is not UTF-8. The bytes of the piece so far are given in reverse. -/
def textPieces (taken : List UInt8) : List UInt8 → List (List Char)
  | [] =>
    if taken.isEmpty then []
    else ((String.fromUTF8? ⟨taken.reverse.toArray⟩).map String.toList).toList
  | byte :: rest =>
    if byte = 10 then
      match String.fromUTF8? ⟨(byte :: taken).reverse.toArray⟩ with
      | some piece => piece.toList :: textPieces [] rest
      | none => []
    else
      textPieces (byte :: taken) rest

/-- The bytes of a file without a byte order mark. -/
def withoutMark : List UInt8 → List UInt8
  | 0xEF :: 0xBB :: 0xBF :: rest => rest
  | bytes => bytes

/-- The lines of a file, up to the first that does not end or is not text. -/
def logicalLines (bytes : ByteArray) : List (List Char) :=
  joinPieces .complete [] (textPieces [] (withoutMark bytes.toList))

/-- The variables after assignments, up to the first faulty line; nothing if a
variable cannot be set. -/
def assignAll? (env : Environment) : List (List Char) → Option Environment
  | [] => some env
  | line :: rest =>
    match reading env line with
    | .nothing => assignAll? env rest
    | .assignment name value =>
      match env.setDefault? name value with
      | some env => assignAll? env rest
      | none => none
    | .faulty => some env

end SettingsFile

/-- The variables after a settings file; nothing if one of them cannot be set. -/
def Environment.withSettings? (env : Environment) (bytes : ByteArray) : Option Environment :=
  SettingsFile.assignAll? env (SettingsFile.logicalLines bytes)

end Chunking
