import Chunking.Environment
import Chunking.Text.CharClass

/-!
# A line of a settings file

One assignment of a variable: a name, an equals sign and a value. The name may
follow the word `export`, and a line that is blank or starts with a number
sign assigns nothing.

In a value, single quotes keep everything as it is. Elsewhere a backslash
escapes the next character and a dollar sign stands before a name, which is
replaced by the value of the variable. The name after a dollar sign consists
of alphanumeric characters, or stands in braces. The character that ends a
name outside braces is taken as it is, even a quote. Outside quotes a blank
ends the value, and only a comment may follow.

## Main definitions

* `SettingsLine.ValueState`: Where in a value a reader stands.
* `SettingsLine.valueFrom?`: The value that a text spells.
* `SettingsLine.Reading`: What a line can say.
* `SettingsLine.reading`: What a line says.
-/

namespace Chunking.SettingsLine

open Text

/-- Where in a value a reader stands. `quoted` tells of a double quote that is
still open. -/
inductive ValueState where
  /-- Outside names, escapes and single quotes. -/
  | plain (quoted : Bool)
  /-- Behind a backslash. -/
  | escaped (quoted : Bool)
  /-- Inside single quotes. -/
  | kept
  /-- In a name behind a dollar sign, of which the last character comes
  first. -/
  | bareName (quoted : Bool) (name : List Char)
  /-- In a name in braces, of which the last character comes first. -/
  | bracedName (quoted : Bool) (name : List Char)
  /-- Behind the blank that ended the value. -/
  | ended
  deriving DecidableEq, Repr

/-- The value of a variable, or nothing if it is not set, put in front of what
is given in reverse. The name is given in reverse as well. -/
def substitute (env : Environment) (name taken : List Char) : List Char :=
  ((env.get? (String.ofList name.reverse)).getD "").toList.reverse ++ taken

/-- The character that an escape stands for. -/
def escapedChar? (c : Char) : Option Char :=
  if c ∈ ['\\', '\'', '"', '$', ' '] then some c
  else if c = 'n' then some '\n'
  else none

/-- The value that the rest of a text spells, behind the characters taken so
far, which are given in reverse; nothing if the text is faulty. -/
def valueFrom? (env : Environment) (state : ValueState) (taken : List Char) :
    List Char → Option (List Char)
  | [] =>
    match state with
    | .plain quoted | .escaped quoted => if quoted then none else some taken.reverse
    -- A name without braces may go to the end, and one in braces has to be closed.
    | .bareName quoted name => if quoted then none else some (substitute env name taken).reverse
    | .kept | .bracedName _ _ => none
    | .ended => some taken.reverse
  | c :: rest =>
    match state with
    | .ended =>
      -- Only blanks and a comment may follow.
      if c = ' ' ∨ c = '\t' then valueFrom? env .ended taken rest
      else if c = '#' then some taken.reverse
      else none
    | .escaped quoted =>
      match escapedChar? c with
      | some c => valueFrom? env (.plain quoted) (c :: taken) rest
      | none => none
    | .kept =>
      if c = '\'' then valueFrom? env (.plain false) taken rest
      else valueFrom? env .kept (c :: taken) rest
    | .bareName quoted name =>
      if isAlphanumeric c then valueFrom? env (.bareName quoted (c :: name)) taken rest
      else if c = '\x7b' ∧ name = [] then valueFrom? env (.bracedName quoted []) taken rest
      else if c = '$' then valueFrom? env (.bareName quoted []) (substitute env name taken) rest
      -- What ends the name is not looked at again, so a quote here opens nothing.
      else valueFrom? env (.plain quoted) (c :: substitute env name taken) rest
    | .bracedName quoted name =>
      if c = '\x7d' then valueFrom? env (.plain quoted) (substitute env name taken) rest
      else valueFrom? env (.bracedName quoted (c :: name)) taken rest
    | .plain quoted =>
      if c = '$' then valueFrom? env (.bareName quoted []) taken rest
      else if c = '\\' then valueFrom? env (.escaped quoted) taken rest
      else if c = '"' then valueFrom? env (.plain (!quoted)) taken rest
      -- In double quotes neither a single quote nor a blank is special.
      else if quoted then valueFrom? env (.plain true) (c :: taken) rest
      else if c = '\'' then valueFrom? env .kept taken rest
      else if c = ' ' ∨ c = '\t' then valueFrom? env .ended taken rest
      else valueFrom? env (.plain false) (c :: taken) rest

/-- A name at the start of a text, and the rest; nothing if none starts
there. -/
def name? (text : List Char) : Option (String × List Char) :=
  match text with
  | [] => none
  | first :: _ =>
    if first.isAlpha || first == '_' then
      let name := text.takeWhile fun c => c.isAlphanum || c == '_' || c == '.'
      some (String.ofList name, text.drop name.length)
    else
      none

/-- The text behind an equals sign, which must come next but for blanks. -/
def behindEquals? (text : List Char) : Option (List Char) :=
  match text.dropWhile isBlank with
  | '=' :: rest => some rest
  | _ => none

/-- The name and the text of the value behind its equals sign. The word
`export` is a name itself when an equals sign follows it. -/
def nameAndValue? (text : List Char) : Option (String × List Char) := do
  let (name, rest) ← name? text
  match behindEquals? rest with
  | some value => return (name, value)
  | none =>
    if name = "export" then
      let (name, rest) ← name? (rest.dropWhile isBlank)
      return (name, ← behindEquals? rest)
    else
      none

/-- What a line says. -/
inductive Reading where
  /-- Nothing. -/
  | nothing
  /-- That a variable has a value. -/
  | assignment (name value : String)
  /-- The line is faulty. -/
  | faulty
  deriving DecidableEq, Repr

/-- Whether a text is empty or a comment. -/
def isComment : List Char → Bool
  | [] => true
  | c :: _ => c == '#'

/-- What a line says, with the variables that are set before it. -/
def reading (env : Environment) (line : List Char) : Reading :=
  let trimmed := (line.reverse.dropWhile isBlank).reverse.dropWhile isBlank
  if isComment trimmed then .nothing
  else
    match nameAndValue? trimmed with
    | none => .faulty
    | some (name, text) =>
      let text := text.dropWhile isBlank
      if isComment text then .assignment name ""
      else
        match valueFrom? env (.plain false) [] text with
        | some value => .assignment name (String.ofList value)
        | none => .faulty

end Chunking.SettingsLine
