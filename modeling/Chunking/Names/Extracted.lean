import Chunking.Names.TypeName
import Chunking.Pattern.FindAll

/-!
# What is extracted from source

The names found in one file, and the pieces of patterns that several languages
share. Finding names is a matter of patterns over the text; no syntax tree is
built.

## Main definitions

* `ExtractedNames`: The names found in one file.
* `Pattern.blanks`, `Pattern.someBlanks`: White space, as much as there is.
* `Pattern.capitalized`: An identifier that starts with a capital letter.
* `isTypeChar`: A character of a type in a declaration.
-/

namespace Chunking

open Text

/-- The names found in one file. -/
structure ExtractedNames where
  /-- Declared types. -/
  classes : NameSet := ∅
  /-- Fields and properties. -/
  properties : NameSet := ∅
  /-- Types that the declarations refer to. -/
  types : NameSet := ∅
  deriving DecidableEq

/-- An ASCII letter. -/
def isLetter (c : Char) : Bool :=
  c.isAlpha

/-- A character of a type in a declaration: of its names, of the brackets
around its arguments, or between them. -/
def isTypeChar (c : Char) : Bool :=
  isWord c || isBlank c || ['<', '>', ',', '[', ']', '?', '.'].contains c

namespace Pattern

/-- White space, as much as there is. -/
def blanks : Pattern :=
  stretch true isBlank

/-- At least one character of white space, and as much as there is. -/
def someBlanks : Pattern :=
  atLeastOne isBlank

/-- One of the given words with white space after it, any number of times. -/
def modifiers (allowed : List String) : Pattern :=
  many (seq (words allowed) someBlanks)

/-- An identifier of ASCII characters that starts with a capital letter. -/
def capitalized : Pattern :=
  seq (one isCapital) (stretch true isNamePart)

/-- A declaration keyword and the capitalized name after it, which is kept. -/
def declaredType (keywords : List String) : Pattern :=
  sequence [wordEdge, words keywords, someBlanks, group 1 capitalized]

end Pattern

/-- The texts that the matches of a pattern keep under a number. -/
def foundNames (pattern : Pattern) (number : Nat) (content : List Char) : List String :=
  (pattern.findAll content).map fun found => String.ofList (found.group number)

/-- The types in the texts that the matches of a pattern keep under a number. -/
def foundTypes (builtins : List String) (pattern : Pattern) (number : Nat)
    (content : List Char) : List String :=
  (pattern.findAll content).flatMap fun found => referencedTypes builtins (found.group number)

end Chunking
