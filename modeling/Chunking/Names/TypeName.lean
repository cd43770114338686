import Chunking.Names.NameSet
import Chunking.Text.CharClass

/-!
# Names in type expressions

Which names a type expression refers to. The expression is not parsed: it is
cut into its identifiers, and those that look like the name of a declared type
count. A single capital letter is a type parameter, and what comes with the
language is of no interest, so neither counts.

## Main definitions

* `isIdentifierPart`: A character that an identifier may contain.
* `identifiers`: The identifiers of a text.
* `isTypeName`: Whether an identifier looks like the name of a type.
* `referencedTypes`: The types that an expression refers to.
-/

namespace Chunking

open Text

/-- A character that an identifier of some language may contain. -/
def isIdentifierPart (c : Char) : Bool :=
  isAlphanumeric c || c == '_' || c == '$'

/-- The longest runs of identifier characters in a text. -/
def identifiers (text : List Char) : List (List Char) :=
  (text.splitOnP fun c => !isIdentifierPart c).filter fun part => !part.isEmpty

/-- An ASCII capital letter. -/
def isCapital (c : Char) : Bool :=
  c.isUpper

/-- A character that may follow the first one in a capitalized name. -/
def isNamePart (c : Char) : Bool :=
  c.isAlphanum || c == '_'

/-- Whether an identifier looks like the name of a type: it starts with an
ASCII capital letter, is longer than one character, and holds nothing but ASCII
letters, digits and underscores. -/
def isTypeName : List Char → Bool
  | [] => false
  | first :: rest => isCapital first && !rest.isEmpty && rest.all isNamePart

/-- The types that an expression refers to, less those that come with the
language. -/
def referencedTypes (builtins : List String) (expression : List Char) : List String :=
  ((identifiers expression).filter isTypeName).map String.ofList |>.filter
    fun name => !builtins.contains name

end Chunking
