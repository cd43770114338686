import Chunking.Names.Extracted

/-!
# Names in Java source

Three patterns: declared types, fields with an access modifier, and public or
protected accessors. An accessor stands for a property, named by what follows
`get` or `is` with its first letter in lower case.

## Main definitions

* `Java.typeDeclaration`: A keyword and the name it declares.
* `Java.field`: An access modifier, a type and a name.
* `Java.accessor`: A method named after a property.
* `Java.propertyOfAccessor`: The property an accessor stands for.
* `Java.extract`: The names found in a text.
-/

namespace Chunking.Java

open Text Pattern

/-- Primitive types, and types of the language and its libraries, which are
never reported. -/
def builtins : List String :=
  ["int", "long", "short", "byte", "boolean", "double", "float", "char", "void", "String",
   "Integer", "Long", "Short", "Byte", "Boolean", "Double", "Float", "Character", "Number",
   "Void", "Object", "List", "Set", "Map", "Optional", "Collection", "ArrayList", "HashMap",
   "HashSet", "LinkedList"]

/-- A keyword and the name of the type it declares. -/
def typeDeclaration : Pattern :=
  declaredType ["class", "interface", "enum"]

/-- An access modifier, other modifiers, a type and the name of a field, and the
semicolon or equals sign that tells a field from a method. The type is kept
first and the name second. -/
def field : Pattern :=
  sequence
    [wordEdge, words ["private", "protected", "public"], someBlanks,
     modifiers ["static", "final", "transient", "volatile"],
     group 1 (seq (one fun c => isLetter c || c == '_') (stretch false isTypeChar)), someBlanks,
     group 2
       (seq (one fun c => isLetter c || c == '_' || c == '$')
         (stretch true fun c => isWord c || c == '$')),
     blanks,
     one ([';', '='].contains ·)]

/-- An access modifier, a type, and the name of an accessor, of which the part
after `get` or `is` is kept. -/
def accessor : Pattern :=
  sequence
    [wordEdge, words ["public", "protected"], someBlanks,
     atLeastOneLazy isTypeChar, someBlanks,
     words ["get", "is"], group 1 capitalized, blanks,
     literal ['(']]

/-- The property an accessor stands for, by the part of its name after `get` or
`is`, which starts with an ASCII capital letter. -/
def propertyOfAccessor : List Char → List Char
  | [] => []
  | first :: rest => first.toLower :: rest

/-- The properties of the accessors in a text. -/
def accessorProperties (content : List Char) : List String :=
  (accessor.findAll content).map fun found =>
    String.ofList (propertyOfAccessor (found.group 1))

/-- The names found in a text. -/
def extract (content : List Char) : ExtractedNames where
  classes := .ofList (foundNames typeDeclaration 1 content)
  properties := .ofList (foundNames field 2 content ++ accessorProperties content)
  types := .ofList (foundTypes builtins field 1 content)

end Chunking.Java
