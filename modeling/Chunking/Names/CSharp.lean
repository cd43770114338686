import Chunking.Names.Extracted

/-!
# Names in C# source

Four patterns, each searched for on its own over the whole text: declared
types, properties, the types of members, and lists of type arguments.

The pattern of a property also matches the head of a type declaration, which
differs from a property by a declaration keyword among its words.

## Main definitions

* `CSharp.typeDeclaration`: A keyword and the name it declares.
* `CSharp.property`: A type, a name, and a brace or an equals sign.
* `CSharp.member`: An access modifier and the type that follows.
* `CSharp.typeArguments`: A list of type arguments in angle brackets.
* `CSharp.extract`: The names found in a text.
-/

namespace Chunking.CSharp

open Text Pattern

/-- Types of the language and its libraries, which are never reported. -/
def builtins : List String :=
  ["string", "int", "long", "short", "byte", "bool", "boolean", "decimal", "double", "float",
   "object", "void", "var", "dynamic", "char", "uint", "ulong", "ushort", "String", "Object",
   "Boolean", "Int16", "Int32", "Int64", "Decimal", "Double", "Single", "DateTime",
   "DateTimeOffset", "TimeSpan", "Guid", "Task", "Nullable", "Func", "Action", "List", "IList",
   "IEnumerable", "ICollection", "IReadOnlyList", "IReadOnlyCollection", "Dictionary",
   "IDictionary", "HashSet"]

/-- Words that tell the head of a declaration from a property. -/
def declarationKeywords : List String :=
  ["class", "interface", "struct", "enum", "record", "namespace", "delegate"]

/-- A keyword and the name of the type it declares. -/
def typeDeclaration : Pattern :=
  declaredType ["class", "interface", "struct", "enum"]

/-- An access modifier, a type, a capitalized name, and the brace or equals sign
that tells a property. The type is kept first and the name second. -/
def property : Pattern :=
  sequence
    [wordEdge, words ["public", "protected", "internal"], someBlanks,
     group 1 (atLeastOne isTypeChar), someBlanks,
     group 2 capitalized, blanks,
     one (['\x7b', '='].contains ·)]

/-- An access modifier, other modifiers, a capitalized type, which is kept, and
the name of a member. -/
def member : Pattern :=
  sequence
    [wordEdge, words ["public", "protected", "internal", "private"], someBlanks,
     modifiers ["static", "readonly", "virtual", "override", "abstract", "sealed", "new", "const",
       "required", "volatile"],
     group 1 (seq (one isCapital) (stretch false isTypeChar)), someBlanks,
     one (fun c => isLetter c || c == '_'), stretch true isWord, blanks,
     one (['\x7b', '=', ';'].contains ·)]

/-- Names between angle brackets, the first of them capitalized. What stands
between the brackets is kept. -/
def typeArguments : Pattern :=
  sequence
    [literal ['<'],
     group 1
       (seq (one isCapital) (atLeastOne fun c => isNamePart c || c == ',' || isBlank c)),
     literal ['>']]

/-- The words of a text between white space. -/
def blankSeparated (text : List Char) : List String :=
  ((text.splitOnP isBlank).filter fun word => !word.isEmpty).map String.ofList

/-- Whether a match of `property` is the head of a declaration. -/
def isDeclaration (found : Match) : Bool :=
  (blankSeparated (found.group 1)).any declarationKeywords.contains

/-- The names of the properties in a text. -/
def propertyNames (content : List Char) : List String :=
  ((property.findAll content).filter fun found => !isDeclaration found).map fun found =>
    String.ofList (found.group 2)

/-- The names found in a text. -/
def extract (content : List Char) : ExtractedNames where
  classes := .ofList (foundNames typeDeclaration 1 content)
  properties := .ofList (propertyNames content)
  types := .ofList
    (foundTypes builtins member 1 content ++ foundTypes builtins typeArguments 1 content)

end Chunking.CSharp
