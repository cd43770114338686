import Chunking.Names.Bracket
import Chunking.Names.Extracted

/-!
# Names in JavaScript and TypeScript source

Declared types and annotated fields are found by patterns. A constructor takes
more: its parameters and its body are cut out of the text first, by matching
brackets, and searched on their own. A parameter with an access modifier is a
property, its annotation refers to types, and so is every assignment to `this`
in the body.

The body is what stands between the next opening brace after the parameters
and the brace that closes it, or the end of the text if none does.

Cutting is by offsets in bytes, and a cut inside a character is no text.
`extract?` answers nothing if that were ever to happen.

## Main definitions

* `EcmaScript.typeDeclaration`: A keyword and the name it declares.
* `EcmaScript.field`: A line that starts with an annotated name.
* `EcmaScript.constructorHead`: The start of a constructor.
* `EcmaScript.parameter`: A parameter of a constructor.
* `EcmaScript.assignment`: An assignment to a property of `this`.
* `EcmaScript.ConstructorSite`: Where the parts of a constructor lie.
* `EcmaScript.extractBy?`: The names found in a text, by a way to cut at commas.
* `EcmaScript.extract?`: The names found in a text.
-/

namespace Chunking.EcmaScript

open Text Pattern

/-- Types of the language, which are never reported. -/
def builtins : List String :=
  ["string", "number", "boolean", "void", "any", "unknown", "null", "undefined", "object",
   "symbol", "bigint", "never", "Array", "Promise", "Date", "RegExp", "Map", "Set", "Record",
   "Partial", "Readonly", "Error", "Function", "Object", "String", "Number", "Boolean"]

/-- Words before a colon at the start of a line that are not the names of
fields. -/
def labels : List String :=
  ["case", "default"]

/-- The first character of an identifier. -/
def isIdentifierStart (c : Char) : Bool :=
  isLetter c || c == '_' || c == '$'

/-- A character of an identifier. -/
def isIdentifierChar (c : Char) : Bool :=
  isWord c || c == '$'

/-- A character of the type of a field. -/
def isFieldTypeChar (c : Char) : Bool :=
  isIdentifierChar c || ['<', '>', '[', ']', ',', '|', '&', '.', ' '].contains c

/-- An identifier. -/
def identifier : Pattern :=
  seq (one isIdentifierStart) (stretch true isIdentifierChar)

/-- A keyword and the name of the type it declares. -/
def typeDeclaration : Pattern :=
  declaredType ["class", "interface", "enum"]

/-- A line that starts with a name, its type after a colon, and a semicolon or
an equals sign. The name is kept first and the type second. -/
def field : Pattern :=
  sequence
    [lineStart, stretch true ([' ', '\t'].contains ·),
     modifiers ["public", "private", "protected", "readonly", "static", "declare", "override",
       "abstract"],
     group 1 identifier, blanks,
     optional (one (['!', '?'].contains ·)), blanks,
     literal [':'], blanks,
     group 2 (seq (one isIdentifierStart) (stretch false isFieldTypeChar)), blanks,
     one ([';', '='].contains ·)]

/-- The start of a constructor, up to the parenthesis before its parameters. -/
def constructorHead : Pattern :=
  sequence [wordEdge, literal "constructor".toList, blanks, literal ['(']]

/-- An assignment to a property of `this`, whose name is kept first. The second
equals sign of a comparison is kept second. -/
def assignment : Pattern :=
  sequence
    [wordEdge, literal "this.".toList, group 1 identifier, blanks,
     literal ['='], group 2 (optional (literal ['=']))]

/-- A whole parameter: modifiers, a name, and perhaps a type after a colon. The
three are kept in this order. -/
def parameter : Pattern :=
  sequence
    [textStart, blanks,
     group 1 (modifiers ["public", "private", "protected", "readonly", "override"]),
     group 2 identifier, blanks,
     optional (literal ['?']), blanks,
     optional (sequence [literal [':'], blanks, group 3 (atLeastOne fun _ => true)]),
     textEnd]

/-- What one parameter, without its default value, contributes. -/
def parameterNames (text : List Char) : List String × List String :=
  match parameter.matchAt? (Cursor.atStart text) with
  | none => ([], [])
  | some found =>
    let isProperty := (found.group 1).any fun c => !isBlank c
    (if isProperty then [String.ofList (found.group 2)] else [],
      match found.group? 3 with
      | none => []
      | some type => referencedTypes builtins type)

/-- The properties that a constructor body assigns. -/
def assignedProperties (body : List Char) : List String :=
  ((assignment.findAll body).filter fun found => (found.group 2).isEmpty).map fun found =>
    String.ofList (found.group 1)

/-- Where the parts of a constructor lie in a text, in bytes. -/
structure ConstructorSite where
  /-- What stands between the parentheses. -/
  parameters : ByteRange
  /-- The body from its opening brace on, if there is one. -/
  body : Option ByteRange
  deriving DecidableEq, Repr

/-- The parts of the constructor whose head was found; nothing if its
parameters do not end. -/
def siteOf? (content : List Char) (found : Match) : Option ConstructorSite :=
  -- The head ends behind the parenthesis, which is one byte long.
  let opening := found.stop.offset - 1
  (matchingClose? content opening '(' ')').map fun closing =>
    { parameters := ⟨opening + 1, closing⟩
      body := (findFrom? content closing '\x7b').map fun brace =>
        ⟨brace, (matchingClose? content brace '\x7b' '\x7d').getD (byteLength content)⟩ }

/-- The constructors of a text. -/
def constructorSites (content : List Char) : List ConstructorSite :=
  (constructorHead.findAll content).filterMap (siteOf? content)

/-- The properties and types that a constructor contributes, by a way to cut its
parameters at commas; nothing if that fails, or if a part were cut inside a
character. -/
def constructorNamesBy? (cut? : List Char → Option (List ByteRange)) (content : List Char)
    (site : ConstructorSite) : Option (List String × List String) := do
  let parameters ← site.parameters.slice? content
  let parts ← (← cut? parameters).mapM fun part => part.slice? parameters
  -- A default value is cut off at the first equals sign, wherever that stands.
  let names := parts.map fun part => parameterNames (part.takeWhile (· != '='))
  let body ← match site.body with
    | none => some []
    | some range => range.slice? content
  return (names.flatMap Prod.fst ++ assignedProperties body, names.flatMap Prod.snd)

/-- The properties and types that a constructor contributes; nothing if a part
of it were cut inside a character. -/
def constructorNames? (content : List Char) (site : ConstructorSite) :
    Option (List String × List String) :=
  constructorNamesBy? (fun parameters => some (topLevelParts parameters)) content site

/-- The fields of a text that are no labels. -/
def fields (content : List Char) : List Match :=
  (field.findAll content).filter fun found => !labels.contains (String.ofList (found.group 1))

/-- The names found in a text, by a way to cut parameters at commas; nothing if
that fails, or if a part of the text were cut inside a character. -/
def extractBy? (cut? : List Char → Option (List ByteRange)) (content : List Char) :
    Option ExtractedNames := do
  let fields := fields content
  let constructors ← (constructorSites content).mapM (constructorNamesBy? cut? content)
  return {
    classes := .ofList (foundNames typeDeclaration 1 content)
    properties := .ofList
      (fields.map (fun found => String.ofList (found.group 1)) ++ constructors.flatMap Prod.fst)
    types := .ofList
      (fields.flatMap (fun found => referencedTypes builtins (found.group 2)) ++
        constructors.flatMap Prod.snd) }

/-- The names found in a text; nothing if a part of it were cut inside a
character. -/
def extract? (content : List Char) : Option ExtractedNames :=
  extractBy? (fun parameters => some (topLevelParts parameters)) content

theorem extract?_eq (content : List Char) :
    extract? content =
      ((constructorSites content).mapM (constructorNames? content)).bind fun constructors =>
        some
          { classes := .ofList (foundNames typeDeclaration 1 content)
            properties := .ofList
              ((fields content).map (fun found => String.ofList (found.group 1)) ++
                constructors.flatMap Prod.fst)
            types := .ofList
              ((fields content).flatMap (fun found => referencedTypes builtins (found.group 2)) ++
                constructors.flatMap Prod.snd) } :=
  rfl

end Chunking.EcmaScript
