/-!
# Languages

What a file name says about its content. The extension, from the last dot on
and without regard to ASCII case, names a language or none. A language has a
family when names can be extracted from its source, and one family may serve
several languages.

All languages of the table delimit blocks with braces, so a file is split as
source code exactly when its extension is in the table.

## Main definitions

* `Language`: The languages told by extension.
* `LanguageFamily`: Languages whose names are found alike.
* `extensions`: The table of extensions.
* `extension?`: The extension of a file name.
* `Language.ofFileName?`: The language of a file.
* `isCodeFile`: Whether a file is split as source code.
* `familyOf?`: The family whose names can be extracted from a file.
-/

namespace Chunking

/-- Languages whose names are found by the same patterns. -/
inductive LanguageFamily where
  | csharp
  | ecmascript
  | java
  deriving DecidableEq, Repr

/-- The name of a family. -/
def LanguageFamily.name : LanguageFamily → String
  | .csharp => "csharp"
  | .ecmascript => "ecmascript"
  | .java => "java"

/-- The languages that are told by extension. -/
inductive Language where
  | c
  | cpp
  | csharp
  | razor
  | javascript
  | typescript
  | java
  | go
  | rust
  | kotlin
  | scala
  | swift
  deriving DecidableEq, Repr

namespace Language

/-- The name of a language. -/
def name : Language → String
  | .c => "c"
  | .cpp => "cpp"
  | .csharp => "csharp"
  | .razor => "razor"
  | .javascript => "javascript"
  | .typescript => "typescript"
  | .java => "java"
  | .go => "go"
  | .rust => "rust"
  | .kotlin => "kotlin"
  | .scala => "scala"
  | .swift => "swift"

/-- Whether blocks of the language are delimited by braces or directives. Those
of every language in the table are. -/
def isBraceStructured (_ : Language) : Bool :=
  true

/-- The family whose patterns find names in the language, if any. -/
def family? : Language → Option LanguageFamily
  | .csharp => some .csharp
  | .javascript | .typescript => some .ecmascript
  | .java => some .java
  | _ => none

end Language

/-- The extensions with their dots, in lower case, and the languages they
name. -/
def extensions : List (String × Language) :=
  [(".c", .c), (".h", .c),
   (".cpp", .cpp), (".hpp", .cpp), (".cc", .cpp), (".cxx", .cpp),
   (".cs", .csharp), (".cshtml", .razor), (".razor", .razor),
   (".js", .javascript), (".jsx", .javascript), (".mjs", .javascript), (".cjs", .javascript),
   (".ts", .typescript), (".tsx", .typescript),
   (".java", .java), (".kt", .kotlin), (".scala", .scala), (".go", .go), (".rs", .rust),
   (".swift", .swift)]

/-- The extension of a file name: all from the last dot on, in lower case. A
name without a dot has none. -/
def extension? (fileName : String) : Option String :=
  let chars := fileName.toList
  if '.' ∈ chars then
    let afterDot := (chars.reverse.takeWhile (· != '.')).reverse
    some (String.ofList (('.' :: afterDot).map Char.toLower))
  else
    none

/-- The language of a file, told by its extension. -/
def Language.ofFileName? (fileName : String) : Option Language :=
  (extension? fileName).bind fun extension => extensions.lookup extension

/-- Whether a file is split as source code. -/
def isCodeFile (fileName : String) : Bool :=
  match Language.ofFileName? fileName with
  | some language => language.isBraceStructured
  | none => false

/-- The family whose patterns find names in a file, if any. -/
def familyOf? (fileName : String) : Option LanguageFamily :=
  (Language.ofFileName? fileName).bind Language.family?

end Chunking
