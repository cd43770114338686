import Chunking.Language
import Chunking.Names.CSharp
import Chunking.Names.EcmaScript
import Chunking.Names.Java

/-!
# Metadata of a source file

The names found in a file, together with the name of the file. A file has
metadata exactly when its language belongs to a family, even if nothing is
found in it; an extractor that fails leaves the metadata empty.

## Main definitions

* `CodeMetadata`: The names found in a file.
* `LanguageFamily.extract`: The names found in source of a family.
* `metadataOf?`: The metadata of a file.
-/

namespace Chunking

/-- The names found in one source file. -/
structure CodeMetadata where
  /-- The name of the file. -/
  fileName : String
  /-- Declared types. -/
  classNames : NameSet := ∅
  /-- Fields and properties. -/
  propertyNames : NameSet := ∅
  /-- Types used by fields, properties and parameters. -/
  referencedTypes : NameSet := ∅
  deriving DecidableEq

/-- Whether nothing was found. -/
def CodeMetadata.isEmpty (metadata : CodeMetadata) : Bool :=
  metadata.classNames.isEmpty && metadata.propertyNames.isEmpty &&
    metadata.referencedTypes.isEmpty

/-- Why a file's metadata could not be extracted. -/
inductive MetadataError where
  /-- The extractor of the given language broke off. -/
  | panicked (language : String)
  deriving DecidableEq, Repr

/-- The text shown for an extractor that failed. -/
def MetadataError.message : MetadataError → String
  | .panicked language => s!"{language} extractor panicked"

/-- The names found in source of a family. Of the three only the one that cuts
text by offsets could fail. -/
def LanguageFamily.extract (family : LanguageFamily) (content : List Char) :
    Except MetadataError ExtractedNames :=
  match family with
  | .csharp => .ok (CSharp.extract content)
  | .java => .ok (Java.extract content)
  | .ecmascript =>
    match EcmaScript.extract? content with
    | some names => .ok names
    | none => .error (.panicked family.name)

/-- The metadata of a file, if names can be extracted from its language. -/
def metadataOf? (fileName content : String) : Option CodeMetadata :=
  (familyOf? fileName).map fun family =>
    match family.extract content.toList with
    | .ok names =>
      { fileName
        classNames := names.classes
        propertyNames := names.properties
        referencedTypes := names.types }
    | .error _ => { fileName }

end Chunking
