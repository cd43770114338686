import Chunking.Metadata
import Chunking.Proofs.PropertyHeads
import Chunking.Proofs.ReturnedConstructors

/-!
# Metadata among carriage returns

Most patterns do not heed carriage returns: declared types, members and their type
arguments, fields, assignments and constructors are the same in both texts. The two
patterns that find a name behind a gap may find more. A gap of two characters is too
short, and with a carriage return in it it is long enough, so a name that stands on the
line behind an access modifier is taken for a property. Nothing else is found, and
nothing is lost.

So the metadata of a file is the same exactly if all of these names are names of
properties anyway.

## Main definitions

* `LanguageFamily.NamedAcrossLine`: A name that is found only behind a carriage return.

## Theorems

* `LanguageFamily.extract_withReturns`: The names in the text with carriage returns.
* `metadataOf?_withReturns_iff`: When the metadata is the same.
* `metadataOf?_property_across_line`: A name that is found only with a carriage return.
-/

namespace Chunking

open Text Pattern

/-! ## Names behind a gap -/

/-- The name stands behind two characters of white space, one of them a newline, and what
stands before these and behind the name are those of a property or of an accessor. -/
def LanguageFamily.NamedAcrossLine (family : LanguageFamily) (content : List Char)
    (name : String) : Prop :=
  match family with
  | .csharp => ∃ gap, IsLineGap gap ∧ CSharp.propertyForm.Headed content gap name.toList
  | .java => ∃ gap chars, IsLineGap gap ∧ Java.accessorForm.Headed content gap chars ∧
      Java.AccessorOf name chars
  | .ecmascript => False

-- The gap has two characters, and both ends of a gap are white space.
theorem IsLineGap.forall_isBlank {gap : List Char} (h : IsLineGap gap) :
    ∀ c ∈ gap, isBlank c = true := by
  rcases h with ⟨⟨⟨first, rest, rfl, hfirst⟩, hends, -⟩, hlength, -⟩
  rcases List.length_eq_one_iff.mp (Nat.succ.inj hlength) with ⟨last, rfl⟩
  have hlast : isBlank last = true :=
    hends last rfl
  simp [hfirst, hlast]

variable (content : List Char)

namespace CSharp

theorem mem_propertyNames_iff {content : List Char} {name : String} :
    name ∈ propertyNames content ↔ ∃ found ∈ property.findAll content,
      isDeclaration found = false ∧ String.ofList (found.group 2) = name := by
  simp [propertyNames, and_assoc]

/-- The properties are those from before, and the ones that a line had kept apart from
their access modifier. -/
theorem mem_propertyNames_withReturns_iff (name : String) :
    name ∈ propertyNames (withReturns content) ↔
      name ∈ propertyNames content ∨ LanguageFamily.csharp.NamedAcrossLine content name := by
  have hkeyword (gap chars : List Char) :
      (¬HasKeyword (withReturns gap) ∧ String.ofList chars = name) ↔
        ¬HasKeyword gap ∧ String.ofList chars = name := by
    unfold HasKeyword
    rw [blankSeparated_withReturns]
  -- Words are cut at white space, so a gap has the same ones with carriage returns.
  rw [mem_propertyNames_iff, mem_propertyNames_iff,
    HeadForm.exists_found_withReturns_iff readBy_property.describes (by decide)
      (tells_property name) hkeyword]
  refine or_congr_right ⟨?_, ?_⟩
  · rintro ⟨gap, chars, hgap, hheaded, -, rfl⟩
    exact ⟨gap, hgap, by rwa [String.toList_ofList]⟩
  · rintro ⟨gap, hgap, hheaded⟩
    refine ⟨gap, _, hgap, hheaded, ?_, String.ofList_toList⟩
    -- There is no word in the gap.
    unfold HasKeyword
    rw [blankSeparated_of_blanks hgap.forall_isBlank]
    exact Bool.false_ne_true

end CSharp

namespace Java

/-- The properties of accessors are those from before, and the ones that a line had kept
apart from their access modifier. -/
theorem mem_accessorProperties_withReturns_iff (name : String) :
    name ∈ accessorProperties (withReturns content) ↔
      name ∈ accessorProperties content ∨ LanguageFamily.java.NamedAcrossLine content name := by
  rw [accessorProperties, accessorProperties, List.mem_map, List.mem_map]
  exact HeadForm.exists_found_withReturns_iff readBy_accessor.describes (by decide)
    (tells_accessor name) (fun _ _ => Iff.rfl) content

theorem keepsInLine_field : field.KeepsInLine 2 :=
  ⟨field.row.take 6, name (fun c => isLetter c || c == '_' || c == '$')
      (fun c => isWord c || c == '$'), field.row.drop 7, rfl, rfl, rfl, rfl,
    endsNoLine_of_allowed (by decide), endsNoLine_of_allowed (by decide)⟩

end Java

/-! ## Metadata -/

/-- The names in the text with carriage returns: the same, and of properties also those
that a line had kept apart from their access modifier. -/
theorem LanguageFamily.extract_withReturns (family : LanguageFamily) :
    ∃ names names', family.extract content = .ok names ∧
      family.extract (withReturns content) = .ok names' ∧ names'.classes = names.classes ∧
        names'.types = names.types ∧ ∀ name, name ∈ names'.properties ↔
          name ∈ names.properties ∨ family.NamedAcrossLine content name := by
  rcases family.exists_extract content with ⟨names, hnames, hclasses⟩
  rcases family.exists_extract (withReturns content) with ⟨names', hnames', hclasses'⟩
  have hsteady : (declaredType family.typeKeywords).isSteady = true := by
    cases family <;> decide
  refine ⟨names, names', hnames, hnames', ?_, ?_⟩
  · rw [hclasses, hclasses', foundNames_withReturns hsteady (keepsInLine_declaredType _)]
  -- Types and properties, each by the patterns of the language.
  · cases family with
    | csharp =>
        cases hnames
        cases hnames'
        refine ⟨?_, fun name => ?_⟩
        · change NameSet.ofList _ = NameSet.ofList _
          rw [foundTypes_withReturns (by decide), foundTypes_withReturns (by decide)]
        · simp only [CSharp.extract, NameSet.mem_ofList, CSharp.mem_propertyNames_withReturns_iff]
    | java =>
        cases hnames
        cases hnames'
        refine ⟨?_, fun name => ?_⟩
        · change NameSet.ofList _ = NameSet.ofList _
          rw [foundTypes_withReturns (by decide)]
        · simp only [Java.extract, NameSet.mem_ofList, List.mem_append, or_assoc,
            foundNames_withReturns (by decide : Java.field.isSteady = true) Java.keepsInLine_field,
            Java.mem_accessorProperties_withReturns_iff]
    | ecmascript =>
        have hsame : ecmascript.extract (withReturns content) = ecmascript.extract content := by
          simp only [extract, EcmaScript.extract?_withReturns]
        rw [hsame, hnames] at hnames'
        cases hnames'
        exact ⟨rfl, fun name => (or_iff_left id).symm⟩

/-- The metadata of a file is the same with carriage returns exactly if every name that a
line keeps apart from its access modifier is the name of a property anyway. -/
theorem metadataOf?_withReturns_iff (fileName content : String) :
    metadataOf? fileName (.ofList (withReturns content.toList)) = metadataOf? fileName content ↔
      ∀ family metadata, familyOf? fileName = some family →
        metadataOf? fileName content = some metadata →
          ∀ name, family.NamedAcrossLine content.toList name → name ∈ metadata.propertyNames := by
  cases hfamily : familyOf? fileName with
  | none => simp [metadataOf?, hfamily]
  | some family =>
      rcases family.extract_withReturns content.toList with
        ⟨names, names', hnames, hnames', hclasses, htypes, hproperties⟩
      have hmetadata : metadataOf? fileName content =
          some ⟨fileName, names.classes, names.properties, names.types⟩ := by
        simp only [metadataOf?, hfamily, Option.map_some, hnames]
      have hmetadata' : metadataOf? fileName (.ofList (withReturns content.toList)) =
          some ⟨fileName, names'.classes, names'.properties, names'.types⟩ := by
        simp only [metadataOf?, hfamily, Option.map_some, String.toList_ofList, hnames']
      rw [hmetadata, hmetadata', hclasses, htypes]
      constructor
      · rintro hsame _ _ ⟨⟩ ⟨⟩ name hname
        -- The property sets agree, so what is new in one of them is in the other.
        have hproperty := congrArg CodeMetadata.propertyNames (Option.some.inj hsame)
        exact hproperty ▸ (hproperties name).mpr (.inr hname)
      · intro hnone
        have hproperty : names'.properties = names.properties :=
          NameSet.eq_of_mem_iff fun name =>
            (hproperties name).trans (or_iff_left_of_imp (hnone family _ rfl rfl name))
        rw [hproperty]

/-- A name on the line behind an access modifier becomes that of a property with a carriage
return. -/
theorem metadataOf?_property_across_line :
    let content := "public \nFoo \x7b\x7d"
    metadataOf? "A.cs" content = some { fileName := "A.cs" } ∧
      metadataOf? "A.cs" (.ofList (withReturns content.toList)) =
        some { fileName := "A.cs", propertyNames := .ofList ["Foo"] } := by
  decide +kernel

end Chunking
