import Chunking.Metadata
import Chunking.Proofs.ConstructorParts

/-!
# Reported names are words of the source

Names are found by patterns, in pieces of text that were cut out by counting
brackets, and as identifiers of longer texts. Wherever a name comes from, it is a
whole word of the source. There is one exception: an accessor stands for a
property that need not occur, and there it is the name of the accessor that does.

For each pattern it is enough to look at what comes before and behind the part
that is kept. A referenced type is a word of such a part, and by its form it is
no name of a type parameter.

## Main definitions

* `LanguageFamily.builtins`: The types that are never reported.
* `ReferencedType`: What is said of a referenced type.
* `NamedByAccessor`: What is said of a property that an accessor stands for.

## Theorems

* `referencedType_of_mem`: The types in a part of the source.
* `CSharp.reported`, `Java.reported`, `EcmaScript.reported`: The three families.
* `reported_names_are_words`: The metadata of a file.
-/

namespace Chunking

open Text Pattern

/-- The types of a language and its libraries, which are never reported. -/
def LanguageFamily.builtins : LanguageFamily → List String
  | .csharp => CSharp.builtins
  | .java => Java.builtins
  | .ecmascript => EcmaScript.builtins

/-- The name starts with a capital letter, has at least one more character, all of
them ASCII letters, digits and underscores, is none of the excluded ones, and is a
whole word of the text. -/
def ReferencedType (builtins : List String) (content : List Char) (name : String) : Prop :=
  (∃ first rest, name.toList = first :: rest ∧ isCapital first = true ∧ rest ≠ [] ∧
    ∀ c ∈ rest, isNamePart c = true) ∧ name ∉ builtins ∧ WholeWord name.toList content

/-- Behind `get` or `is` the name, but with a capital letter, is a whole word of the
text, and after blanks a parenthesis follows. -/
def NamedByAccessor (content : List Char) (name : String) : Prop :=
  ∃ first rest, name.toList = first.toLower :: rest ∧ isCapital first = true ∧
    ∃ verb ∈ ["get".toList, "is".toList], ∃ before blanks after,
      content = before ++ (verb ++ first :: rest) ++ (blanks ++ '(' :: after) ∧
        Apart before.getLast? ∧ (∀ c ∈ blanks, isBlank c = true) ∧
          Apart (blanks ++ '(' :: after).head?

/-- The types that are reported of a whole word of the source. -/
theorem referencedType_of_mem {builtins : List String} {part content : List Char} {name : String}
    (h : name ∈ referencedTypes builtins part) (hpart : WholeWord part content) :
    ReferencedType builtins content name := by
  rcases List.mem_filter.mp h with ⟨hname, hbuiltin⟩
  rcases List.mem_map.mp hname with ⟨word, hword, rfl⟩
  rcases List.mem_filter.mp hword with ⟨hidentifier, htype⟩
  rw [ReferencedType, String.toList_ofList]
  refine ⟨?_, by simpa using hbuiltin, (wholeWord_of_mem_identifiers hidentifier).trans hpart⟩
  -- The form of the name is what `isTypeName` checks.
  cases word with
  | nil => cases htype
  | cons first rest =>
      simp only [isTypeName, Bool.and_eq_true, Bool.not_eq_true', List.all_eq_true] at htype
      exact ⟨first, rest, rfl, htype.1.1, by simpa using htype.1.2, htype.2⟩

/-- The types that are reported of what a pattern keeps. -/
theorem referencedType_of_mem_foundTypes {builtins : List String} {pattern : Pattern}
    {number : Nat} (hpattern : pattern.KeepsWord number) {content : List Char} {name : String}
    (h : name ∈ foundTypes builtins pattern number content) :
    ReferencedType builtins content name := by
  rcases List.mem_flatMap.mp h with ⟨found, hfound, hname⟩
  exact referencedType_of_mem hname (hpattern.wholeWord_of_mem_findAll hfound)

/-- The names that a pattern keeps. -/
theorem wholeWord_of_mem_foundNames {pattern : Pattern} {number : Nat}
    (hpattern : pattern.KeepsWord number) {content : List Char} {name : String}
    (h : name ∈ foundNames pattern number content) : WholeWord name.toList content := by
  rcases List.mem_map.mp h with ⟨found, hfound, rfl⟩
  rw [String.toList_ofList]
  exact hpattern.wholeWord_of_mem_findAll hfound

/-! The rows are cut right before and behind what is kept. Before it are white space and what
may come in between, behind it white space and a mark of the language. None of these ends or
starts with a character of identifiers. -/

/-! ## C# -/

namespace CSharp

theorem keepsWord_property : property.KeepsWord 2 := by
  refine ⟨property.row.take 5, capitalized, property.row.drop 6, rfl, rfl, rfl, rfl, ?_, ?_⟩
  · simp [property, Pattern.sequence, row, inRow, EndsApart]
  · have hchars : isIdentifierPart '\x7b' = false ∧ isIdentifierPart '=' = false := by
      decide
    simpa [property, Pattern.sequence, row, inRow, StartsApart] using hchars

theorem keepsWord_member : member.KeepsWord 1 := by
  refine ⟨member.row.take 4, seq (one isCapital) (stretch false isTypeChar), member.row.drop 5,
    rfl, rfl, rfl, rfl, ?_, ?_⟩
  · simp [member, Pattern.sequence, row, inRow, EndsApart]
  · simp [member, Pattern.sequence, row, inRow, StartsApart]

theorem keepsWord_typeArguments : typeArguments.KeepsWord 1 := by
  refine ⟨[literal ['<']], _, [literal ['>']], rfl, rfl, rfl, rfl, ?_, ?_⟩
  · exact (by decide : isIdentifierPart '<' = false)
  · exact (by decide : isIdentifierPart '>' = false)

/-- Types come from members and from arguments in angle brackets, names from properties
only. -/
theorem reported (content : List Char) :
    (∀ name ∈ (extract content).types, ReferencedType builtins content name) ∧
      ∀ name ∈ (extract content).properties, WholeWord name.toList content := by
  constructor
  · intro name hname
    rcases List.mem_append.mp (NameSet.mem_ofList.mp hname) with hname | hname
    · exact referencedType_of_mem_foundTypes keepsWord_member hname
    · exact referencedType_of_mem_foundTypes keepsWord_typeArguments hname
  · intro name hname
    rcases List.mem_map.mp (NameSet.mem_ofList.mp hname) with ⟨found, hfound, rfl⟩
    rw [String.toList_ofList]
    exact keepsWord_property.wholeWord_of_mem_findAll (List.mem_filter.mp hfound).1

end CSharp

/-! ## Java -/

namespace Java

theorem keepsWord_field_type : field.KeepsWord 1 := by
  refine ⟨field.row.take 4, _, field.row.drop 5, rfl, rfl, rfl, rfl, ?_, ?_⟩
  · simp [field, Pattern.sequence, row, inRow, EndsApart]
  · simp [field, Pattern.sequence, row, inRow, StartsApart]

theorem keepsWord_field_name : field.KeepsWord 2 := by
  refine ⟨field.row.take 6, _, field.row.drop 7, rfl, rfl, rfl, rfl, ?_, ?_⟩
  · simp [field, Pattern.sequence, row, inRow, EndsApart]
  · have hchars : isIdentifierPart ';' = false ∧ isIdentifierPart '=' = false := by
      decide
    simpa [field, Pattern.sequence, row, inRow, StartsApart] using hchars

/-- What an accessor stands for. The name that is kept starts in the middle of a word, so the
row is cut before the verb as well. -/
theorem namedByAccessor_of_mem {content : List Char} {name : String}
    (h : name ∈ accessorProperties content) : NamedByAccessor content name := by
  rcases List.mem_map.mp h with ⟨found, hfound, rfl⟩
  rcases exists_between_of_mem_findAll hfound with ⟨before, after, rfl, hmatch⟩
  have hrow : accessor.row = (accessor.row.take 5 ++ [words ["get", "is"]]) ++
      Pattern.group 1 capitalized :: accessor.row.drop 7 :=
    rfl
  rcases exists_spans_of_matchAt? hrow rfl rfl rfl hmatch with
    ⟨passed, more, rest, rfl, hfront, hname, hmore⟩
  -- The word ends where the name does.
  have hstarts : (inRow (accessor.row.drop 7)).StartsApart False := by
    have hparenthesis : isIdentifierPart '(' = false := by
      decide
    simpa [accessor, Pattern.sequence, row, inRow, StartsApart] using hparenthesis
  have hbehind := apart_of_startsApart hmore False hstarts False.elim
  -- What is kept starts with a capital letter.
  rcases hname.exists_of_seq with ⟨capital, name, hgroup, hcapital, _⟩
  rcases hcapital.exists_of_one with ⟨first, rfl, hfirst⟩
  -- Behind it are blanks and a parenthesis.
  rcases hmore.exists_of_seq with ⟨blanks, text, rfl, hblanks, htext⟩
  rcases htext.exists_of_seq with ⟨parenthesis, nothing, rfl, hparenthesis, hnothing⟩
  have htail : parenthesis ++ nothing ++ rest = '(' :: rest := by
    rw [hparenthesis.eq_of_literal, hnothing.eq_of_literal]
    rfl
  rw [List.append_assoc, htail] at hbehind
  -- Before it is the verb, and before that a blank.
  rcases spans_inRow_append hfront with ⟨front, text, rfl, hfront, htext⟩
  rcases htext.exists_of_seq with ⟨verb, nothing', rfl, hverb, hnothing'⟩
  have hends : (inRow (accessor.row.take 5)).EndsApart False := by
    simp [accessor, Pattern.sequence, row, inRow, EndsApart]
  have hapart := apart_of_endsApart hfront False hends False.elim
  have hmem : verb ∈ ["get".toList, "is".toList] := by
    rcases hverb.or_of_either with hverb | hverb
    · rw [hverb.eq_of_literal]
      exact List.mem_cons_self
    · rw [hverb.eq_of_literal]
      exact List.mem_cons_of_mem _ List.mem_cons_self
  rw [hgroup, List.singleton_append, propertyOfAccessor]
  refine ⟨first, name, String.toList_ofList, hfirst, verb, hmem, before ++ front, blanks, rest, ?_,
    hapart, hblanks.forall_of_stretch, hbehind⟩
  rw [← htail, hnothing'.eq_of_literal]
  simp

/-- Types come from fields. A property is a field, or else an accessor stands for it. -/
theorem reported (content : List Char) :
    (∀ name ∈ (extract content).types, ReferencedType builtins content name) ∧
      ∀ name ∈ (extract content).properties,
        WholeWord name.toList content ∨ NamedByAccessor content name := by
  constructor
  · intro name hname
    exact referencedType_of_mem_foundTypes keepsWord_field_type (NameSet.mem_ofList.mp hname)
  · intro name hname
    rcases List.mem_append.mp (NameSet.mem_ofList.mp hname) with hname | hname
    · exact .inl (wholeWord_of_mem_foundNames keepsWord_field_name hname)
    · exact .inr (namedByAccessor_of_mem hname)

end Java

/-! ## JavaScript and TypeScript -/

namespace EcmaScript

theorem keepsWord_field_name : field.KeepsWord 1 := by
  refine ⟨field.row.take 3, identifier, field.row.drop 4, rfl, rfl, rfl, rfl, ?_, ?_⟩
  · have hchars : isIdentifierPart ' ' = false ∧ isIdentifierPart '\t' = false := by
      decide
    simpa [field, Pattern.sequence, row, inRow, EndsApart] using hchars
  · have hchars : (isIdentifierPart '!' = false ∧ isIdentifierPart '?' = false) ∧
        isIdentifierPart ':' = false := by
      decide
    simpa [field, Pattern.sequence, row, inRow, StartsApart] using hchars

theorem keepsWord_field_type : field.KeepsWord 2 := by
  refine ⟨field.row.take 9, _, field.row.drop 10, rfl, rfl, rfl, rfl, ?_, ?_⟩
  · have hchar : isIdentifierPart ':' = false := by
      decide
    simpa [field, Pattern.sequence, row, inRow, EndsApart] using hchar
  · have hchars : isIdentifierPart ';' = false ∧ isIdentifierPart '=' = false := by
      decide
    simpa [field, Pattern.sequence, row, inRow, StartsApart] using hchars

/-- Types and names come from fields, and from the parameters and bodies of constructors. -/
theorem reported {content : List Char} {names : ExtractedNames}
    (h : extract? content = some names) :
    (∀ name ∈ names.types, ReferencedType builtins content name) ∧
      ∀ name ∈ names.properties, WholeWord name.toList content := by
  rcases Option.bind_eq_some_iff.mp h with ⟨constructors, hconstructors, h⟩
  cases h
  -- What a constructor contributes was cut out of the source, so a name in it is followed
  -- from the piece out to the source.
  have hsite {names : List String × List String} (hnames : names ∈ constructors) :
      (∀ name ∈ names.1, WholeWord name.toList content) ∧
        ∀ name ∈ names.2, ∃ type, WholeWord type content ∧
          name ∈ referencedTypes builtins type := by
    rcases exists_of_mem_mapM hconstructors hnames with ⟨site, hsite, hnames⟩
    exact wholeWord_constructorNames hsite hnames
  constructor
  · intro name hname
    rcases List.mem_append.mp (NameSet.mem_ofList.mp hname) with hname | hname
    · rcases List.mem_flatMap.mp hname with ⟨found, hfound, hname⟩
      exact referencedType_of_mem hname
        (keepsWord_field_type.wholeWord_of_mem_findAll (List.mem_filter.mp hfound).1)
    · rcases List.mem_flatMap.mp hname with ⟨names, hnames, hname⟩
      rcases (hsite hnames).2 name hname with ⟨type, htype, hname⟩
      exact referencedType_of_mem hname htype
  · intro name hname
    rcases List.mem_append.mp (NameSet.mem_ofList.mp hname) with hname | hname
    · rcases List.mem_map.mp hname with ⟨found, hfound, rfl⟩
      rw [String.toList_ofList]
      exact keepsWord_field_name.wholeWord_of_mem_findAll (List.mem_filter.mp hfound).1
    · rcases List.mem_flatMap.mp hname with ⟨names, hnames, hname⟩
      exact (hsite hnames).1 name hname

end EcmaScript

/-! ## Metadata -/

/-- Every name that is reported for a file is a whole word of its content. A
referenced type has the form of a type name and is none of those that come with
the language. A property is a whole word itself, or, in Java only, it is what is
left of the name of an accessor. -/
theorem reported_names_are_words (fileName content : String) (metadata : CodeMetadata)
    (h : metadataOf? fileName content = some metadata) :
    ∃ family, familyOf? fileName = some family ∧
      (∀ name ∈ metadata.referencedTypes,
        ReferencedType family.builtins content.toList name) ∧
      ∀ name ∈ metadata.propertyNames, WholeWord name.toList content.toList ∨
        family = .java ∧ NamedByAccessor content.toList name := by
  rcases Option.map_eq_some_iff.mp h with ⟨family, hfamily, hmetadata⟩
  refine ⟨family, hfamily, ?_⟩
  subst hmetadata
  cases family with
  | csharp =>
      have hreported := CSharp.reported content.toList
      exact ⟨hreported.1, fun name hname => .inl (hreported.2 name hname)⟩
  | java =>
      have hreported := Java.reported content.toList
      exact ⟨hreported.1, fun name hname => (hreported.2 name hname).imp_right fun h => ⟨rfl, h⟩⟩
  | ecmascript =>
      cases hextract : EcmaScript.extract? content.toList with
      | some names =>
          have hreported := EcmaScript.reported hextract
          simp only [LanguageFamily.extract, hextract]
          exact ⟨hreported.1, fun name hname => .inl (hreported.2 name hname)⟩
      | none =>
          -- An extractor that fails reports nothing.
          simp only [LanguageFamily.extract, hextract]
          exact ⟨fun name hname => absurd hname NameSet.not_mem_empty,
            fun name hname => absurd hname NameSet.not_mem_empty⟩

/-- In a Java source with an accessor the type of a field is a word, and so is the
accessor, though the property that it names is not. -/
theorem reported_names_are_words_accessor :
    let content := "private Box raw; public Box getItem()"
    ∃ family, familyOf? "A.java" = some family ∧
      ReferencedType family.builtins content.toList "Box" ∧
      (WholeWord "item".toList content.toList ∨
        family = .java ∧ NamedByAccessor content.toList "item") := by
  intro content
  have hmetadata : metadataOf? "A.java" content = some
      { fileName := "A.java"
        propertyNames := .ofList ["item", "raw"]
        referencedTypes := .ofList ["Box"] } := by
    decide +kernel
  rcases reported_names_are_words "A.java" content _ hmetadata with
    ⟨family, hfamily, htypes, hproperties⟩
  exact ⟨family, hfamily, htypes "Box" (by simp), hproperties "item" (by simp)⟩

end Chunking
