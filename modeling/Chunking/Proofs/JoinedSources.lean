import Chunking.Metadata
import Chunking.Proofs.FencedSearch

/-!
# Names of joined sources

What is found in C# and Java source is found between closing braces: no pattern
of the two families matches across one. So the names of two sources with a
closing brace between them are the names of both together.

A source that is put together from parts, each of which ends with a closing
brace, has the names of its parts. Names are kept as sets, and neither the order
of the parts nor how often one of them comes makes a difference to its metadata.

## Main definitions

* `NameSet` and `ExtractedNames` have unions.
* `UnitesAtBraces`: An extractor for which a closing brace separates sources.

## Theorems

* `map_group_findAll_append`: What is kept on both sides of a closing brace.
* `CSharp.unitesAtBraces`, `Java.unitesAtBraces`: The two extractors.
* `UnitesAtBraces.extract_flatten_congr`: The order of parts and repetitions make
  no difference.
* `metadata_of_joined_sources`: The metadata of joined sources.
-/

namespace Chunking

/-! ## Unions -/

instance : Union NameSet where
  union first second := .ofList (first.names ++ second.names)

@[simp]
theorem NameSet.mem_union {first second : NameSet} {name : String} :
    name ∈ first ∪ second ↔ name ∈ first ∨ name ∈ second :=
  mem_ofList.trans List.mem_append

theorem NameSet.ofList_append (first second : List String) :
    ofList (first ++ second) = ofList first ∪ ofList second :=
  eq_of_mem_iff fun name => by simp

/-- Each of the three sets of names is the union. -/
instance : Union ExtractedNames where
  union first second :=
    { classes := first.classes ∪ second.classes
      properties := first.properties ∪ second.properties
      types := first.types ∪ second.types }

/-! ## Closing braces -/

section Search

open Pattern

variable {pattern : Pattern} (hconsumes : pattern.consumes = true)
  (hstops : pattern.stopsAt '\x7d' = true) (first second : List Char)

include hconsumes hstops

/-- Matches keep the same on both sides of a closing brace as they keep in the two
texts on their own. -/
theorem map_group_findAll_append :
    (pattern.findAll (first ++ '\x7d' :: second)).map Match.group =
      (pattern.findAll first).map Match.group ++ (pattern.findAll second).map Match.group := by
  -- A match keeps what it does whatever stands around the text in which it was found.
  have hsame (front back text : List Char) :
      ((pattern.findAll text).map (Match.within front back)).map Match.group =
        (pattern.findAll text).map Match.group := by
    rw [List.map_map]
    refine List.map_congr_left fun found hfound => ?_
    funext number
    exact Match.group_within front back hfound number
  rw [findAll_append_fence hconsumes hstops, List.map_append, hsame, hsame]

/-- So the names that are found are those of both texts. -/
theorem foundNames_append (number : Nat) :
    foundNames pattern number (first ++ '\x7d' :: second) =
      foundNames pattern number first ++ foundNames pattern number second := by
  have hmap (text : List Char) : foundNames pattern number text =
      ((pattern.findAll text).map Match.group).map fun group => String.ofList (group number) := by
    rw [List.map_map]
    rfl
  rw [hmap, hmap, hmap, map_group_findAll_append hconsumes hstops, List.map_append]

/-- And so are the types. -/
theorem foundTypes_append (builtins : List String) (number : Nat) :
    foundTypes builtins pattern number (first ++ '\x7d' :: second) =
      foundTypes builtins pattern number first ++ foundTypes builtins pattern number second := by
  have hmap (text : List Char) : foundTypes builtins pattern number text =
      ((pattern.findAll text).map Match.group).flatMap fun group =>
        referencedTypes builtins (group number) := by
    rw [List.flatMap_map]
    rfl
  rw [hmap, hmap, hmap, map_group_findAll_append hconsumes hstops, List.flatMap_append]

end Search

/-- The names of two sources with a closing brace between them are those of both. -/
def UnitesAtBraces (extract : List Char → ExtractedNames) : Prop :=
  ∀ first second, extract (first ++ '\x7d' :: second) = extract first ∪ extract second

-- Which of the matches count is decided by what they keep.
theorem CSharp.propertyNames_append (first second : List Char) :
    propertyNames (first ++ '\x7d' :: second) = propertyNames first ++ propertyNames second := by
  have hmap (text : List Char) : propertyNames text =
      (((property.findAll text).map Match.group).filter fun group =>
        !(blankSeparated (group 1)).any declarationKeywords.contains).map fun group =>
          String.ofList (group 2) := by
    rw [List.filter_map, List.map_map]
    rfl
  rw [hmap, hmap, hmap, map_group_findAll_append rfl rfl, List.filter_append, List.map_append]

theorem CSharp.unitesAtBraces : UnitesAtBraces extract := by
  intro first second
  have hclasses : (extract (first ++ '\x7d' :: second)).classes =
      (extract first).classes ∪ (extract second).classes := by
    dsimp only [extract]
    rw [foundNames_append rfl rfl, NameSet.ofList_append]
  have hproperties : (extract (first ++ '\x7d' :: second)).properties =
      (extract first).properties ∪ (extract second).properties := by
    dsimp only [extract]
    rw [propertyNames_append, NameSet.ofList_append]
  have htypes : (extract (first ++ '\x7d' :: second)).types =
      (extract first).types ∪ (extract second).types := by
    dsimp only [extract]
    rw [foundTypes_append rfl rfl, foundTypes_append rfl rfl]
    -- The two patterns are searched for one after the other.
    refine NameSet.eq_of_mem_iff fun name => ?_
    simp only [NameSet.mem_ofList, NameSet.mem_union, List.mem_append]
    exact or_or_or_comm
  exact ExtractedNames.mk.injEq .. ▸ ⟨hclasses, hproperties, htypes⟩

theorem Java.accessorProperties_append (first second : List Char) :
    accessorProperties (first ++ '\x7d' :: second) =
      accessorProperties first ++ accessorProperties second := by
  have hmap (text : List Char) : accessorProperties text =
      ((accessor.findAll text).map Match.group).map fun group =>
        String.ofList (propertyOfAccessor (group 1)) := by
    rw [List.map_map]
    rfl
  rw [hmap, hmap, hmap, map_group_findAll_append rfl rfl, List.map_append]

theorem Java.unitesAtBraces : UnitesAtBraces extract := by
  intro first second
  have hclasses : (extract (first ++ '\x7d' :: second)).classes =
      (extract first).classes ∪ (extract second).classes := by
    dsimp only [extract]
    rw [foundNames_append rfl rfl, NameSet.ofList_append]
  have hproperties : (extract (first ++ '\x7d' :: second)).properties =
      (extract first).properties ∪ (extract second).properties := by
    dsimp only [extract]
    rw [foundNames_append rfl rfl, accessorProperties_append]
    refine NameSet.eq_of_mem_iff fun name => ?_
    simp only [NameSet.mem_ofList, NameSet.mem_union, List.mem_append]
    exact or_or_or_comm
  have htypes : (extract (first ++ '\x7d' :: second)).types =
      (extract first).types ∪ (extract second).types := by
    dsimp only [extract]
    rw [foundTypes_append rfl rfl, NameSet.ofList_append]
  exact ExtractedNames.mk.injEq .. ▸ ⟨hclasses, hproperties, htypes⟩

/-! ## Parts -/

namespace UnitesAtBraces

variable {extract : List Char → ExtractedNames} (h : UnitesAtBraces extract)

include h

/-- A name is found in a source of parts if it is found in one of them, or in no
text at all. -/
theorem mem_extract_flatten (kind : ExtractedNames → NameSet)
    (hkind : ∀ first second : ExtractedNames, kind (first ∪ second) = kind first ∪ kind second)
    {parts : List (List Char)} (hparts : ∀ part ∈ parts, part.getLast? = some '\x7d')
    (name : String) :
    name ∈ kind (extract parts.flatten) ↔
      (∃ part ∈ parts, name ∈ kind (extract part.dropLast)) ∨ name ∈ kind (extract []) := by
  induction parts with
  | nil => simp
  -- A part is cut before its closing brace, and the rest of the source is behind it. Behind the
  -- last one nothing is left, which is why no text at all comes in.
  | cons part parts ih =>
      have hpart : part = part.dropLast ++ ['\x7d'] :=
        (List.dropLast_append_getLast? _ (hparts part List.mem_cons_self)).symm
      have hjoin : (part :: parts).flatten = part.dropLast ++ '\x7d' :: parts.flatten := by
        rw [List.flatten_cons]
        nth_rewrite 1 [hpart]
        rw [List.append_assoc]
        rfl
      have hmore := ih fun other hother => hparts other (List.mem_cons_of_mem part hother)
      rw [hjoin, h, hkind, NameSet.mem_union, hmore, List.exists_mem_cons_iff, or_assoc]

/-- The order of parts and repetitions make no difference. -/
theorem extract_flatten_congr {parts others : List (List Char)}
    (hparts : ∀ part ∈ parts, part.getLast? = some '\x7d')
    (hsame : ∀ part, part ∈ parts ↔ part ∈ others) :
    extract parts.flatten = extract others.flatten := by
  have hothers : ∀ part ∈ others, part.getLast? = some '\x7d' := fun part hpart =>
    hparts part ((hsame part).mpr hpart)
  -- The condition on the members of a set mentions the parts only by what parts there are.
  have hkind (kind : ExtractedNames → NameSet)
      (hkind : ∀ first second, kind (first ∪ second) = kind first ∪ kind second) :
      kind (extract parts.flatten) = kind (extract others.flatten) := by
    refine NameSet.eq_of_mem_iff fun name => ?_
    simp only [h.mem_extract_flatten kind hkind hparts, h.mem_extract_flatten kind hkind hothers,
      hsame]
  exact ExtractedNames.mk.injEq .. ▸ ⟨hkind ExtractedNames.classes fun _ _ => rfl,
    hkind ExtractedNames.properties fun _ _ => rfl, hkind ExtractedNames.types fun _ _ => rfl⟩

end UnitesAtBraces

/-- The names of two C# or Java sources with a closing brace between them are those
of both, for each of the three kinds of names. Of a source that is put together
from parts, each of which ends with a closing brace, the metadata depends only on
what parts there are. -/
theorem metadata_of_joined_sources :
    (∀ first second : String, CSharp.extract (first ++ "\x7d" ++ second).toList =
        CSharp.extract first.toList ∪ CSharp.extract second.toList) ∧
      (∀ first second : String, Java.extract (first ++ "\x7d" ++ second).toList =
        Java.extract first.toList ∪ Java.extract second.toList) ∧
      ∀ (fileName : String) (family : LanguageFamily), familyOf? fileName = some family →
        family = .csharp ∨ family = .java → ∀ parts others : List String,
          (∀ part ∈ parts, part.toList.getLast? = some '\x7d') →
            (∀ part, part ∈ parts ↔ part ∈ others) →
              metadataOf? fileName (String.join parts) =
                metadataOf? fileName (String.join others) := by
  have htexts (first second : String) :
      (first ++ "\x7d" ++ second).toList = first.toList ++ '\x7d' :: second.toList := by
    simp
  refine ⟨fun first second => ?_, fun first second => ?_, ?_⟩
  · rw [htexts]
    exact CSharp.unitesAtBraces _ _
  · rw [htexts]
    exact Java.unitesAtBraces _ _
  · intro fileName family hfile hfamily parts others hparts hsame
    have hjoin (texts : List String) :
        (String.join texts).toList = (texts.map String.toList).flatten := by
      rw [String.toList_join, List.flatMap_def]
    have hextract : family.extract (String.join parts).toList =
        family.extract (String.join others).toList := by
      rw [hjoin, hjoin]
      have hmap : ∀ part ∈ parts.map String.toList, part.getLast? = some '\x7d' := by
        simpa using hparts
      have hsameMap (part : List Char) :
          part ∈ parts.map String.toList ↔ part ∈ others.map String.toList := by
        simp only [List.mem_map, hsame]
      rcases hfamily with rfl | rfl
      · exact congrArg Except.ok (CSharp.unitesAtBraces.extract_flatten_congr hmap hsameMap)
      · exact congrArg Except.ok (Java.unitesAtBraces.extract_flatten_congr hmap hsameMap)
    rw [metadataOf?, metadataOf?, hfile, Option.map_some, Option.map_some, hextract]

/-- Repeating a part and changing the order of the parts of a C# source. -/
theorem metadata_of_joined_sources_repeated :
    metadataOf? "Order.cs" (String.join
        ["class Order \x7b public Money Total \x7b get; \x7d", " \x7d",
          "enum State \x7b New \x7d"]) =
      metadataOf? "Order.cs" (String.join
        ["enum State \x7b New \x7d", " \x7d", " \x7d",
          "class Order \x7b public Money Total \x7b get; \x7d"]) := by
  refine metadata_of_joined_sources.2.2 "Order.cs" .csharp (by decide) (.inl rfl) _ _ (by decide) ?_
  intro part
  simp only [List.mem_cons, List.not_mem_nil, or_false]
  constructor
  · rintro (h | h | h) <;> simp [h]
  · rintro (h | h | h | h) <;> simp [h]

end Chunking
