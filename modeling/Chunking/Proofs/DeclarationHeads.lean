import Chunking.Proofs.SpannedText
import Chunking.Proofs.TypeExpressions

/-!
# Heads of declarations

A field or a property is declared by a word that says from where it can be used, other
modifiers, a type, and a name. What comes before the name is the head of the declaration.
All its characters are among those of types, so a pattern that looks for a type cannot
tell where in the head the type starts.

It need not. The modifiers are made of small letters, and so none of them looks like the
name of a type. However the head is taken apart into a front, a type and white space,
the types that are reported of it are the same.

## Main definitions

* `declarationHead`: The head of a declaration.

## Theorems

* `identifiers_declarationHead`: The identifiers of a head.
* `mem_identifiersOf_of_mem_head`: Those that look like the name of a type.
* `identifiers_read`: A head that is taken apart.
* `isTypeName_of_mem_front`: The front does not matter.
-/

namespace Chunking

open Text Pattern

/-- What comes before the name in a declaration. -/
def declarationHead (access : String) (modifiers : List String) (type : List TypeToken) :
    List Char :=
  access.toList ++ ' ' :: (spaced modifiers ++ (textOf type ++ [' ']))

/-! ## The head -/

section Head

variable {access : String} {modifiers : List String} {type : List TypeToken} {word : List Char}

theorem getLast?_declarationHead : (declarationHead access modifiers type).getLast? = some ' ' := by
  have hsame : declarationHead access modifiers type =
      (access.toList ++ ' ' :: (spaced modifiers ++ textOf type)) ++ [' '] := by
    simp [declarationHead]
  rw [hsame, List.getLast?_concat]

theorem isTypeChar_of_mem_head (haccess : PlainWords [access]) (hmodifiers : PlainWords modifiers)
    (htype : ∀ c ∈ textOf type, isTypeChar c = true) :
    ∀ c ∈ declarationHead access modifiers type, isTypeChar c = true := by
  have hspace : isTypeChar ' ' = true := by
    decide
  have hlower {c : Char} (h : c.isLower = true) : isTypeChar c = true :=
    isTypeChar_of_isWord (isWord_of_isLower h)
  simp only [declarationHead, List.forall_mem_append, List.forall_mem_cons]
  refine ⟨fun c hc => hlower ((haccess access (by simp)).2 c hc), hspace, ?_, htype, hspace,
    by simp⟩
  intro c hc
  rcases List.mem_flatMap.mp hc with ⟨modifier, hmodifier, hc⟩
  rcases List.mem_append.mp hc with hc | hc
  · exact hlower ((hmodifiers modifier hmodifier).2 c hc)
  · rw [List.mem_singleton.mp hc]
    exact hspace

theorem identifiers_spaced_append (h : PlainWords modifiers) (rest : List Char) :
    identifiers (spaced modifiers ++ rest) =
      modifiers.map String.toList ++ identifiers rest := by
  have hspace : isIdentifierPart ' ' = false := by
    decide
  induction modifiers with
  | nil => rfl
  | cons word words ih =>
      have hrest := ih fun other hother => h other (List.mem_cons_of_mem word hother)
      have htext : spaced (word :: words) ++ rest =
          word.toList ++ ' ' :: (spaced words ++ rest) := by
        simp [spaced]
      rw [htext, identifiers_append_cons hspace, h.identifiers_eq List.mem_cons_self, hrest]
      rfl

/-- The identifiers of a head are the modifiers and those of the type. -/
theorem identifiers_declarationHead (haccess : PlainWords [access])
    (hmodifiers : PlainWords modifiers) (htype : IsType type)
    (hsound : ∀ token ∈ type, token.Sound) :
    identifiers (declarationHead access modifiers type) =
      access.toList :: (modifiers.map String.toList ++ identifiersOf type) := by
  have hspace : isIdentifierPart ' ' = false := by
    decide
  rw [declarationHead, identifiers_append_cons hspace,
    haccess.identifiers_eq (List.mem_singleton_self access),
    identifiers_spaced_append hmodifiers, identifiers_append_cons hspace, identifiers_nil,
    List.append_nil, Phrase.Derives.identifiers_eq htype hsound]
  rfl

/-- A word of small letters does not look like the name of a type. -/
theorem isTypeName_of_isLower (h : ∀ c ∈ word, c.isLower = true) : isTypeName word = false := by
  cases word with
  | nil => rfl
  | cons first rest =>
      rw [isTypeName, isCapital_of_isLower (h first List.mem_cons_self)]
      rfl

/-- The names of types in a head are those of the type. -/
theorem mem_identifiersOf_of_mem_head (haccess : PlainWords [access])
    (hmodifiers : PlainWords modifiers) (htype : IsType type)
    (hsound : ∀ token ∈ type, token.Sound) (hword : isTypeName word = true)
    (hmem : word ∈ identifiers (declarationHead access modifiers type)) :
    word ∈ identifiersOf type := by
  rw [identifiers_declarationHead haccess hmodifiers htype hsound, List.mem_cons,
    List.mem_append] at hmem
  rcases hmem with rfl | hmem | hmem
  · rw [isTypeName_of_isLower (haccess access (by simp)).2] at hword
    cases hword
  · rcases List.mem_map.mp hmem with ⟨modifier, hmodifier, rfl⟩
    rw [isTypeName_of_isLower (hmodifiers modifier hmodifier).2] at hword
    cases hword
  · exact hmem

end Head

/-! ## A head that is taken apart -/

variable {front type gap word : List Char}

/-- With no identifier across its start and white space behind it, a type has the
identifiers that are not in the front. -/
theorem identifiers_read (hfront : Apart front.getLast?) (hgap : IsBlanks gap) :
    identifiers (front ++ type ++ gap) = identifiers front ++ identifiers type := by
  have hpadded := @identifiers_padded [] _ (by simp) hgap.2 (front ++ type)
  rw [List.nil_append] at hpadded
  rw [hpadded, identifiers_append (.inl hfront)]

/-- No name of a type is in a text of small letters and white space. -/
theorem isTypeName_of_mem_front (hfront : ∀ c ∈ front, c.isLower = true ∨ isBlank c = true)
    (hmem : word ∈ identifiers front) : isTypeName word = false := by
  rcases wholeWord_of_mem_identifiers hmem with ⟨left, right, htext, -⟩
  cases word with
  | nil => rfl
  | cons first rest =>
      have hfirst : isCapital first = false := by
        rcases hfront first (by rw [htext]; simp) with hlower | hblank
        · exact isCapital_of_isLower hlower
        · by_contra hcapital
          rw [isBlank_of_isNamePart (isNamePart_of_isCapital (by simpa using hcapital))] at hblank
          cases hblank
      rw [isTypeName, hfirst]
      rfl

end Chunking
