import Chunking.Names.CSharp
import Chunking.Proofs.DeclarationHeads

/-!
# Declarations of properties

A property with accessors and no body is declared on a line: a word that says from where
it can be used, other modifiers, a type, a name, and braces. What the text of such a
declaration is made of is said here, before any pattern looks at it.

The types are names, and types with arguments, of arrays, and that may be missing. What
has arguments starts with a capital letter. So a type that does not start with one has no
arguments, and it mentions a single name that does not start with one either.

A reserved word is no name in a type. If one stands in a declaration, then it is one of
the modifiers, and a word that says from where the property can be used stands only at
the start.

## Main definitions

* `CSharp.PropertyType`: The types of properties.
* `CSharp.PropertyDeclaration`: The declaration of a property, and its text.

## Theorems

* `CSharp.PropertyType.isCapitalized_or`: What a type that is not capitalized mentions.
* `CSharp.PropertyDeclaration.eq_access_of_reserved`: Where a reserved word stands.
-/

namespace Chunking.CSharp

open Text Pattern

/-- The words that say from where a member can be used. -/
def accessWords : List String :=
  ["public", "protected", "internal", "private"]

/-- The other modifiers of a member. -/
def memberModifiers : List String :=
  ["static", "readonly", "virtual", "override", "abstract", "sealed", "new", "const",
   "required", "volatile"]

/-- The words that are no names in a type. -/
def reservedWords : List String :=
  accessWords ++ memberModifiers ++ declarationKeywords

/-- The tokens of the types of properties. The identifiers in them are ASCII, and none is
reserved. -/
def IsTypeToken : TypeToken → Prop
  | .word chars => IsAsciiIdentifier chars ∧ String.ofList chars ∉ reservedWords
  | .less | .comma | .greater | .brackets | .question => True
  | .dot | .bar | .firstParameter _ | .nextParameter _ | .noParameters | .arrow => False

instance : DecidablePred IsTypeToken
  | .word _ => inferInstanceAs (Decidable (_ ∧ _))
  | .less | .comma | .greater | .brackets | .question => isTrue trivial
  | .dot | .bar | .firstParameter _ | .nextParameter _ | .noParameters | .arrow => isFalse id

/-- The tokens start with a capital letter. -/
def IsCapitalized (tokens : List TypeToken) : Prop :=
  ∃ first rest more, tokens = .word (first :: rest) :: more ∧ isCapital first = true

/-- The types of properties: names, arguments behind a type that starts with a capital
letter, arrays, and types that may be missing. -/
inductive PropertyType : Phrase → List TypeToken → Prop
  | word (chars : List Char) (h : IsTypeToken (.word chars)) :
      PropertyType .type [.word chars]
  | applied {head rest : List TypeToken} (h : PropertyType .type head)
      (hhead : IsCapitalized head) (h' : PropertyType .arguments rest) :
      PropertyType .type (head ++ .less :: (rest ++ [.greater]))
  | array {element : List TypeToken} (h : PropertyType .type element) :
      PropertyType .type (element ++ [.brackets])
  | nullable {inner : List TypeToken} (h : PropertyType .type inner) :
      PropertyType .type (inner ++ [.question])
  | argument {last : List TypeToken} (h : PropertyType .type last) :
      PropertyType .arguments last
  | moreArguments {rest next : List TypeToken} (h : PropertyType .arguments rest)
      (h' : PropertyType .type next) : PropertyType .arguments (rest ++ .comma :: next)

/-- The declaration of a property. -/
structure PropertyDeclaration where
  /-- From where the property can be used. -/
  access : String
  /-- The other modifiers. -/
  modifiers : List String
  /-- The type. -/
  type : List TypeToken
  /-- The name. -/
  name : List Char
  access_mem : access ∈ ["public", "protected", "internal"]
  modifiers_mem : ∀ modifier ∈ modifiers, modifier ∈ memberModifiers
  type_derives : PropertyType .type type
  name_spells : ∃ first rest, name = first :: rest ∧ isCapital first = true ∧
    ∀ c ∈ rest, isNamePart c = true

namespace PropertyDeclaration

/-- What comes before the name. -/
def head (declaration : PropertyDeclaration) : List Char :=
  declarationHead declaration.access declaration.modifiers declaration.type

/-- The text of the declaration, with a newline. -/
def text (declaration : PropertyDeclaration) : List Char :=
  declaration.head ++ declaration.name ++ " \x7b get; set; \x7d\n".toList

end PropertyDeclaration

/-- The characters that tell a property or a member. -/
def memberStops : List Char :=
  ['\x7b', '=', ';']

/-! ## Types -/

namespace PropertyType

variable {phrase : Phrase} {tokens : List TypeToken}

/-- No other tokens than those of types are in a type. -/
theorem isTypeToken (h : PropertyType phrase tokens) : ∀ token ∈ tokens, IsTypeToken token := by
  induction h with
  | word chars hchars => simpa using hchars
  | applied _ _ _ ih ih' =>
      simp only [List.forall_mem_append, List.forall_mem_cons]
      exact ⟨ih, trivial, ih', trivial, by simp⟩
  | array _ ih | nullable _ ih =>
      simp only [List.forall_mem_append, List.forall_mem_cons]
      exact ⟨ih, trivial, by simp⟩
  | argument _ ih => exact ih
  | moreArguments _ _ ih ih' =>
      simp only [List.forall_mem_append, List.forall_mem_cons]
      exact ⟨ih, trivial, ih'⟩

/-- The types of properties are types in the general sense, so what is known of their
identifiers holds. -/
theorem derives (h : PropertyType phrase tokens) : phrase.Derives tokens := by
  induction h with
  | word chars _ => exact .word chars
  | applied _ _ _ ih ih' => exact .applied ih ih'
  | array _ ih => exact .array ih
  | nullable _ ih => exact .nullable ih
  | argument _ ih => exact .argument ih
  | moreArguments _ _ ih ih' => exact .moreArguments ih ih'

/-- The words in a type are identifiers, and nothing else in it has one. -/
theorem sound (h : PropertyType phrase tokens) : ∀ token ∈ tokens, token.Sound := by
  intro token htoken word hword
  have htype := h.isTypeToken token htoken
  cases token with
  -- Of the tokens with an identifier only words are allowed.
  | word chars =>
      cases hword
      exact ⟨htype.1.ne_nil, fun c hc =>
        isIdentifierPart_of_isNamePart (htype.1.forall_isNamePart c hc)⟩
  | firstParameter | nextParameter => cases htype
  | _ => cases hword

/-- The pattern of members takes every character of a type. -/
theorem isTypeChar_of_mem_textOf (h : PropertyType phrase tokens) :
    ∀ c ∈ textOf tokens, isTypeChar c = true := by
  intro c hmem
  rcases List.mem_flatMap.mp hmem with ⟨token, htoken, hc⟩
  have htype := h.isTypeToken token htoken
  clear hmem
  cases token with
  | word chars => exact isTypeChar_of_isWord (isWord_of_isNamePart (htype.1.forall_isNamePart c hc))
  -- The text of a mark is fixed.
  | less | comma | greater | brackets | question =>
      clear htoken htype
      revert c
      decide
  | _ => cases htype

/-- A type that is not capitalized mentions nothing but one name, which is not capitalized
either. -/
theorem isCapitalized_or (h : PropertyType .type tokens) :
    IsCapitalized tokens ∨ ∀ word ∈ identifiersOf tokens, isTypeName word = false := by
  generalize hphrase : Phrase.type = phrase at h
  have hmore {tokens more : List TypeToken} (h : IsCapitalized tokens) :
      IsCapitalized (tokens ++ more) := by
    rcases h with ⟨first, rest, others, rfl, hfirst⟩
    exact ⟨first, rest, others ++ more, rfl, hfirst⟩
  -- How a type starts is decided by its first token, whatever is put behind it.
  induction h with
  | word chars _ =>
      cases chars with
      | nil => exact .inr (by simp [TypeToken.identifier?, isTypeName])
      | cons first rest =>
          by_cases hfirst : isCapital first = true
          · exact .inl ⟨first, rest, [], rfl, hfirst⟩
          · exact .inr (by simp [TypeToken.identifier?, isTypeName, hfirst])
  -- Arguments come behind capitalized types only. Without this condition names in them
  -- could be missed.
  | applied _ hhead _ _ _ => exact .inl (hmore hhead)
  | array _ ih | nullable _ ih =>
      rcases ih rfl with hcapital | hnone
      · exact .inl (hmore hcapital)
      · exact .inr (by simpa [TypeToken.identifier?] using hnone)
  | argument | moreArguments => cases hphrase

end PropertyType

/-! ## The text of a declaration -/

/-! All words of a declaration but the names are made of small letters. So they are told from
the names of types, and no white space is in them. -/

theorem plainWords_accessWords : PlainWords accessWords := by
  simp [PlainWords, accessWords, isLower_iff]

theorem plainWords_memberModifiers : PlainWords memberModifiers := by
  simp [PlainWords, memberModifiers, isLower_iff]

theorem plainWords_reservedWords : PlainWords reservedWords := by
  simp [PlainWords, reservedWords, accessWords, memberModifiers, declarationKeywords, isLower_iff]

theorem not_isTypeChar_memberStops : ∀ d ∈ memberStops, isTypeChar d = false := by
  decide

theorem isTypeChar_of_isLower_or {c : Char} (h : c.isLower = true ∨ isBlank c = true) :
    isTypeChar c = true :=
  h.elim (fun h => isTypeChar_of_isWord (isWord_of_isLower h)) isTypeChar_of_isBlank

theorem not_isIdentifierChar_memberStops :
    ∀ d ∈ memberStops, EcmaScript.isIdentifierChar d = false := by
  decide

namespace PropertyDeclaration

variable (declaration : PropertyDeclaration)

-- The pattern of properties has fewer of these words than that of members.
theorem access_mem_accessWords : declaration.access ∈ accessWords := by
  have hall : ∀ word ∈ ["public", "protected", "internal"], word ∈ accessWords := by
    decide
  exact hall _ declaration.access_mem

theorem plainWords_access : PlainWords [declaration.access] := by
  rw [PlainWords, List.forall_mem_singleton]
  exact plainWords_accessWords _ declaration.access_mem_accessWords

theorem plainWords_modifiers : PlainWords declaration.modifiers := fun modifier hmodifier =>
  plainWords_memberModifiers modifier (declaration.modifiers_mem modifier hmodifier)

/-- What comes before the name could all be read as a type. -/
theorem isTypeChar_of_mem_head : ∀ c ∈ declaration.head, isTypeChar c = true :=
  Chunking.isTypeChar_of_mem_head declaration.plainWords_access declaration.plainWords_modifiers
    declaration.type_derives.isTypeChar_of_mem_textOf

/-- The identifiers before the name. -/
theorem identifiers_head : identifiers declaration.head =
    declaration.access.toList :: (declaration.modifiers.map String.toList ++
      identifiersOf declaration.type) :=
  identifiers_declarationHead declaration.plainWords_access declaration.plainWords_modifiers
    declaration.type_derives.derives declaration.type_derives.sound

theorem isNamePart_of_mem_name : ∀ c ∈ declaration.name, isNamePart c = true := by
  rcases declaration.name_spells with ⟨first, rest, hname, hfirst, hrest⟩
  rw [hname]
  exact List.forall_mem_cons.mpr ⟨isNamePart_of_isCapital hfirst, hrest⟩

theorem name_isIdentifier : EcmaScript.IsIdentifier declaration.name := by
  rcases declaration.name_spells with ⟨first, rest, hname, hfirst, hrest⟩
  refine ⟨first, rest, hname, ?_, fun c hc => ?_⟩
  · have hletter : isLetter first = true := Bool.or_eq_true_iff.mpr (.inl hfirst)
    rw [EcmaScript.isIdentifierStart, hletter]
    rfl
  · rw [EcmaScript.isIdentifierChar, isWord_of_isNamePart (hrest c hc)]
    rfl

/-- A declaration ends a line. -/
theorem getLast?_text : declaration.text.getLast? = some '\n' := by
  rw [text, List.getLast?_append_of_ne_nil _ (by simp)]
  rfl

/-- The text up to the brace. -/
theorem text_eq : declaration.text =
    (declaration.head ++ declaration.name ++ [' ']) ++ '\x7b' :: " get; set; \x7d\n".toList := by
  simp [text]

/-- No brace, equals sign or semicolon comes before the brace of a declaration. -/
theorem not_isStop_of_mem_body :
    ∀ c ∈ declaration.head ++ declaration.name ++ [' '], isStop memberStops c = false := by
  simp only [List.forall_mem_append, List.forall_mem_singleton]
  exact ⟨⟨fun c hc => not_isStop_of_kind not_isTypeChar_memberStops
      (declaration.isTypeChar_of_mem_head c hc),
    fun c hc => not_isStop_of_kind not_isIdentifierChar_memberStops
      (declaration.name_isIdentifier.forall_isIdentifierChar c hc)⟩, by decide⟩

/-- No reserved word is mentioned in the type. -/
theorem not_mem_identifiersOf_type {word : String} (hword : word ∈ reservedWords) :
    word.toList ∉ identifiersOf declaration.type := by
  intro hmem
  rcases List.mem_filterMap.mp hmem with ⟨token, htoken, hidentifier⟩
  have htype := declaration.type_derives.isTypeToken token htoken
  cases token with
  | word chars =>
      cases hidentifier
      exact htype.2 (by simpa using hword)
  | firstParameter | nextParameter => cases htype
  | _ => cases hidentifier

/-- A declaration starts with the word that says from where it can be used. -/
theorem exists_tail : ∃ tail, declaration.text = declaration.access.toList ++ ' ' :: tail :=
  ⟨_, by rw [text, head, declarationHead]; simp; rfl⟩

/-- The identifiers behind the word at the start: none is reserved, but for the other
modifiers. -/
theorem mem_of_mem_identifiers {tail : List Char} {word : String}
    (htext : declaration.text = declaration.access.toList ++ ' ' :: tail)
    (hword : word ∈ reservedWords) (hmem : word.toList ∈ identifiers tail) :
    word ∈ memberModifiers := by
  have hspace : isIdentifierPart ' ' = false := by
    decide
  have htail : tail = spaced declaration.modifiers ++ (textOf declaration.type ++
      ' ' :: (declaration.name ++ ' ' :: "\x7b get; set; \x7d\n".toList)) := by
    have hsame : declaration.access.toList ++ ' ' :: tail = declaration.access.toList ++ ' ' ::
        (spaced declaration.modifiers ++ (textOf declaration.type ++
          ' ' :: (declaration.name ++ ' ' :: "\x7b get; set; \x7d\n".toList))) := by
      rw [← htext]
      simp [text, head, declarationHead]
    exact (List.cons.inj (List.append_cancel_left hsame)).2
  -- The identifiers behind the first word are the modifiers, those of the type, the name and
  -- the two accessors.
  have hname : identifiers declaration.name = [declaration.name] := by
    rcases declaration.name_spells with ⟨first, rest, hcons, -, -⟩
    exact identifiers_of_word (by simp [hcons]) fun c hc =>
      isIdentifierPart_of_isNamePart (declaration.isNamePart_of_mem_name c hc)
  have hrear : identifiers "\x7b get; set; \x7d\n".toList = ["get".toList, "set".toList] := by
    decide
  rw [htail, identifiers_spaced_append declaration.plainWords_modifiers,
    identifiers_append_cons hspace, identifiers_append_cons hspace, hname, hrear,
    Phrase.Derives.identifiers_eq declaration.type_derives.derives declaration.type_derives.sound]
    at hmem
  -- A modifier is what is claimed, and each of the others is ruled out: the type has no
  -- reserved words, the name has a capital letter, and the accessors are not reserved.
  have hlower : ∀ word ∈ reservedWords, ∀ c ∈ word.toList, isCapital c = false := by
    decide
  have hothers : "get" ∉ reservedWords ∧ "set" ∉ reservedWords := by
    decide
  simp only [List.mem_append, List.mem_cons, List.not_mem_nil, or_false] at hmem
  rcases hmem with hmem | hmem | hmem | hmem | hmem
  · rcases List.mem_map.mp hmem with ⟨modifier, hmodifier, hsame⟩
    rw [← String.toList_inj.mp hsame]
    exact declaration.modifiers_mem modifier hmodifier
  · exact absurd hmem (declaration.not_mem_identifiersOf_type hword)
  · exfalso
    rcases declaration.name_spells with ⟨first, rest, hcons, hfirst, -⟩
    have hnot := hlower word hword first (by rw [hmem, hcons]; simp)
    rw [hfirst] at hnot
    cases hnot
  · rw [String.toList_inj.mp hmem] at hword
    exact absurd hword hothers.1
  · rw [String.toList_inj.mp hmem] at hword
    exact absurd hword hothers.2

variable {skipped ahead : List Char} {blank : Char} {word : String}

/-- Where a word ends in a declaration an identifier does. This is not so in any text: a
dollar sign is part of an identifier, but not of a word. -/
theorem apart_of_endsWord (htext : declaration.text = skipped ++ ahead)
    (hskipped : EndsWord skipped) : Apart skipped.getLast? := by
  intro c hc
  have hmem : c ∈ declaration.text := by
    rw [htext]
    exact List.mem_append_left _ (List.mem_of_getLast? hc)
  have hrear : ∀ c ∈ " \x7b get; set; \x7d\n".toList, isWord c = false →
      isIdentifierPart c = false := by
    decide
  rcases List.mem_append.mp hmem with hmem | hmem
  · rcases List.mem_append.mp hmem with hmem | hmem
    · exact isIdentifierPart_of_isTypeChar (declaration.isTypeChar_of_mem_head c hmem)
        (hskipped c hc)
    · have hword := hskipped c hc
      rw [isWord_of_isNamePart (declaration.isNamePart_of_mem_name c hmem)] at hword
      cases hword
  · exact hrear c hmem (hskipped c hc)

/-- A reserved word in a declaration that is none of the other modifiers is the first
word. -/
theorem eq_access_of_reserved (htext : declaration.text = skipped ++ word.toList ++ blank :: ahead)
    (hskipped : EndsWord skipped) (hblank : isBlank blank = true) (hword : word ∈ reservedWords)
    (hmodifier : word ∉ memberModifiers) : skipped = [] ∧ word = declaration.access := by
  have haccess : ∀ c ∈ declaration.access.toList, c.isLower = true :=
    (declaration.plainWords_access _ (List.mem_singleton_self _)).2
  have hlower : ∀ word ∈ reservedWords, ∀ c ∈ word.toList, isBlank c = false := by
    decide
  rcases declaration.exists_tail with ⟨tail, htail⟩
  have hplace : declaration.access.toList ++ ' ' :: tail =
      (skipped ++ word.toList) ++ blank :: ahead := by
    rw [← htail, htext]
  -- The blank behind the word is not in the first word, so the word ends there or later.
  rcases append_eq_append_cons_cases hplace with ⟨rest, hblanks, -⟩ | ⟨rest, hrest, hmore⟩
  · have hlower := haccess blank (by rw [hblanks]; simp)
    rw [isBlank_of_isLower hlower] at hblank
    cases hblank
  · cases rest with
    | nil =>
        rw [List.append_nil] at hrest
        have hnil : skipped = [] := by
          rcases List.eq_nil_or_concat skipped with hnil | ⟨others, last, rfl⟩
          · exact hnil
          · -- The word would start in the middle of the first one.
            have hlast := hskipped last (by simp)
            rw [isWord_of_isLower (haccess last (by rw [← hrest]; simp))] at hlast
            cases hlast
        rw [hnil, List.nil_append] at hrest
        exact ⟨hnil, String.toList_inj.mp hrest⟩
    | cons c more =>
        have hspace : c = ' ' := (List.cons.inj hmore).1.symm
        subst hspace
        have htailed : tail = more ++ blank :: ahead := (List.cons.inj hmore).2
        exfalso
        -- It ends later. It starts behind the first blank, so it is an identifier of the tail,
        -- or the blank would be in the middle of it.
        rcases append_eq_append_cons_cases hrest with
          ⟨before, rfl, rfl⟩ | ⟨inside, -, hinside⟩
        · have hapart : Apart before.getLast? := by
            have hbefore := declaration.apart_of_endsWord
              (by rw [htext, List.append_assoc]) hskipped
            cases before with
            | nil => exact apart_none
            | cons d before => rwa [List.getLast?_append_cons, List.getLast?_cons_cons] at hbefore
          refine hmodifier (declaration.mem_of_mem_identifiers htail hword ?_)
          have hidentifiers : identifiers word.toList = [word.toList] :=
            plainWords_reservedWords.identifiers_eq hword
          rw [htailed, identifiers_append_cons (isIdentifierPart_of_isBlank hblank),
            identifiers_append (.inl hapart), hidentifiers]
          simp
        · have hblank := hlower word hword ' ' (by rw [hinside]; simp)
          cases hblank

end PropertyDeclaration

end Chunking.CSharp
