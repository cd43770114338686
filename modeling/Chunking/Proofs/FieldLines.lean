import Chunking.Proofs.TypeExpressions

/-!
# Lines of fields

A field with a type may stand on a line of its own: spaces, modifiers, a name, perhaps
a mark, a colon, the type, and a semicolon. What the text of such a line is made of is
said here, before any pattern looks at it.

Some characters come only once, or next to others only. There is one semicolon in a line,
and before it one colon. And where a word of a line has a blank behind, then either the
word is a modifier or the bar of a union comes next. So no word declares a type, not even
if it is a keyword.

## Main definitions

* `EcmaScript.IsAsciiName`: The identifiers of ASCII characters.
* `EcmaScript.Writes`: The text of a type, with some spaces behind the commas.
* `EcmaScript.FieldLine`: A field on a line, and its text.

## Theorems

* `EcmaScript.Writes.identifiers_append`: The identifiers of a type.
* `EcmaScript.Writes.bar_or_of_blank`: The blanks of a type.
* `EcmaScript.FieldLine.exists_front_of_blank`: Where a word has a blank behind.
* `EcmaScript.not_declares`: Lines of fields declare no types.
-/

namespace Chunking.EcmaScript

open Text Pattern

/-- The words before the name of a field. -/
def fieldModifiers : List String :=
  ["public", "private", "protected", "readonly", "static", "declare", "override", "abstract"]

/-- An ASCII letter, an underscore or a dollar sign, and then ASCII letters, digits,
underscores and dollar signs. -/
def IsAsciiName (name : List Char) : Prop :=
  ∃ first rest, name = first :: rest ∧ isIdentifierStart first = true ∧
    ∀ c ∈ rest, (isNamePart c || c == '$') = true

instance : DecidablePred IsAsciiName
  | [] => isFalse (by simp [IsAsciiName])
  | first :: rest =>
    decidable_of_iff
      (isIdentifierStart first = true ∧ ∀ c ∈ rest, (isNamePart c || c == '$') = true)
      (by simp [IsAsciiName])

/-- The tokens of the types of fields: names, arguments, arrays and unions. -/
def IsFieldTypeToken : TypeToken → Prop
  | .word chars => IsAsciiName chars
  | .less | .comma | .greater | .brackets | .bar => True
  | .dot | .question | .firstParameter _ | .nextParameter _ | .noParameters | .arrow => False

instance : DecidablePred IsFieldTypeToken
  | .word chars => inferInstanceAs (Decidable (IsAsciiName chars))
  | .less | .comma | .greater | .brackets | .bar => isTrue trivial
  | .dot | .question | .firstParameter _ | .nextParameter _ | .noParameters | .arrow =>
    isFalse id

/-- The tokens are written as the text, with any number of spaces behind a comma. -/
inductive Writes : List TypeToken → List Char → Prop
  | nothing : Writes [] []
  | token {token : TypeToken} {tokens : List TypeToken} {text : List Char} (h : token ≠ .comma)
      (rest : Writes tokens text) : Writes (token :: tokens) (token.text ++ text)
  | comma {tokens : List TypeToken} {text : List Char} (spaces : Nat)
      (rest : Writes tokens text) :
      Writes (.comma :: tokens) (',' :: (List.replicate spaces ' ' ++ text))

/-- Modifiers with a space behind each, and perhaps more of them. -/
def modifierText (modifiers : List (String × Nat)) : List Char :=
  modifiers.flatMap fun (word, more) => word.toList ++ ' ' :: List.replicate more ' '

/-- A field with a type on a line of its own. -/
structure FieldLine where
  /-- The number of spaces at the start. -/
  indent : Nat
  /-- The modifiers, and how many spaces more than one come behind each. -/
  modifiers : List (String × Nat)
  /-- The name. -/
  name : List Char
  /-- What comes between the name and the colon. -/
  mark : List Char
  /-- The type. -/
  type : List TypeToken
  /-- The text of the type. -/
  typeText : List Char
  modifiers_mem : ∀ modifier ∈ modifiers, modifier.1 ∈ fieldModifiers
  name_isAscii : IsAsciiName name
  name_not_label : String.ofList name ∉ labels
  mark_mem : mark ∈ [[], ['?'], ['!']]
  isType : IsType type
  type_tokens : ∀ token ∈ type, IsFieldTypeToken token
  writes : Writes type typeText

namespace FieldLine

/-- What comes before the name. -/
def front (line : FieldLine) : List Char :=
  List.replicate line.indent ' ' ++ modifierText line.modifiers

/-- The text up to the type. -/
def label (line : FieldLine) : List Char :=
  line.front ++ line.name ++ line.mark

/-- The line, with a semicolon and a newline. -/
def text (line : FieldLine) : List Char :=
  line.label ++ ':' :: ' ' :: line.typeText ++ [';', '\n']

end FieldLine

/-- The characters that tell a field. -/
def fieldStops : List Char :=
  [';', '=']

/-! ## Characters -/

theorem isIdentifierChar_of_isAscii {c : Char} (h : (isNamePart c || c == '$') = true) :
    isIdentifierChar c = true := by
  rcases Bool.or_eq_true_iff.mp h with hpart | hdollar
  · rw [isIdentifierChar, isWord_of_isNamePart hpart, Bool.true_or]
  · rw [isIdentifierChar, hdollar, Bool.or_true]

theorem isFieldTypeChar_of_isIdentifierChar {c : Char} (h : isIdentifierChar c = true) :
    isFieldTypeChar c = true := by
  rw [isFieldTypeChar, h, Bool.true_or]

namespace IsAsciiName

variable {name : List Char}

theorem isIdentifier (h : IsAsciiName name) : IsIdentifier name := by
  rcases h with ⟨first, rest, rfl, hfirst, hrest⟩
  exact ⟨first, rest, rfl, hfirst, fun c hc => isIdentifierChar_of_isAscii (hrest c hc)⟩

theorem ne_nil (h : IsAsciiName name) : name ≠ [] := by
  rcases h with ⟨first, rest, rfl, _⟩
  exact List.cons_ne_nil first rest

/-- A name is a single identifier: beyond words it has dollar signs, and these are parts. -/
theorem isIdentifierPart_of_mem (h : IsAsciiName name) :
    ∀ c ∈ name, isIdentifierPart c = true := by
  have hpart {c : Char} (h : isNamePart c = true ∨ (c == '$') = true) :
      isIdentifierPart c = true := by
    rcases h with hpart | hdollar
    · exact isIdentifierPart_of_isNamePart hpart
    · rw [isIdentifierPart, hdollar, Bool.or_true]
  rcases h with ⟨first, rest, rfl, hfirst, hrest⟩
  rw [List.forall_mem_cons]
  refine ⟨hpart ?_, fun c hc => hpart (Bool.or_eq_true_iff.mp (hrest c hc))⟩
  rcases Bool.or_eq_true_iff.mp hfirst with hletter | hdollar
  · exact .inl (isNamePart_of_isLetter hletter)
  · exact .inr hdollar

end IsAsciiName

theorem IsFieldTypeToken.sound {token : TypeToken} (h : IsFieldTypeToken token) : token.Sound := by
  intro word hword
  cases token with
  | word chars =>
      cases hword
      exact ⟨h.ne_nil, h.isIdentifierPart_of_mem⟩
  | firstParameter | nextParameter => cases h
  | _ => cases hword

/-! ## The text of a type -/

namespace Writes

variable {tokens : List TypeToken} {text : List Char}

/-- The spaces behind commas change no identifier. -/
theorem identifiers_append (h : Writes tokens text) (front : List Char) :
    identifiers (front ++ text) = identifiers (front ++ textOf tokens) := by
  have hcomma : isIdentifierPart ',' = false := by
    decide
  have hspace : isIdentifierPart ' ' = false := by
    decide
  -- A comma ends an identifier whatever comes behind it. So the front is passed on token by
  -- token, and starts anew at each comma.
  induction h generalizing front with
  | nothing => rfl
  | token _ _ ih => rw [← List.append_assoc, ih, textOf_cons, List.append_assoc]
  | @comma tokens text spaces _ ih =>
      have hspaces : ∀ c ∈ List.replicate spaces ' ', isIdentifierPart c = false := by
        intro c hc
        rw [(List.mem_replicate.mp hc).2]
        exact hspace
      have hapart : Apart (List.replicate spaces ' ').getLast? := fun c hc =>
        hspaces c (List.mem_of_getLast? hc)
      have hmore := ih []
      have htext : front ++ textOf (.comma :: tokens) = front ++ ',' :: ' ' :: textOf tokens := rfl
      rw [htext, identifiers_append_cons hcomma, identifiers_append_cons hcomma,
        Chunking.identifiers_append (.inl hapart), identifiers_of_separators hspaces,
        identifiers_cons hspace]
      exact congrArg (identifiers front ++ ·) hmore

/-- The pattern of fields takes every character of a type. -/
theorem forall_isFieldTypeChar (h : Writes tokens text)
    (htokens : ∀ token ∈ tokens, IsFieldTypeToken token) :
    ∀ c ∈ text, isFieldTypeChar c = true := by
  have hspaces (spaces : Nat) : ∀ c ∈ List.replicate spaces ' ', isFieldTypeChar c = true := by
    intro c hc
    rw [(List.mem_replicate.mp hc).2]
    decide
  induction h with
  | nothing => simp
  | @token token tokens text _ _ ih =>
      rw [List.forall_mem_cons] at htokens
      rw [List.forall_mem_append]
      refine ⟨?_, ih htokens.2⟩
      have htoken := htokens.1
      cases token with
      | word chars =>
          exact fun c hc =>
            isFieldTypeChar_of_isIdentifierChar (htoken.isIdentifier.forall_isIdentifierChar c hc)
      | less | comma | greater | brackets | bar => decide
      | _ => cases htoken
  | comma spaces _ ih =>
      rw [List.forall_mem_cons, List.forall_mem_append]
      exact ⟨by decide, hspaces spaces, ih (List.forall_mem_cons.mp htokens).2⟩

/-- A type starts with the first character of an identifier. -/
theorem exists_cons (h : Writes tokens text) (htype : IsType tokens)
    (htokens : ∀ token ∈ tokens, IsFieldTypeToken token) :
    ∃ first rest, text = first :: rest ∧ isIdentifierStart first = true := by
  rcases Phrase.Derives.exists_cons htype with ⟨token, others, rfl, hfirst⟩
  have htoken := htokens token List.mem_cons_self
  rcases hfirst with ⟨chars, rfl⟩ | ⟨name, rfl⟩ | rfl
  · rcases htoken with ⟨first, rest, rfl, hstart, _⟩
    cases h with
    | token _ hmore => exact ⟨first, _, rfl, hstart⟩
  · cases htoken
  · cases htoken

/-- A blank in a type is next to a bar, or has a comma or another space before it. -/
theorem bar_or_of_blank (h : Writes tokens text)
    (htokens : ∀ token ∈ tokens, IsFieldTypeToken token) {passed ahead : List Char} {blank : Char}
    (hblank : isBlank blank = true) (htext : text = passed ++ blank :: ahead) :
    ahead.head? = some '|' ∨ ∃ c, passed.getLast? = some c ∧ isIdentifierChar c = false := by
  -- In the rest of the text what comes before the blank goes on from a first piece.
  have hlater {first more : List Char} (h : ahead.head? = some '|' ∨
      ∃ c, more.getLast? = some c ∧ isIdentifierChar c = false) :
      ahead.head? = some '|' ∨
        ∃ c, (first ++ more).getLast? = some c ∧ isIdentifierChar c = false := by
    rcases h with hbar | ⟨c, hlast, hc⟩
    · exact .inl hbar
    · exact .inr ⟨c, by rw [List.getLast?_append, hlast]; rfl, hc⟩
  induction h generalizing passed with
  | nothing => simp at htext
  | @token token tokens text hcomma _ ih =>
      rw [List.forall_mem_cons] at htokens
      rcases append_eq_append_cons_cases htext with ⟨rest, htoken, rfl⟩ | ⟨rest, rfl, hrest⟩
      · have hmem : blank ∈ token.text := by
          rw [htoken]
          simp
        have hallowed := htokens.1
        cases token with
        | word chars =>
            rw [isBlank_of_isIdentifierChar
              (hallowed.isIdentifier.forall_isIdentifierChar _ hmem)] at hblank
            cases hblank
        -- The blanks of a bar are its first character and its last.
        | bar =>
            rcases passed with _ | ⟨first, _ | ⟨second, _ | ⟨third, more⟩⟩⟩
            · cases htoken
              exact .inl rfl
            · cases htoken
              cases hblank
            · cases htoken
              exact .inr ⟨'|', rfl, by decide⟩
            · simp [TypeToken.text] at htoken
        | less | greater | brackets =>
            have hnone : ∀ c ∈ ['<', '>', '[', ']'], isBlank c = false := by
              decide
            simp only [TypeToken.text, List.mem_cons, List.not_mem_nil, or_false] at hmem
            rw [hnone blank (by simp [hmem])] at hblank
            cases hblank
        | comma => exact absurd rfl hcomma
        | _ => cases hallowed
      · exact hlater (ih htokens.2 hrest)
  | @comma tokens text spaces _ ih =>
      rw [← List.cons_append] at htext
      rcases append_eq_append_cons_cases htext with ⟨rest, hspaces, rfl⟩ | ⟨rest, rfl, hrest⟩
        -- The blank is one of the spaces, so the comma or another space comes before it.
      · right
        have hmem : ∀ c ∈ ',' :: List.replicate spaces ' ', isIdentifierChar c = false := by
          rw [List.forall_mem_cons]
          refine ⟨by decide, fun c hc => ?_⟩
          rw [(List.mem_replicate.mp hc).2]
          decide
        cases passed with
        | nil =>
            rw [(List.cons.inj hspaces).1.symm] at hblank
            cases hblank
        | cons first passed =>
            rw [hspaces, List.forall_mem_append] at hmem
            exact ⟨_, List.getLast?_eq_some_getLast (List.cons_ne_nil first passed),
              hmem.1 _ (List.getLast_mem _)⟩
      · exact hlater (ih (List.forall_mem_cons.mp htokens).2 hrest)

end Writes

/-! ## The text of a line -/

theorem plainWords_fieldModifiers : PlainWords fieldModifiers := by
  simp [PlainWords, fieldModifiers, isLower_iff]

namespace FieldLine

variable (line : FieldLine)

theorem getLast?_text : line.text.getLast? = some '\n' := by
  rw [text, List.getLast?_append_of_ne_nil _ (by simp)]
  rfl

/-- A character before the name is a space or a letter of a modifier. -/
theorem mem_front {c : Char} (h : c ∈ line.front) : c = ' ' ∨ c.isLower = true := by
  rcases List.mem_append.mp h with h | h
  · exact .inl (List.mem_replicate.mp h).2
  · rcases List.mem_flatMap.mp h with ⟨⟨word, more⟩, hmodifier, h⟩
    rcases List.mem_append.mp h with h | h
    · exact .inr ((plainWords_fieldModifiers word (line.modifiers_mem _ hmodifier)).2 c h)
    · rcases List.mem_cons.mp h with h | h
      · exact .inl h
      · exact .inl (List.mem_replicate.mp h).2

/-- What comes before the name ends with a space, if there is anything. -/
theorem isBlank_of_getLast?_front : ∀ c, line.front.getLast? = some c → isBlank c = true := by
  have hspaces {n : Nat} : ∀ c ∈ List.replicate n ' ', isBlank c = true := by
    intro c hc
    rw [(List.mem_replicate.mp hc).2]
    decide
  refine getLast?_append_of_kind (fun c hc => hspaces c (List.mem_of_getLast? hc)) ?_
  rcases List.eq_nil_or_concat line.modifiers with hnil | ⟨earlier, ⟨word, more⟩, hlast⟩
  · rw [hnil]
    exact fun c hc => by cases hc
  · intro c hc
    have htext : modifierText line.modifiers =
        modifierText earlier ++ word.toList ++ List.replicate (more + 1) ' ' := by
      simp [hlast, modifierText, List.replicate_succ]
    rw [htext, List.getLast?_append_of_ne_nil _ (by simp)] at hc
    exact hspaces c (List.mem_of_getLast? hc)

theorem isIdentifierChar_of_mem_mark : ∀ c ∈ line.mark, isIdentifierChar c = false := by
  have hmarks : ∀ mark ∈ [[], ['?'], ['!']], ∀ c ∈ mark, isIdentifierChar c = false := by
    decide
  exact hmarks _ line.mark_mem

/-- A character before the colon is a space, a character of an identifier, or a mark. -/
theorem mem_label {c : Char} (h : c ∈ line.label) :
    c = ' ' ∨ isIdentifierChar c = true ∨ c ∈ ['?', '!'] := by
  simp only [label, List.mem_append] at h
  rcases h with (h | h) | h
  · rcases line.mem_front h with h | h
    · exact .inl h
    · exact .inr (.inl (isIdentifierChar_of_isLower h))
  · exact .inr (.inl (line.name_isAscii.isIdentifier.forall_isIdentifierChar c h))
  · have hmarks : ∀ mark ∈ [[], ['?'], ['!']], ∀ c ∈ mark, c ∈ ['?', '!'] := by
      decide
    exact .inr (.inr (hmarks _ line.mark_mem c h))

-- The form in which it is needed.
theorem not_mem_label {c : Char} (hc : isIdentifierChar c = false)
    (hmarks : c ∉ [' ', '?', '!']) : c ∉ line.label := by
  intro h
  rcases line.mem_label h with rfl | h | h
  · exact hmarks (by simp)
  · rw [hc] at h
    cases h
  · exact hmarks (List.mem_cons_of_mem _ h)

theorem isFieldTypeChar_of_mem_typeText : ∀ c ∈ line.typeText, isFieldTypeChar c = true :=
  line.writes.forall_isFieldTypeChar line.type_tokens

/-- The identifiers of the type, however many spaces come behind its commas. -/
theorem identifiers_typeText : identifiers line.typeText = identifiersOf line.type := by
  have htext := line.writes.identifiers_append []
  rw [List.nil_append, List.nil_append] at htext
  rw [htext, line.isType.identifiers_eq fun token htoken => (line.type_tokens token htoken).sound]

/-- What is in a line before its end, and is not part of a type, is one of the marks. -/
theorem not_mem_body {c : Char} (hc : isFieldTypeChar c = false)
    (hmarks : c ∉ [':', '?', '!']) : c ∉ line.label ++ ':' :: ' ' :: line.typeText := by
  have hspace : isFieldTypeChar ' ' = true := by
    decide
  have hidentifier : isIdentifierChar c = false := by
    by_contra h
    rw [isFieldTypeChar_of_isIdentifierChar (by simpa using h)] at hc
    cases hc
  have hne : c ≠ ' ' := by
    rintro rfl
    rw [hspace] at hc
    cases hc
  simp only [List.mem_cons, List.not_mem_nil, or_false, not_or] at hmarks
  simp only [List.mem_append, List.mem_cons, not_or]
  refine ⟨line.not_mem_label hidentifier ?_, hmarks.1, hne, fun h => ?_⟩
  · simp [hne, hmarks]
  · rw [line.isFieldTypeChar_of_mem_typeText c h] at hc
    cases hc

/-- No semicolon or equals sign is in a line before its end. -/
theorem not_isStop_of_mem_body :
    ∀ c ∈ line.label ++ ':' :: ' ' :: line.typeText, isStop fieldStops c = false := by
  have hstops : ∀ d ∈ fieldStops, isFieldTypeChar d = false ∧ d ∉ [':', '?', '!'] := by
    decide
  exact not_isStop_of_not_mem fun d hd => line.not_mem_body (hstops d hd).1 (hstops d hd).2

end FieldLine

/-! ## Words with a blank behind -/

namespace FieldLine

variable (line : FieldLine) {passed ahead : List Char} {blank : Char}

/-- If a word of a line has a blank behind, then it is a modifier, or the bar of a union
comes next. -/
theorem exists_front_of_blank (hblank : isBlank blank = true)
    (htext : line.text = passed ++ blank :: ahead)
    (hlast : ∀ c, passed.getLast? = some c → isIdentifierChar c = true) (hne : passed ≠ [])
    (hbar : ahead.head? ≠ some '|') : ∃ rest, line.front = passed ++ blank :: rest := by
  have hnot {c : Char} (hc : isIdentifierChar c = false) : passed.getLast? ≠ some c := by
    intro h
    rw [hlast c h] at hc
    cases hc
  have hmiddle : ∀ c ∈ line.name ++ line.mark ++ [':'], isBlank c = false := by
    have hmarks : ∀ mark ∈ [[], ['?'], ['!']], ∀ c ∈ mark, isBlank c = false := by
      decide
    simp only [List.forall_mem_append, List.forall_mem_singleton]
    exact ⟨⟨fun c hc => isBlank_of_isIdentifierChar
      (line.name_isAscii.isIdentifier.forall_isIdentifierChar c hc), hmarks _ line.mark_mem⟩,
      by decide⟩
  -- The blank is in the front, or else it is looked for in the parts behind it, one by one.
  have hparts : line.front ++ ((line.name ++ line.mark ++ [':']) ++
      ([' '] ++ (line.typeText ++ [';', '\n']))) = passed ++ blank :: ahead := by
    rw [← htext]
    simp [text, label]
  rcases append_eq_append_cons_cases hparts with ⟨rest, hfront, -⟩ | ⟨before, rfl, hmore⟩
  · exact ⟨rest, hfront⟩
  exfalso
  rcases append_eq_append_cons_cases hmore with ⟨rest, hname, -⟩ | ⟨gap, rfl, hgap⟩
  · rw [hmiddle blank (by rw [hname]; simp)] at hblank
    cases hblank
  rcases append_eq_append_cons_cases hgap with ⟨rest, hspace, -⟩ | ⟨before, rfl, htype⟩
  · -- Before the space is the colon.
    have hnil : gap = [] := by
      cases gap with
      | nil => rfl
      | cons c gap => simp at hspace
    subst hnil
    exact hnot (c := ':') (by decide) (by simp)
  rcases append_eq_append_cons_cases htype with ⟨rest, hplace, rfl⟩ | ⟨before, rfl, hend⟩
  · rcases line.writes.bar_or_of_blank line.type_tokens hblank hplace with h | ⟨c, hc, hother⟩
    · exact hbar (by rw [List.head?_append, h]; rfl)
    · exact hnot hother (by simp only [List.getLast?_append, hc, Option.some_or])
  · -- Before the newline is the semicolon.
    rcases before with _ | ⟨first, _ | ⟨second, before⟩⟩
    · cases hend
      cases hblank
    · cases hend
      exact hnot (c := ';') (by decide) (by simp only [← List.append_assoc, List.getLast?_concat])
    · simp at hend

/-- The identifiers before the name are the modifiers. -/
theorem identifiers_front : identifiers line.front =
    line.modifiers.map fun modifier => modifier.1.toList := by
  have hspace : isIdentifierPart ' ' = false := by
    decide
  have hspaces (count : Nat) : ∀ c ∈ List.replicate count ' ', isBlank c = true := by
    intro c hc
    rw [(List.mem_replicate.mp hc).2]
    decide
  have hskip (count : Nat) (rest : List Char) :
      identifiers (List.replicate count ' ' ++ rest) = identifiers rest := by
    have hpadded := @identifiers_padded _ [] (hspaces count) (by simp) rest
    rwa [List.append_nil] at hpadded
  have hmodifiers : ∀ modifiers : List (String × Nat),
      (∀ modifier ∈ modifiers, modifier.1 ∈ fieldModifiers) →
        identifiers (modifierText modifiers) =
          modifiers.map fun modifier => modifier.1.toList := by
    intro modifiers h
    induction modifiers with
    | nil => exact identifiers_nil
    | cons modifier modifiers ih =>
        rw [List.forall_mem_cons] at h
        have htext : modifierText (modifier :: modifiers) = modifier.1.toList ++
            ' ' :: (List.replicate modifier.2 ' ' ++ modifierText modifiers) := by
          simp [modifierText]
        rw [htext, identifiers_append_cons hspace, plainWords_fieldModifiers.identifiers_eq h.1,
          hskip, ih h.2]
        rfl
  rw [front, hskip, hmodifiers _ line.modifiers_mem]

/-- No keyword that declares a type is before the name. -/
theorem not_mem_front {keyword : String}
    (hkeyword : keyword ∈ LanguageFamily.ecmascript.typeKeywords) (hpassed : EndsWord passed)
    (hblank : isBlank blank = true) :
    line.front ≠ passed ++ keyword.toList ++ blank :: ahead := by
  intro hfront
  have hbefore : Apart passed.getLast? := by
    intro c hc
    have hmem : c ∈ line.front := by
      rw [hfront]
      simp [List.mem_of_getLast? hc]
    rcases line.mem_front hmem with rfl | hlower
    · decide
    · have hword := hpassed c hc
      rw [isWord_of_isLower hlower] at hword
      cases hword
  have hmem : keyword.toList ∈ identifiers line.front := by
    rw [hfront, identifiers_append_cons (isIdentifierPart_of_isBlank hblank),
      identifiers_append (.inl hbefore),
      LanguageFamily.ecmascript.plainWords_typeKeywords.identifiers_eq hkeyword]
    simp
  have hapart : ∀ word ∈ fieldModifiers, word ∉ LanguageFamily.ecmascript.typeKeywords := by
    decide
  rw [line.identifiers_front] at hmem
  rcases List.mem_map.mp hmem with ⟨modifier, hmodifier, hsame⟩
  rw [← String.toList_inj.mp hsame] at hkeyword
  exact hapart _ (line.modifiers_mem modifier hmodifier) hkeyword

end FieldLine

/-- No type is declared in lines of fields. -/
theorem not_declares (lines : List FieldLine) (identifier : List Char) :
    ¬Declares LanguageFamily.ecmascript.typeKeywords (lines.flatMap FieldLine.text)
      identifier := by
  rintro ⟨before, keyword, hkeyword, blanks, after, hcontent, hbefore, hblanks,
    ⟨first, more, rfl, hfirst, -⟩, -⟩
  rcases LanguageFamily.ecmascript.plainWords_typeKeywords keyword hkeyword with ⟨hne, hlower⟩
  rcases List.exists_cons_of_ne_nil hblanks.1 with ⟨blank, others, rfl⟩
  have hblank : isBlank blank = true := hblanks.2 blank List.mem_cons_self
  have hplace : lines.flatMap FieldLine.text =
      (before ++ keyword.toList) ++ blank :: (others ++ first :: more ++ after) := by
    rw [hcontent]
    simp
  have hnewline : '\n' ∉ keyword.toList := by
    intro hmem
    cases hlower _ hmem
  -- A keyword with white space behind it lies in one line, and so does a capital letter next.
  rcases exists_of_flatMap_eq_append_word (fun line _ => ⟨'\n', line.getLast?_text, hnewline⟩)
    hplace with ⟨earlier, line, later, skipped, ahead, rfl, htext, rfl, hahead⟩
  have hskipped : EndsWord skipped := by
    intro c hc
    apply hbefore c
    rw [List.getLast?_append, hc]
    rfl
  have hlast : ∀ c, (skipped ++ keyword.toList).getLast? = some c →
      isIdentifierChar c = true := by
    intro c hc
    rw [List.getLast?_append_of_ne_nil skipped hne] at hc
    exact isIdentifierChar_of_isLower (hlower c (List.mem_of_getLast? hc))
  have hbar : ahead.head? ≠ some '|' := by
    intro hbar
    have hhead : (others ++ first :: more ++ after).head? = some '|' := by
      rw [hahead, List.head?_append, hbar]
      rfl
    -- What comes next is white space or the capital letter.
    cases others with
    | nil =>
        cases hhead
        cases hfirst
    | cons other others =>
        cases hhead
        have hblank := hblanks.2 '|' (by simp)
        cases hblank
  rcases line.exists_front_of_blank hblank htext hlast (by simp [hne]) hbar with ⟨rest, hfront⟩
  exact line.not_mem_front hkeyword hskipped hblank hfront

end Chunking.EcmaScript
