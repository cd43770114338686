import Chunking.Proofs.DeclarationHeads

/-!
# Fields of a Java source

A source that is made of field declarations, one on a line, has the names of the
fields as its properties, and its types are those that the declarations mention.

The pattern of fields looks for a type and for a name behind it, and both are
stretches of characters that the other one may have as well. So it has many ways of
reading a text. But each of them ends with a semicolon or an equals sign, and a source
of declarations has these only behind the name of a field. This pins down where a
match ends, and from there it is read backwards: what stands between the last blank and
the end is the name, and the type that is read has no identifiers but those of the
declaration. Hence a match across two declarations is ruled out as well.

## Main definitions

* `Java.FieldDeclaration`: The declaration of a field, and its text.
* `Java.FieldReading`: A text that the pattern of fields reads.

## Theorems

* `Java.FieldReading.name_eq`: The name that is read at the end of a declaration.
* `Java.FieldReading.mem_identifiers_of_mem`: The types that are read there.
* `Java.clearAt_field`: No match goes on across the end of a declaration.
* `Java.extract_fieldDeclarations`: The names of a source of declarations.
-/

namespace Chunking

open Text Pattern

namespace Java

/-- The words that say from where a field can be used. -/
def accessWords : List String :=
  ["private", "protected", "public"]

/-- The other modifiers of a field. -/
def fieldModifiers : List String :=
  ["static", "final", "transient", "volatile"]

/-- The tokens of types in Java. The identifiers in them are ASCII, and none is a
word that declares a type. -/
def IsTypeToken : TypeToken → Prop
  | .word chars =>
    IsAsciiIdentifier chars ∧ String.ofList chars ∉ LanguageFamily.java.typeKeywords
  | .dot | .less | .comma | .greater | .brackets => True
  | .question | .bar | .firstParameter _ | .nextParameter _ | .noParameters | .arrow => False

instance : DecidablePred IsTypeToken
  | .word _ => inferInstanceAs (Decidable (_ ∧ _))
  | .dot | .less | .comma | .greater | .brackets => isTrue trivial
  | .question | .bar | .firstParameter _ | .nextParameter _ | .noParameters | .arrow =>
    isFalse id

/-- The declaration of a field. -/
structure FieldDeclaration where
  /-- From where the field can be used. -/
  access : String
  /-- The other modifiers. -/
  modifiers : List String
  /-- The type. -/
  type : List TypeToken
  /-- The name. -/
  name : List Char
  access_mem : access ∈ accessWords
  modifiers_mem : ∀ modifier ∈ modifiers, modifier ∈ fieldModifiers
  isType : IsType type
  type_tokens : ∀ token ∈ type, IsTypeToken token
  name_spells : ∃ first rest, name = first :: rest ∧
    (isLetter first || first == '_' || first == '$') = true ∧
      ∀ c ∈ rest, (isNamePart c || c == '$') = true

/-- The characters that tell a field. -/
def fieldStops : List Char :=
  [';', '=']

/-- The type of a field, as the pattern has it. -/
def fieldType : Pattern :=
  seq (one fun c => isLetter c || c == '_') (stretch false isTypeChar)

/-! ## Characters -/

-- The modifiers are lower-case words, so none of them is the name of a type.
theorem plainWords_accessWords : PlainWords accessWords := by
  simp [PlainWords, accessWords, isLower_iff]

theorem plainWords_fieldModifiers : PlainWords fieldModifiers := by
  simp [PlainWords, fieldModifiers, isLower_iff]

theorem not_isTypeChar_fieldStops : ∀ d ∈ fieldStops, isTypeChar d = false := by
  decide

theorem not_isIdentifierChar_fieldStops :
    ∀ d ∈ fieldStops, EcmaScript.isIdentifierChar d = false := by
  decide

/-! ## The text of a declaration -/

namespace FieldDeclaration

/-- What comes before the name. -/
def head (declaration : FieldDeclaration) : List Char :=
  declaration.access.toList ++ ' ' :: (spaced declaration.modifiers ++
    (textOf declaration.type ++ [' ']))

/-- The text of the declaration, with a semicolon and a newline. -/
def text (declaration : FieldDeclaration) : List Char :=
  declaration.head ++ declaration.name ++ [';', '\n']

variable (declaration : FieldDeclaration)

theorem getLast?_text : declaration.text.getLast? = some '\n' := by
  rw [text, List.getLast?_append_of_ne_nil _ (by simp)]
  rfl

theorem sound_of_mem_type : ∀ token ∈ declaration.type, token.Sound := by
  intro token htoken word hword
  have htype := declaration.type_tokens token htoken
  cases token with
  | word chars =>
      cases hword
      exact ⟨htype.1.ne_nil, fun c hc =>
        isIdentifierPart_of_isNamePart (htype.1.forall_isNamePart c hc)⟩
  | firstParameter | nextParameter => cases htype
  | _ => cases hword

theorem isTypeChar_of_mem_type : ∀ c ∈ textOf declaration.type, isTypeChar c = true := by
  intro c hmem
  rcases List.mem_flatMap.mp hmem with ⟨token, htoken, hc⟩
  have htype := declaration.type_tokens token htoken
  clear hmem
  cases token with
  | word chars => exact isTypeChar_of_isWord (isWord_of_isNamePart (htype.1.forall_isNamePart c hc))
  | dot | less | comma | greater | brackets =>
      clear htoken htype
      revert c
      decide
  | _ => cases htype

/-- The type starts with a letter or an underscore. -/
theorem exists_cons_type : ∃ first rest, textOf declaration.type = first :: rest ∧
    (isLetter first || first == '_') = true := by
  rcases declaration.isType.exists_cons with ⟨token, tokens, htokens, hfirst⟩
  have htype := declaration.type_tokens token (by simp [htokens])
  rcases hfirst with ⟨chars, rfl⟩ | ⟨name, rfl⟩ | rfl
  · rcases htype.1 with ⟨first, rest, rfl, hfirst, _⟩
    exact ⟨first, rest ++ textOf tokens, by rw [htokens]; rfl, hfirst⟩
  · cases htype
  · cases htype

-- A letter of Java is one of the pattern as well, which is more generous.
theorem exists_cons_name : ∃ first rest, declaration.name = first :: rest ∧
    EcmaScript.isIdentifierStart first = true ∧
      ∀ c ∈ rest, EcmaScript.isIdentifierChar c = true := by
  rcases declaration.name_spells with ⟨first, rest, hname, hfirst, hrest⟩
  refine ⟨first, rest, hname, hfirst, fun c hc => ?_⟩
  rcases Bool.or_eq_true_iff.mp (hrest c hc) with hpart | hdollar
  · rw [EcmaScript.isIdentifierChar, isWord_of_isNamePart hpart]
    rfl
  · rw [EcmaScript.isIdentifierChar, hdollar, Bool.or_true]

theorem plainWords_access : PlainWords [declaration.access] := by
  rw [PlainWords, List.forall_mem_singleton]
  exact plainWords_accessWords _ declaration.access_mem

theorem plainWords_modifiers : PlainWords declaration.modifiers := fun modifier hmodifier =>
  plainWords_fieldModifiers modifier (declaration.modifiers_mem modifier hmodifier)

/-- What comes before the name has only characters of types. -/
theorem isTypeChar_of_mem_head : ∀ c ∈ declaration.head, isTypeChar c = true :=
  Chunking.isTypeChar_of_mem_head declaration.plainWords_access declaration.plainWords_modifiers
    declaration.isTypeChar_of_mem_type

/-- The identifiers before the name are the modifiers and those of the type. -/
theorem identifiers_head : identifiers declaration.head =
    declaration.access.toList :: (declaration.modifiers.map String.toList ++
      identifiersOf declaration.type) :=
  identifiers_declarationHead declaration.plainWords_access declaration.plainWords_modifiers
    declaration.isType declaration.sound_of_mem_type

/-- The names of types before the name are those of the type. -/
theorem mem_identifiersOf_type {word : List Char} (hword : isTypeName word = true)
    (hmem : word ∈ identifiers declaration.head) : word ∈ identifiersOf declaration.type :=
  mem_identifiersOf_of_mem_head declaration.plainWords_access declaration.plainWords_modifiers
    declaration.isType declaration.sound_of_mem_type hword hmem

theorem not_isStop_of_mem_head : ∀ c ∈ declaration.head, isStop fieldStops c = false := fun c hc =>
  not_isStop_of_kind not_isTypeChar_fieldStops (declaration.isTypeChar_of_mem_head c hc)

theorem isIdentifierChar_of_mem_name :
    ∀ c ∈ declaration.name, EcmaScript.isIdentifierChar c = true := by
  rcases declaration.exists_cons_name with ⟨first, rest, hname, hfirst, hrest⟩
  rw [hname]
  exact List.forall_mem_cons.mpr ⟨isIdentifierChar_of_isIdentifierStart hfirst, hrest⟩

/-- There is no semicolon or equals sign before the end of a declaration. -/
theorem not_isStop_of_mem_body :
    ∀ c ∈ declaration.head ++ declaration.name, isStop fieldStops c = false :=
  List.forall_mem_append.mpr ⟨declaration.not_isStop_of_mem_head, fun c hc =>
    not_isStop_of_kind not_isIdentifierChar_fieldStops
      (declaration.isIdentifierChar_of_mem_name c hc)⟩

/-- The pattern of fields spans a declaration up to its semicolon. -/
theorem spans_field {before : List Char} (hbefore : EndsWord before) (after : List Char) :
    field.Spans before (declaration.head ++ declaration.name ++ [';']) after := by
  have hedge (rest : List Char) :
      Spans .wordEdge before [] (declaration.access.toList ++ rest) :=
    spans_wordEdge plainWords_accessWords declaration.access_mem hbefore rest
  have htype (before after : List Char) :
      fieldType.Spans before (textOf declaration.type) after := by
    rcases declaration.exists_cons_type with ⟨first, rest, htext, hfirst⟩
    have hrest := declaration.isTypeChar_of_mem_type
    rw [htext] at hrest ⊢
    exact .seq (.one hfirst) (.stretch (List.forall_mem_cons.mp hrest).2)
  have hname (before after : List Char) :
      EcmaScript.identifier.Spans before declaration.name after :=
    spans_name_iff.mpr declaration.exists_cons_name
  -- The parts of the row in order, each with the stretch of text that it takes.
  have hrow : (inRow field.row).Spans before ([] ++ (declaration.access.toList ++ ([' '] ++
      (spaced declaration.modifiers ++ (textOf declaration.type ++ ([' '] ++
        (declaration.name ++ ([] ++ ([';'] ++ []))))))))) after :=
    .seq (by simpa using hedge _) <| .seq (spans_words declaration.access_mem _ _) <|
      .seq (spans_space _ _) <| .seq (spans_modifiers declaration.modifiers_mem _ _) <|
        .seq (spans_group_iff.mpr (htype _ _)) <| .seq (spans_space _ _) <|
          .seq (spans_group_iff.mpr (hname _ _)) <| .seq (.stretch (by simp)) <|
            .seq (.one rfl) .literal
  rw [spans_inRow_row] at hrow
  simpa [head] using hrow

end FieldDeclaration

/-! ## Matches -/

/-- What comes before the type of a field. -/
def fieldFront : List Pattern :=
  [wordEdge, words accessWords, someBlanks, Pattern.modifiers fieldModifiers]

/-- The text is read as a field: modifiers, a type, a gap, a name, blanks, and the
character that tells a field. -/
structure FieldReading (before after front type gap name blanks : List Char) (stop : Char)
    (rest : List Char) : Prop where
  text : after = front ++ type ++ gap ++ name ++ blanks ++ stop :: rest
  front_start : ∃ first more, front = first :: more ∧ first.isLower = true
  front_mem : ∀ c ∈ front, c.isLower = true ∨ isBlank c = true
  front_apart : Apart (before ++ front).getLast?
  type_mem : ∀ c ∈ type, isTypeChar c = true
  gap_blanks : IsBlanks gap
  name_mem : ∀ c ∈ name, EcmaScript.isIdentifierChar c = true
  blanks_mem : ∀ c ∈ blanks, isBlank c = true
  stop_isStop : isStop fieldStops stop = true

variable {before after front type gap name blanks rest : List Char} {stop : Char}

-- Where the parts stand does not matter, but for the modifiers: a blank comes before
-- the type.
theorem fieldReading_of_spans {before₂ before₃ before₄ after₁ after₂ after₃ after₄ : List Char}
    (hfront : (inRow fieldFront).Spans before front after₁)
    (htype : fieldType.Spans before₂ type after₂) (hgap : someBlanks.Spans before₃ gap after₃)
    (hname : EcmaScript.identifier.Spans before₄ name after₄)
    (hblanks : ∀ c ∈ blanks, isBlank c = true) (hstop : isStop fieldStops stop = true)
    (htext : after = front ++ type ++ gap ++ name ++ blanks ++ stop :: rest) :
    FieldReading before after front type gap name blanks stop rest where
  text := htext
  front_start := by
    rcases hfront.exists_of_seq with ⟨nothing, more, rfl, hedge, hmore⟩
    rcases hmore.exists_of_seq with ⟨word, more, rfl, hword, _⟩
    rcases hword.exists_of_words with ⟨access, haccess, rfl⟩
    rcases exists_cons_of_plainWords plainWords_accessWords haccess with
      ⟨first, letters, hcons, hfirst⟩
    exact ⟨first, letters ++ more, by rw [hedge.eq_of_wordEdge, hcons]; rfl, hfirst⟩
  front_mem := by
    have hlower : ∀ word ∈ accessWords ++ fieldModifiers, ∀ c ∈ word.toList,
        c.isLower = true ∨ isBlank c = true := by
      decide
    rw [List.forall_mem_append] at hlower
    have hblank : ∀ c, isBlank c = true → c.isLower = true ∨ isBlank c = true :=
      fun _ hc => .inr hc
    exact hfront.forall_mem ⟨trivial, spansOnly_words hlower.1, spansOnly_someBlanks hblank,
      spansOnly_modifiers hlower.2 hblank, fun _ hc => absurd hc List.not_mem_nil⟩
  front_apart := by
    refine apart_of_endsApart hfront False ?_ False.elim
    simp [fieldFront, inRow, EndsApart]
  type_mem := by
    refine htype.forall_mem ⟨fun c hc => ?_, fun _ hc => hc⟩
    exact isTypeChar_of_isWord (isWord_of_isNamePart (isNamePart_of_isLetter hc))
  gap_blanks := spans_someBlanks_iff.mp hgap
  name_mem :=
    hname.forall_mem ⟨fun _ hc => isIdentifierChar_of_isIdentifierStart hc, fun _ hc => hc⟩
  blanks_mem := hblanks
  stop_isStop := hstop

/-- A match reads a field, and keeps its type. -/
theorem exists_fieldReading_type {found : Match}
    (h : field.matchAt? (Cursor.between before after) = some found) :
    ∃ front gap name blanks stop rest,
      FieldReading before after front (found.group 1) gap name blanks stop rest := by
  have hrow : field.row = fieldFront ++ group 1 fieldType ::
      [someBlanks, group 2 EcmaScript.identifier, blanks, one (isStop fieldStops)] :=
    rfl
  rcases exists_spans_of_matchAt? hrow rfl rfl rfl h with
    ⟨front, more, rest, hafter, hfront, htype, hmore⟩
  rcases hmore.exists_of_seq with ⟨gap, more, rfl, hgap, hmore⟩
  rcases hmore.exists_of_seq with ⟨name, more, rfl, hname, hmore⟩
  rcases exists_of_spans_stop hmore with ⟨blanks, stop, rfl, hblanks, hstop⟩
  exact ⟨front, gap, name, blanks, stop, rest, fieldReading_of_spans hfront htype hgap
    (spans_group_iff.mp hname) hblanks hstop (by simpa using hafter)⟩

/-- A match reads a field, and keeps its name. -/
theorem exists_fieldReading_name {found : Match}
    (h : field.matchAt? (Cursor.between before after) = some found) :
    ∃ front type gap blanks stop rest,
      FieldReading before after front type gap (found.group 2) blanks stop rest := by
  have hrow : field.row = (fieldFront ++ [group 1 fieldType, someBlanks]) ++
      group 2 EcmaScript.identifier :: [blanks, one (isStop fieldStops)] :=
    rfl
  rcases exists_spans_of_matchAt? hrow rfl rfl rfl h with
    ⟨passed, more, rest, hafter, hpassed, hname, hmore⟩
  rcases spans_inRow_append hpassed with ⟨front, passed, rfl, hfront, hpassed⟩
  rcases hpassed.exists_of_seq with ⟨type, gap, rfl, htype, hgap⟩
  rw [spans_inRow_singleton_iff] at hgap
  rcases exists_of_spans_stop hmore with ⟨blanks, stop, rfl, hblanks, hstop⟩
  exact ⟨front, type, gap, blanks, stop, rest, fieldReading_of_spans hfront
    (spans_group_iff.mp htype) hgap hname hblanks hstop (by simpa using hafter)⟩

/-! ## Fields read in declarations -/

/-- What comes before a declaration: nothing, or another one. -/
def EndsDeclaration (before : List Char) : Prop :=
  before = [] ∨ ∃ body, before = body ++ [';', '\n']

/-- What is left at the end of a declaration is nothing, the newline, or more. -/
theorem EndsDeclaration.cases_append {before across : List Char}
    (h : EndsDeclaration (before ++ across)) : across = [] ∨ across = ['\n'] ∨ ';' ∈ across := by
  rcases h with h | ⟨body, h⟩
  · exact .inl (List.append_eq_nil_iff.mp h).2
  · rcases append_eq_append_cons_cases h with ⟨rest, -, hrest⟩ | ⟨rest, -, rfl⟩
    · exact (List.append_eq_singleton_iff.mp hrest.symm).elim (fun h => .inr (.inl h.2))
        fun h => .inl h.2
    · exact .inr (.inr (by simp))

theorem EndsDeclaration.endsWord {before : List Char} (h : EndsDeclaration before) :
    EndsWord before := by
  rcases h with rfl | ⟨body, rfl⟩
  · exact fun c hc => by cases hc
  · intro c hc
    have hlast : c = '\n' := by
      simpa using hc.symm
    rw [hlast]
    decide

namespace FieldReading

variable (h : FieldReading before after front type gap name blanks stop rest)

include h

/-- Nothing tells a field before its end. -/
theorem not_isStop_of_mem :
    ∀ c ∈ front ++ type ++ gap ++ name ++ blanks, isStop fieldStops c = false := by
  have htype {c : Char} (hc : isTypeChar c = true) : isStop fieldStops c = false :=
    not_isStop_of_kind not_isTypeChar_fieldStops hc
  have hblank {c : Char} (hc : isBlank c = true) : isStop fieldStops c = false :=
    htype (isTypeChar_of_isBlank hc)
  have hlower {c : Char} (hc : c.isLower = true) : isStop fieldStops c = false :=
    htype (isTypeChar_of_isWord (isWord_of_isLower hc))
  simp only [List.forall_mem_append]
  exact ⟨⟨⟨⟨fun c hc => (h.front_mem c hc).elim hlower hblank,
    fun c hc => htype (h.type_mem c hc)⟩,
    fun c hc => hblank (h.gap_blanks.2 c hc)⟩,
    fun c hc => not_isStop_of_kind not_isIdentifierChar_fieldStops (h.name_mem c hc)⟩,
    fun c hc => hblank (h.blanks_mem c hc)⟩

variable {earlier : List Char} {declaration : FieldDeclaration}

/-- A field that is read up to the end of a declaration has its name. -/
theorem name_eq (hend : before ++ (front ++ type ++ gap ++ name ++ blanks) =
      earlier ++ (declaration.head ++ declaration.name)) :
    name = declaration.name ∧ before ++ (front ++ type ++ gap) = earlier ++ declaration.head := by
  have hname : ∀ c ∈ declaration.name, isBlank c = false := fun c hc =>
    isBlank_of_isIdentifierChar (declaration.isIdentifierChar_of_mem_name c hc)
  have hname_ne : declaration.name ≠ [] := by
    rcases declaration.exists_cons_name with ⟨first, more, hcons, _⟩
    rw [hcons]
    exact List.cons_ne_nil first more
  -- The declaration ends with its name, so nothing is left for the blanks.
  have hends : (before ++ (front ++ type ++ gap ++ name)) ++ blanks =
      (earlier ++ declaration.head) ++ declaration.name := by
    simpa using hend
  have hblanks := eq_nil_of_append_eq h.blanks_mem hname_ne hname hends
  subst hblanks
  -- Both names come behind the last blank.
  rcases List.eq_nil_or_concat gap with rfl | ⟨gap, blank, rfl⟩
  · exact absurd rfl h.gap_blanks.1
  · have hblank : isBlank blank = true := h.gap_blanks.2 blank (by simp)
    have hlast : (before ++ (front ++ type ++ gap)) ++ blank :: name =
        (earlier ++ (declaration.access.toList ++ ' ' :: (spaced declaration.modifiers ++
          textOf declaration.type))) ++ ' ' :: declaration.name := by
      simpa [FieldDeclaration.head] using hend
    rcases append_cons_inj_of_last (fun c hc => isBlank_of_isIdentifierChar (h.name_mem c hc))
      hblank hname rfl hlast with ⟨hfront, rfl, hsame⟩
    refine ⟨hsame, ?_⟩
    have hhead := congrArg (· ++ [' ']) hfront
    simpa [FieldDeclaration.head] using hhead

/-- It starts in the declaration. -/
theorem exists_before_eq (hearlier : EndsDeclaration earlier)
    (hhead : before ++ (front ++ type ++ gap) = earlier ++ declaration.head) :
    ∃ skipped, before = earlier ++ skipped ∧
      declaration.head = skipped ++ (front ++ type ++ gap) := by
  rcases List.append_eq_append_iff.mp hhead with
    ⟨across, hacross, hrest⟩ | ⟨skipped, hbefore, hrest⟩
  · rcases h.front_start with ⟨first, more, rfl, hfirst⟩
    rw [hacross] at hearlier
    rcases hearlier.cases_append with rfl | rfl | hmem
    · exact ⟨[], by simp [hacross], by simpa using hrest.symm⟩
    · -- The field does not start with the newline.
      rw [(List.cons.inj hrest).1] at hfirst
      cases hfirst
    · have hmem : ';' ∈ first :: more ++ type ++ gap := by
        rw [hrest]
        exact List.mem_append_left _ hmem
      have := h.not_isStop_of_mem ';' (by simp at hmem ⊢; tauto)
      cases this
  · exact ⟨skipped, hbefore, hrest⟩

-- A blank comes before the type, and another behind it.
theorem identifiers_eq (skipped : List Char) :
    identifiers (skipped ++ (front ++ type ++ gap)) =
      identifiers (skipped ++ front) ++ identifiers type := by
  rcases h.front_start with ⟨first, more, hfront, _⟩
  have hbefore : Apart (skipped ++ front).getLast? := by
    have hapart := h.front_apart
    rw [hfront, List.getLast?_append_cons] at hapart ⊢
    exact hapart
  rw [← identifiers_read hbefore h.gap_blanks, List.append_assoc, List.append_assoc,
    List.append_assoc]

/-- The names of types in it are those of the declaration. -/
theorem mem_identifiers_of_mem (hearlier : EndsDeclaration earlier)
    (hhead : before ++ (front ++ type ++ gap) = earlier ++ declaration.head) {word : List Char}
    (hword : isTypeName word = true) (hmem : word ∈ identifiers type) :
    word ∈ identifiersOf declaration.type := by
  rcases h.exists_before_eq hearlier hhead with ⟨skipped, -, hskipped⟩
  have hhead : word ∈ identifiers declaration.head := by
    rw [hskipped, h.identifiers_eq]
    exact List.mem_append_right _ hmem
  exact declaration.mem_identifiersOf_type hword hhead

theorem mem_identifiers_type
    (hhead : before ++ (front ++ type ++ gap) = before ++ declaration.head) {word : List Char}
    (hword : isTypeName word = true) (hmem : word ∈ identifiersOf declaration.type) :
    word ∈ identifiers type := by
  have hmem : word ∈ identifiers declaration.head := by
    rw [declaration.identifiers_head]
    exact List.mem_cons_of_mem _ (List.mem_append_right _ hmem)
  rw [← List.append_cancel_left hhead, ← List.nil_append (front ++ type ++ gap),
    h.identifiers_eq [], List.mem_append] at hmem
  rcases hmem with hmem | hmem
  · -- The modifiers are no names of types.
    rw [List.nil_append] at hmem
    rw [isTypeName_of_mem_front h.front_mem hmem] at hword
    cases hword
  · exact hmem

/-- A field that is read from the start of a declaration is read up to its end. -/
theorem body_eq {more : List Char}
    (hafter : after = declaration.head ++ declaration.name ++ [';'] ++ more) :
    before ++ (front ++ type ++ gap ++ name ++ blanks) =
      before ++ (declaration.head ++ declaration.name) := by
  have htext : (front ++ type ++ gap ++ name ++ blanks) ++ stop :: rest =
      (declaration.head ++ declaration.name) ++ ';' :: more := by
    rw [← h.text, hafter]
    simp
  rw [(append_cons_inj_of_first h.not_isStop_of_mem h.stop_isStop
    declaration.not_isStop_of_mem_body rfl htext).1]

end FieldReading

/-! ## Sources of declarations -/

theorem exists_fieldReading_of_spans {text : List Char} (h : field.Spans before text after) :
    ∃ front type gap name blanks stop,
      FieldReading before (text ++ after) front type gap name blanks stop after := by
  rw [← spans_inRow_row] at h
  have hrow : field.row = fieldFront ++
      [group 1 fieldType, someBlanks, group 2 EcmaScript.identifier, blanks,
        one (isStop fieldStops)] :=
    rfl
  rw [hrow] at h
  rcases spans_inRow_append h with ⟨front, more, rfl, hfront, hmore⟩
  rcases hmore.exists_of_seq with ⟨type, more, rfl, htype, hmore⟩
  rcases hmore.exists_of_seq with ⟨gap, more, rfl, hgap, hmore⟩
  rcases hmore.exists_of_seq with ⟨name, more, rfl, hname, hmore⟩
  rcases exists_of_spans_stop hmore with ⟨blanks, stop, rfl, hblanks, hstop⟩
  exact ⟨front, type, gap, name, blanks, stop, fieldReading_of_spans hfront
    (spans_group_iff.mp htype) hgap (spans_group_iff.mp hname) hblanks hstop (by simp)⟩

/-- No field that is read lies across the end of a declaration. -/
theorem clearAt_field (hbefore : EndsDeclaration before) (after : List Char) :
    field.ClearAt before after := by
  intro passed first second back hfirst _ hne hne' hspans
  rcases exists_fieldReading_of_spans hspans with ⟨front, type, gap, name, blanks, stop, h⟩
  -- The character that tells the field is the last one, so it is not in the first part.
  have hfree : ∀ c ∈ first, isStop fieldStops c = false := fun c hc =>
    h.not_isStop_of_mem c (forall_mem_of_append_eq hne' h.text c hc)
  rw [hfirst] at hbefore
  rcases hbefore.cases_append with rfl | rfl | hmem
  · exact hne rfl
  · rcases h.front_start with ⟨letter, more, rfl, hletter⟩
    rw [← (List.cons.inj h.text).1] at hletter
    cases hletter
  · cases hfree ';' hmem

variable (declarations : List FieldDeclaration)

theorem endsDeclaration_flatMap : EndsDeclaration (declarations.flatMap FieldDeclaration.text) := by
  rcases List.eq_nil_or_concat declarations with rfl | ⟨earlier, last, rfl⟩
  · exact .inl rfl
  · refine .inr ⟨earlier.flatMap FieldDeclaration.text ++ (last.head ++ last.name), ?_⟩
    simp [FieldDeclaration.text]

variable {declarations}

/-- What tells a field in a source of declarations is the semicolon of one. -/
theorem exists_declaration_of_stop {u v : List Char} {stop : Char}
    (hstop : isStop fieldStops stop = true)
    (h : declarations.flatMap FieldDeclaration.text = u ++ stop :: v) :
    ∃ earlier, ∃ declaration ∈ declarations, EndsDeclaration earlier ∧
      u = earlier ++ (declaration.head ++ declaration.name) := by
  rcases exists_of_flatMap_eq_append_cons h with
    ⟨earlier, declaration, later, before, after, rfl, htext, rfl, rfl⟩
  have htext : (declaration.head ++ declaration.name) ++ ';' :: ['\n'] = before ++ stop :: after :=
    htext
  rcases append_cons_inj_of_only declaration.not_isStop_of_mem_body (by decide) hstop htext with
    ⟨rfl, _, _⟩
  exact ⟨_, declaration, by simp, endsDeclaration_flatMap earlier, rfl⟩

namespace FieldDeclaration

variable (declaration : FieldDeclaration) {keyword passed skipped ahead : List Char} {blank : Char}

/-- The blanks of a declaration are before its name, but for the newline. -/
theorem exists_blank_of_text (hblank : isBlank blank = true)
    (htext : declaration.text = passed ++ blank :: ahead) :
    (∃ ahead, declaration.head = passed ++ blank :: ahead) ∨
      passed = declaration.head ++ declaration.name ++ [';'] := by
  have hname : ∀ c ∈ declaration.name ++ [';'], isBlank c = false := by
    simp only [List.forall_mem_append, List.forall_mem_singleton]
    exact ⟨fun c hc => isBlank_of_isIdentifierChar (declaration.isIdentifierChar_of_mem_name c hc),
      by decide⟩
  have hends : declaration.head ++ ((declaration.name ++ [';']) ++ '\n' :: []) =
      passed ++ blank :: ahead := by
    rw [← htext]
    simp [text]
  rcases append_eq_append_cons_cases hends with ⟨rest, hhead, -⟩ | ⟨rest, rfl, hrest⟩
  · exact .inl ⟨rest, hhead⟩
  · right
    rw [(append_cons_inj_of_only hname (by simp) hblank hrest).1.symm]
    simp

/-- No keyword that declares a type is before the name. -/
theorem not_mem_head {keyword : String} (hkeyword : keyword ∈ LanguageFamily.java.typeKeywords)
    (hskipped : EndsWord skipped) (hblank : isBlank blank = true) :
    declaration.head ≠ skipped ++ keyword.toList ++ blank :: ahead := by
  intro hhead
  have hbefore : Apart skipped.getLast? := by
    intro c hc
    refine isIdentifierPart_of_isTypeChar (declaration.isTypeChar_of_mem_head c ?_) (hskipped c hc)
    rw [hhead]
    simp [List.mem_of_getLast? hc]
  have hmem : keyword.toList ∈ identifiers declaration.head := by
    rw [hhead, identifiers_append_cons (isIdentifierPart_of_isBlank hblank),
      identifiers_append (.inl hbefore),
      LanguageFamily.java.plainWords_typeKeywords.identifiers_eq hkeyword]
    simp
  have hapart :
      ∀ word ∈ accessWords ++ fieldModifiers, word ∉ LanguageFamily.java.typeKeywords := by
    decide
  rw [List.forall_mem_append] at hapart
  rw [declaration.identifiers_head, List.mem_cons, List.mem_append] at hmem
  rcases hmem with hmem | hmem | hmem
  · rw [String.toList_inj.mp hmem] at hkeyword
    exact hapart.1 _ declaration.access_mem hkeyword
  · rcases List.mem_map.mp hmem with ⟨modifier, hmodifier, hsame⟩
    rw [← String.toList_inj.mp hsame] at hkeyword
    exact hapart.2 _ (declaration.modifiers_mem modifier hmodifier) hkeyword
  · rcases List.mem_filterMap.mp hmem with ⟨token, htoken, hidentifier⟩
    have htype := declaration.type_tokens token htoken
    cases token with
    | word chars =>
        cases hidentifier
        exact htype.2 (by simpa using hkeyword)
    | firstParameter | nextParameter => cases htype
    | _ => cases hidentifier

end FieldDeclaration

/-- No type is declared in declarations of fields. -/
theorem not_declares (declarations : List FieldDeclaration) (identifier : List Char) :
    ¬Declares LanguageFamily.java.typeKeywords (declarations.flatMap FieldDeclaration.text)
      identifier := by
  rintro ⟨before, keyword, hkeyword, blanks, after, hcontent, hbefore, hblanks, -, -⟩
  rcases LanguageFamily.java.plainWords_typeKeywords keyword hkeyword with ⟨hne, hlower⟩
  rcases List.exists_cons_of_ne_nil hblanks.1 with ⟨blank, more, rfl⟩
  have hblank : isBlank blank = true := hblanks.2 blank List.mem_cons_self
  have hplace : declarations.flatMap FieldDeclaration.text =
      before ++ keyword.toList ++ blank :: (more ++ identifier ++ after) := by
    rw [hcontent]
    simp
  have hnewline : '\n' ∉ keyword.toList := by
    intro hmem
    cases hlower _ hmem
  rcases exists_of_flatMap_eq_append_word
    (fun declaration _ => ⟨'\n', declaration.getLast?_text, hnewline⟩) hplace with
    ⟨earlier, declaration, later, skipped, ahead, rfl, htext, rfl, -⟩
  have hskipped : EndsWord skipped := by
    intro c hc
    apply hbefore c
    rw [List.getLast?_append, hc]
    rfl
  rcases declaration.exists_blank_of_text hblank htext with ⟨ahead, hhead⟩ | hend
  · exact declaration.not_mem_head hkeyword hskipped hblank hhead
  · -- Before the newline is a semicolon.
    exact hne (eq_nil_of_append_eq hlower (List.cons_ne_nil ';' []) (by decide) hend)

/-- No accessor is found without a parenthesis. -/
theorem accessorProperties_eq (declarations : List FieldDeclaration) :
    accessorProperties (declarations.flatMap FieldDeclaration.text) = [] := by
  rw [accessorProperties, List.map_eq_nil_iff, List.eq_nil_iff_forall_not_mem]
  intro found hfound
  rcases exists_between_of_mem_findAll hfound with ⟨before, after, hcontent, hmatch⟩
  rcases exists_way_of_matchAt? hmatch with ⟨way, hway, -⟩
  rcases spansTo_of_mem_ways _ _ _ _ way hway with ⟨text, rest, rfl, -, hspans⟩
  rcases hspans.exists_of_seq with ⟨front, parenthesis, rfl, -, hparenthesis⟩
  have hmem : '(' ∈ declarations.flatMap FieldDeclaration.text := by
    rw [hcontent, hparenthesis.eq_of_literal]
    simp
  rcases List.mem_flatMap.mp hmem with ⟨declaration, -, hmem⟩
  have htypeChar : isTypeChar '(' = false := by
    decide
  have hidentifierChar : EcmaScript.isIdentifierChar '(' = false := by
    decide
  -- A declaration has no parenthesis: not in its head, not in its name, not at its end.
  rcases List.mem_append.mp hmem with hmem | hmem
  · rcases List.mem_append.mp hmem with hmem | hmem
    · rw [declaration.isTypeChar_of_mem_head _ hmem] at htypeChar
      cases htypeChar
    · rw [declaration.isIdentifierChar_of_mem_name _ hmem] at hidentifierChar
      cases hidentifierChar
  · simp at hmem

/-- What the pattern of fields finds. -/
theorem exists_of_mem_findAll_field {found : Match}
    (h : found ∈ field.findAll (declarations.flatMap FieldDeclaration.text)) :
    (∃ declaration ∈ declarations, found.group 2 = declaration.name) ∧
      ∃ declaration ∈ declarations, ∀ word, isTypeName word = true →
        word ∈ identifiers (found.group 1) → word ∈ identifiersOf declaration.type := by
  rcases exists_between_of_mem_findAll h with ⟨before, after, hcontent, hmatch⟩
  constructor
  -- The name and the type are kept by the same match, but each is read on its own.
  · rcases exists_fieldReading_name hmatch with ⟨front, type, gap, blanks, stop, rest, hreading⟩
    have htext : declarations.flatMap FieldDeclaration.text =
        before ++ (front ++ type ++ gap ++ found.group 2 ++ blanks) ++ stop :: rest := by
      rw [hcontent, hreading.text]
      simp
    rcases exists_declaration_of_stop hreading.stop_isStop htext with
      ⟨earlier, declaration, hmem, _, hend⟩
    exact ⟨declaration, hmem, (hreading.name_eq hend).1⟩
  · rcases exists_fieldReading_type hmatch with ⟨front, gap, name, blanks, stop, rest, hreading⟩
    have htext : declarations.flatMap FieldDeclaration.text =
        before ++ (front ++ found.group 1 ++ gap ++ name ++ blanks) ++ stop :: rest := by
      rw [hcontent, hreading.text]
      simp
    rcases exists_declaration_of_stop hreading.stop_isStop htext with
      ⟨earlier, declaration, hmem, hearlier, hend⟩
    exact ⟨declaration, hmem, fun word hword =>
      hreading.mem_identifiers_of_mem hearlier (hreading.name_eq hend).2 hword⟩

/-- Every declaration is found. -/
theorem exists_mem_findAll_field {declaration : FieldDeclaration} (h : declaration ∈ declarations) :
    ∃ found ∈ field.findAll (declarations.flatMap FieldDeclaration.text),
      found.group 2 = declaration.name ∧ ∀ word, isTypeName word = true →
        word ∈ identifiersOf declaration.type → word ∈ identifiers (found.group 1) := by
  rcases List.append_of_mem h with ⟨earlier, later, rfl⟩
  have hbefore := endsDeclaration_flatMap earlier
  have hcontent : (earlier ++ declaration :: later).flatMap FieldDeclaration.text =
      earlier.flatMap FieldDeclaration.text ++ (declaration.head ++ declaration.name ++ [';'] ++
        '\n' :: later.flatMap FieldDeclaration.text) := by
    simp [FieldDeclaration.text]
  rcases exists_matchAt?_of_spans (declaration.spans_field hbefore.endsWord _) with ⟨found, hmatch⟩
  rw [hcontent]
  refine ⟨found, mem_findAll_of_matchAt? hmatch (by simp) (clearAt_field hbefore _), ?_, ?_⟩
  · rcases exists_fieldReading_name hmatch with ⟨front, type, gap, blanks, stop, rest, hreading⟩
    exact (hreading.name_eq (hreading.body_eq rfl)).1
  · rcases exists_fieldReading_type hmatch with ⟨front, gap, name, blanks, stop, rest, hreading⟩
    exact fun word hword =>
      hreading.mem_identifiers_type (hreading.name_eq (hreading.body_eq rfl)).2 hword

/-- The names of a Java source of field declarations. -/
theorem extract_fieldDeclarations (declarations : List FieldDeclaration) :
    let names := extract (declarations.flatMap FieldDeclaration.text)
    names.classes = ∅ ∧
      (∀ name, name ∈ names.properties ↔
        ∃ declaration ∈ declarations, name.toList = declaration.name) ∧
      ∀ name, name ∈ names.types ↔ ReportedType builtins name ∧
        ∃ declaration ∈ declarations, name.toList ∈ identifiersOf declaration.type := by
  refine ⟨?_, fun name => ?_, fun name => ?_⟩
  · refine NameSet.eq_of_mem_iff fun name => ?_
    have hnone : name ∉ (extract (declarations.flatMap FieldDeclaration.text)).classes := by
      intro h
      rcases (mem_foundNames_declaredType_iff LanguageFamily.java.plainWords_typeKeywords name).mp
        (NameSet.mem_ofList.mp h) with ⟨identifier, hdeclares, -⟩
      exact not_declares declarations identifier hdeclares
    exact iff_of_false hnone NameSet.not_mem_empty
  · dsimp only [extract]
    rw [accessorProperties_eq, List.append_nil, NameSet.mem_ofList, foundNames, List.mem_map]
    constructor
    · rintro ⟨found, hfound, rfl⟩
      rcases (exists_of_mem_findAll_field hfound).1 with ⟨declaration, hmem, hname⟩
      exact ⟨declaration, hmem, by rw [String.toList_ofList, hname]⟩
    · rintro ⟨declaration, hmem, hname⟩
      rcases exists_mem_findAll_field hmem with ⟨found, hfound, hgroup, -⟩
      exact ⟨found, hfound, by rw [hgroup, ← hname, String.ofList_toList]⟩
  · dsimp only [extract]
    rw [NameSet.mem_ofList, foundTypes, List.mem_flatMap]
    simp only [mem_referencedTypes_iff]
    constructor
    · rintro ⟨found, hfound, hreported, hmem⟩
      rcases (exists_of_mem_findAll_field hfound).2 with ⟨declaration, hdeclaration, htypes⟩
      exact ⟨hreported, declaration, hdeclaration, htypes _ hreported.1 hmem⟩
    · rintro ⟨hreported, declaration, hdeclaration, hmem⟩
      rcases exists_mem_findAll_field hdeclaration with ⟨found, hfound, -, htypes⟩
      exact ⟨found, hfound, hreported, htypes _ hreported.1 hmem⟩

/-- A field with arguments, a package and brackets in its type. -/
def genericField : FieldDeclaration where
  access := "private"
  modifiers := ["static", "final"]
  type := [.word "Map".toList, .less, .word "Key".toList, .comma, .word "shop".toList, .dot,
    .word "Order".toList, .brackets, .greater]
  name := "orders".toList
  access_mem := by decide
  modifiers_mem := by decide
  isType := .applied (.word _) (.moreArguments (.argument (.word _))
    (.array (.qualified _ (.word _))))
  type_tokens := by decide
  name_spells := ⟨'o', "rders".toList, rfl, rfl, by decide⟩

/-- A field without modifiers, and with a dollar sign in its name. -/
def dollarField : FieldDeclaration where
  access := "protected"
  modifiers := []
  type := [.word "Buyer".toList]
  name := "$by".toList
  access_mem := by decide
  modifiers_mem := List.forall_mem_nil _
  isType := .word _
  type_tokens := by decide
  name_spells := ⟨'$', "by".toList, rfl, rfl, by decide⟩

/-- Of the names in the types, `Map` comes with the language, and `shop` does not look like
the name of a type. -/
theorem extract_fieldDeclarations_generic :
    let names := extract ("private static final Map<Key, shop.Order[]> orders;\n" ++
      "protected Buyer $by;\n").toList
    names.classes = ∅ ∧ (∀ name, name ∈ names.properties ↔ name ∈ ["orders", "$by"]) ∧
      ∀ name, name ∈ names.types ↔ name ∈ ["Key", "Order", "Buyer"] := by
  have hnames := extract_fieldDeclarations [genericField, dollarField]
  have htext : [genericField, dollarField].flatMap FieldDeclaration.text =
      ("private static final Map<Key, shop.Order[]> orders;\n" ++
        "protected Buyer $by;\n").toList := by
    decide
  have htypes : reportedAmong builtins ([genericField, dollarField].flatMap fun field =>
      identifiersOf field.type) = ["Key", "Order", "Buyer"] := by
    decide
  rw [htext] at hnames
  refine ⟨hnames.1, fun name => ?_, fun name => ?_⟩
  · rw [hnames.2.1]
    simp [genericField, dollarField, ← String.toList_inj]
  · rw [hnames.2.2, ← List.mem_flatMap, ← mem_reportedAmong_iff, htypes]

end Java

end Chunking
