import Chunking.Proofs.ShownTypes

/-!
# Parameters of a constructor

A class with nothing in it but a constructor is the simplest source that has parameters.
Its names are those of the parameter list, because nothing else in it is taken for a
field or a constructor: before the first colon there is a brace, and a parenthesis in a
type never stands behind a word.

So the properties are the names of the parameters with modifiers. The types are those
that the reading of the tokens shows. Without function types these are all there are,
and the result of a function type is not among them.

All of this is up to the range of the count of open brackets. Each arrow takes it one
further down, so behind more than `2 ^ 31` arrows it has wrapped around, and a parameter
there is taken for a part of the one before it.

## Main definitions

* `EcmaScript.Parameter`: A parameter with a type.
* `EcmaScript.listText`: Parameters in a row.
* `EcmaScript.ConstructorClass`: A class with nothing but a constructor.
* `EcmaScript.shownWords`: The identifiers that are shown of parameters.
* `EcmaScript.separated`: The parameters that are told apart from the one before.
* `EcmaScript.arrowsOf`: The number of arrows in the types of parameters.
* `EcmaScript.IsShallow`: The brackets of a type are not nested too deep.

## Theorems

* `EcmaScript.listNames_listText`: What a parameter list contributes.
* `EcmaScript.separated_eq`: Behind few arrows all parameters are told apart.
* `EcmaScript.shownWords_eq`: Without arrows all identifiers are shown.
* `EcmaScript.ConstructorClass.eq_of_hasConstructor`: There is only one constructor.
* `EcmaScript.ConstructorClass.parameters_found_iff`: The properties and types of the class.
-/

namespace Chunking.EcmaScript

open Text Pattern

/-- A parameter of a constructor: modifiers, a name, perhaps a question mark, and a
type. -/
structure Parameter where
  modifiers : List String
  name : List Char
  isOptional : Bool
  type : List TypeToken
  modifiers_mem : ∀ word ∈ modifiers, word ∈ parameterModifiers
  name_isIdentifier : IsIdentifier name
  type_isType : IsType type
  type_tokens : ∀ token ∈ type, IsTypeToken token

/-- What comes before the colon of a parameter. -/
def Parameter.front (parameter : Parameter) : List Char :=
  spaced parameter.modifiers ++ parameter.name ++ if parameter.isOptional then ['?'] else []

/-- The text of a parameter. -/
def Parameter.text (parameter : Parameter) : List Char :=
  parameter.front ++ ([':', ' '] ++ textOf parameter.type)

/-- Parameters with a comma and a space between them. -/
def listText : List Parameter → List Char
  | [] => []
  | first :: others => first.text ++ others.flatMap fun other => [',', ' '] ++ other.text

/-- The identifiers that are shown of parameters: those of the types, and those before the
colon where a parameter is taken for a part of the one before it. -/
def shownWords : Reader → List Parameter → List (List Char)
  | _, [] => []
  | reader, next :: others =>
    (if reader.shown && 0 < reader.depth then identifiers next.front else []) ++
      (reader.behindFront.words next.type ++
        shownWords (reader.behindFront.after next.type) others)

/-- The parameters that are told apart from the one before. -/
def separated : Reader → List Parameter → List Parameter
  | _, [] => []
  | reader, next :: others =>
    (if reader.depth ≤ 0 then [next] else []) ++
      separated (reader.behindFront.after next.type) others

/-- The number of arrows in the types of parameters. -/
def arrowsOf (parameters : List Parameter) : Nat :=
  (parameters.map fun parameter => parameter.type.countP TypeToken.isArrow).sum

/-- Nowhere in the type are `2 ^ 31` brackets open. -/
def IsShallow (type : List TypeToken) : Prop :=
  ∀ front, front <+: type → changeOf front < 2 ^ 31

/-- What comes behind the parameters, and the parenthesis that ends them. -/
def classEnd : List Char :=
  " \x7b \x7d \x7d".toList

/-- A class with nothing in it but a constructor, and nothing in the body of that. -/
structure ConstructorClass where
  name : List Char
  parameters : List Parameter
  name_chars : ∀ c ∈ name, isIdentifierChar c = true

namespace ConstructorClass

/-- What comes before the parameters, up to the parenthesis. -/
def head (source : ConstructorClass) : List Char :=
  "class ".toList ++ source.name ++ " \x7b constructor".toList

/-- The text of the class. -/
def text (source : ConstructorClass) : List Char :=
  source.head ++ '(' :: (listText source.parameters ++ ')' :: classEnd)

end ConstructorClass

variable {text : List Char} {reader : Reader} {properties : List String} {words : List (List Char)}

/-! ## The parameter list -/

namespace Parameter

variable (parameter : Parameter)

theorem front_isFront (blanks : List Char) (h : ∀ c ∈ blanks, isBlank c = true) :
    IsFront (blanks ++ parameter.front) parameter.modifiers parameter.name := by
  refine ⟨blanks, if parameter.isOptional then ['?'] else [], rfl, h, parameter.modifiers_mem,
    parameter.name_isIdentifier, ?_⟩
  cases parameter.isOptional with
  | false => exact .inl rfl
  | true => exact .inr rfl

/-- Behind the type of a parameter the count is lower by the number of its arrows. -/
theorem changeOf_type : changeOf parameter.type = -(parameter.type.countP TypeToken.isArrow) := by
  have hchange := parameter.type_isType.changeOf_add_count
  simp only [Phrase.level] at hchange
  omega

/-- The type of a parameter, behind its front. -/
theorem readSoFar_type (h : ReadSoFar (text ++ [':', ' ']) reader properties words) :
    ReadSoFar (text ++ ([':', ' '] ++ textOf parameter.type)) (reader.after parameter.type)
      properties (words ++ reader.words parameter.type) := by
  have hready : Apart (text ++ [':', ' ']).getLast? := by
    have hspace : isIdentifierPart ' ' = false := by
      decide
    rw [List.getLast?_append_of_ne_nil text (by simp)]
    exact apart_some hspace
  have htype := h.tokens parameter.type_tokens parameter.type_isType.isChain_meets
    fun _ _ _ => hready
  rwa [List.append_assoc] at htype

end Parameter

/-- The front of the next parameter, with a piece cut off before it or not. -/
theorem ReadSoFar.front (h : ReadSoFar text reader properties words) (next : Parameter) :
    ReadSoFar (text ++ ([',', ' '] ++ next.front) ++ [':', ' ']) reader.behindFront
      (properties ++
        (if reader.depth ≤ 0 then [next] else []).flatMap fun parameter =>
          propertyOf parameter.modifiers parameter.name)
      (words ++ if reader.shown && 0 < reader.depth then identifiers next.front else []) := by
  have hfront := next.front_isFront [' '] (by decide)
  have htext : text ++ ([',', ' '] ++ next.front) ++ [':', ' '] =
      text ++ ',' :: ([' '] ++ next.front ++ [':', ' ']) := by
    simp
  rw [htext]
  by_cases hdepth : reader.depth ≤ 0
  · have hclosed : ¬0 < reader.depth := Int32.not_lt.mpr hdepth
    simpa [Reader.behindFront, hdepth, hclosed] using h.cut hdepth hfront
  · have hopen : 0 < reader.depth := Int32.not_le.mp hdepth
    have hspace : isIdentifierPart ' ' = false := by
      decide
    have hsame : reader.behindFront = reader := by
      simp [Reader.behindFront, hdepth]
    have hjoin := h.join hopen hfront
    rw [List.singleton_append, identifiers_cons hspace] at hjoin
    simpa [hsame, hdepth, hopen] using hjoin

/-- The parameters behind the first. -/
theorem ReadSoFar.others (h : ReadSoFar text reader properties words) (others : List Parameter) :
    ∃ last, ReadSoFar (text ++ others.flatMap fun other => [',', ' '] ++ other.text) last
      (properties ++ (separated reader others).flatMap fun other =>
        propertyOf other.modifiers other.name)
      (words ++ shownWords reader others) := by
  induction others generalizing text reader properties words with
  | nil => exact ⟨reader, by simpa [shownWords, separated] using h⟩
  | cons next others ih =>
      rcases ih (next.readSoFar_type (h.front next)) with ⟨last, hlast⟩
      refine ⟨last, ?_⟩
      simpa [shownWords, separated, Parameter.text] using hlast

/-- What a parameter list contributes: the names with modifiers of the parameters that are
told apart, and what is shown of all of them. -/
theorem listNames_listText (parameters : List Parameter) :
    (listNames (listText parameters)).flatMap Prod.fst =
        ((separated ⟨0, true⟩ parameters).flatMap fun parameter =>
          propertyOf parameter.modifiers parameter.name) ∧
      (listNames (listText parameters)).flatMap Prod.snd =
        reportedAmong builtins (shownWords ⟨0, true⟩ parameters) := by
  cases parameters with
  | nil => decide +kernel
  | cons first others =>
      have htype := first.readSoFar_type (ReadSoFar.first (first.front_isFront [] (by simp)))
      rcases htype.others others with ⟨last, hlast⟩
      have hstart : Reader.behindFront ⟨0, true⟩ = ⟨0, true⟩ := rfl
      have hnames := hlast.listNames_eq
      simpa [listText, shownWords, separated, hstart, Parameter.text] using hnames

-- Only a name with modifiers is that of a property.
theorem mem_properties_iff {parameters : List Parameter} {name : String} :
    name ∈ parameters.flatMap (fun parameter => propertyOf parameter.modifiers parameter.name) ↔
      ∃ parameter ∈ parameters, parameter.modifiers ≠ [] ∧ name.toList = parameter.name := by
  rw [List.mem_flatMap]
  refine exists_congr fun parameter => and_congr_right fun _ => ?_
  unfold propertyOf
  split_ifs with hmodifiers
  · simp [hmodifiers]
  · rw [List.mem_singleton, ← String.toList_inj, String.toList_ofList]
    simp [hmodifiers]

/-- Behind few arrows all parameters are told apart, and only identifiers of the types are
shown. -/
theorem separated_eq {parameters : List Parameter} {arrows : Nat}
    (hdepth : reader.depth.toInt = -arrows) (hfew : arrows + arrowsOf parameters ≤ 2 ^ 31) :
    separated reader parameters = parameters ∧
      ∀ word ∈ shownWords reader parameters,
        ∃ parameter ∈ parameters, word ∈ identifiersOf parameter.type := by
  induction parameters generalizing reader arrows with
  | nil => exact ⟨rfl, fun word hword => absurd hword List.not_mem_nil⟩
  | cons next others ih =>
      -- Each arrow takes the count one down, so it is not above zero at the next comma.
      have hclosed : reader.depth ≤ 0 := by
        rw [Int32.le_iff_toInt_le, hdepth, Int32.toInt_zero]
        omega
      have hnone : ¬(reader.shown && decide (0 < reader.depth)) = true := by
        simp [hclosed]
      have hcount : arrowsOf (next :: others) =
          next.type.countP TypeToken.isArrow + arrowsOf others := by
        simp [arrowsOf]
      -- The arrows of the whole list keep in range, so the count does not wrap around here.
      have hbehind : (reader.behindFront.after next.type).depth.toInt =
          -(arrows + next.type.countP TypeToken.isArrow : Nat) := by
        have hchange := next.changeOf_type
        have hsame : reader.behindFront.depth = reader.depth := rfl
        rw [Reader.depth_after, hsame, toInt_add_ofInt_of_inRange (by omega) (by omega)]
        omega
      rcases ih hbehind (by omega) with ⟨hseparated, hshown⟩
      rw [separated, shownWords, if_pos hclosed, hseparated, if_neg hnone, List.nil_append]
      refine ⟨rfl, fun word hword => ?_⟩
      rcases List.mem_append.mp hword with hword | hword
      · exact ⟨next, List.mem_cons_self, (Reader.words_sublist _ next.type).subset hword⟩
      · rcases hshown word hword with ⟨parameter, hparameter, hword⟩
        exact ⟨parameter, List.mem_cons_of_mem next hparameter, hword⟩

/-- Without arrows all identifiers are shown. -/
theorem shownWords_eq {parameters : List Parameter}
    (h : ∀ parameter ∈ parameters, .arrow ∉ parameter.type ∧ IsShallow parameter.type) :
    shownWords ⟨0, true⟩ parameters =
      parameters.flatMap fun parameter => identifiersOf parameter.type := by
  induction parameters with
  | nil => rfl
  | cons first others ih =>
      rw [List.forall_mem_cons] at h
      have hroom : Reader.HasRoom ⟨0, true⟩ first.type := fun front hfront => by
        have hchange := h.1.2 front hfront
        simpa using hchange
      have hall : Reader.ShowsAll ⟨0, true⟩ first.type :=
        first.type_isType.showsAll h.1.1 rfl (Int.le_refl 0) hroom
      -- A type without arrows closes what it opens, so the next one is read from the same state.
      have hbehind : Reader.after ⟨0, true⟩ first.type = ⟨0, true⟩ := by
        have hdepth := Reader.depth_after ⟨0, true⟩ first.type
        rw [first.type_isType.changeOf_eq_level h.1.1] at hdepth
        exact congrArg₂ Reader.mk hdepth hall.shown_after
      have hstart : Reader.behindFront ⟨0, true⟩ = ⟨0, true⟩ := rfl
      rw [shownWords, hstart, hall.words_eq, hbehind, ih h.2, List.flatMap_cons]
      rfl

/-! ## Parentheses in a list -/

/-- The last character of the text, white space aside, is a mark and no character of an
identifier. -/
def EndsWithMark (text : List Char) : Prop :=
  ∃ front c blanks, text = front ++ c :: blanks ∧ (∀ d ∈ blanks, isBlank d = true) ∧
    isBlank c = false ∧ isIdentifierPart c = false

/-- What comes before a parenthesis in the text ends with a mark. -/
def OpensBehindMarks (text : List Char) : Prop :=
  ∀ before after, text = before ++ '(' :: after → EndsWithMark before

theorem EndsWithMark.append_left (h : EndsWithMark text) (before : List Char) :
    EndsWithMark (before ++ text) := by
  rcases h with ⟨front, c, blanks, rfl, h⟩
  exact ⟨before ++ front, c, blanks, (List.append_assoc _ _ _).symm, h⟩

-- The last character apart from white space is unique, and it cannot be of both kinds.
theorem EndsWithMark.not_word {blanks : List Char} (h : EndsWithMark text)
    (hblanks : ∀ c ∈ blanks, isBlank c = true) {before : List Char} {c : Char}
    (hc : isIdentifierPart c = true) : text ≠ before ++ c :: blanks := by
  rcases h with ⟨front, d, blanks', rfl, hblanks', hd, hmark⟩
  intro htext
  have hother {blanks : List Char} (h : ∀ c ∈ blanks, isBlank c = true) :
      ∀ c ∈ blanks, (!isBlank c) = false := by
    simpa using h
  have hblank : isBlank c = false := by
    by_contra hblank
    rw [Bool.not_eq_false] at hblank
    rw [isIdentifierPart_of_isBlank hblank] at hc
    cases hc
  rcases append_cons_inj_of_last (hother hblanks') (by rw [hd]; rfl) (hother hblanks)
    (by rw [hblank]; rfl) htext with ⟨-, rfl, -⟩
  rw [hmark] at hc
  cases hc

theorem endsWithMark_text {token : TypeToken} (h : token.separates = true) (before : List Char) :
    EndsWithMark (before ++ token.text) := by
  have hmark {front : List Char} {c : Char} (h : isBlank c = false ∧ isIdentifierPart c = false) :
      EndsWithMark (before ++ (front ++ [c, ' '])) :=
    ⟨before ++ front, c, [' '], (List.append_assoc _ _ _).symm, by decide, h⟩
  cases token with
  | less => exact ⟨before, '<', [], rfl, by simp, by decide, by decide⟩
  | comma => exact @hmark [] ',' (by decide)
  | bar => exact @hmark [' '] '|' (by decide)
  | firstParameter name => exact @hmark ('(' :: name) ':' (by decide)
  | nextParameter name => exact @hmark (',' :: ' ' :: name) ':' (by decide)
  | arrow => exact @hmark [')', ' ', '='] '>' (by decide)
  | _ => cases h

namespace OpensBehindMarks

variable {more : List Char}

theorem of_not_mem (h : '(' ∉ text) : OpensBehindMarks text := by
  rintro before after rfl
  exact absurd (by simp) h

theorem append (h : OpensBehindMarks text) (h' : OpensBehindMarks more) :
    OpensBehindMarks (text ++ more) := by
  intro before after hsplit
  rcases append_eq_append_cons_cases hsplit with ⟨rest, htext, -⟩ | ⟨rest, rfl, hmore⟩
  · exact h before rest htext
  · exact (h' rest after hmore).append_left text

theorem parenthesis (h : OpensBehindMarks text) (hmark : EndsWithMark text) (hmore : '(' ∉ more) :
    OpensBehindMarks (text ++ '(' :: more) := by
  intro before after hsplit
  rcases append_eq_append_cons_cases hsplit with ⟨rest, htext, -⟩ | ⟨rest, rfl, hrest⟩
  · exact h before rest htext
  · cases rest with
    | nil => rwa [List.append_nil]
    | cons c rest =>
        rw [(List.cons.inj hrest).2] at hmore
        exact absurd (by simp) hmore

/-- A parenthesis in a type stands at the start of a type, and types start behind
marks. -/
theorem tokens (h : OpensBehindMarks text) {tokens : List TypeToken}
    (htokens : ∀ token ∈ tokens, token.Sound) (hchain : tokens.IsChain TypeToken.Meets)
    (hready : ∀ token ∈ tokens.head?, token.opens = true → EndsWithMark text) :
    OpensBehindMarks (text ++ textOf tokens) := by
  induction tokens generalizing text with
  | nil => simpa using h
  | cons token tokens ih =>
      rw [List.forall_mem_cons] at htokens
      rw [List.isChain_cons] at hchain
      rw [textOf_cons, ← List.append_assoc]
      refine ih ?_ htokens.2 hchain.2 fun following hfollowing hopens => ?_
      · rcases TypeToken.Sound.parenthesis_cases htokens.1 with hnone | ⟨hopens, rest, htext, hrest⟩
        · exact h.append (of_not_mem hnone)
        · rw [htext]
          exact h.parenthesis (hready token rfl hopens) hrest
      · exact endsWithMark_text ((hchain.1 following hfollowing).1 hopens) text

end OpensBehindMarks

/-! ## Texts of lists -/

/-- What holds of the parts of a list, and of texts put together, holds of the list. -/
theorem listText_of_append {P : List Char → Prop} (hnil : P [])
    (happend : ∀ {first second}, P first → P second → P (first ++ second))
    (hcomma : P [',', ' ']) (hparameter : ∀ parameter : Parameter, P parameter.text)
    (parameters : List Parameter) : P (listText parameters) := by
  have hothers (others : List Parameter) :
      P (others.flatMap fun other => [',', ' '] ++ other.text) := by
    induction others with
    | nil => exact hnil
    | cons next others ih => exact happend (happend hcomma (hparameter next)) ih
  cases parameters with
  | nil => exact hnil
  | cons first others => exact happend (hparameter first) (hothers others)

namespace Parameter

variable (parameter : Parameter)

theorem not_mem_front {c : Char} (hc : isFrontChar c = false) : c ∉ parameter.front := by
  intro hmem
  rw [(parameter.front_isFront [] (by simp)).forall_isFrontChar c hmem] at hc
  cases hc

theorem type_sound : ∀ token ∈ parameter.type, token.Sound :=
  fun token htoken => (parameter.type_tokens token htoken).sound

theorem balanced_text : Balanced '(' ')' parameter.text := by
  have hfront : Balanced '(' ')' parameter.front :=
    .of_not_mem (parameter.not_mem_front (by decide)) (parameter.not_mem_front (by decide))
  have hcolon : Balanced '(' ')' [':', ' '] := .of_not_mem (by decide) (by decide)
  exact hfront.append (hcolon.append (parameter.type_isType.nested parameter.type_sound))

theorem opensBehindMarks_text : OpensBehindMarks parameter.text := by
  have hcolon : EndsWithMark [':', ' '] := ⟨[], ':', [' '], rfl, by decide, by decide, by decide⟩
  exact .append (.of_not_mem (parameter.not_mem_front (by decide))) <|
    .tokens (.of_not_mem (by decide)) parameter.type_sound parameter.type_isType.isChain_meets
      fun _ _ _ => hcolon

theorem not_mem_newline_text : '\n' ∉ parameter.text := by
  have htype : '\n' ∉ textOf parameter.type := by
    intro hmem
    rcases List.mem_flatMap.mp hmem with ⟨token, htoken, hmem⟩
    refine (parameter.type_sound token htoken).not_mem_text (by decide) ?_ hmem
    cases token <;> simp [TypeToken.marks, TypeToken.text]
  have hmodifiers : '\n' ∉ spaced parameter.modifiers := by
    intro hmem
    rcases List.mem_flatMap.mp hmem with ⟨word, hword, hmem⟩
    rcases List.mem_append.mp hmem with hmem | hmem
    · cases (isLower_of_mem_parameterModifiers word (parameter.modifiers_mem word hword)).2 _ hmem
    · cases List.mem_singleton.mp hmem
  have hname : '\n' ∉ parameter.name := by
    intro hmem
    cases parameter.name_isIdentifier.forall_isIdentifierChar _ hmem
  have hmark : '\n' ∉ if parameter.isOptional then ['?'] else [] := by
    cases parameter.isOptional <;> simp
  have hfront : '\n' ∉ parameter.front := by
    simp [front, hmodifiers, hname, hmark]
  simp [text, hfront, htype]

end Parameter

/-! ## The class -/

/-- A colon, or an opening brace. -/
def isColonOrBrace (c : Char) : Bool :=
  c == ':' || c == '\x7b'

theorem isColonOrBrace_eq_false {kind : Char → Bool} {c : Char} (h : kind c = true)
    (hkind : kind ':' = false ∧ kind '\x7b' = false) : isColonOrBrace c = false := by
  rw [isColonOrBrace, Bool.or_eq_false_iff, beq_eq_false_iff_ne, beq_eq_false_iff_ne]
  constructor <;> rintro rfl
  · rw [hkind.1] at h
    cases h
  · rw [hkind.2] at h
    cases h

-- What a field has before its colon.
theorem spansOnly_fieldFront :
    (inRow (field.row.take 7)).SpansOnly fun c => isColonOrBrace c = false := by
  have hblank (c : Char) (hc : isBlank c = true) : isColonOrBrace c = false :=
    isColonOrBrace_eq_false hc (by decide)
  have hnil : ∀ c ∈ ([] : List Char), isColonOrBrace c = false := by
    simp
  exact ⟨trivial, fun c hc => isColonOrBrace_eq_false hc (by decide),
    spansOnly_modifiers (by decide) hblank,
    ⟨⟨trivial, fun c hc => isColonOrBrace_eq_false hc (by decide),
      fun c hc => isColonOrBrace_eq_false hc (by decide)⟩, trivial⟩,
    hblank, ⟨fun c hc => isColonOrBrace_eq_false hc (by decide), hnil⟩, hblank, hnil⟩

namespace ConstructorClass

variable (source : ConstructorClass)

-- The equation that Lean would derive for `head` takes it long, because of the strings.
theorem head_eq : source.head = "class ".toList ++ source.name ++ " \x7b constructor".toList := by
  delta head
  rfl

theorem not_mem_name {c : Char} (hc : isIdentifierChar c = false) : c ∉ source.name := by
  intro hmem
  rw [source.name_chars c hmem] at hc
  cases hc

theorem not_mem_newline_text : '\n' ∉ source.text := by
  have hlist : '\n' ∉ listText source.parameters := by
    refine @listText_of_append (fun text => '\n' ∉ text) List.not_mem_nil ?_ (by decide)
      Parameter.not_mem_newline_text _
    intro first second hfirst hsecond
    simp [hfirst, hsecond]
  have hname := source.not_mem_name (c := '\n') (by decide)
  have hend : '\n' ∉ classEnd := by
    decide
  simp [text, head_eq, hlist, hname, hend]

/-- Nothing in the class is taken for a field: the only line is that of the class, and a
brace comes before the first colon. -/
theorem fields_eq_nil : fields source.text = [] := by
  rw [List.eq_nil_iff_forall_not_mem]
  intro found hfound
  rcases exists_between_of_mem_findAll (List.mem_filter.mp hfound).1 with
    ⟨before, after, htext, hmatch⟩
  rcases exists_way_of_matchAt? hmatch with ⟨way, hway, -⟩
  rcases spansTo_of_mem_ways _ _ _ _ way hway with ⟨spanned, rest, rfl, -, hspans⟩
  have hrow : field.row = field.row.take 7 ++ literal [':'] :: field.row.drop 8 := rfl
  rw [← spans_inRow_row, hrow] at hspans
  rcases spans_inRow_append hspans with ⟨front, more, rfl, hfront, hmore⟩
  rcases hmore.exists_of_seq with ⟨colon, more, rfl, hcolon, -⟩
  -- There is no newline, so a line starts at the start of the class only.
  have hstart : before = [] := by
    rcases hfront.exists_of_seq with ⟨nothing, front, rfl, hline, -⟩
    cases hline with
    | lineStart hline =>
        rcases List.eq_nil_or_concat before with rfl | ⟨earlier, last, rfl⟩
        · rfl
        · refine absurd ?_ source.not_mem_newline_text
          rw [htext, hline last (by simp)]
          simp
  have hfree : ∀ c ∈ front, isColonOrBrace c = false := hfront.forall_mem spansOnly_fieldFront
  -- A field has neither brace nor colon before its colon, and the class has a brace first.
  have hbrace : source.text = ("class ".toList ++ source.name ++ [' ']) ++
      '\x7b' :: (" constructor(".toList ++ (listText source.parameters ++ ')' :: classEnd)) := by
    simp [text, head_eq]
  have hclass : ∀ c ∈ "class ".toList ++ source.name ++ [' '], isColonOrBrace c = false := by
    simp only [List.forall_mem_append]
    refine ⟨⟨by decide, fun c hc => ?_⟩, by decide⟩
    exact isColonOrBrace_eq_false (source.name_chars c hc) (by decide)
  have hcolon : source.text = front ++ ':' :: (more ++ rest) := by
    rw [htext, hstart, hcolon.eq_of_literal]
    simp
  rcases append_cons_inj_of_first hfree rfl hclass rfl (hcolon.symm.trans hbrace) with ⟨-, hend, -⟩
  cases hend

theorem balanced_listText : Balanced '(' ')' (listText source.parameters) :=
  listText_of_append .nil Balanced.append (.of_not_mem (by decide) (by decide))
    Parameter.balanced_text _

/-- The class has its constructor. -/
theorem hasConstructor : HasConstructor source.text (listText source.parameters) classEnd := by
  refine ⟨"class ".toList ++ source.name ++ " \x7b ".toList, [], by simp [text, head_eq], ?_,
    by simp, source.balanced_listText⟩
  intro c hc
  rw [List.getLast?_append_of_ne_nil _ (by decide)] at hc
  cases hc
  decide

/-- There is no other constructor in the class. -/
theorem eq_of_hasConstructor {inside after : List Char}
    (h : HasConstructor source.text inside after) :
    inside = listText source.parameters ∧ after = classEnd := by
  rcases h with ⟨before, blanks, htext, -, hblanks, hinside⟩
  have hmarks : OpensBehindMarks (listText source.parameters ++ ')' :: classEnd) := by
    refine .append ?_ (.of_not_mem (by decide))
    exact listText_of_append (.of_not_mem (by decide)) .append (.of_not_mem (by decide))
      Parameter.opensBehindMarks_text _
  have hhead : '(' ∉ source.head := by
    have hname := source.not_mem_name (c := '(') (by decide)
    simp [head_eq, hname]
  have hplace : source.head ++ '(' :: (listText source.parameters ++ ')' :: classEnd) =
      (before ++ "constructo".toList ++ 'r' :: blanks) ++ '(' :: (inside ++ ')' :: after) := by
    rw [← text, htext]
    simp
  rcases append_eq_append_cons_cases hplace with ⟨rest, hrest, -⟩ | ⟨rest, hword, hrest⟩
  -- The parenthesis lies in the head, is the one of the class, or lies behind that.
  · rw [hrest] at hhead
    exact absurd (by simp) hhead
  · cases rest with
    | nil =>
        rcases source.balanced_listText.eq_of_append_eq (by decide) hinside
          (List.cons.inj hrest).2 with ⟨hsame, hsame'⟩
        exact ⟨hsame.symm, hsame'.symm⟩
    | cons c rest =>
        -- A parenthesis in the list stands behind a mark, and not behind the word.
        have hmark := (hmarks rest _ (List.cons.inj hrest).2).append_left (source.head ++ [c])
        have hend : source.head ++ [c] ++ rest =
            (before ++ "constructo".toList) ++ 'r' :: blanks := by
          rw [hword]
          simp
        exact absurd hend (hmark.not_word hblanks (by decide))

/-- Nothing is assigned in the body. -/
theorem not_mem_assignedProperties {gap block : List Char} (h : FirstBlock classEnd gap block)
    (name : String) : name ∉ assignedProperties block := by
  have hblock : Block "\x7b \x7d \x7d".toList "\x7b ".toList :=
    @Block.closed [' '] " \x7d".toList (.of_not_mem (by decide) (by decide))
  have hbody : FirstBlock classEnd [' '] "\x7b ".toList := ⟨_, rfl, by decide, hblock⟩
  rw [(h.unique hbody).2]
  have hnone : assignedProperties "\x7b ".toList = [] := by
    decide +kernel
  rw [hnone]
  exact List.not_mem_nil

/-- The names of the class. The properties are the names of the parameters with modifiers
that are told apart from the one before, and the types are what is shown. As long as there
are not more than `2 ^ 31` arrows, these are all parameters, and nothing is reported that is
not in one of the types. Without an arrow everything in the types is, if their brackets are
not nested too deep. -/
theorem parameters_found_iff :
    ∃ names, extract? source.text = some names ∧
      (∀ name, name ∈ names.properties ↔
        ∃ parameter ∈ separated ⟨0, true⟩ source.parameters, parameter.modifiers ≠ [] ∧
          name.toList = parameter.name) ∧
      (∀ name, name ∈ names.types ↔
        ReportedType builtins name ∧ name.toList ∈ shownWords ⟨0, true⟩ source.parameters) ∧
      (arrowsOf source.parameters ≤ 2 ^ 31 →
        (∀ name, name ∈ names.properties ↔
          ∃ parameter ∈ source.parameters, parameter.modifiers ≠ [] ∧
            name.toList = parameter.name) ∧
        ∀ name ∈ names.types,
          ∃ parameter ∈ source.parameters, name.toList ∈ identifiersOf parameter.type) ∧
      ((∀ parameter ∈ source.parameters, .arrow ∉ parameter.type ∧ IsShallow parameter.type) →
        ∀ name, name ∈ names.types ↔ ReportedType builtins name ∧
          ∃ parameter ∈ source.parameters, name.toList ∈ identifiersOf parameter.type) := by
  rcases exists_extract?_texts source.text with ⟨names, hnames, hproperties, htypes⟩
  rcases listNames_listText source.parameters with ⟨hfirst, hsecond⟩
  have hfound (name : String) : name ∈ names.properties ↔
      ∃ parameter ∈ separated ⟨0, true⟩ source.parameters, parameter.modifiers ≠ [] ∧
        name.toList = parameter.name := by
    rw [hproperties, source.fields_eq_nil, ← mem_properties_iff, ← hfirst]
    constructor
    · rintro (⟨found, hfound, -⟩ | ⟨inside, after, h, hname | ⟨gap, block, hblock, hname⟩⟩)
      · cases hfound
      · rwa [(source.eq_of_hasConstructor h).1] at hname
      · rw [(source.eq_of_hasConstructor h).2] at hblock
        exact absurd hname (not_mem_assignedProperties hblock name)
    · exact fun hname => .inr ⟨_, _, source.hasConstructor, .inl hname⟩
  have hshown (name : String) : name ∈ names.types ↔
      ReportedType builtins name ∧ name.toList ∈ shownWords ⟨0, true⟩ source.parameters := by
    rw [htypes, source.fields_eq_nil, ← mem_reportedAmong_iff, ← hsecond]
    constructor
    · rintro (⟨found, hfound, -⟩ | ⟨inside, after, h, hname⟩)
      · cases hfound
      · rwa [(source.eq_of_hasConstructor h).1] at hname
    · exact fun hname => .inr ⟨_, _, source.hasConstructor, hname⟩
  refine ⟨names, hnames, hfound, hshown, fun hfew => ?_, fun hplain name => ?_⟩
  · rcases @separated_eq ⟨0, true⟩ source.parameters 0 rfl (by omega) with ⟨hseparated, honly⟩
    refine ⟨fun name => ?_, fun name hname => honly _ ((hshown name).mp hname).2⟩
    rw [hfound, hseparated]
  · rw [hshown, shownWords_eq hplain, List.mem_flatMap]

/-- A class whose constructor has a property and a parameter that may be missing. -/
def orderIndex : ConstructorClass where
  name := "A".toList
  parameters :=
    [{ modifiers := ["private", "readonly"]
       name := "orders".toList
       isOptional := false
       type :=
        [.word "Map".toList, .less, .word "Key".toList, .comma, .word "Order".toList, .greater]
       modifiers_mem := by decide
       name_isIdentifier := ⟨'o', "rders".toList, rfl, by decide, by decide⟩
       type_isType := .applied (.word _) (.moreArguments (.argument (.word _)) (.word _))
       type_tokens := by simp [IsTypeToken]; decide },
     { modifiers := []
       name := "label".toList
       isOptional := true
       type := [.word "Label".toList]
       modifiers_mem := by simp
       name_isIdentifier := ⟨'l', "abel".toList, rfl, by decide, by decide⟩
       type_isType := .word _
       type_tokens := by simp [IsTypeToken]; decide }]
  name_chars := by decide

/-- Both arguments of the one type and all of the other are found, and one property. -/
theorem parameters_found_iff_generic :
    orderIndex.text = ("class A \x7b constructor(private readonly orders: Map<Key, Order>, " ++
        "label?: Label) \x7b \x7d \x7d").toList ∧
      arrowsOf orderIndex.parameters ≤ 2 ^ 31 ∧
      (∀ parameter ∈ orderIndex.parameters,
        .arrow ∉ parameter.type ∧ IsShallow parameter.type) ∧
      ∃ names, extract? orderIndex.text = some names ∧
        ("orders" ∈ names.properties ∧ "label" ∉ names.properties) ∧
        "Key" ∈ names.types ∧ "Order" ∈ names.types ∧ "Label" ∈ names.types ∧
          "Map" ∉ names.types := by
  have hplain : ∀ parameter ∈ orderIndex.parameters,
      .arrow ∉ parameter.type ∧ IsShallow parameter.type := by
    have hshallow {type : List TypeToken} (h : ∀ front ∈ type.inits, changeOf front < 2 ^ 31) :
        IsShallow type := fun front hfront => h front ((List.mem_inits _ _).mpr hfront)
    simp only [orderIndex, List.forall_mem_cons]
    exact ⟨⟨by simp, hshallow (by decide)⟩, ⟨by simp, hshallow (by decide)⟩, by simp⟩
  have hfew : arrowsOf orderIndex.parameters ≤ 2 ^ 31 := by
    decide
  rcases parameters_found_iff orderIndex with ⟨names, hnames, -, -, hproperties, htypes⟩
  have hproperties := (hproperties hfew).1
  have htypes := htypes hplain
  refine ⟨by decide, hfew, hplain, names, hnames, ⟨?_, ?_⟩, ?_, ?_, ?_, ?_⟩
  · exact (hproperties _).mpr ⟨_, List.mem_cons_self, by decide, by decide⟩
  · rw [hproperties]
    simp [orderIndex]
  · exact (htypes _).mpr ⟨by decide, _, List.mem_cons_self, by decide⟩
  · exact (htypes _).mpr ⟨by decide, _, List.mem_cons_self, by decide⟩
  · exact (htypes _).mpr ⟨by decide, _, List.mem_cons_of_mem _ List.mem_cons_self, by decide⟩
  · exact fun hmap => absurd ((htypes _).mp hmap).1 (by decide)

/-- A class whose constructor has a function for a parameter, and the function has no
parameters and gives an order. -/
def orderMaker : ConstructorClass where
  name := "A".toList
  parameters :=
    [{ modifiers := []
       name := "make".toList
       isOptional := false
       type := [.noParameters, .arrow, .word "Order".toList]
       modifiers_mem := by simp
       name_isIdentifier := ⟨'m', "ake".toList, rfl, by decide, by decide⟩
       type_isType := .function .noParameters (.word _)
       type_tokens := by simp [IsTypeToken]; decide }]
  name_chars := by decide

/-- What a function gives is not among the types. -/
theorem types_behind_arrow :
    orderMaker.text = "class A \x7b constructor(make: () => Order) \x7b \x7d \x7d".toList ∧
      (∃ parameter ∈ orderMaker.parameters, "Order".toList ∈ identifiersOf parameter.type) ∧
      ReportedType builtins "Order" ∧
      ∃ names, extract? orderMaker.text = some names ∧ "Order" ∉ names.types := by
  have hextract : extract? orderMaker.text = some { classes := .ofList ["A"] } := by
    decide +kernel
  exact ⟨by decide, ⟨_, List.mem_cons_self, by decide⟩, by decide, _, hextract, by simp⟩

end ConstructorClass

end Chunking.EcmaScript
