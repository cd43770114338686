import Chunking.Proofs.Identifiers

/-!
# Type expressions

What the types of fields and parameters look like in source. The grammar is one for
several languages: names, qualified names, types with arguments, arrays, types that
may be missing, unions, and types of functions. A language has the forms whose
tokens it has.

A type expression is given by its tokens, and the grammar says which rows of tokens
are one. Arguments and the parameters of a function are rows of types themselves, so
the grammar speaks of three kinds of phrases at once, and a fact about type
expressions is proved for all of them by one induction on the derivation.

Two tokens with an identifier in them are never neighbours. So the identifiers of
the text are those of the tokens.

## Main definitions

* `TypeToken`: A piece of a type expression, and its text.
* `TypeToken.identifier?`, `TypeToken.marks`: The identifier in a token, and the other
  characters.
* `Phrase.Derives`: The grammar.
* `IsType`: The tokens are a type expression.

## Theorems

* `Phrase.Derives.identifiers_eq`: The identifiers of the text.
* `Phrase.Derives.exists_cons`: How a phrase starts.
-/

namespace Chunking

open Text

/-- A piece of a type expression. -/
inductive TypeToken where
  /-- An identifier. -/
  | word (chars : List Char)
  /-- The dot between the parts of a qualified name. -/
  | dot
  /-- The bracket before arguments. -/
  | less
  /-- The comma between arguments. -/
  | comma
  /-- The bracket behind arguments. -/
  | greater
  /-- The brackets of an array. -/
  | brackets
  /-- The question mark behind a type. -/
  | question
  /-- The bar of a union. -/
  | bar
  /-- The parenthesis before the parameters of a function, and the name of the
  first. -/
  | firstParameter (name : List Char)
  /-- The comma between parameters of a function, and the name of the next. -/
  | nextParameter (name : List Char)
  /-- The parenthesis of a function without parameters. -/
  | noParameters
  /-- The parenthesis behind the parameters of a function, and the arrow. -/
  | arrow

namespace TypeToken

/-- The text of a token. -/
def text : TypeToken → List Char
  | word chars => chars
  | dot => ['.']
  | less => ['<']
  | comma => [',', ' ']
  | greater => ['>']
  | brackets => ['[', ']']
  | question => ['?']
  | bar => [' ', '|', ' ']
  | firstParameter name => '(' :: (name ++ [':', ' '])
  | nextParameter name => ',' :: ' ' :: (name ++ [':', ' '])
  | noParameters => ['(']
  | arrow => [')', ' ', '=', '>', ' ']

/-- The identifier in a token, if there is one. -/
def identifier? : TypeToken → Option (List Char)
  | word chars | firstParameter chars | nextParameter chars => some chars
  | dot | less | comma | greater | brackets | question | bar | noParameters | arrow => none

/-- The identifier in the token, if there is one, is not empty and has no other
characters than those of an identifier. -/
def Sound (token : TypeToken) : Prop :=
  ∀ word ∈ token.identifier?, word ≠ [] ∧ ∀ c ∈ word, isIdentifierPart c = true

-- An identifier read as a text has itself and no other.
theorem Sound.identifiers_eq {token : TypeToken} (h : token.Sound) {word : List Char}
    (hword : word ∈ token.identifier?) : identifiers word = [word] :=
  identifiers_of_word (h word hword).1 (h word hword).2

/-- The characters of a token beside its identifier. -/
def marks : TypeToken → List Char
  | word _ => []
  | firstParameter _ => ['(', ':', ' ']
  | nextParameter _ => [',', ' ', ':', ' ']
  | token => token.text

-- What is no part of an identifier is among the marks or not there.
theorem Sound.not_mem_text {token : TypeToken} (h : token.Sound) {c : Char}
    (hc : isIdentifierPart c = false) (hmarks : c ∉ token.marks) : c ∉ token.text := by
  have hname {chars : List Char} (hchars : chars ∈ token.identifier?) : c ∉ chars := by
    intro hmem
    rw [(h chars hchars).2 c hmem] at hc
    cases hc
  cases token with
  | word chars => exact hname rfl
  | firstParameter name | nextParameter name =>
      simp only [marks, List.mem_cons, List.not_mem_nil, not_or] at hmarks
      simp [text, hmarks, hname rfl]
  | _ => exact hmarks

/-- A comma is only at the start of a token. -/
theorem Sound.exists_of_comma {token : TypeToken} (h : token.Sound) (hcomma : ',' ∈ token.text) :
    ∃ more, token.text = ',' :: more ∧ ',' ∉ more := by
  by_cases hmarks : ',' ∈ token.marks
  · cases token with
    | comma => exact ⟨[' '], rfl, by decide⟩
    | nextParameter name =>
        have hname : ',' ∉ name := by
          intro hmem
          cases (h name rfl).2 _ hmem
        exact ⟨_, rfl, by simp [hname]⟩
    | _ => simp [marks, text] at hmarks
  · exact absurd hcomma (h.not_mem_text (by decide) hmarks)

end TypeToken

/-- The text of tokens in a row. -/
def textOf (tokens : List TypeToken) : List Char :=
  tokens.flatMap TypeToken.text

/-- The identifiers in tokens. -/
def identifiersOf (tokens : List TypeToken) : List (List Char) :=
  tokens.filterMap TypeToken.identifier?

section Append

variable (token : TypeToken) (first second : List TypeToken)

@[simp]
theorem textOf_nil : textOf [] = [] :=
  rfl

@[simp]
theorem textOf_cons : textOf (token :: first) = token.text ++ textOf first :=
  rfl

@[simp]
theorem textOf_append : textOf (first ++ second) = textOf first ++ textOf second :=
  List.flatMap_append

@[simp]
theorem identifiersOf_nil : identifiersOf [] = [] :=
  rfl

@[simp]
theorem identifiersOf_cons :
    identifiersOf (token :: first) = token.identifier?.toList ++ identifiersOf first := by
  unfold identifiersOf
  cases h : token.identifier? with
  | none => rw [List.filterMap_cons_none h, Option.toList_none, List.nil_append]
  | some chars => rw [List.filterMap_cons_some h, Option.toList_some, List.singleton_append]

@[simp]
theorem identifiersOf_append :
    identifiersOf (first ++ second) = identifiersOf first ++ identifiersOf second :=
  List.filterMap_append

end Append

/-- The kinds of phrases. -/
inductive Phrase where
  | type
  | arguments
  | parameters

/-- The tokens are a phrase of the kind. The parameters of a function come with the
parenthesis before them, and without the one behind. -/
inductive Phrase.Derives : Phrase → List TypeToken → Prop
  | word (chars : List Char) : Derives type [.word chars]
  | qualified {outer : List TypeToken} (chars : List Char) (h : Derives type outer) :
      Derives type (outer ++ [.dot, .word chars])
  | applied {head rest : List TypeToken} (h : Derives type head) (h' : Derives arguments rest) :
      Derives type (head ++ .less :: (rest ++ [.greater]))
  | array {element : List TypeToken} (h : Derives type element) :
      Derives type (element ++ [.brackets])
  | nullable {inner : List TypeToken} (h : Derives type inner) :
      Derives type (inner ++ [.question])
  | union {first second : List TypeToken} (h : Derives type first) (h' : Derives type second) :
      Derives type (first ++ .bar :: second)
  | function {rest result : List TypeToken} (h : Derives parameters rest)
      (h' : Derives type result) : Derives type (rest ++ .arrow :: result)
  | argument {last : List TypeToken} (h : Derives type last) : Derives arguments last
  | moreArguments {rest next : List TypeToken} (h : Derives arguments rest)
      (h' : Derives type next) : Derives arguments (rest ++ .comma :: next)
  | noParameters : Derives parameters [.noParameters]
  | parameter {first : List TypeToken} (name : List Char) (h : Derives type first) :
      Derives parameters (.firstParameter name :: first)
  | moreParameters {rest next : List TypeToken} (name : List Char) (h : Derives parameters rest)
      (h' : Derives type next) : Derives parameters (rest ++ .nextParameter name :: next)

/-- The tokens are a type expression. -/
abbrev IsType (tokens : List TypeToken) : Prop :=
  Phrase.type.Derives tokens

namespace Phrase.Derives

variable {phrase : Phrase} {tokens : List TypeToken}

/-- The identifiers of the text of a phrase are those of its tokens. -/
theorem identifiers_eq (h : phrase.Derives tokens) (hsound : ∀ token ∈ tokens, token.Sound) :
    identifiers (textOf tokens) = identifiersOf tokens := by
  -- At each of the other characters a text falls into two.
  have hat {c : Char} (hc : isIdentifierPart c = false) (first second : List Char) :=
    identifiers_append_cons hc first second
  have hcons {c : Char} (hc : isIdentifierPart c = false) (text : List Char) :=
    identifiers_cons hc text
  have hword {token : TypeToken} (h : token.Sound) {chars : List Char}
      (hchars : token.identifier? = some chars) : identifiers chars = [chars] :=
    h.identifiers_eq hchars
  have hmarks : ∀ c ∈ ['.', '<', ',', '>', '[', ']', '?', '|', '(', ')', ':', ' '],
      isIdentifierPart c = false := by
    decide
  simp only [List.forall_mem_cons] at hmarks
  -- A word meets one of the marks on each side, so the parts are read apart.
  rcases hmarks with ⟨hdot, hless, hcomma, hgreater, hopening, hclosing, hquestion, hbar, hopen,
    hclose, hcolon, hspace, _⟩
  induction h with
  | word chars =>
      have := hword (hsound _ List.mem_cons_self) rfl
      simpa [TypeToken.text, TypeToken.identifier?] using this
  | qualified chars _ ih =>
      simp only [List.forall_mem_append, List.forall_mem_cons] at hsound
      simp [TypeToken.text, TypeToken.identifier?, hat hdot, ih hsound.1, hword hsound.2.2.1 rfl]
  | applied _ _ ih ih' =>
      simp only [List.forall_mem_append, List.forall_mem_cons] at hsound
      simp [TypeToken.text, TypeToken.identifier?, hat hless, hat hgreater, ih hsound.1,
        ih' hsound.2.2.1]
  | array _ ih =>
      simp only [List.forall_mem_append, List.forall_mem_cons] at hsound
      simp [TypeToken.text, TypeToken.identifier?, hat hopening, hcons hclosing, ih hsound.1]
  | nullable _ ih =>
      simp only [List.forall_mem_append, List.forall_mem_cons] at hsound
      simp [TypeToken.text, TypeToken.identifier?, hat hquestion, ih hsound.1]
  | union _ _ ih ih' =>
      simp only [List.forall_mem_append, List.forall_mem_cons] at hsound
      simp [TypeToken.text, TypeToken.identifier?, hat hspace, hcons hbar, hcons hspace,
        ih hsound.1, ih' hsound.2.2]
  | function _ _ ih ih' =>
      simp only [List.forall_mem_append, List.forall_mem_cons] at hsound
      have hequals : isIdentifierPart '=' = false := by
        decide
      simp [TypeToken.text, TypeToken.identifier?, hat hclose, hcons hspace, hcons hequals,
        hcons hgreater, ih hsound.1, ih' hsound.2.2]
  | argument _ ih => exact ih hsound
  | moreArguments _ _ ih ih' =>
      simp only [List.forall_mem_append, List.forall_mem_cons] at hsound
      simp [TypeToken.text, TypeToken.identifier?, hat hcomma, hcons hspace, ih hsound.1,
        ih' hsound.2.2]
  | noParameters => simp [TypeToken.text, TypeToken.identifier?, hcons hopen]
  | parameter name _ ih =>
      simp only [List.forall_mem_cons] at hsound
      simp [TypeToken.text, TypeToken.identifier?, hcons hopen, hat hcolon, hcons hspace,
        hword hsound.1 rfl, ih hsound.2]
  | moreParameters name _ _ ih ih' =>
      simp only [List.forall_mem_append, List.forall_mem_cons] at hsound
      simp [TypeToken.text, TypeToken.identifier?, hat hcomma, hat hcolon, hcons hspace,
        ih hsound.1, hword hsound.2.1 rfl, ih' hsound.2.2]

/-- A phrase starts with an identifier or with the parenthesis of a function. -/
theorem exists_cons (h : phrase.Derives tokens) :
    ∃ first rest, tokens = first :: rest ∧ ((∃ chars, first = .word chars) ∨
      (∃ name, first = .firstParameter name) ∨ first = .noParameters) := by
  induction h with
  | word chars => exact ⟨_, _, rfl, .inl ⟨chars, rfl⟩⟩
  -- What is put behind a phrase leaves its start as it was.
  | qualified _ _ ih | applied _ _ ih _ | array _ ih | nullable _ ih | union _ _ ih _
  | function _ _ ih _ | moreArguments _ _ ih _ | moreParameters _ _ _ ih _ =>
      rcases ih with ⟨first, rest, rfl, hfirst⟩
      exact ⟨first, _, rfl, hfirst⟩
  | argument _ ih => exact ih
  | noParameters => exact ⟨_, _, rfl, .inr (.inr rfl)⟩
  | parameter name _ _ => exact ⟨_, _, rfl, .inr (.inl ⟨name, rfl⟩)⟩

end Phrase.Derives

end Chunking
