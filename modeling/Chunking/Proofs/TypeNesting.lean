import Chunking.Proofs.MatchedBrackets
import Chunking.Proofs.TypeExpressions

/-!
# Brackets of type expressions

What the grammar of type expressions says about brackets. The parentheses of a type are
balanced. The angle brackets are not, if they are counted like the extractor counts
them, because the arrow of a function type ends with one: every arrow leaves one level
too few. And a parenthesis only comes at the start of a type, so what comes before it
is never an identifier.

All of it is by induction on the derivation, for the three kinds of phrases at once. The
parameters of a function come without their closing parenthesis, so they are one level
up.

## Main definitions

* `TypeToken.change`: How a token changes the number of open brackets.
* `TypeToken.Meets`: Tokens that can be neighbours.
* `Phrase.level`: How many levels a phrase leaves open.

## Theorems

* `Phrase.Derives.isChain_meets`: The neighbours in a phrase.
* `Phrase.Derives.changeOf_add_count`: A phrase without its arrows leaves as many levels
  open as its kind.
* `Phrase.Derives.nested`: The parentheses of a phrase.
-/

namespace Chunking

open Text

namespace TypeToken

/-- How a token changes the number of open brackets, if the one in an arrow counts as
closing. -/
def change : TypeToken → Int
  | less | firstParameter _ | noParameters => 1
  | greater => -1
  | arrow => -2
  | word _ | dot | comma | brackets | question | bar | nextParameter _ => 0

/-- The token starts the type of a function. -/
def opens : TypeToken → Bool
  | firstParameter _ | noParameters => true
  | word _ | dot | less | comma | greater | brackets | question | bar | nextParameter _
  | arrow => false

/-- The token is an identifier. -/
def isWord : TypeToken → Bool
  | word _ => true
  | dot | less | comma | greater | brackets | question | bar | firstParameter _
  | nextParameter _ | noParameters | arrow => false

/-- The token is the arrow of a function type. -/
def isArrow : TypeToken → Bool
  | arrow => true
  | word _ | dot | less | comma | greater | brackets | question | bar | firstParameter _
  | nextParameter _ | noParameters => false

/-- A type can start behind the token. -/
def separates : TypeToken → Bool
  | less | comma | bar | firstParameter _ | nextParameter _ | arrow => true
  | word _ | dot | greater | brackets | question | noParameters => false

/-- The second token can stand behind the first: a function type starts where a type
can, and no identifier comes behind another. -/
def Meets (first second : TypeToken) : Prop :=
  (second.opens = true → first.separates = true) ∧ (second.isWord = true → first.isWord = false)

-- One of the two conditions says nothing in each of these cases.
theorem meets_of_separates {first : TypeToken} (h : first.separates = true) (second : TypeToken) :
    first.Meets second := by
  refine ⟨fun _ => h, fun _ => ?_⟩
  cases first <;> first | rfl | cases h

theorem meets_of_plain {second : TypeToken} (hopens : second.opens = false)
    (hword : second.isWord = false) (first : TypeToken) : first.Meets second := by
  unfold Meets
  rw [hopens, hword]
  exact ⟨Bool.noConfusion, Bool.noConfusion⟩

/-- An opening parenthesis is only at the start of a token that starts the type of a
function. -/
theorem Sound.parenthesis_cases {token : TypeToken} (h : token.Sound) :
    '(' ∉ token.text ∨
      token.opens = true ∧ ∃ rest, token.text = '(' :: rest ∧ '(' ∉ rest := by
  have hnone (hmarks : '(' ∉ token.marks) : '(' ∉ token.text := h.not_mem_text (by decide) hmarks
  cases token with
  | word => exact .inl (hnone (by simp [marks]))
  | nextParameter => exact .inl (hnone (by simp [marks]))
  | firstParameter name =>
      have hname : '(' ∉ name := by
        intro hmem
        cases (h name rfl).2 _ hmem
      exact .inr ⟨rfl, _, rfl, by simp [hname]⟩
  | noParameters => exact .inr ⟨rfl, [], rfl, List.not_mem_nil⟩
  | dot | less | comma | greater | brackets | question | bar | arrow =>
      exact .inl (hnone (by decide))

end TypeToken

/-- How tokens change the number of open brackets. -/
def changeOf (tokens : List TypeToken) : Int :=
  (tokens.map TypeToken.change).sum

section Append

variable (token : TypeToken) (first second : List TypeToken)

@[simp]
theorem changeOf_nil : changeOf [] = 0 :=
  rfl

@[simp]
theorem changeOf_cons : changeOf (token :: first) = token.change + changeOf first := by
  simp [changeOf]

@[simp]
theorem changeOf_append : changeOf (first ++ second) = changeOf first + changeOf second := by
  simp [changeOf]

end Append

/-- How many levels a phrase leaves open. -/
def Phrase.level : Phrase → Int
  | parameters => 1
  | type | arguments => 0

/-- The parentheses of the text of a phrase are those of balanced text, but for the one
before the parameters of a function. -/
def Phrase.Nested : Phrase → List Char → Prop
  | parameters, text => ∃ rest, text = '(' :: rest ∧ Balanced '(' ')' rest
  | type, text | arguments, text => Balanced '(' ')' text

namespace Phrase.Derives

variable {phrase : Phrase} {tokens : List TypeToken}

/-- The neighbours in a phrase. -/
theorem isChain_meets (h : phrase.Derives tokens) : tokens.IsChain TypeToken.Meets := by
  -- A token behind a phrase that starts no type, or one that a type can come behind.
  have hbehind {first second : List TypeToken} {token : TypeToken}
      (hfirst : first.IsChain TypeToken.Meets) (hsecond : (token :: second).IsChain TypeToken.Meets)
      (hopens : token.opens = false) (hword : token.isWord = false) :
      (first ++ token :: second).IsChain TypeToken.Meets := by
    refine hfirst.append hsecond fun last _ next hnext => ?_
    cases hnext
    exact TypeToken.meets_of_plain hopens hword last
  have hbefore {second : List TypeToken} {token : TypeToken}
      (hsecond : second.IsChain TypeToken.Meets) (hseparates : token.separates = true) :
      (token :: second).IsChain TypeToken.Meets :=
    List.isChain_cons.mpr ⟨fun next _ => TypeToken.meets_of_separates hseparates next, hsecond⟩
  -- Every phrase is put together with a token in between, so only its neighbours matter.
  induction h with
  | word | noParameters => exact List.isChain_singleton _
  | qualified chars _ ih =>
      have hdot : TypeToken.Meets .dot (.word chars) := ⟨Bool.noConfusion, fun _ => rfl⟩
      exact hbehind ih (List.isChain_cons_cons.mpr ⟨hdot, List.isChain_singleton _⟩) rfl rfl
  | applied _ _ ih ih' =>
      exact hbehind ih (hbefore (hbehind ih' (List.isChain_singleton _) rfl rfl) rfl) rfl rfl
  | array _ ih | nullable _ ih => exact hbehind ih (List.isChain_singleton _) rfl rfl
  | union _ _ ih ih' | function _ _ ih ih' | moreArguments _ _ ih ih'
  | moreParameters _ _ _ ih ih' => exact hbehind ih (hbefore ih' rfl) rfl rfl
  | argument _ ih => exact ih
  | parameter name _ ih => exact hbefore ih rfl

/-- Each arrow of a phrase leaves one level too few. -/
theorem changeOf_add_count (h : phrase.Derives tokens) :
    changeOf tokens + tokens.countP TypeToken.isArrow = phrase.level := by
  -- The arrow takes back what the parameters have left open, and one level more.
  induction h with
  | word | noParameters => rfl
  | qualified _ _ ih | array _ ih | nullable _ ih | parameter _ _ ih =>
      simp [TypeToken.change, TypeToken.isArrow, level] at ih ⊢
      omega
  | applied _ _ ih ih' | union _ _ ih ih' | function _ _ ih ih' | moreArguments _ _ ih ih'
  | moreParameters _ _ _ ih ih' =>
      simp [TypeToken.change, TypeToken.isArrow, List.countP_cons, level] at ih ih' ⊢
      omega
  | argument _ ih => exact ih

/-- Without arrows the count is right. -/
theorem changeOf_eq_level (h : phrase.Derives tokens) (harrow : .arrow ∉ tokens) :
    changeOf tokens = phrase.level := by
  have hcount : tokens.countP TypeToken.isArrow = 0 := by
    rw [List.countP_eq_zero]
    intro token htoken hisArrow
    cases token <;> first | exact harrow htoken | cases hisArrow
  have hchange := h.changeOf_add_count
  omega

/-- The parentheses of a phrase are nested. -/
theorem nested (h : phrase.Derives tokens) (hsound : ∀ token ∈ tokens, token.Sound) :
    phrase.Nested (textOf tokens) := by
  -- All parentheses come from parameters: neither identifiers nor the other tokens have any.
  have hplain {text : List Char} (h : ∀ c ∈ text, c ≠ '(' ∧ c ≠ ')') : Balanced '(' ')' text :=
    .of_not_mem (fun hmem => (h _ hmem).1 rfl) fun hmem => (h _ hmem).2 rfl
  have hname {token : TypeToken} (h : token.Sound) {chars : List Char}
      (hchars : token.identifier? = some chars) : Balanced '(' ')' chars := by
    refine hplain fun c hc => ⟨?_, ?_⟩ <;> rintro rfl <;> cases (h chars hchars).2 _ hc
  have hmarks {text : List Char} (h : (text.all fun c => c != '(' && c != ')') = true) :
      Balanced '(' ')' text :=
    hplain (by simpa using h)
  simp only [Nested] at *
  induction h with
  | word chars => simpa [TypeToken.text] using hname (hsound _ List.mem_cons_self) rfl
  | qualified chars _ ih =>
      simp only [List.forall_mem_append, List.forall_mem_cons] at hsound
      simpa [TypeToken.text] using (ih hsound.1).append <|
        (@hmarks ['.'] rfl).append (hname hsound.2.2.1 rfl)
  | applied _ _ ih ih' =>
      simp only [List.forall_mem_append, List.forall_mem_cons] at hsound
      simpa [TypeToken.text] using (ih hsound.1).append <|
        (@hmarks ['<'] rfl).append <| (ih' hsound.2.2.1).append (@hmarks ['>'] rfl)
  | array _ ih =>
      simp only [List.forall_mem_append] at hsound
      simpa [TypeToken.text] using (ih hsound.1).append (@hmarks ['[', ']'] rfl)
  | nullable _ ih =>
      simp only [List.forall_mem_append] at hsound
      simpa [TypeToken.text] using (ih hsound.1).append (@hmarks ['?'] rfl)
  | union _ _ ih ih' =>
      simp only [List.forall_mem_append, List.forall_mem_cons] at hsound
      simpa [TypeToken.text] using (ih hsound.1).append <|
        (@hmarks [' ', '|', ' '] rfl).append (ih' hsound.2.2)
  | function _ _ ih ih' =>
      simp only [List.forall_mem_append, List.forall_mem_cons] at hsound
      -- The arrow starts with the parenthesis that the parameters lack.
      rcases ih hsound.1 with ⟨inside, htext, hinside⟩
      simpa [TypeToken.text, htext] using (hinside.between (by decide)).append <|
        (@hmarks [' ', '=', '>', ' '] rfl).append (ih' hsound.2.2)
  | argument _ ih => exact ih hsound
  | moreArguments _ _ ih ih' =>
      simp only [List.forall_mem_append, List.forall_mem_cons] at hsound
      simpa [TypeToken.text] using (ih hsound.1).append <|
        (@hmarks [',', ' '] rfl).append (ih' hsound.2.2)
  | noParameters => exact ⟨[], rfl, .nil⟩
  | @parameter first name _ ih =>
      simp only [List.forall_mem_cons] at hsound
      exact ⟨name ++ ([':', ' '] ++ textOf first), by simp [TypeToken.text],
        (hname hsound.1 rfl).append <| (hmarks rfl).append (ih hsound.2)⟩
  | moreParameters name _ _ ih ih' =>
      simp only [List.forall_mem_append, List.forall_mem_cons] at hsound
      rcases ih hsound.1 with ⟨inside, htext, hinside⟩
      refine ⟨_, by rw [textOf_append, htext]; rfl, ?_⟩
      simpa [TypeToken.text] using hinside.append <| (@hmarks [',', ' '] rfl).append <|
        (hname hsound.2.1 rfl).append <| (@hmarks [':', ' '] rfl).append (ih' hsound.2.2)

end Phrase.Derives

end Chunking
