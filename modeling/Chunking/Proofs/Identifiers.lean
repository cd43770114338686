import Chunking.Proofs.DeclaredNames
import Chunking.Proofs.Pieces

/-!
# Identifiers of a type expression

A type expression is cut into its identifiers, and of these the ones are reported
that look like the name of a type. Everything about the cutting follows from one
equation: at a character that is no part of an identifier a text falls into two, and
its identifiers are those of both.

So the identifiers of an expression can be read off the way in which it is put
together, and nothing has to be known of how it is parsed.

## Main definitions

* `ReportedType`: What a name needs to be reported.
* `reportedAmong`: What is reported of a row of identifiers.
* `IsAsciiIdentifier`: The identifiers of ASCII letters, digits and underscores.
* `EcmaScript.IsIdentifier`: What the patterns take for an identifier.

## Theorems

* `identifiers_append_cons`: The equation.
* `identifiers_append`: Texts that are put together with no identifier across.
* `identifiers_of_word`, `identifiers_of_separators`: The two extremes.
* `identifiers_padded`: White space around a text.
* `mem_referencedTypes_iff`: What is reported of an expression.
* `IsAsciiIdentifier.identifiers_eq`: An ASCII identifier is one.
* `EcmaScript.IsIdentifier.append_inj`: The last identifier of a text.
-/

namespace Chunking

open Text EcmaScript

/-- The name looks like the name of a type, and is none of those that come with the
language. -/
def ReportedType (builtins : List String) (name : String) : Prop :=
  isTypeName name.toList = true ∧ name ∉ builtins

instance (builtins : List String) (name : String) : Decidable (ReportedType builtins name) :=
  inferInstanceAs (Decidable (_ ∧ _))

@[simp]
theorem identifiers_nil : identifiers [] = [] := by
  simp [identifiers, List.splitOnP_nil]

/-- A text falls into two at a character that is no part of an identifier. -/
theorem identifiers_append_cons {c : Char} (hc : isIdentifierPart c = false)
    (first second : List Char) :
    identifiers (first ++ c :: second) = identifiers first ++ identifiers second := by
  unfold identifiers
  rw [List.splitOnP_append_cons _ _ (by simp [hc]), List.filter_append]

theorem identifiers_cons {c : Char} (hc : isIdentifierPart c = false) (text : List Char) :
    identifiers (c :: text) = identifiers text := by
  simpa using identifiers_append_cons hc [] text

/-- No identifier goes on across the place if one of the neighbours is none of its
characters. -/
theorem identifiers_append {first second : List Char}
    (h : Apart first.getLast? ∨ Apart second.head?) :
    identifiers (first ++ second) = identifiers first ++ identifiers second := by
  -- The character can be passed over on its own, on both sides of the place.
  rcases h with h | h
  · rcases List.eq_nil_or_concat first with rfl | ⟨front, c, rfl⟩
    · simp
    · have hc := h c (by simp)
      rw [List.concat_eq_append, List.append_assoc, List.singleton_append,
        identifiers_append_cons hc, identifiers_append_cons hc, identifiers_nil, List.append_nil]
  · cases second with
    | nil => simp
    | cons c rest =>
        have hc := h c rfl
        rw [identifiers_append_cons hc, identifiers_cons hc]

/-- An identifier is all there is of itself. -/
theorem identifiers_of_word {word : List Char} (hne : word ≠ [])
    (h : ∀ c ∈ word, isIdentifierPart c = true) : identifiers word = [word] := by
  unfold identifiers
  rw [List.splitOnP_eq_singleton fun c hc => by simp [h c hc]]
  simp [hne]

/-- Other characters alone have none. -/
theorem identifiers_of_separators {text : List Char}
    (h : ∀ c ∈ text, isIdentifierPart c = false) : identifiers text = [] := by
  induction text with
  | nil => exact identifiers_nil
  | cons c text ih =>
      rw [identifiers_cons (h c List.mem_cons_self)]
      exact ih fun d hd => h d (List.mem_cons_of_mem c hd)

/-- White space around a text has no identifiers. -/
theorem identifiers_padded {gap gap' : List Char} (hgap : ∀ c ∈ gap, isBlank c = true)
    (hgap' : ∀ c ∈ gap', isBlank c = true) (text : List Char) :
    identifiers (gap ++ text ++ gap') = identifiers text := by
  have hseparators {gap : List Char} (h : ∀ c ∈ gap, isBlank c = true) :
      ∀ c ∈ gap, isIdentifierPart c = false := fun c hc => isIdentifierPart_of_isBlank (h c hc)
  have hbefore : Apart gap.getLast? := fun c hc =>
    hseparators hgap c (List.mem_of_getLast? hc)
  have hbehind : Apart gap'.head? := fun c hc => hseparators hgap' c (List.mem_of_head? hc)
  rw [identifiers_append (.inr hbehind), identifiers_append (.inl hbefore),
    identifiers_of_separators (hseparators hgap), identifiers_of_separators (hseparators hgap'),
    List.nil_append, List.append_nil]

/-- What is reported of a row of identifiers. -/
def reportedAmong (builtins : List String) (words : List (List Char)) : List String :=
  ((words.filter isTypeName).map String.ofList).filter fun name => !builtins.contains name

theorem referencedTypes_eq (builtins : List String) (expression : List Char) :
    referencedTypes builtins expression = reportedAmong builtins (identifiers expression) :=
  rfl

theorem reportedAmong_append (builtins : List String) (first second : List (List Char)) :
    reportedAmong builtins (first ++ second) =
      reportedAmong builtins first ++ reportedAmong builtins second := by
  unfold reportedAmong
  rw [List.filter_append, List.map_append, List.filter_append]

/-- A name is reported if it is among the identifiers and nothing speaks against it. -/
theorem mem_reportedAmong_iff {builtins : List String} {words : List (List Char)}
    {name : String} :
    name ∈ reportedAmong builtins words ↔ ReportedType builtins name ∧ name.toList ∈ words := by
  unfold reportedAmong ReportedType
  rw [List.mem_filter, List.mem_map]
  constructor
  · rintro ⟨⟨word, hword, rfl⟩, hbuiltin⟩
    rcases List.mem_filter.mp hword with ⟨hmem, htype⟩
    rw [String.toList_ofList]
    exact ⟨⟨htype, by simpa using hbuiltin⟩, hmem⟩
  · rintro ⟨⟨htype, hbuiltin⟩, hmem⟩
    exact ⟨⟨name.toList, List.mem_filter.mpr ⟨hmem, htype⟩, String.ofList_toList⟩,
      by simpa using hbuiltin⟩

/-- What is reported of an expression are those of its identifiers that look like
the name of a type. -/
theorem mem_referencedTypes_iff {builtins : List String} {expression : List Char}
    {name : String} :
    name ∈ referencedTypes builtins expression ↔
      ReportedType builtins name ∧ name.toList ∈ identifiers expression := by
  rw [referencedTypes_eq, mem_reportedAmong_iff]

/-! ## Characters of identifiers -/

/-- Blanks are no characters of words. -/
theorem isWord_of_isBlank {c : Char} (h : isBlank c = true) : isWord c = false := by
  have hpart := isIdentifierPart_of_isBlank h
  rw [isIdentifierPart, Bool.or_eq_false_iff, Bool.or_eq_false_iff] at hpart
  rcases hpart with ⟨⟨halphanumeric, hunderscore⟩, _⟩
  unfold isAlphanumeric at halphanumeric
  unfold isWord
  -- In ASCII words have the characters of identifiers but the dollar sign. Beyond it they have
  -- marks as well, and no blank is one of these.
  by_cases hascii : c.toNat < 0x80
  · rw [if_pos hascii] at halphanumeric ⊢
    rw [halphanumeric, hunderscore]
    rfl
  · rw [if_neg hascii, Bool.or_eq_false_iff] at halphanumeric
    have hcode : c.toNat ∈ blankCodes := by
      simp only [isBlank, Bool.or_eq_true, Bool.and_eq_true, decide_eq_true_eq, beq_iff_eq] at h
      simp only [blankCodes, List.mem_cons, List.not_mem_nil, or_false]
      omega
    rw [if_neg hascii, halphanumeric.1, not_has_blank wordPartTable (by decide +kernel) hcode]
    rfl

/-- No identifier has blanks in it. -/
theorem isBlank_of_isIdentifierChar {c : Char} (h : isIdentifierChar c = true) :
    isBlank c = false := by
  by_contra hblank
  rw [Bool.not_eq_false] at hblank
  unfold isIdentifierChar at h
  rw [isWord_of_isBlank hblank, Bool.false_or, beq_iff_eq] at h
  rw [h] at hblank
  cases hblank

theorem isIdentifierPart_of_isNamePart {c : Char} (h : isNamePart c = true) :
    isIdentifierPart c = true := by
  rw [isIdentifierPart, isAlphanumeric, if_pos (toNat_lt_of_isNamePart h), Bool.or_eq_true]
  exact .inl h

theorem isTypeChar_of_isWord {c : Char} (h : isWord c = true) : isTypeChar c = true := by
  rw [isTypeChar, h]
  rfl

theorem isTypeChar_of_isBlank {c : Char} (h : isBlank c = true) : isTypeChar c = true := by
  rw [isTypeChar, h, Bool.or_true]
  rfl

/-- A word of small letters is an identifier. -/
theorem PlainWords.identifiers_eq {words : List String} (h : PlainWords words) {word : String}
    (hword : word ∈ words) : identifiers word.toList = [word.toList] :=
  identifiers_of_word (h word hword).1 fun c hc =>
    isIdentifierPart_of_isNamePart (isNamePart_of_isLower ((h word hword).2 c hc))

/-- Of the characters of types only those of words are parts of identifiers. -/
theorem isIdentifierPart_of_isTypeChar {c : Char} (h : isTypeChar c = true)
    (hword : isWord c = false) : isIdentifierPart c = false := by
  have hmarks : ∀ d ∈ ['<', '>', ',', '[', ']', '?', '.'], isIdentifierPart d = false := by
    decide
  rw [isTypeChar, hword, Bool.false_or, Bool.or_eq_true] at h
  rcases h with hblank | hmark
  · exact isIdentifierPart_of_isBlank hblank
  · exact hmarks c (List.contains_iff_mem.mp hmark)

/-- An ASCII letter or an underscore, and then ASCII letters, digits and
underscores. -/
def IsAsciiIdentifier (word : List Char) : Prop :=
  ∃ first rest, word = first :: rest ∧ (isLetter first || first == '_') = true ∧
    ∀ c ∈ rest, isNamePart c = true

instance : DecidablePred IsAsciiIdentifier
  | [] => isFalse (by simp [IsAsciiIdentifier])
  | first :: rest =>
    decidable_of_iff
      ((isLetter first || first == '_') = true ∧ ∀ c ∈ rest, isNamePart c = true)
      (by simp [IsAsciiIdentifier])

theorem isNamePart_of_isLetter {c : Char} (h : (isLetter c || c == '_') = true) :
    isNamePart c = true := by
  unfold isNamePart Char.isAlphanum
  unfold isLetter at h
  cases hc : c.isAlpha with
  | true => rfl
  | false =>
      rw [hc, Bool.false_or] at h
      rw [h, Bool.or_true]

theorem isIdentifierChar_of_isIdentifierStart {c : Char} (h : isIdentifierStart c = true) :
    isIdentifierChar c = true := by
  unfold isIdentifierStart at h
  rcases Bool.or_eq_true_iff.mp h with hletter | hdollar
  · rw [isIdentifierChar, isWord_of_isNamePart (isNamePart_of_isLetter hletter)]
    rfl
  · rw [isIdentifierChar, hdollar, Bool.or_true]

theorem isIdentifierChar_of_isLower {c : Char} (h : c.isLower = true) :
    isIdentifierChar c = true := by
  rw [isIdentifierChar, isWord_of_isLower h, Bool.true_or]

namespace IsAsciiIdentifier

variable {word : List Char}

/-- All characters are ASCII. -/
theorem forall_isNamePart (h : IsAsciiIdentifier word) : ∀ c ∈ word, isNamePart c = true := by
  rcases h with ⟨first, rest, rfl, hfirst, hrest⟩
  exact List.forall_mem_cons.mpr ⟨isNamePart_of_isLetter hfirst, hrest⟩

theorem ne_nil (h : IsAsciiIdentifier word) : word ≠ [] := by
  rcases h with ⟨first, rest, rfl, _⟩
  exact List.cons_ne_nil first rest

theorem identifiers_eq (h : IsAsciiIdentifier word) : identifiers word = [word] :=
  identifiers_of_word h.ne_nil fun c hc => isIdentifierPart_of_isNamePart (h.forall_isNamePart c hc)

end IsAsciiIdentifier

/-- An ASCII letter, an underscore or a dollar sign, and then characters of words and
dollar signs. -/
def EcmaScript.IsIdentifier (name : List Char) : Prop :=
  ∃ first rest, name = first :: rest ∧ isIdentifierStart first = true ∧
    ∀ c ∈ rest, isIdentifierChar c = true

theorem EcmaScript.IsIdentifier.forall_isIdentifierChar {name : List Char}
    (h : IsIdentifier name) : ∀ c ∈ name, isIdentifierChar c = true := by
  rcases h with ⟨first, rest, rfl, hfirst, hrest⟩
  exact List.forall_mem_cons.mpr ⟨isIdentifierChar_of_isIdentifierStart hfirst, hrest⟩

-- How a text ends is decided by the identifier at its end.
theorem EcmaScript.IsIdentifier.getLast?_append {before name : List Char} (h : IsIdentifier name) :
    ∀ c, (before ++ name).getLast? = some c → isIdentifierChar c = true := by
  intro c hc
  have hne : name ≠ [] := by
    rcases h with ⟨first, rest, rfl, _⟩
    exact List.cons_ne_nil first rest
  rw [List.getLast?_append_of_ne_nil before hne] at hc
  exact h.forall_isIdentifierChar c (List.mem_of_getLast? hc)

/-- Between a blank and characters that are none of an identifier the name is
determined. -/
theorem EcmaScript.IsIdentifier.append_inj {before before' name name' behind behind' : List Char}
    (hname : IsIdentifier name) (hname' : IsIdentifier name')
    (hbefore : ∀ c, before.getLast? = some c → isBlank c = true)
    (hbefore' : ∀ c, before'.getLast? = some c → isBlank c = true)
    (hbehind : ∀ c ∈ behind, isIdentifierChar c = false)
    (hbehind' : ∀ c ∈ behind', isIdentifierChar c = false)
    (h : before ++ name ++ behind = before' ++ name' ++ behind') :
    before = before' ∧ name = name' := by
  have hword {name : List Char} (h : IsIdentifier name) : ∀ c ∈ name, isBlank c = false :=
    fun c hc => isBlank_of_isIdentifierChar (h.forall_isIdentifierChar c hc)
  -- Both names come behind the last blank.
  rcases append_inj_of_last hname.getLast?_append hbehind hname'.getLast?_append hbehind' h with
    ⟨hnamed, -⟩
  exact append_inj_of_last hbefore (hword hname) hbefore' (hword hname') hnamed

end Chunking
