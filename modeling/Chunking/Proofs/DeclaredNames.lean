import Chunking.Metadata
import Chunking.Proofs.FoundMatches
import Chunking.Proofs.WholeParts
import Mathlib.Data.List.Chain
import Mathlib.Data.List.Infix
import Mathlib.Data.List.TakeWhile

/-!
# Declared names

A type is declared by a keyword, white space, and an identifier that starts with
an ASCII capital letter. The identifier goes on as far as its characters do, and
these are word characters of all alphabets and dollar signs. The pattern that
looks for declarations stops earlier, at the first character that is no ASCII
letter, digit or underscore, and nothing has to follow what it keeps.

So a file reports, for each declared identifier, the beginning of it that is
ASCII. Nothing else is reported, and no declaration is missed: no match can
reach across the start of another, because a keyword does not start in the middle
of a word, and what comes next after a blank in a match is not a small letter.

## Main definitions

* `LanguageFamily.typeKeywords`: The keywords that declare a type.
* `EndsWord`, `EndsIdentifier`: No word and no identifier goes on across a place.
* `StandsWhole`: A name stands behind a keyword, and it goes no further.
* `Declares`: The identifier is declared in a text.
* `PlainWords`: Keywords of small letters.

## Theorems

* `Pattern.spans_declaredType_iff`: What the pattern of declarations spans.
* `Pattern.clearAt_declaredType`: No match lies across the start of a keyword.
* `mem_foundNames_declaredType_iff`: What is found of the declared identifiers.
* `LanguageFamily.exists_extract`: No family fails to find names.
* `classNames_iff_declared`: The class names of a file, and when all are complete.
-/

namespace Chunking

open Text Pattern EcmaScript

/-- The keywords that declare a type in a family of languages. -/
def LanguageFamily.typeKeywords : LanguageFamily → List String
  | .csharp => ["class", "interface", "struct", "enum"]
  | .java | .ecmascript => ["class", "interface", "enum"]

/-- What comes before ends with no character of a word. -/
def EndsWord (before : List Char) : Prop :=
  ∀ c, before.getLast? = some c → isWord c = false

/-- What follows starts with no character of an identifier. -/
def EndsIdentifier (after : List Char) : Prop :=
  ∀ c, after.head? = some c → isIdentifierChar c = false

/-- White space, and at least one character of it. -/
def IsBlanks (blanks : List Char) : Prop :=
  blanks ≠ [] ∧ ∀ c ∈ blanks, isBlank c = true

/-- A name stands behind a keyword and white space, and it goes no further. -/
def StandsWhole (keywords : List String) (content name : List Char) : Prop :=
  ∃ before, ∃ keyword ∈ keywords, ∃ blanks after,
    content = before ++ (keyword.toList ++ blanks ++ name) ++ after ∧
      IsBlanks blanks ∧ EndsIdentifier after

/-- The identifier is declared in the text: it stands whole behind a keyword that no
word goes on into, and it starts with a capital letter. -/
def Declares (keywords : List String) (content identifier : List Char) : Prop :=
  ∃ before, ∃ keyword ∈ keywords, ∃ blanks after,
    content = before ++ (keyword.toList ++ blanks ++ identifier) ++ after ∧
      EndsWord before ∧ IsBlanks blanks ∧
        (∃ c rest, identifier = c :: rest ∧ isCapital c = true ∧
          ∀ d ∈ rest, isIdentifierChar d = true) ∧ EndsIdentifier after

/-! ## Characters -/

theorem isCapital_iff {c : Char} : isCapital c = true ↔ 65 ≤ c.toNat ∧ c.toNat ≤ 90 := by
  change decide ('A'.val ≤ c.val ∧ c.val ≤ 'Z'.val) = true ↔ _
  rw [decide_eq_true_eq]
  rfl

theorem isLower_iff {c : Char} : c.isLower = true ↔ 97 ≤ c.toNat ∧ c.toNat ≤ 122 := by
  change (decide ('a'.val ≤ c.val) && decide (c.val ≤ 'z'.val)) = true ↔ _
  rw [Bool.and_eq_true, decide_eq_true_eq, decide_eq_true_eq]
  rfl

theorem isDigit_iff {c : Char} : c.isDigit = true ↔ 48 ≤ c.toNat ∧ c.toNat ≤ 57 := by
  change (decide ('0'.val ≤ c.val) && decide (c.val ≤ '9'.val)) = true ↔ _
  rw [Bool.and_eq_true, decide_eq_true_eq, decide_eq_true_eq]
  rfl

theorem isNamePart_iff {c : Char} :
    isNamePart c = true ↔
      ((isCapital c = true ∨ c.isLower = true) ∨ c.isDigit = true) ∨ c = '_' := by
  change (isCapital c || c.isLower || c.isDigit || c == '_') = true ↔ _
  rw [Bool.or_eq_true, Bool.or_eq_true, Bool.or_eq_true, beq_iff_eq]

theorem toNat_lt_of_isNamePart {c : Char} (h : isNamePart c = true) : c.toNat < 0x80 := by
  rw [isNamePart_iff, isCapital_iff, isLower_iff, isDigit_iff] at h
  rcases h with h | rfl
  · omega
  · decide

theorem isWord_of_isNamePart {c : Char} (h : isNamePart c = true) : isWord c = true := by
  rw [isWord, if_pos (toNat_lt_of_isNamePart h)]
  exact h

theorem isBlank_of_isNamePart {c : Char} (h : isNamePart c = true) : isBlank c = false := by
  by_contra hblank
  have hpart : isIdentifierPart c = true := by
    rw [isIdentifierPart, isAlphanumeric, if_pos (toNat_lt_of_isNamePart h), Bool.or_eq_true]
    exact .inl h
  rw [isIdentifierPart_of_isBlank (by simpa using hblank)] at hpart
  cases hpart

theorem isNamePart_of_isCapital {c : Char} (h : isCapital c = true) : isNamePart c = true :=
  isNamePart_iff.mpr (.inl (.inl (.inl h)))

theorem isNamePart_of_isLower {c : Char} (h : c.isLower = true) : isNamePart c = true :=
  isNamePart_iff.mpr (.inl (.inl (.inr h)))

theorem isWord_of_isLower {c : Char} (h : c.isLower = true) : isWord c = true :=
  isWord_of_isNamePart (isNamePart_of_isLower h)

theorem isBlank_of_isLower {c : Char} (h : c.isLower = true) : isBlank c = false :=
  isBlank_of_isNamePart (isNamePart_of_isLower h)

theorem isCapital_of_isLower {c : Char} (h : c.isLower = true) : isCapital c = false := by
  by_contra hcapital
  rw [Bool.not_eq_false, isCapital_iff] at hcapital
  rw [isLower_iff] at h
  omega

/-- Words of small letters. -/
def PlainWords (keywords : List String) : Prop :=
  ∀ keyword ∈ keywords, keyword.toList ≠ [] ∧ ∀ c ∈ keyword.toList, c.isLower = true

theorem exists_cons_of_plainWords {keywords : List String} (h : PlainWords keywords)
    {keyword : String} (hkeyword : keyword ∈ keywords) :
    ∃ c rest, keyword.toList = c :: rest ∧ c.isLower = true := by
  rcases h keyword hkeyword with ⟨hne, hlower⟩
  rcases List.exists_cons_of_ne_nil hne with ⟨c, rest, hcons⟩
  exact ⟨c, rest, hcons, hlower c (by simp [hcons])⟩

theorem LanguageFamily.plainWords_typeKeywords (family : LanguageFamily) :
    PlainWords family.typeKeywords := by
  cases family <;> simp [PlainWords, typeKeywords, isLower_iff]

/-! ## The pattern of declarations -/

namespace Pattern

variable {keywords : List String} {before text after : List Char}

theorem Spans.exists_of_words (h : (words keywords).Spans before text after) :
    ∃ keyword ∈ keywords, text = keyword.toList := by
  induction keywords with
  | nil =>
      rcases h.exists_of_one with ⟨c, _, hc⟩
      cases hc
  | cons first rest ih =>
      cases rest with
      | nil => exact ⟨first, List.mem_cons_self, h.eq_of_literal⟩
      | cons second rest =>
          rcases h.or_of_either with h | h
          · exact ⟨first, List.mem_cons_self, h.eq_of_literal⟩
          · rcases ih h with ⟨keyword, hkeyword, htext⟩
            exact ⟨keyword, List.mem_cons_of_mem first hkeyword, htext⟩

theorem spans_words {keyword : String} (h : keyword ∈ keywords) (before after : List Char) :
    (words keywords).Spans before keyword.toList after := by
  induction keywords with
  | nil => cases h
  | cons first rest ih =>
      cases rest with
      | nil =>
          rw [List.mem_singleton.mp h]
          exact .literal
      | cons second rest =>
          rcases List.mem_cons.mp h with rfl | h
          · exact .left .literal
          · exact .right (ih h)

theorem spans_name_iff {first more : Char → Bool} :
    (name first more).Spans before text after ↔
      ∃ c rest, text = c :: rest ∧ first c = true ∧ ∀ d ∈ rest, more d = true := by
  constructor
  · intro h
    rcases h.exists_of_seq with ⟨start, rest, rfl, hstart, hrest⟩
    rcases hstart.exists_of_one with ⟨c, rfl, hc⟩
    exact ⟨c, rest, rfl, hc, hrest.forall_of_stretch⟩
  · rintro ⟨c, rest, rfl, hc, hrest⟩
    exact .seq (.one hc) (.stretch hrest)

-- One character of a kind or more, in whatever order the ways are tried.
theorem spans_kind_iff {eager : Bool} {allowed : Char → Bool} :
    (seq (one allowed) (stretch eager allowed)).Spans before text after ↔
      text ≠ [] ∧ ∀ c ∈ text, allowed c = true := by
  constructor
  · intro h
    rcases h.exists_of_seq with ⟨start, rest, rfl, hstart, hrest⟩
    rcases hstart.exists_of_one with ⟨c, rfl, hc⟩
    exact ⟨List.cons_ne_nil c rest, List.forall_mem_cons.mpr ⟨hc, hrest.forall_of_stretch⟩⟩
  · rintro ⟨hne, hall⟩
    rcases List.exists_cons_of_ne_nil hne with ⟨c, rest, rfl⟩
    rw [List.forall_mem_cons] at hall
    exact .seq (.one hall.1) (.stretch hall.2)

theorem spans_someBlanks_iff : someBlanks.Spans before text after ↔ IsBlanks text :=
  spans_kind_iff

theorem spans_group_iff {number : Nat} {inner : Pattern} :
    (group number inner).Spans before text after ↔ inner.Spans before text after := by
  constructor
  · intro h
    rcases h.exists_of_seq with ⟨inside, closing, rfl, hinside, hclosing⟩
    rcases hinside.exists_of_seq with ⟨opening, inside, rfl, hopening, hinside⟩
    cases hclosing
    cases hopening
    simpa using hinside
  · intro h
    have hopened : (seq (mark (.opening number)) inner).Spans before ([] ++ text) ([] ++ after) :=
      .seq .mark (by rwa [List.append_nil])
    have hgroup : (group number inner).Spans before ([] ++ text ++ []) after :=
      .seq hopened .mark
    rwa [List.append_nil, List.nil_append] at hgroup

-- A word character comes next, so the place is the edge of a word if none comes before.
theorem atWordEdge_between_iff {c : Char} (hc : isWord c = true) :
    (Cursor.between before (c :: text)).atWordEdge = true ↔ EndsWord before := by
  cases hlast : before.getLast? with
  | none => simp [Cursor.atWordEdge, Cursor.between, EndsWord, Cursor.isWordAt, hlast, hc]
  | some d => simp [Cursor.atWordEdge, Cursor.between, EndsWord, Cursor.isWordAt, hlast, hc]

theorem spans_wordEdge (hkeywords : PlainWords keywords) {keyword : String}
    (hkeyword : keyword ∈ keywords) (hbefore : EndsWord before) (rest : List Char) :
    Spans .wordEdge before [] (keyword.toList ++ rest) := by
  rcases exists_cons_of_plainWords hkeywords hkeyword with ⟨letter, word, hcons, hletter⟩
  rw [hcons]
  exact .wordEdge ((atWordEdge_between_iff (isWord_of_isLower hletter)).mpr hbefore)

theorem spans_front (hkeywords : PlainWords keywords) {keyword : String}
    (hkeyword : keyword ∈ keywords) (hbefore : EndsWord before) {blanks : List Char}
    (hblanks : IsBlanks blanks) (after : List Char) :
    (inRow [wordEdge, words keywords, someBlanks]).Spans before (keyword.toList ++ blanks)
      after := by
  have hrow : (inRow [wordEdge, words keywords, someBlanks]).Spans before
      ([] ++ (keyword.toList ++ (blanks ++ []))) after :=
    .seq (by simpa using spans_wordEdge hkeywords hkeyword hbefore _)
      (.seq (spans_words hkeyword _ _) (.seq (spans_someBlanks_iff.mpr hblanks) .literal))
  simpa using hrow

/-- What is spanned in front of the name: a keyword that no word goes on into, and
blanks. -/
theorem exists_of_spans_front (hkeywords : PlainWords keywords)
    (h : (inRow [wordEdge, words keywords, someBlanks]).Spans before text after) :
    EndsWord before ∧ ∃ keyword ∈ keywords, ∃ blanks,
      text = keyword.toList ++ blanks ∧ IsBlanks blanks := by
  rcases h.exists_of_seq with ⟨nothing, more, rfl, hedge, hmore⟩
  rcases hmore.exists_of_seq with ⟨word, more, rfl, hword, hmore⟩
  rcases hmore.exists_of_seq with ⟨blanks, end', rfl, hblanks, hend⟩
  rcases hword.exists_of_words with ⟨keyword, hkeyword, rfl⟩
  cases hend
  cases hedge with
  | wordEdge hedge =>
      rw [spans_someBlanks_iff] at hblanks
      rcases exists_cons_of_plainWords hkeywords hkeyword with ⟨c, rest, hcons, hc⟩
      rw [hcons] at hedge
      refine ⟨(atWordEdge_between_iff (isWord_of_isLower hc)).mp hedge, keyword, hkeyword, blanks,
        ?_, hblanks⟩
      rw [List.append_nil, List.nil_append]

/-- What the pattern of declarations spans: a keyword that no word goes on into,
blanks, and a name. -/
theorem spans_declaredType_iff (hkeywords : PlainWords keywords) :
    (declaredType keywords).Spans before text after ↔
      EndsWord before ∧ ∃ keyword ∈ keywords, ∃ blanks c rest,
        text = keyword.toList ++ blanks ++ c :: rest ∧ IsBlanks blanks ∧
          isCapital c = true ∧ ∀ d ∈ rest, isNamePart d = true := by
  have hrow : (declaredType keywords).row =
      [wordEdge, words keywords, someBlanks] ++ [group 1 capitalized] :=
    rfl
  constructor
  · intro h
    rw [← spans_inRow_row, hrow] at h
    rcases spans_inRow_append h with ⟨front, last, rfl, hfront, hlast⟩
    rcases exists_of_spans_front hkeywords hfront with
      ⟨hbefore, keyword, hkeyword, blanks, rfl, hblanks⟩
    rw [spans_inRow_singleton_iff, spans_group_iff] at hlast
    rcases spans_name_iff.mp hlast with ⟨c, rest, rfl, hc, hrest⟩
    exact ⟨hbefore, keyword, hkeyword, blanks, c, rest, rfl, hblanks, hc, hrest⟩
  · rintro ⟨hbefore, keyword, hkeyword, blanks, c, rest, rfl, hblanks, hc, hrest⟩
    have hname (before : List Char) :
        (inRow [group 1 capitalized]).Spans before (c :: rest) after :=
      spans_inRow_singleton_iff.mpr
        (spans_group_iff.mpr (spans_name_iff.mpr ⟨c, rest, rfl, hc, hrest⟩))
    rw [← spans_inRow_row, hrow]
    exact (spans_front hkeywords hkeyword hbefore hblanks _).inRow_append (hname _)

-- Within a match a word character comes before every character that is not blank, but
-- for the capital letter behind the blanks.
theorem isChain_of_spans_declaredType (hkeywords : PlainWords keywords)
    (h : (declaredType keywords).Spans before text after) :
    text.IsChain fun c d => isWord c = true ∨ isBlank d = true ∨ isCapital d = true := by
  rcases (spans_declaredType_iff hkeywords).mp h with
    ⟨_, keyword, hkeyword, blanks, c, rest, rfl, hblanks, hc, hrest⟩
  have hword : ∀ d ∈ keyword.toList, isWord d = true := fun d hd =>
    isWord_of_isLower ((hkeywords keyword hkeyword).2 d hd)
  have hname : ∀ d ∈ c :: rest, isWord d = true :=
    List.forall_mem_cons.mpr ⟨isWord_of_isNamePart (isNamePart_of_isCapital hc), fun d hd =>
      isWord_of_isNamePart (hrest d hd)⟩
  refine .append (.append ?_ ?_ ?_) ?_ ?_
  · exact (List.pairwise_of_forall_mem_list fun d hd _ _ => .inl (hword d hd)).isChain
  · exact (List.pairwise_of_forall_mem_list fun _ _ d hd => .inr (.inl (hblanks.2 d hd))).isChain
  · exact fun _ _ d hd => .inr (.inl (hblanks.2 d (List.mem_of_mem_head? hd)))
  · exact (List.pairwise_of_forall_mem_list fun d hd _ _ => .inl (hname d hd)).isChain
  · intro _ _ d hd
    cases hd
    exact .inr (.inr hc)

/-- No match lies across the start of a keyword. -/
theorem clearAt_declaredType (hkeywords : PlainWords keywords) (hbefore : EndsWord before)
    {keyword : String} (hkeyword : keyword ∈ keywords) (rest : List Char) :
    (declaredType keywords).ClearAt before (keyword.toList ++ rest) := by
  intro front first second back hfront hsecond hfirst hne hspans
  rcases exists_cons_of_plainWords hkeywords hkeyword with ⟨d, word, hcons, hd⟩
  have hrel := (isChain_of_spans_declaredType hkeywords hspans).rel_getLast_head_of_append
    hfirst hne
  have hlast : isWord (first.getLast hfirst) = false := by
    refine hbefore _ ?_
    rw [hfront, List.getLast?_append_of_ne_nil front hfirst, List.getLast?_eq_some_getLast]
  have hhead : second.head hne = d := by
    rcases List.exists_cons_of_ne_nil hne with ⟨e, second, rfl⟩
    rw [hcons] at hsecond
    exact (List.cons.inj hsecond).1.symm
  rw [hlast, hhead, isBlank_of_isLower hd, isCapital_of_isLower hd] at hrel
  simp at hrel

end Pattern

/-! ## Declarations -/

variable {keywords : List String} {content : List Char}

-- The name is what is left of the text behind the word and the blanks.
theorem dropWhile_dropWhile_isBlank {word blanks : List Char} {c : Char}
    (hword : ∀ d ∈ word, isBlank d = false) (hblanks : IsBlanks blanks) (hc : isBlank c = false)
    (rest : List Char) :
    ((word ++ blanks ++ c :: rest).dropWhile fun d => !isBlank d).dropWhile isBlank =
      c :: rest := by
  rcases List.exists_cons_of_ne_nil hblanks.1 with ⟨d, more, rfl⟩
  have hd : isBlank d = true :=
    hblanks.2 d List.mem_cons_self
  rw [List.append_assoc, List.dropWhile_append_of_pos (by simpa using hword), List.cons_append,
    List.dropWhile_cons_of_neg (by simp [hd]), ← List.cons_append,
    List.dropWhile_append_of_pos hblanks.2, List.dropWhile_cons_of_neg (by simp [hc])]

theorem row_declaredType (keywords : List String) :
    (declaredType keywords).row =
      [wordEdge, words keywords, someBlanks] ++ [group 1 (Pattern.name isCapital isNamePart)] :=
  rfl

/-- What a match at a declaration keeps is the name behind the blanks. -/
theorem group_eq_of_matchAt?_declaredType (hkeywords : PlainWords keywords)
    {before : List Char} {keyword : String} (hkeyword : keyword ∈ keywords) {blanks : List Char}
    (hblanks : IsBlanks blanks) {c : Char} (hc : isCapital c = true) {rest : List Char}
    {found : Match}
    (h : (declaredType keywords).matchAt?
      (Cursor.between before (keyword.toList ++ blanks ++ c :: rest)) = some found) :
    found.group 1 = c :: rest.takeWhile isNamePart := by
  rcases exists_of_matchAt?_name (row_declaredType keywords) h with
    ⟨passed, c', rest', htext, hfront, hc', hgroup⟩
  rcases exists_of_spans_front hkeywords hfront with
    ⟨_, keyword', hkeyword', blanks', rfl, hblanks'⟩
  -- The text is taken apart in only one way.
  have hword (keyword : String) (h : keyword ∈ keywords) :
      ∀ d ∈ keyword.toList, isBlank d = false := fun d hd =>
    isBlank_of_isLower ((hkeywords keyword h).2 d hd)
  have hname := dropWhile_dropWhile_isBlank (hword keyword hkeyword) hblanks
    (isBlank_of_isNamePart (isNamePart_of_isCapital hc)) rest
  rw [htext, dropWhile_dropWhile_isBlank (hword keyword' hkeyword') hblanks'
    (isBlank_of_isNamePart (isNamePart_of_isCapital hc'))] at hname
  cases hname
  exact hgroup

-- Where no identifier goes on, no name does.
theorem takeWhile_append_of_endsIdentifier {after : List Char} (h : EndsIdentifier after)
    (rest : List Char) : (rest ++ after).takeWhile isNamePart = rest.takeWhile isNamePart := by
  have hafter : after.takeWhile isNamePart = [] := by
    cases after with
    | nil => rfl
    | cons c after =>
        refine List.takeWhile_cons_of_neg fun hc => ?_
        have hend := h c rfl
        rw [isIdentifierChar, isWord_of_isNamePart hc] at hend
        cases hend
  rw [List.takeWhile_append, hafter, List.append_nil]
  split_ifs with hlength
  · exact ((List.takeWhile_prefix isNamePart).eq_of_length hlength).symm
  · rfl

theorem endsIdentifier_dropWhile (rest : List Char) :
    EndsIdentifier (rest.dropWhile isIdentifierChar) := by
  intro c hc
  have hnot := List.head?_dropWhile_not isIdentifierChar rest
  rw [hc] at hnot
  exact hnot

-- A match keeps less than the identifier if that goes on with other characters.
theorem exists_declares_of_mem_foundNames (hkeywords : PlainWords keywords) {name : String}
    (h : name ∈ foundNames (declaredType keywords) 1 content) :
    ∃ identifier, Declares keywords content identifier ∧
      name.toList = identifier.takeWhile isNamePart := by
  rcases List.mem_map.mp h with ⟨found, hfound, rfl⟩
  rcases exists_between_of_mem_findAll hfound with ⟨before, after, rfl, hmatch⟩
  rcases exists_of_matchAt?_name (row_declaredType keywords) hmatch with
    ⟨passed, c, rest, rfl, hfront, hc, hgroup⟩
  rcases exists_of_spans_front hkeywords hfront with
    ⟨hbefore, keyword, hkeyword, blanks, rfl, hblanks⟩
  have hends := endsIdentifier_dropWhile rest
  refine ⟨c :: rest.takeWhile isIdentifierChar,
    ⟨before, keyword, hkeyword, blanks, rest.dropWhile isIdentifierChar, by simp, hbefore,
      hblanks, ⟨c, _, rfl, hc, fun d hd => List.mem_takeWhile_imp hd⟩, hends⟩, ?_⟩
  have hsame := takeWhile_append_of_endsIdentifier hends (rest.takeWhile isIdentifierChar)
  rw [List.takeWhile_append_dropWhile] at hsame
  rw [String.toList_ofList, hgroup, List.takeWhile_cons_of_pos (isNamePart_of_isCapital hc),
    hsame]

-- There is a match at every declaration, and none before it reaches across its start.
theorem mem_foundNames_of_declares (hkeywords : PlainWords keywords) {identifier : List Char}
    (h : Declares keywords content identifier) :
    String.ofList (identifier.takeWhile isNamePart) ∈
      foundNames (declaredType keywords) 1 content := by
  rcases h with ⟨before, keyword, hkeyword, blanks, after, rfl, hbefore, hblanks,
    ⟨c, rest, rfl, hc, _⟩, hafter⟩
  have hspans : (declaredType keywords).Spans before (keyword.toList ++ blanks ++ [c])
      (rest ++ after) :=
    (spans_declaredType_iff hkeywords).mpr
      ⟨hbefore, keyword, hkeyword, blanks, c, [], rfl, hblanks, hc, by simp⟩
  rcases exists_matchAt?_of_spans hspans with ⟨found, hmatch⟩
  have htext : keyword.toList ++ blanks ++ [c] ++ (rest ++ after) =
      keyword.toList ++ blanks ++ c :: (rest ++ after) :=
    List.append_assoc _ _ _
  rw [htext] at hmatch
  have hgroup := group_eq_of_matchAt?_declaredType hkeywords hkeyword hblanks hc hmatch
  rw [List.append_assoc] at hmatch
  have hmem := mem_findAll_of_matchAt? hmatch (by simp)
    (clearAt_declaredType hkeywords hbefore hkeyword _)
  refine List.mem_map.mpr ⟨found, ?_, ?_⟩
  · rw [← List.append_assoc] at hmem
    simpa using hmem
  · rw [hgroup, takeWhile_append_of_endsIdentifier hafter,
      List.takeWhile_cons_of_pos (isNamePart_of_isCapital hc)]

/-- What is found of a declaration is the beginning of the declared identifier. -/
theorem mem_foundNames_declaredType_iff (hkeywords : PlainWords keywords) (name : String) :
    name ∈ foundNames (declaredType keywords) 1 content ↔
      ∃ identifier, Declares keywords content identifier ∧
        name.toList = identifier.takeWhile isNamePart := by
  constructor
  · exact exists_declares_of_mem_foundNames hkeywords
  · rintro ⟨identifier, hdeclares, hname⟩
    rw [← String.ofList_toList (s := name), hname]
    exact mem_foundNames_of_declares hkeywords hdeclares

/-! ## Class names -/

/-- Every family finds names, and its classes are those of the pattern of
declarations. -/
theorem LanguageFamily.exists_extract (family : LanguageFamily) (content : List Char) :
    ∃ names, family.extract content = .ok names ∧
      names.classes = .ofList (foundNames (declaredType family.typeKeywords) 1 content) := by
  cases family with
  | csharp => exact ⟨_, rfl, rfl⟩
  | java => exact ⟨_, rfl, rfl⟩
  | ecmascript =>
      rcases exists_extract? content with ⟨names, hnames⟩
      refine ⟨names, by simp only [extract, hnames], ?_⟩
      rcases Option.bind_eq_some_iff.mp hnames with ⟨constructors, _, h⟩
      cases h
      rfl

-- Taking the ASCII beginning leaves nothing else.
theorem forall_of_eq_takeWhile {identifier other : List Char}
    (h : identifier = other.takeWhile isNamePart) : ∀ c ∈ identifier, isNamePart c = true := by
  rw [h]
  exact fun c hc => List.mem_takeWhile_imp hc

/-- The class names of a file are the ASCII beginnings of the identifiers that it
declares. So an identifier is reported in full exactly if all of its characters are
ASCII letters, digits and underscores, and every name stands whole behind a keyword
exactly if the beginning of every declared identifier does. -/
theorem classNames_iff_declared (fileName content : String) (metadata : CodeMetadata)
    (h : metadataOf? fileName content = some metadata) :
    ∃ family, familyOf? fileName = some family ∧
      (∀ name, name ∈ metadata.classNames ↔
        ∃ identifier, Declares family.typeKeywords content.toList identifier ∧
          name.toList = identifier.takeWhile isNamePart) ∧
      (∀ identifier, Declares family.typeKeywords content.toList identifier →
        (String.ofList identifier ∈ metadata.classNames ↔
          ∀ c ∈ identifier, isNamePart c = true)) ∧
      ((∀ name ∈ metadata.classNames,
          StandsWhole family.typeKeywords content.toList name.toList) ↔
        ∀ identifier, Declares family.typeKeywords content.toList identifier →
          StandsWhole family.typeKeywords content.toList (identifier.takeWhile isNamePart)) := by
  rcases Option.map_eq_some_iff.mp h with ⟨family, hfamily, hmetadata⟩
  rcases family.exists_extract content.toList with ⟨names, hnames, hclasses⟩
  have hmem (name : String) : name ∈ metadata.classNames ↔
      ∃ identifier, Declares family.typeKeywords content.toList identifier ∧
        name.toList = identifier.takeWhile isNamePart := by
    rw [← hmetadata, hnames]
    dsimp only
    rw [hclasses, NameSet.mem_ofList,
      mem_foundNames_declaredType_iff family.plainWords_typeKeywords]
  refine ⟨family, hfamily, hmem, fun identifier hdeclares => ?_, ?_, ?_⟩
  · rw [hmem, String.toList_ofList]
    constructor
    · rintro ⟨other, _, heq⟩
      exact forall_of_eq_takeWhile heq
    · intro hall
      exact ⟨identifier, hdeclares, (List.takeWhile_eq_self_iff.mpr hall).symm⟩
  · intro hwhole identifier hdeclares
    have hname := hwhole (String.ofList (identifier.takeWhile isNamePart))
      ((hmem _).mpr ⟨identifier, hdeclares, String.toList_ofList⟩)
    rwa [String.toList_ofList] at hname
  · intro hwhole name hname
    rcases (hmem name).mp hname with ⟨identifier, hdeclares, heq⟩
    rw [heq]
    exact hwhole identifier hdeclares

/-- Of a class with a dollar sign in its name the part before it is reported. -/
theorem classNames_iff_declared_dollar :
    let content := "class Box$Lid \x7b\x7d"
    metadataOf? "a.ts" content = some { fileName := "a.ts", classNames := .ofList ["Box"] } ∧
      ∃ family, familyOf? "a.ts" = some family ∧
        ∃ identifier, Declares family.typeKeywords content.toList identifier ∧
          "Box".toList = identifier.takeWhile isNamePart := by
  intro content
  have hmetadata : metadataOf? "a.ts" content =
      some { fileName := "a.ts", classNames := .ofList ["Box"] } := by
    decide +kernel
  rcases classNames_iff_declared "a.ts" content _ hmetadata with ⟨family, hfamily, hmem, _⟩
  exact ⟨hmetadata, family, hfamily, (hmem "Box").mp (by simp)⟩

/-- With an accent at its end the name of a class is cut short, and what is left of
it stands nowhere on its own. -/
theorem classNames_cut_short :
    let content := "class Caf\u00e9 \x7b\x7d"
    metadataOf? "A.java" content =
        some { fileName := "A.java", classNames := .ofList ["Caf"] } ∧
      ¬StandsWhole LanguageFamily.java.typeKeywords content.toList "Caf".toList := by
  intro content
  refine ⟨by decide +kernel, ?_⟩
  rintro ⟨before, keyword, _, blanks, after, hcontent, _, hafter⟩
  -- Wherever the name stands, the accent comes next.
  have hnext : ∀ suffix ∈ content.toList.tails, suffix.take 3 = "Caf".toList →
      (suffix.drop 3).head? = some '\u00e9' := by
    decide +kernel
  have hsuffix : "Caf".toList ++ after ∈ content.toList.tails :=
    (List.mem_tails _ _).mpr ⟨before ++ (keyword.toList ++ blanks), by rw [hcontent]; simp⟩
  have hend := hafter '\u00e9' (hnext _ hsuffix rfl)
  have haccent : isIdentifierChar '\u00e9' = true := by
    decide +kernel
  rw [haccent] at hend
  cases hend

end Chunking
