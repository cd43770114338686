import Chunking.Proofs.PropertyDeclarations
import Chunking.Proofs.TypeArguments

/-!
# Auto-properties of a C# source

A source that is made of properties with accessors and no bodies, one on a line, has
the names of the properties, and its types are those that the declarations mention.

Two patterns look at a declaration. That of properties takes everything before the name
for the type, modifiers as well, and that of members passes the modifiers but wants the
type to start with a capital letter. Both start with a word that says from where a
declaration can be used, so both match at the start of a declaration or not at all. And
both end with the first brace, so they have one text to read: the head, the name and a
space.

A type that does not start with a capital letter is passed over by the pattern of
members, and nothing is lost. The lists of type arguments are searched for on their own.
A list cannot reach across a brace, so it lies in one type, and whatever is reported of
it is reported of the type.

## Main definitions

* `CSharp.MemberReading`: A text that one of the two patterns reads.
* `CSharp.ReadsMember`: A pattern that reads members.

## Theorems

* `CSharp.MemberReading.eq_of_declaration`: What is read at the start of a declaration.
* `CSharp.exists_declarations_of_access`: Where a match can start.
* `CSharp.clearAt_of_reading`: No match goes on across the start of a declaration.
* `CSharp.exists_declaration_of_scannedIn`: Where a list of type arguments lies.
* `CSharp.extract_propertyDeclarations`: The names of a source of declarations.
-/

namespace Chunking.CSharp

open Text Pattern

/-- What comes before a type: a word that says from where it can be used, white space, and
perhaps other modifiers. -/
structure IsFront (before front : List Char) : Prop where
  before_endsWord : EndsWord before
  start : ∃ access ∈ accessWords, ∃ blank more, front = access.toList ++ blank :: more ∧
    isBlank blank = true
  mem : ∀ c ∈ front, c.isLower = true ∨ isBlank c = true
  last : Apart front.getLast?

/-- The text is read as a property or a member: a front, a type, white space, a name, more
white space, and the character that tells it. -/
structure MemberReading (before after front type gap name blanks : List Char) (stop : Char)
    (rest : List Char) : Prop where
  text : after = front ++ type ++ gap ++ name ++ blanks ++ stop :: rest
  isFront : IsFront before front
  type_mem : ∀ c ∈ type, isTypeChar c = true
  gap_blanks : IsBlanks gap
  name_isIdentifier : EcmaScript.IsIdentifier name
  blanks_mem : ∀ c ∈ blanks, isBlank c = true
  stop_isStop : isStop memberStops stop = true

/-! ## Matches -/

variable {before after front type gap name blanks text rest : List Char} {stop : Char}

/-- The type of a member, as the pattern has it. -/
def memberType : Pattern :=
  seq (one isCapital) (stretch false isTypeChar)

theorem row_property : property.row =
    [wordEdge, words ["public", "protected", "internal"], someBlanks] ++
      group 1 (atLeastOne isTypeChar) ::
        [someBlanks, group 2 capitalized, Pattern.blanks, one (isStop ['\x7b', '='])] :=
  rfl

theorem row_member : member.row =
    [wordEdge, words accessWords, someBlanks, Pattern.modifiers memberModifiers] ++
      group 1 memberType ::
        [someBlanks, one (fun c => isLetter c || c == '_'), stretch true isWord, Pattern.blanks,
          one (isStop memberStops)] :=
  rfl

/-- What the start of a pattern spans is a front, with modifiers or without. -/
theorem isFront_of_spans {words : List String} (hwords : ∀ word ∈ words, word ∈ accessWords)
    {modifiers : List Char}
    (h : (inRow [wordEdge, Pattern.words words, someBlanks]).Spans before front after)
    (hmodifiers : ∀ c, modifiers.getLast? = some c → isBlank c = true)
    (hmem : ∀ c ∈ modifiers, c.isLower = true ∨ isBlank c = true) :
    IsFront before (front ++ modifiers) := by
  have hplain : PlainWords words := fun word hword =>
    plainWords_accessWords word (hwords word hword)
  rcases exists_of_spans_front hplain h with ⟨hbefore, access, haccess, blanks, rfl, hblanks⟩
  rcases List.exists_cons_of_ne_nil hblanks.1 with ⟨blank, more, rfl⟩
  refine ⟨hbefore, ⟨access, hwords access haccess, blank, more ++ modifiers, by simp,
    hblanks.2 blank List.mem_cons_self⟩, ?_, ?_⟩
  · simp only [List.forall_mem_append]
    exact ⟨⟨fun c hc => .inl ((hplain access haccess).2 c hc), fun c hc => .inr (hblanks.2 c hc)⟩,
      hmem⟩
  · intro c hc
    rw [List.append_assoc, List.getLast?_append_of_ne_nil _ (by simp)] at hc
    exact isIdentifierPart_of_isBlank (getLast?_append_of_kind
      (fun d hd => hblanks.2 d (List.mem_of_getLast? hd)) hmodifiers c hc)

/-- The pattern reads a front, a type, which it keeps first, white space and a name, and the
character that tells a property or a member. -/
def ReadsMember (pattern : Pattern) : Prop :=
  ∃ front inner rear, pattern.row = front ++ group 1 inner :: rear ∧
    inner.keeps (.opening 1) = false ∧ (inRow rear).keeps (.opening 1) = false ∧
    (inRow rear).keeps (.closing 1) = false ∧
    (∀ {before text after}, (inRow front).Spans before text after → IsFront before text) ∧
    (∀ {before text after}, inner.Spans before text after → ∀ c ∈ text, isTypeChar c = true) ∧
    ∀ {before text after}, (inRow rear).Spans before text after →
      ∃ gap name blanks stop, text = gap ++ name ++ blanks ++ [stop] ∧ IsBlanks gap ∧
        EcmaScript.IsIdentifier name ∧ (∀ c ∈ blanks, isBlank c = true) ∧
          isStop memberStops stop = true

theorem isIdentifierStart_of_isLetter {c : Char} (h : (isLetter c || c == '_') = true) :
    EcmaScript.isIdentifierStart c = true := by
  rw [EcmaScript.isIdentifierStart, h]
  rfl

theorem isLetter_of_isCapital {c : Char} (h : isCapital c = true) : isLetter c = true :=
  Bool.or_eq_true_iff.mpr (.inl h)

theorem isIdentifier_of_capitalized (h : capitalized.Spans before name after) :
    EcmaScript.IsIdentifier name := by
  rcases spans_name_iff.mp h with ⟨first, rest, rfl, hfirst, hrest⟩
  refine ⟨first, rest, rfl, isIdentifierStart_of_isLetter ?_, fun c hc => ?_⟩
  · rw [isLetter_of_isCapital hfirst]
    rfl
  · rw [EcmaScript.isIdentifierChar, isWord_of_isNamePart (hrest c hc)]
    rfl

-- A property ends with one of the characters that tell a member.
theorem isStop_memberStops {c : Char} (h : isStop ['\x7b', '='] c = true) :
    isStop memberStops c = true := by
  have hall : ∀ d ∈ ['\x7b', '='], isStop memberStops d = true := by
    decide
  exact hall c (List.contains_iff_mem.mp h)

theorem readsMember_property : ReadsMember property := by
  refine ⟨_, _, _, row_property, rfl, rfl, rfl, fun h => ?_, fun h => (spans_kind_iff.mp h).2,
    fun h => ?_⟩
  · have hfront := @isFront_of_spans _ _ _ _ (by decide) [] h (by simp) (by simp)
    rwa [List.append_nil] at hfront
  · rcases h.exists_of_seq with ⟨gap, more, rfl, hgap, hmore⟩
    rcases hmore.exists_of_seq with ⟨name, more, rfl, hname, hmore⟩
    rcases exists_of_spans_stop hmore with ⟨blanks, stop, rfl, hblanks, hstop⟩
    exact ⟨gap, name, blanks, stop, by simp, spans_someBlanks_iff.mp hgap,
      isIdentifier_of_capitalized (spans_group_iff.mp hname), hblanks, isStop_memberStops hstop⟩

theorem readsMember_member : ReadsMember member := by
  refine ⟨_, _, _, row_member, rfl, rfl, rfl, fun h => ?_, fun h => ?_, fun h => ?_⟩
  · change (inRow ([wordEdge, words accessWords, someBlanks] ++
      [Pattern.modifiers memberModifiers])).Spans _ _ _ at h
    rcases spans_inRow_append h with ⟨front, modifiers, rfl, hfront, hmodifiers⟩
    rw [spans_inRow_singleton_iff] at hmodifiers
    have hwords : ∀ word ∈ memberModifiers, ∀ c ∈ word.toList,
        c.isLower = true ∨ isBlank c = true := fun word hword c hc =>
      .inl ((plainWords_memberModifiers word hword).2 c hc)
    exact isFront_of_spans (fun _ hword => hword) hfront (getLast?_of_spans_modifiers hmodifiers)
      (hmodifiers.forall_mem (spansOnly_modifiers hwords fun _ hc => .inr hc))
  · refine h.forall_mem ⟨fun c hc => ?_, fun _ hc => hc⟩
    exact isTypeChar_of_isWord (isWord_of_isNamePart (isNamePart_of_isCapital hc))
  · rcases h.exists_of_seq with ⟨gap, more, rfl, hgap, hmore⟩
    rcases hmore.exists_of_seq with ⟨start, more, rfl, hstart, hmore⟩
    rcases hmore.exists_of_seq with ⟨others, more, rfl, hothers, hmore⟩
    rcases hstart.exists_of_one with ⟨first, rfl, hfirst⟩
    rcases exists_of_spans_stop hmore with ⟨blanks, stop, rfl, hblanks, hstop⟩
    refine ⟨gap, first :: others, blanks, stop, by simp, spans_someBlanks_iff.mp hgap,
      ⟨first, others, rfl, isIdentifierStart_of_isLetter hfirst, fun c hc => ?_⟩, hblanks, hstop⟩
    rw [EcmaScript.isIdentifierChar, hothers.forall_of_stretch c hc]
    rfl

namespace ReadsMember

variable {pattern : Pattern}

/-- Whatever such a pattern spans is read as a member. -/
theorem exists_of_spans (h : ReadsMember pattern) (hspans : pattern.Spans before text after) :
    ∃ front type gap name blanks stop,
      MemberReading before (text ++ after) front type gap name blanks stop after := by
  rcases h with ⟨front, inner, rear, hrow, -, -, -, hfront, hinner, hrear⟩
  rw [← spans_inRow_row, hrow] at hspans
  rcases spans_inRow_append hspans with ⟨passed, more, rfl, hpassed, hmore⟩
  rcases hmore.exists_of_seq with ⟨type, more, rfl, htype, hmore⟩
  rcases hrear hmore with ⟨gap, name, blanks, stop, rfl, hgap, hname, hblanks, hstop⟩
  exact ⟨passed, type, gap, name, blanks, stop, by simp, hfront hpassed,
    hinner (spans_group_iff.mp htype), hgap, hname, hblanks, hstop⟩

/-- A match keeps the type of the member that it reads. -/
theorem exists_of_matchAt? (h : ReadsMember pattern) {found : Match}
    (hmatch : pattern.matchAt? (Cursor.between before after) = some found) :
    ∃ front gap name blanks stop rest,
      MemberReading before after front (found.group 1) gap name blanks stop rest := by
  rcases h with ⟨front, inner, rear, hrow, hopening, hopening', hclosing, hfront, hinner, hrear⟩
  rcases exists_spans_of_matchAt? hrow hopening hopening' hclosing hmatch with
    ⟨passed, more, rest, hafter, hpassed, htype, hmore⟩
  rcases hrear hmore with ⟨gap, name, blanks, stop, rfl, hgap, hname, hblanks, hstop⟩
  exact ⟨passed, gap, name, blanks, stop, rest, by simpa using hafter, hfront hpassed,
    hinner htype, hgap, hname, hblanks, hstop⟩

end ReadsMember

/-- A match of the pattern of properties keeps the name of the member that it reads. -/
theorem exists_memberReading_name {found : Match}
    (h : property.matchAt? (Cursor.between before after) = some found) :
    ∃ front type gap blanks stop rest,
      MemberReading before after front type gap (found.group 2) blanks stop rest := by
  -- The row is cut before the name here, so the type is part of what has been passed.
  have hrow : property.row = ([wordEdge, words ["public", "protected", "internal"], someBlanks] ++
      [group 1 (atLeastOne isTypeChar), someBlanks]) ++ group 2 capitalized ::
        [Pattern.blanks, one (isStop ['\x7b', '='])] :=
    rfl
  rcases exists_spans_of_matchAt? hrow rfl rfl rfl h with
    ⟨passed, more, rest, hafter, hpassed, hname, hmore⟩
  rcases spans_inRow_append hpassed with ⟨front, passed, rfl, hfront, hpassed⟩
  rcases hpassed.exists_of_seq with ⟨type, gap, rfl, htype, hgap⟩
  rw [spans_inRow_singleton_iff] at hgap
  rcases exists_of_spans_stop hmore with ⟨blanks, stop, rfl, hblanks, hstop⟩
  have hfront := @isFront_of_spans _ _ _ _ (by decide) [] hfront (by simp) (by simp)
  rw [List.append_nil] at hfront
  exact ⟨front, type, gap, blanks, stop, rest, by simpa using hafter, hfront,
    (spans_kind_iff.mp (spans_group_iff.mp htype)).2, spans_someBlanks_iff.mp hgap,
    isIdentifier_of_capitalized hname, hblanks, isStop_memberStops hstop⟩

/-! ## What is read of a declaration -/

-- A word between white space has no identifier across its ends.
theorem mem_identifiers_of_mem_blankSeparated {word : String}
    (hword : identifiers word.toList = [word.toList]) (h : word ∈ blankSeparated text) :
    word.toList ∈ identifiers text := by
  rcases List.mem_map.mp h with ⟨chars, hmem, rfl⟩
  rw [String.toList_ofList] at hword ⊢
  have hapart {neighbour : Option Char} (h : ∀ c, neighbour = some c → isBlank c = true) :
      Apart neighbour := fun c hc => isIdentifierPart_of_isBlank (h c hc)
  have hinside {before after : List Char} (htext : text = before ++ chars ++ after)
      (hbefore : Apart before.getLast?) (hafter : Apart after.head?) :
      chars ∈ identifiers text := by
    rw [htext, identifiers_append (.inr hafter), identifiers_append (.inl hbefore), hword]
    simp
  rcases List.exists_cons_of_ne_nil (List.splitOnP_ne_nil isBlank text) with ⟨first, more, hcons⟩
  have hmem := (List.mem_filter.mp hmem).1
  rcases exists_of_splitOnP_eq_cons hcons with ⟨⟨after, htext, hafter⟩, hmore⟩
  rw [hcons] at hmem
  rcases List.mem_cons.mp hmem with rfl | hmem
  · exact @hinside [] after htext apart_none (hapart hafter)
  · rcases hmore chars hmem with ⟨before, c, after, htext, hc, hafter⟩
    refine hinside htext ?_ (hapart hafter)
    rw [List.getLast?_concat]
    exact apart_some (isIdentifierPart_of_isBlank hc)

namespace MemberReading

variable (h : MemberReading before after front type gap name blanks stop rest)

include h

/-- Nothing tells a member before its end. -/
theorem not_isStop_of_mem :
    ∀ c ∈ front ++ type ++ gap ++ name ++ blanks, isStop memberStops c = false := by
  have htype {c : Char} (hc : isTypeChar c = true) : isStop memberStops c = false :=
    not_isStop_of_kind not_isTypeChar_memberStops hc
  have hblank {c : Char} (hc : isBlank c = true) : isStop memberStops c = false :=
    htype (isTypeChar_of_isBlank hc)
  simp only [List.forall_mem_append]
  exact ⟨⟨⟨⟨fun c hc => htype (isTypeChar_of_isLower_or (h.isFront.mem c hc)),
    fun c hc => htype (h.type_mem c hc)⟩,
    fun c hc => hblank (h.gap_blanks.2 c hc)⟩,
    fun c hc => not_isStop_of_kind not_isIdentifierChar_memberStops
      (h.name_isIdentifier.forall_isIdentifierChar c hc)⟩,
    fun c hc => hblank (h.blanks_mem c hc)⟩

variable {declaration : PropertyDeclaration}

/-- At the start of a declaration its name is read, and its head. -/
theorem eq_of_declaration {more : List Char} (hafter : after = declaration.text ++ more) :
    name = declaration.name ∧ front ++ type ++ gap = declaration.head := by
  have htext : (front ++ type ++ gap ++ name ++ blanks) ++ stop :: rest =
      (declaration.head ++ declaration.name ++ [' ']) ++
        '\x7b' :: (" get; set; \x7d\n".toList ++ more) := by
    rw [← h.text, hafter, declaration.text_eq]
    simp
  have hbody := (append_cons_inj_of_first h.not_isStop_of_mem h.stop_isStop
    declaration.not_isStop_of_mem_body rfl htext).1
  -- Before the first stop both read a name, with white space before it and behind it.
  have hgap : ∀ c, (front ++ type ++ gap).getLast? = some c → isBlank c = true := by
    intro c hc
    rw [List.getLast?_append_of_ne_nil _ h.gap_blanks.1] at hc
    exact h.gap_blanks.2 c (List.mem_of_getLast? hc)
  have hhead : ∀ c, declaration.head.getLast? = some c → isBlank c = true := by
    intro c hc
    rw [PropertyDeclaration.head, getLast?_declarationHead] at hc
    cases hc
    decide
  have hother {c : Char} (h : isBlank c = true) : EcmaScript.isIdentifierChar c = false := by
    by_contra hchar
    rw [isBlank_of_isIdentifierChar (by simpa using hchar)] at h
    cases h
  rcases h.name_isIdentifier.append_inj declaration.name_isIdentifier hgap hhead
    (fun c hc => hother (h.blanks_mem c hc)) (by decide) hbody with ⟨hsame, hname⟩
  exact ⟨hname, hsame⟩

/-- Whether a word is taken for a modifier or for a part of the type makes no difference to
the identifiers. -/
theorem identifiers_eq (hhead : front ++ type ++ gap = declaration.head) :
    declaration.access.toList :: (declaration.modifiers.map String.toList ++
      identifiersOf declaration.type) = identifiers front ++ identifiers type := by
  rw [← declaration.identifiers_head, ← hhead, identifiers_read h.isFront.last h.gap_blanks]

/-- The names of types that are read are those of the declaration. -/
theorem mem_identifiers_iff (hhead : front ++ type ++ gap = declaration.head) {word : List Char}
    (hword : isTypeName word = true) :
    word ∈ identifiers type ↔ word ∈ identifiersOf declaration.type := by
  constructor
  · intro hmem
    refine mem_identifiersOf_of_mem_head declaration.plainWords_access
      declaration.plainWords_modifiers declaration.type_derives.derives
      declaration.type_derives.sound hword ?_
    change word ∈ identifiers declaration.head
    rw [declaration.identifiers_head, h.identifiers_eq hhead]
    exact List.mem_append_right _ hmem
  -- A name of a type is none of the words before it, which are made of small letters.
  · intro hmem
    have hboth : word ∈ identifiers front ++ identifiers type := by
      rw [← h.identifiers_eq hhead]
      exact List.mem_cons_of_mem _ (List.mem_append_right _ hmem)
    refine (List.mem_append.mp hboth).resolve_left fun hfront => ?_
    rw [isTypeName_of_mem_front h.isFront.mem hfront] at hword
    cases hword

/-- No declaration keyword is read. -/
theorem not_mem_blankSeparated (hhead : front ++ type ++ gap = declaration.head) :
    (blankSeparated type).any declarationKeywords.contains = false := by
  rw [List.any_eq_false]
  intro keyword hmem hkeyword
  rw [List.contains_iff_mem] at hkeyword
  have hreserved : keyword ∈ reservedWords := List.mem_append_right _ hkeyword
  have hapart : ∀ word ∈ accessWords ++ memberModifiers, word ∉ declarationKeywords := by
    decide
  -- The keyword would be an identifier of the head, and there it is none of them.
  have hword : keyword.toList ∈ identifiers front ++ identifiers type :=
    List.mem_append_right _ (mem_identifiers_of_mem_blankSeparated
      (plainWords_reservedWords.identifiers_eq hreserved) hmem)
  rw [← h.identifiers_eq hhead, List.mem_cons, List.mem_append] at hword
  rcases hword with hword | hword | hword
  · rw [String.toList_inj.mp hword] at hkeyword
    exact hapart _ (List.mem_append_left _ declaration.access_mem_accessWords) hkeyword
  · rcases List.mem_map.mp hword with ⟨modifier, hmodifier, hsame⟩
    rw [← String.toList_inj.mp hsame] at hkeyword
    exact hapart _ (List.mem_append_right _ (declaration.modifiers_mem modifier hmodifier))
      hkeyword
  · exact declaration.not_mem_identifiersOf_type hreserved hword

end MemberReading

/-! ## Sources of declarations -/

variable {declarations : List PropertyDeclaration}

/-- A word in a source of declarations, with white space behind it, stands in one of
them. -/
theorem exists_declaration_of_word {word : String} {blank : Char}
    (hword : ∀ c ∈ word.toList, c.isLower = true)
    (h : declarations.flatMap PropertyDeclaration.text =
      before ++ word.toList ++ blank :: after) :
    ∃ earlier declaration later skipped ahead, declarations = earlier ++ declaration :: later ∧
      declaration.text = skipped ++ word.toList ++ blank :: ahead ∧
      before = earlier.flatMap PropertyDeclaration.text ++ skipped ∧
      after = ahead ++ later.flatMap PropertyDeclaration.text := by
  have hnewline : '\n' ∉ word.toList := by
    intro hmem
    cases hword _ hmem
  exact exists_of_flatMap_eq_append_word
    (fun declaration _ => ⟨'\n', declaration.getLast?_text, hnewline⟩) h

-- What is left of a text has the same end.
theorem endsWord_of_append {first second : List Char} (h : EndsWord (first ++ second)) :
    EndsWord second := by
  intro c hc
  apply h c
  rw [List.getLast?_append, hc]
  rfl

/-- A match can start only where a declaration does. -/
theorem exists_declarations_of_access
    (hcontent : declarations.flatMap PropertyDeclaration.text = before ++ after)
    (hfront : IsFront before front) (hafter : after = front ++ rest) :
    ∃ earlier declaration later, declarations = earlier ++ declaration :: later ∧
      before = earlier.flatMap PropertyDeclaration.text ∧
      after = declaration.text ++ later.flatMap PropertyDeclaration.text := by
  rcases hfront.start with ⟨access, haccess, blank, more, rfl, hblank⟩
  have hplace : declarations.flatMap PropertyDeclaration.text =
      before ++ access.toList ++ blank :: (more ++ rest) := by
    rw [hcontent, hafter]
    simp
  rcases exists_declaration_of_word (plainWords_accessWords access haccess).2 hplace with
    ⟨earlier, declaration, later, skipped, ahead, rfl, htext, rfl, hahead⟩
  -- The word is reserved and no modifier, so it is the first one of the declaration.
  have hreserved : access ∈ reservedWords :=
    List.mem_append_left _ (List.mem_append_left _ haccess)
  have hapart : ∀ word ∈ accessWords, word ∉ memberModifiers := by
    decide
  rcases declaration.eq_access_of_reserved htext (endsWord_of_append hfront.before_endsWord) hblank
    hreserved (hapart access haccess) with ⟨rfl, -⟩
  refine ⟨earlier, declaration, later, rfl, List.append_nil _, ?_⟩
  rw [htext, hafter, List.nil_append, List.append_assoc, List.append_assoc, List.cons_append,
    List.cons_append, hahead]

/-- No member that is read lies across the start of a declaration. -/
theorem clearAt_of_reading {pattern : Pattern} (hpattern : ReadsMember pattern)
    (earlier : List PropertyDeclaration) (declaration : PropertyDeclaration)
    (later : List PropertyDeclaration) :
    pattern.ClearAt (earlier.flatMap PropertyDeclaration.text)
      (declaration.text ++ later.flatMap PropertyDeclaration.text) := by
  intro passed first second back hearlier hafter hfirst hsecond hspans
  rcases hpattern.exists_of_spans hspans with ⟨front, type, gap, name, blanks, stop, h⟩
  have hcontent : (earlier ++ declaration :: later).flatMap PropertyDeclaration.text =
      passed ++ (first ++ second ++ back) := by
    rw [List.flatMap_append, List.flatMap_cons, hearlier, hafter]
    simp
  have hstart : first ++ second ++ back = front ++ (type ++ gap ++ name ++ blanks ++
      stop :: back) := by
    rw [h.text]
    simp
  rcases exists_declarations_of_access hcontent h.isFront hstart with
    ⟨earlier', declaration', later', hsame, rfl, -⟩
  rcases List.append_eq_append_iff.mp hsame with ⟨more, rfl, -⟩ | ⟨more, rfl, hmore⟩
  · -- The match would start behind the place.
    have hnil := congrArg List.length hearlier
    have hpos := List.length_pos_iff.mpr hfirst
    simp only [List.flatMap_append, List.length_append] at hnil
    omega
  · rw [List.flatMap_append] at hearlier
    cases more with
    | nil =>
        rw [List.flatMap_nil] at hearlier
        exact hfirst (List.append_cancel_left hearlier).symm
    | cons other more =>
        -- A whole declaration is read, and there is a brace in it.
        have hbrace : '\x7b' ∈ first := by
          rw [← List.append_cancel_left hearlier, List.flatMap_cons, other.text_eq]
          simp
        have hstop := h.not_isStop_of_mem _ (forall_mem_of_append_eq hsecond h.text _ hbrace)
        cases hstop

/-- What is found is read of a declaration. -/
theorem exists_declaration_of_mem_findAll {pattern : Pattern} (hpattern : ReadsMember pattern)
    {found : Match}
    (h : found ∈ pattern.findAll (declarations.flatMap PropertyDeclaration.text)) :
    ∃ declaration ∈ declarations, ∃ before after,
      pattern.matchAt? (Cursor.between before (declaration.text ++ after)) = some found := by
  rcases exists_between_of_mem_findAll h with ⟨before, after, hcontent, hmatch⟩
  rcases hpattern.exists_of_matchAt? hmatch with ⟨front, gap, name, blanks, stop, rest, hreading⟩
  have hstart : after = front ++ (found.group 1 ++ gap ++ name ++ blanks ++ stop :: rest) := by
    rw [hreading.text]
    simp
  rcases exists_declarations_of_access hcontent hreading.isFront hstart with
    ⟨earlier, declaration, later, rfl, rfl, rfl⟩
  exact ⟨declaration, by simp, _, _, hmatch⟩

/-- A declaration is found if the pattern spans it up to the brace. -/
theorem exists_mem_findAll_of_spans {pattern : Pattern} (hpattern : ReadsMember pattern)
    {declaration : PropertyDeclaration} (hmem : declaration ∈ declarations)
    (hspans : ∀ {before} after, EndsWord before → pattern.Spans before
      (declaration.head ++ declaration.name ++ [' ', '\x7b']) after) :
    ∃ found ∈ pattern.findAll (declarations.flatMap PropertyDeclaration.text), ∃ before after,
      pattern.matchAt? (Cursor.between before (declaration.text ++ after)) = some found := by
  rcases List.append_of_mem hmem with ⟨earlier, later, rfl⟩
  have hbefore : EndsWord (earlier.flatMap PropertyDeclaration.text) := by
    intro c hc
    rcases List.eq_nil_or_concat earlier with rfl | ⟨others, last, rfl⟩
    · cases hc
    · rw [List.concat_eq_append, List.flatMap_append, List.flatMap_singleton,
        List.getLast?_append, last.getLast?_text] at hc
      cases hc
      decide
  rcases exists_matchAt?_of_spans (hspans (" get; set; \x7d\n".toList ++
    later.flatMap PropertyDeclaration.text) hbefore) with ⟨found, hmatch⟩
  -- The text up to the brace, and what comes behind it.
  have htext : declaration.head ++ declaration.name ++ [' ', '\x7b'] ++
      (" get; set; \x7d\n".toList ++ later.flatMap PropertyDeclaration.text) =
        declaration.text ++ later.flatMap PropertyDeclaration.text := by
    rw [declaration.text_eq]
    simp
  rw [htext] at hmatch
  rw [List.flatMap_append, List.flatMap_cons]
  exact ⟨found, mem_findAll_of_matchAt? hmatch (by simp [declaration.text_eq])
    (clearAt_of_reading hpattern earlier declaration later), _, _, hmatch⟩

namespace PropertyDeclaration

variable (declaration : PropertyDeclaration)

-- At the end of a word another one can start.
theorem spans_edge (hbefore : EndsWord before) (rest : List Char) :
    Spans .wordEdge before [] (declaration.access.toList ++ rest) :=
  spans_wordEdge declaration.plainWords_access (List.mem_singleton_self _) hbefore rest

-- The pattern of properties wants at least one character.
theorem textOf_type_ne_nil : textOf declaration.type ≠ [] := by
  rcases declaration.type_derives.derives.exists_cons with ⟨token, rest, htokens, hfirst⟩
  have htype := declaration.type_derives.isTypeToken token (by simp [htokens])
  rw [htokens, textOf_cons]
  rcases hfirst with ⟨chars, rfl⟩ | ⟨name, rfl⟩ | rfl
  · exact List.append_ne_nil_of_left_ne_nil htype.1.ne_nil _
  · cases htype
  · cases htype

/-- The pattern of properties spans a declaration up to the brace. -/
theorem spans_property (after : List Char) (hbefore : EndsWord before) :
    property.Spans before (declaration.head ++ declaration.name ++ [' ', '\x7b']) after := by
  have htype (before after : List Char) : (atLeastOne isTypeChar).Spans before
      (spaced declaration.modifiers ++ textOf declaration.type) after := by
    have hchars : ∀ c ∈ spaced declaration.modifiers ++ textOf declaration.type,
        isTypeChar c = true := by
      intro c hc
      apply declaration.isTypeChar_of_mem_head c
      rw [head, declarationHead]
      simp only [List.mem_append, List.mem_cons] at hc ⊢
      tauto
    rcases List.exists_cons_of_ne_nil (List.append_ne_nil_of_right_ne_nil
      (spaced declaration.modifiers) declaration.textOf_type_ne_nil) with ⟨first, rest, hcons⟩
    rw [hcons, List.forall_mem_cons] at hchars
    exact spans_name_iff.mpr ⟨first, rest, hcons, hchars⟩
  have hrow : (inRow property.row).Spans before ([] ++ (declaration.access.toList ++ ([' '] ++
      ((spaced declaration.modifiers ++ textOf declaration.type) ++ ([' '] ++
        (declaration.name ++ ([' '] ++ (['\x7b'] ++ [])))))))) after :=
    .seq (by simpa using declaration.spans_edge hbefore _) <|
      .seq (spans_words declaration.access_mem _ _) <| .seq (spans_space _ _) <|
        .seq (spans_group_iff.mpr (htype _ _)) <| .seq (spans_space _ _) <|
          .seq (spans_group_iff.mpr (spans_name_iff.mpr declaration.name_spells)) <|
            .seq (.stretch (by decide)) <| .seq (.one (by decide)) .literal
  rw [spans_inRow_row] at hrow
  simpa [head, declarationHead] using hrow

/-- The pattern of members spans a declaration up to the brace if the type is
capitalized. -/
theorem spans_member (hcapital : IsCapitalized declaration.type) (after : List Char)
    (hbefore : EndsWord before) :
    member.Spans before (declaration.head ++ declaration.name ++ [' ', '\x7b']) after := by
  have htype (before after : List Char) :
      memberType.Spans before (textOf declaration.type) after := by
    rcases hcapital with ⟨first, rest, more, htokens, hfirst⟩
    have hchars := declaration.type_derives.isTypeChar_of_mem_textOf
    have htext : textOf declaration.type = first :: (rest ++ textOf more) := by
      rw [htokens]
      rfl
    rw [htext] at hchars ⊢
    exact .seq (.one hfirst) (.stretch (List.forall_mem_cons.mp hchars).2)
  -- The pattern of members spells a name out as a letter and a stretch.
  rcases declaration.name_spells with ⟨letter, others, hname, hletter, hothers⟩
  have hrow : (inRow member.row).Spans before ([] ++ (declaration.access.toList ++ ([' '] ++
      (spaced declaration.modifiers ++ (textOf declaration.type ++ ([' '] ++
        ([letter] ++ (others ++ ([' '] ++ (['\x7b'] ++ [])))))))))) after :=
    .seq (by simpa using declaration.spans_edge hbefore _) <|
      .seq (spans_words declaration.access_mem_accessWords _ _) <| .seq (spans_space _ _) <|
        .seq (spans_modifiers declaration.modifiers_mem _ _) <|
          .seq (spans_group_iff.mpr (htype _ _)) <| .seq (spans_space _ _) <|
            .seq (.one (by rw [isLetter_of_isCapital hletter]; rfl)) <|
              .seq (.stretch fun c hc => isWord_of_isNamePart (hothers c hc)) <|
                .seq (.stretch (by decide)) <| .seq (.one (by decide)) .literal
  rw [spans_inRow_row] at hrow
  simpa [head, declarationHead, hname] using hrow

end PropertyDeclaration

/-- What the pattern of properties finds is the name of a declaration, and never the head of
the declaration of a type. -/
theorem exists_of_mem_findAll_property {found : Match}
    (h : found ∈ property.findAll (declarations.flatMap PropertyDeclaration.text)) :
    isDeclaration found = false ∧
      ∃ declaration ∈ declarations, found.group 2 = declaration.name := by
  rcases exists_declaration_of_mem_findAll readsMember_property h with
    ⟨declaration, hmem, before, after, hmatch⟩
  rcases readsMember_property.exists_of_matchAt? hmatch with
    ⟨front, gap, name, blanks, stop, rest, htype⟩
  rcases exists_memberReading_name hmatch with ⟨front, type, gap, blanks, stop, rest, hname⟩
  exact ⟨htype.not_mem_blankSeparated (htype.eq_of_declaration rfl).2, declaration, hmem,
    (hname.eq_of_declaration rfl).1⟩

/-- What the pattern of members keeps has the names of types of a declaration. -/
theorem mem_identifiers_member_iff {declaration : PropertyDeclaration} {found : Match}
    (h : member.matchAt? (Cursor.between before (declaration.text ++ after)) = some found)
    {word : List Char} (hword : isTypeName word = true) :
    word ∈ identifiers (found.group 1) ↔ word ∈ identifiersOf declaration.type := by
  rcases readsMember_member.exists_of_matchAt? h with
    ⟨front, gap, name, blanks, stop, rest, hreading⟩
  exact hreading.mem_identifiers_iff (hreading.eq_of_declaration rfl).2 hword

/-! ## Lists of type arguments -/

/-- A list of type arguments lies in the type of a declaration. -/
theorem exists_declaration_of_scannedIn {inside : List Char}
    (h : ScannedIn (declarations.flatMap PropertyDeclaration.text) inside) :
    ∃ declaration ∈ declarations, ∃ before after,
      textOf declaration.type = before ++ '<' :: (inside ++ '>' :: after) := by
  rcases h with ⟨before, after, hcontent, hscanned⟩
  rcases exists_of_flatMap_eq_append_cons hcontent with
    ⟨earlier, declaration, later, passed, ahead, rfl, htext, -, hahead⟩
  refine ⟨declaration, by simp, ?_⟩
  -- The declaration, with the type in the middle.
  have hplain {words : List String} (h : PlainWords words) (c : Char) (hc : c.isLower = false) :
      ∀ word ∈ words, c ∉ word.toList := by
    intro word hword hmem
    rw [(h word hword).2 c hmem] at hc
    cases hc
  have hname {c : Char} (hc : isNamePart c = false) : c ∉ declaration.name := by
    intro hmem
    rw [declaration.isNamePart_of_mem_name c hmem] at hc
    cases hc
  have hfront : '<' ∉ declaration.access.toList ++ ' ' :: spaced declaration.modifiers := by
    have haccess := hplain declaration.plainWords_access '<' (by decide) _
      (List.mem_singleton_self _)
    have hmodifiers := hplain declaration.plainWords_modifiers '<' (by decide)
    simpa [spaced, haccess] using hmodifiers
  have hparts : (declaration.access.toList ++ ' ' :: spaced declaration.modifiers) ++
      (textOf declaration.type ++ ((' ' :: (declaration.name ++ [' '])) ++
        '\x7b' :: " get; set; \x7d\n".toList)) = passed ++ '<' :: ahead := by
    rw [← htext]
    simp [PropertyDeclaration.text, PropertyDeclaration.head, declarationHead]
  rcases append_eq_append_cons_cases hparts with ⟨rest, hhead, -⟩ | ⟨passed, -, htype⟩
  · exact absurd (by rw [hhead]; simp) hfront
  rcases append_eq_append_cons_cases htype with ⟨rest, hlist, rfl⟩ | ⟨passed, -, hrear⟩
  · rw [List.append_assoc] at hahead
    rcases append_eq_append_cons_cases hahead.symm with ⟨closed, rfl, -⟩ | ⟨more, rfl, hmore⟩
    · exact ⟨passed, closed, hlist⟩
    · -- The list would reach across the brace.
      exfalso
      rw [List.append_assoc] at hmore
      rcases append_eq_append_cons_cases hmore with ⟨closed, hclosed, -⟩ | ⟨others, rfl, hbrace⟩
      · have hmem : '>' ∈ ' ' :: (declaration.name ++ [' ']) := by
          rw [hclosed]
          simp
        have hnot := hname (c := '>') (by decide)
        simp [hnot] at hmem
      · cases others with
        | nil => cases (List.cons.inj hbrace).1
        | cons c others =>
            have hc : c = '\x7b' := (List.cons.inj hbrace).1.symm
            rcases hscanned with ⟨first, second, others', hinside, hfirst, hchars⟩
            have hmem : '\x7b' ∈ first :: second :: others' := by
              rw [← hinside, hc]
              simp
            rcases List.mem_cons.mp hmem with hmem | hmem
            · rw [← hmem] at hfirst
              cases hfirst
            · have hbrace := hchars _ hmem
              cases hbrace
  · exfalso
    have hmem : '<' ∈ (' ' :: (declaration.name ++ [' '])) ++
        '\x7b' :: " get; set; \x7d\n".toList := by
      rw [hrear]
      simp
    have hnot := hname (c := '<') (by decide)
    simp [hnot] at hmem

/-- What is reported of a list is reported of the type of a declaration. -/
theorem exists_declaration_of_mem_foundTypes {name : String}
    (h : name ∈ foundTypes builtins typeArguments 1
      (declarations.flatMap PropertyDeclaration.text)) :
    ReportedType builtins name ∧
      ∃ declaration ∈ declarations, name.toList ∈ identifiersOf declaration.type := by
  rcases mem_foundTypes_typeArguments_iff.mp h with ⟨inside, hinside, hname⟩
  rcases mem_referencedTypes_iff.mp hname with ⟨hreported, hmem⟩
  rcases exists_declaration_of_scannedIn hinside with
    ⟨declaration, hdeclaration, before, after, htype⟩
  refine ⟨hreported, declaration, hdeclaration, ?_⟩
  have hopening : isIdentifierPart '<' = false := by
    decide
  have hclosing : isIdentifierPart '>' = false := by
    decide
  rw [← declaration.type_derives.derives.identifiers_eq declaration.type_derives.sound, htype,
    identifiers_append_cons hopening, identifiers_append_cons hclosing]
  simp [hmem]

/-! ## The names of a source -/

/-- No type is declared in declarations of properties. -/
theorem not_declares (declarations : List PropertyDeclaration) (identifier : List Char) :
    ¬Declares LanguageFamily.csharp.typeKeywords
      (declarations.flatMap PropertyDeclaration.text) identifier := by
  rintro ⟨before, keyword, hkeyword, blanks, after, hcontent, hbefore, hblanks, -, -⟩
  rcases List.exists_cons_of_ne_nil hblanks.1 with ⟨blank, more, rfl⟩
  have hplace : declarations.flatMap PropertyDeclaration.text =
      before ++ keyword.toList ++ blank :: (more ++ identifier ++ after) := by
    rw [hcontent]
    simp
  have hlower := (LanguageFamily.csharp.plainWords_typeKeywords keyword hkeyword).2
  rcases exists_declaration_of_word hlower hplace with
    ⟨earlier, declaration, later, skipped, ahead, rfl, htext, rfl, -⟩
  -- A declaring word is reserved as well, but no declaration of a property starts with one.
  have hreserved : ∀ word ∈ LanguageFamily.csharp.typeKeywords,
      word ∈ reservedWords ∧ word ∉ memberModifiers ∧ word ∉ accessWords := by
    decide
  rcases hreserved keyword hkeyword with ⟨hreserved, hmodifier, haccess⟩
  rcases declaration.eq_access_of_reserved htext (endsWord_of_append hbefore)
    (hblanks.2 blank List.mem_cons_self) hreserved hmodifier with ⟨-, rfl⟩
  exact haccess declaration.access_mem_accessWords

/-- The names of a C# source of properties. -/
theorem extract_propertyDeclarations (declarations : List PropertyDeclaration) :
    let names := extract (declarations.flatMap PropertyDeclaration.text)
    names.classes = ∅ ∧
      (∀ name, name ∈ names.properties ↔
        ∃ declaration ∈ declarations, name.toList = declaration.name) ∧
      ∀ name, name ∈ names.types ↔ ReportedType builtins name ∧
        ∃ declaration ∈ declarations, name.toList ∈ identifiersOf declaration.type := by
  refine ⟨?_, fun name => ?_, fun name => ?_⟩
  · refine NameSet.eq_of_mem_iff fun name => iff_of_false (fun h => ?_) NameSet.not_mem_empty
    rcases (mem_foundNames_declaredType_iff LanguageFamily.csharp.plainWords_typeKeywords
      name).mp (NameSet.mem_ofList.mp h) with ⟨identifier, hdeclares, -⟩
    exact not_declares declarations identifier hdeclares
  · dsimp only [extract]
    rw [NameSet.mem_ofList, propertyNames, List.mem_map]
    constructor
    · rintro ⟨found, hfound, rfl⟩
      rcases (exists_of_mem_findAll_property (List.mem_filter.mp hfound).1).2 with
        ⟨declaration, hmem, hname⟩
      exact ⟨declaration, hmem, by rw [String.toList_ofList, hname]⟩
    · rintro ⟨declaration, hmem, hname⟩
      rcases exists_mem_findAll_of_spans readsMember_property hmem
        declaration.spans_property with ⟨found, hfound, before, after, hmatch⟩
      rcases exists_memberReading_name hmatch with ⟨front, type, gap, blanks, stop, rest, hreading⟩
      refine ⟨found, List.mem_filter.mpr ⟨hfound, ?_⟩, ?_⟩
      · rw [(exists_of_mem_findAll_property hfound).1]
        rfl
      · rw [(hreading.eq_of_declaration rfl).1, ← hname, String.ofList_toList]
  · dsimp only [extract]
    rw [NameSet.mem_ofList, List.mem_append]
    constructor
    · rintro (h | h)
      · rcases List.mem_flatMap.mp h with ⟨found, hfound, hname⟩
        rcases mem_referencedTypes_iff.mp hname with ⟨hreported, hmem⟩
        rcases exists_declaration_of_mem_findAll readsMember_member hfound with
          ⟨declaration, hdeclaration, before, after, hmatch⟩
        exact ⟨hreported, declaration, hdeclaration,
          (mem_identifiers_member_iff hmatch hreported.1).mp hmem⟩
      · exact exists_declaration_of_mem_foundTypes h
    · rintro ⟨hreported, declaration, hdeclaration, hmem⟩
      left
      rcases declaration.type_derives.isCapitalized_or with hcapital | hnone
      · rcases exists_mem_findAll_of_spans readsMember_member hdeclaration
          (declaration.spans_member hcapital) with ⟨found, hfound, before, after, hmatch⟩
        exact List.mem_flatMap.mpr ⟨found, hfound, mem_referencedTypes_iff.mpr
          ⟨hreported, (mem_identifiers_member_iff hmatch hreported.1).mpr hmem⟩⟩
      · have htype := hnone _ hmem
        rw [hreported.1] at htype
        cases htype

/-- A property with arguments inside arguments in its type. -/
def genericProperty : PropertyDeclaration where
  access := "public"
  modifiers := ["static", "required"]
  type := [.word "Dictionary".toList, .less, .word "Key".toList, .comma, .word "Page".toList,
    .less, .word "Order".toList, .greater, .brackets, .greater]
  name := "Orders".toList
  access_mem := by decide
  modifiers_mem := by decide
  type_derives := .applied (.word _ (by decide)) ⟨'D', "ictionary".toList, [], rfl, rfl⟩
    (.moreArguments (.argument (.word _ (by decide)))
      (.array (.applied (.word _ (by decide)) ⟨'P', "age".toList, [], rfl, rfl⟩
        (.argument (.word _ (by decide))))))
  name_spells := ⟨'O', "rders".toList, rfl, rfl, by decide⟩

/-- A property that may be missing. -/
def nullableProperty : PropertyDeclaration where
  access := "internal"
  modifiers := []
  type := [.word "Customer".toList, .question]
  name := "By".toList
  access_mem := by decide
  modifiers_mem := List.forall_mem_nil _
  type_derives := .nullable (.word _ (by decide))
  name_spells := ⟨'B', "y".toList, rfl, rfl, by decide⟩

/-- Of the names in the types, `Dictionary` comes with the language. -/
theorem extract_propertyDeclarations_generic :
    let names := extract
      ("public static required Dictionary<Key, Page<Order>[]> Orders \x7b get; set; \x7d\n" ++
        "internal Customer? By \x7b get; set; \x7d\n").toList
    names.classes = ∅ ∧ (∀ name, name ∈ names.properties ↔ name ∈ ["Orders", "By"]) ∧
      ∀ name, name ∈ names.types ↔ name ∈ ["Key", "Page", "Order", "Customer"] := by
  have hnames := extract_propertyDeclarations [genericProperty, nullableProperty]
  have htext : [genericProperty, nullableProperty].flatMap PropertyDeclaration.text =
      ("public static required Dictionary<Key, Page<Order>[]> Orders \x7b get; set; \x7d\n" ++
        "internal Customer? By \x7b get; set; \x7d\n").toList := by
    decide
  have htypes : reportedAmong builtins ([genericProperty, nullableProperty].flatMap fun property =>
      identifiersOf property.type) = ["Key", "Page", "Order", "Customer"] := by
    decide
  rw [htext] at hnames
  refine ⟨hnames.1, fun name => ?_, fun name => ?_⟩
  · rw [hnames.2.1]
    simp [genericProperty, nullableProperty, ← String.toList_inj]
  · rw [hnames.2.2, ← List.mem_flatMap, ← mem_reportedAmong_iff, htypes]

end Chunking.CSharp
