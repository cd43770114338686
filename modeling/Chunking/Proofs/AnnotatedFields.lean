import Chunking.Proofs.ConstructorTexts
import Chunking.Proofs.FieldLines
import Chunking.Proofs.ParameterReading

/-!
# Sources of annotated fields

A source that is made of fields with a type, one on a line, has the names of the fields
as its properties, and its types are those that the lines mention.

The pattern of fields matches at the start of a line and nowhere else, but the white
space in it may be newlines, and the words that it takes for modifiers can be names as
well. So it is not the lines that keep a match from going astray. It is the characters
that come only once. Up to the first semicolon or equals sign there is one text to read,
and the colon cuts it in two. What is before the colon ends with the name, and what is
behind it has the identifiers of the type.

Nothing else is found. Without a parenthesis there is no constructor, and no type is
declared.

## Main definitions

* `EcmaScript.FieldReading`: A text that the pattern of fields reads.

## Theorems

* `EcmaScript.FieldReading.eq_of_line`: What is read at the start of a line.
* `EcmaScript.clearAt_field`: No match goes on across the start of a line.
* `EcmaScript.exists_line_of_mem_findAll`, `EcmaScript.exists_mem_findAll_of_line`: What
  is found.
* `EcmaScript.extract?_fieldLines`: The names of a source of fields.
-/

namespace Chunking.EcmaScript

open Text Pattern

/-- The type of a field, as the pattern has it. -/
def fieldType : Pattern :=
  seq (one isIdentifierStart) (stretch false isFieldTypeChar)

/-- What comes before the name of a field. -/
def fieldFront : List Pattern :=
  [lineStart, stretch true ([' ', '\t'].contains ·), Pattern.modifiers fieldModifiers]

/-- What comes between the name and the colon. -/
def fieldMark : List Pattern :=
  [blanks, Pattern.optional (one (['!', '?'].contains ·)), blanks]

/-- A character that the pattern takes between the name and the colon. -/
def isMarkChar (c : Char) : Bool :=
  isBlank c || ['!', '?'].contains c

/-- The text is read as a field: modifiers, a name, perhaps a mark, a colon, a type with
white space around it, and the character that tells a field. -/
structure FieldReading (before after front name mark type : List Char) (stop : Char)
    (rest : List Char) : Prop where
  text : after = front ++ name ++ mark ++ ':' :: type ++ stop :: rest
  before_last : ∀ c, before.getLast? = some c → c = '\n'
  front_last : ∀ c, front.getLast? = some c → isBlank c = true
  front_mem : ∀ c ∈ front, isBlank c = true ∨ c.isLower = true
  name_isIdentifier : IsIdentifier name
  mark_mem : ∀ c ∈ mark, isMarkChar c = true
  type_mem : ∀ c ∈ type, isFieldTypeChar c = true ∨ isBlank c = true
  stop_isStop : isStop fieldStops stop = true

/-! ## Matches -/

variable {before after front name mark type text rest : List Char} {stop : Char}

-- Where the parts stand does not matter, but for the front: it is at the start of a line.
theorem fieldReading_of_spans {before₁ before₂ before₃ after₁ after₂ after₃ after₄ : List Char}
    {gap gap' : List Char} (hfront : (inRow fieldFront).Spans before front after₁)
    (hname : identifier.Spans before₁ name after₂)
    (hmark : (inRow fieldMark).Spans before₂ mark after₃)
    (hgap : ∀ c ∈ gap, isBlank c = true) (htype : fieldType.Spans before₃ type after₄)
    (hgap' : ∀ c ∈ gap', isBlank c = true) (hstop : isStop fieldStops stop = true)
    (htext : after = front ++ name ++ mark ++ ':' :: (gap ++ type ++ gap') ++ stop :: rest) :
    FieldReading before after front name mark (gap ++ type ++ gap') stop rest := by
  have hblank : ∀ c, isBlank c = true → isBlank c = true ∨ c.isLower = true := fun _ hc => .inl hc
  have hmodifier : ∀ word ∈ fieldModifiers, ∀ c ∈ word.toList,
      isBlank c = true ∨ c.isLower = true := by
    decide
  have hspaces : ∀ c, [' ', '\t'].contains c = true → isBlank c = true := by
    have hall : ∀ c ∈ [' ', '\t'], isBlank c = true := by
      decide
    exact fun c hc => hall c (List.contains_iff_mem.mp hc)
  rcases hfront.exists_of_seq with ⟨nothing, more, rfl, hline, hmore⟩
  rcases hmore.exists_of_seq with ⟨spaces, modifiers, rfl, hspans, hmodifiers⟩
  rw [spans_inRow_singleton_iff] at hmodifiers
  have hindent : ∀ c ∈ spaces, isBlank c = true := fun c hc =>
    hspaces c (hspans.forall_of_stretch c hc)
  cases hline with
  | lineStart hbefore =>
      refine ⟨htext, hbefore, ?_, ?_, spans_name_iff.mp hname, ?_, ?_, hstop⟩
      · rw [List.nil_append]
        exact getLast?_append_of_kind (fun c hc => hindent c (List.mem_of_getLast? hc))
          (getLast?_of_spans_modifiers hmodifiers)
      · rw [List.nil_append, List.forall_mem_append]
        exact ⟨fun c hc => .inl (hindent c hc),
          hmodifiers.forall_mem (spansOnly_modifiers hmodifier hblank)⟩
      · have hmarkBlank : ∀ c, isBlank c = true → isMarkChar c = true := fun c hc => by
          rw [isMarkChar, hc, Bool.true_or]
        have hmarkOther : ∀ c, ['!', '?'].contains c = true → isMarkChar c = true := fun c hc => by
          rw [isMarkChar, hc, Bool.or_true]
        have hnil : ∀ c ∈ ([] : List Char), isMarkChar c = true := by
          simp
        exact hmark.forall_mem ⟨hmarkBlank, ⟨hmarkOther, hnil⟩, hmarkBlank, hnil⟩
      · simp only [List.forall_mem_append]
        refine ⟨⟨fun c hc => .inr (hgap c hc), ?_⟩, fun c hc => .inr (hgap' c hc)⟩
        refine htype.forall_mem ⟨fun c hc => .inl ?_, fun _ hc => .inl hc⟩
        exact isFieldTypeChar_of_isIdentifierChar (isIdentifierChar_of_isIdentifierStart hc)

theorem row_field : field.row = fieldFront ++ group 1 identifier ::
    (fieldMark ++ [literal [':'], blanks, group 2 fieldType, blanks, one (isStop fieldStops)]) :=
  rfl

-- What comes behind the name.
theorem exists_of_spans_rear
    (h : (inRow (fieldMark ++ [literal [':'], blanks, group 2 fieldType, blanks,
      one (isStop fieldStops)])).Spans before text after) :
    ∃ mark gap type gap' stop, text = mark ++ ':' :: (gap ++ type ++ gap') ++ [stop] ∧
      (∃ before after, (inRow fieldMark).Spans before mark after) ∧
      (∀ c ∈ gap, isBlank c = true) ∧ (∃ before after, fieldType.Spans before type after) ∧
      (∀ c ∈ gap', isBlank c = true) ∧ isStop fieldStops stop = true := by
  rcases spans_inRow_append h with ⟨mark, more, rfl, hmark, hmore⟩
  rcases hmore.exists_of_seq with ⟨colon, more, rfl, hcolon, hmore⟩
  rcases hmore.exists_of_seq with ⟨gap, more, rfl, hgap, hmore⟩
  rcases hmore.exists_of_seq with ⟨type, more, rfl, htype, hmore⟩
  rcases exists_of_spans_stop hmore with ⟨gap', stop, rfl, hgap', hstop⟩
  rw [hcolon.eq_of_literal]
  exact ⟨mark, gap, type, gap', stop, by simp, ⟨_, _, hmark⟩, hgap.forall_of_stretch,
    ⟨_, _, spans_group_iff.mp htype⟩, hgap', hstop⟩

theorem exists_fieldReading_of_spans (h : field.Spans before text after) :
    ∃ front name mark type stop,
      FieldReading before (text ++ after) front name mark type stop after := by
  rw [← spans_inRow_row, row_field] at h
  rcases spans_inRow_append h with ⟨front, more, rfl, hfront, hmore⟩
  rcases hmore.exists_of_seq with ⟨name, more, rfl, hname, hmore⟩
  rcases exists_of_spans_rear hmore with
    ⟨mark, gap, type, gap', stop, rfl, ⟨_, _, hmark⟩, hgap, ⟨_, _, htype⟩, hgap', hstop⟩
  exact ⟨front, name, mark, _, stop, fieldReading_of_spans hfront (spans_group_iff.mp hname) hmark
    hgap htype hgap' hstop (by simp)⟩

/-- A match reads a field, and keeps its name. -/
theorem exists_fieldReading_name {found : Match}
    (h : field.matchAt? (Cursor.between before after) = some found) :
    ∃ front mark type stop rest,
      FieldReading before after front (found.group 1) mark type stop rest := by
  rcases exists_spans_of_matchAt? row_field rfl rfl rfl h with
    ⟨front, more, rest, hafter, hfront, hname, hmore⟩
  rcases exists_of_spans_rear hmore with
    ⟨mark, gap, type, gap', stop, rfl, ⟨_, _, hmark⟩, hgap, ⟨_, _, htype⟩, hgap', hstop⟩
  exact ⟨front, mark, _, stop, rest, fieldReading_of_spans hfront hname hmark hgap htype hgap'
    hstop (by simpa using hafter)⟩

/-- A match reads a field, and keeps its type without the white space around it. -/
theorem exists_fieldReading_type {found : Match}
    (h : field.matchAt? (Cursor.between before after) = some found) :
    ∃ front name mark gap gap' stop rest,
      FieldReading before after front name mark (gap ++ found.group 2 ++ gap') stop rest ∧
        (∀ c ∈ gap, isBlank c = true) ∧ ∀ c ∈ gap', isBlank c = true := by
  have hrow : field.row = (fieldFront ++ group 1 identifier :: (fieldMark ++
      [literal [':'], blanks])) ++ group 2 fieldType :: [blanks, one (isStop fieldStops)] :=
    rfl
  rcases exists_spans_of_matchAt? hrow rfl rfl rfl h with
    ⟨passed, more, rest, hafter, hpassed, htype, hmore⟩
  rcases spans_inRow_append hpassed with ⟨front, passed, rfl, hfront, hpassed⟩
  rcases hpassed.exists_of_seq with ⟨name, passed, rfl, hname, hpassed⟩
  rcases spans_inRow_append hpassed with ⟨mark, passed, rfl, hmark, hpassed⟩
  rcases hpassed.exists_of_seq with ⟨colon, gap, rfl, hcolon, hgap⟩
  rw [spans_inRow_singleton_iff] at hgap
  have hblanks := hgap.forall_of_stretch
  rcases exists_of_spans_stop hmore with ⟨gap', stop, rfl, hgap', hstop⟩
  rw [hcolon.eq_of_literal] at hafter
  exact ⟨front, name, mark, gap, gap', stop, rest, fieldReading_of_spans hfront
    (spans_group_iff.mp hname) hmark hblanks htype hgap' hstop (by simpa using hafter), hblanks,
    hgap'⟩

/-! ## What is read of a line -/

namespace FieldReading

variable (h : FieldReading before after front name mark type stop rest)

include h

theorem not_mem_label {c : Char} (hblank : isBlank c = false) (hc : isIdentifierChar c = false)
    (hmark : c ∉ ['!', '?']) : c ∉ front ++ name ++ mark := by
  simp only [List.mem_append, not_or]
  refine ⟨⟨fun hmem => ?_, fun hmem => ?_⟩, fun hmem => ?_⟩
  · rcases h.front_mem c hmem with hmem | hmem
    · rw [hblank] at hmem
      cases hmem
    · rw [isIdentifierChar_of_isLower hmem] at hc
      cases hc
  · rw [h.name_isIdentifier.forall_isIdentifierChar c hmem] at hc
    cases hc
  · have hchar := h.mark_mem c hmem
    rw [isMarkChar, hblank, Bool.false_or, List.contains_iff_mem] at hchar
    exact hmark hchar

/-- Nothing tells a field before its end. -/
theorem not_isStop_of_mem_body :
    ∀ c ∈ front ++ name ++ mark ++ ':' :: type, isStop fieldStops c = false := by
  have hnone {c : Char} (hblank : isBlank c = false) (hc : isFieldTypeChar c = false)
      (hmark : c ∉ [':', '!', '?']) : c ∉ front ++ name ++ mark ++ ':' :: type := by
    have hidentifier : isIdentifierChar c = false := by
      by_contra hchar
      rw [isFieldTypeChar_of_isIdentifierChar (by simpa using hchar)] at hc
      cases hc
    rw [List.mem_cons, not_or] at hmark
    rw [List.mem_append, List.mem_cons, not_or, not_or]
    refine ⟨h.not_mem_label hblank hidentifier hmark.2, hmark.1, fun hmem => ?_⟩
    rcases h.type_mem c hmem with hmem | hmem
    · rw [hc] at hmem
      cases hmem
    · rw [hblank] at hmem
      cases hmem
  have hstops : ∀ d ∈ fieldStops,
      isBlank d = false ∧ isFieldTypeChar d = false ∧ d ∉ [':', '!', '?'] := by
    decide
  exact not_isStop_of_not_mem fun d hd =>
    hnone (hstops d hd).1 (hstops d hd).2.1 (hstops d hd).2.2

/-- At the start of a line the name of the line is read, and its type. -/
theorem eq_of_line {line : FieldLine} {more : List Char} (hafter : after = line.text ++ more) :
    name = line.name ∧ type = ' ' :: line.typeText := by
  have htext : (front ++ name ++ mark ++ ':' :: type) ++ stop :: rest =
      (line.label ++ ':' :: ' ' :: line.typeText) ++ ';' :: '\n' :: more := by
    rw [← h.text, hafter]
    simp [FieldLine.text]
  have hbody := (append_cons_inj_of_first h.not_isStop_of_mem_body h.stop_isStop
    line.not_isStop_of_mem_body rfl htext).1
  -- The colon comes once before the type.
  have hcolon {label : List Char} (h : ':' ∉ label) : ∀ c ∈ label, (c == ':') = false := by
    intro c hc
    rw [beq_eq_false_iff_ne]
    rintro rfl
    exact h hc
  rcases append_cons_inj_of_first (hcolon (h.not_mem_label (by decide) (by decide) (by decide)))
    rfl (hcolon (line.not_mem_label (by decide) (by decide))) rfl hbody with ⟨hlabel, -, rfl⟩
  have hmark : ∀ c ∈ mark, isIdentifierChar c = false := by
    intro c hc
    have hmarks : ∀ c ∈ ['!', '?'], isIdentifierChar c = false := by
      decide
    rcases Bool.or_eq_true_iff.mp (h.mark_mem c hc) with hblank | hother
    · exact isIdentifierChar_of_isBehindName (by rw [isBehindName, hblank, Bool.true_or])
    · exact hmarks c (List.contains_iff_mem.mp hother)
  exact ⟨(h.name_isIdentifier.append_inj line.name_isAscii.isIdentifier h.front_last
    line.isBlank_of_getLast?_front hmark line.isIdentifierChar_of_mem_mark hlabel).2, rfl⟩

end FieldReading

/-- A match at the start of a line keeps its name, and the identifiers of its type. -/
theorem groups_of_line {line : FieldLine} {more : List Char} {found : Match}
    (h : field.matchAt? (Cursor.between before (line.text ++ more)) = some found) :
    found.group 1 = line.name ∧ identifiers (found.group 2) = identifiersOf line.type := by
  rcases exists_fieldReading_name h with ⟨front, mark, type, stop, rest, hname⟩
  rcases exists_fieldReading_type h with
    ⟨front, name, mark, gap, gap', stop, rest, htype, hgap, hgap'⟩
  refine ⟨(hname.eq_of_line rfl).1, ?_⟩
  have hspace : isIdentifierPart ' ' = false := by
    decide
  rw [← identifiers_padded hgap hgap', (htype.eq_of_line rfl).2, identifiers_cons hspace,
    line.identifiers_typeText]

/-! ## Sources of lines -/

variable {lines : List FieldLine}

/-- A place at the start of a line is between two lines. -/
theorem exists_lines_of_append (h : lines.flatMap FieldLine.text = before ++ after)
    (hbefore : ∀ c, before.getLast? = some c → c = '\n') :
    ∃ earlier later, lines = earlier ++ later ∧ before = earlier.flatMap FieldLine.text ∧
      after = later.flatMap FieldLine.text := by
  rcases List.eq_nil_or_concat before with rfl | ⟨passed, last, rfl⟩
  · exact ⟨[], lines, rfl, rfl, h.symm⟩
  · rw [List.concat_eq_append] at h hbefore ⊢
    have hlast := hbefore last (by simp)
    subst hlast
    rw [List.append_assoc, List.singleton_append] at h
    rcases exists_of_flatMap_eq_append_cons h with
      ⟨earlier, line, later, front, back, rfl, htext, rfl, rfl⟩
    -- The newline is the last character of its line.
    have hfree : ∀ c ∈ line.label ++ ':' :: ' ' :: line.typeText ++ [';'], (c == '\n') = false := by
      intro c hc
      rw [beq_eq_false_iff_ne]
      rintro rfl
      have hbody := line.not_mem_body (c := '\n') (by decide) (by decide)
      rcases List.mem_append.mp hc with hc | hc
      · exact hbody hc
      · simp at hc
    have hends : (line.label ++ ':' :: ' ' :: line.typeText ++ [';']) ++ '\n' :: [] =
        front ++ '\n' :: back := by
      rw [← htext]
      simp [FieldLine.text]
    rcases append_cons_inj_of_only hfree (by simp) rfl hends with ⟨rfl, -, rfl⟩
    exact ⟨earlier ++ [line], later, by simp, by simp [FieldLine.text], by simp⟩

/-- No field that is read lies across the start of a line. -/
theorem clearAt_field (earlier : List FieldLine) (after : List Char) :
    field.ClearAt (earlier.flatMap FieldLine.text) after := by
  intro passed first second back hearlier _ hfirst hsecond hspans
  rcases exists_fieldReading_of_spans hspans with ⟨front, name, mark, type, stop, h⟩
  rcases exists_lines_of_append hearlier h.before_last with ⟨_, more, -, -, rfl⟩
  -- A whole line is read, and there is a semicolon in it.
  cases more with
  | nil => exact hfirst rfl
  | cons line more =>
      have hmem := forall_mem_of_append_eq hsecond h.text ';' (by simp [FieldLine.text])
      have hstop := h.not_isStop_of_mem_body _ hmem
      cases hstop

theorem spans_field (line : FieldLine) (hbefore : ∀ c, before.getLast? = some c → c = '\n')
    (after : List Char) :
    field.Spans before (line.label ++ ':' :: ' ' :: line.typeText ++ [';']) after := by
  have hmodifiers (modifiers : List (String × Nat))
      (h : ∀ modifier ∈ modifiers, modifier.1 ∈ fieldModifiers) (before after : List Char) :
      (Pattern.modifiers fieldModifiers).Spans before (modifierText modifiers) after := by
    induction modifiers generalizing before with
    | nil => exact .stop
    | cons modifier modifiers ih =>
        rw [List.forall_mem_cons] at h
        have hblanks : IsBlanks (' ' :: List.replicate modifier.2 ' ') := by
          refine ⟨List.cons_ne_nil _ _, fun c hc => ?_⟩
          rw [← List.replicate_succ] at hc
          rw [(List.mem_replicate.mp hc).2]
          decide
        exact .more (.seq (spans_words h.1 _ _) (spans_someBlanks_iff.mpr hblanks)) (ih h.2 _)
  have hmark (before after : List Char) :
      (Pattern.optional (one (['!', '?'].contains ·))).Spans before line.mark after := by
    have hmem := line.mark_mem
    simp only [List.mem_cons, List.not_mem_nil, or_false] at hmem
    rcases hmem with hmem | hmem | hmem <;> rw [hmem]
    · exact .right .literal
    · exact .left (.one (by decide))
    · exact .left (.one (by decide))
  have htype (before after : List Char) : fieldType.Spans before line.typeText after := by
    rcases line.writes.exists_cons line.isType line.type_tokens with ⟨first, rest, htext, hfirst⟩
    have hrest := line.isFieldTypeChar_of_mem_typeText
    rw [htext] at hrest ⊢
    exact .seq (.one hfirst) (.stretch (List.forall_mem_cons.mp hrest).2)
  have hindent : ∀ c ∈ List.replicate line.indent ' ', [' ', '\t'].contains c = true := by
    intro c hc
    rw [(List.mem_replicate.mp hc).2]
    decide
  have hrow : (inRow (fieldFront ++ group 1 identifier ::
      (fieldMark ++ [literal [':'], blanks, group 2 fieldType, blanks,
        one (isStop fieldStops)]))).Spans before
        ([] ++ (List.replicate line.indent ' ' ++ (modifierText line.modifiers ++ (line.name ++
          ([] ++ (line.mark ++ ([] ++ ([':'] ++ ([' '] ++ (line.typeText ++ ([] ++ ([';'] ++
            [])))))))))))) after :=
    .seq (.lineStart hbefore) <| .seq (.stretch hindent) <|
      .seq (hmodifiers _ line.modifiers_mem _ _) <|
        .seq (spans_group_iff.mpr (spans_name_iff.mpr line.name_isAscii.isIdentifier)) <|
          .seq (.stretch (by simp)) <| .seq (hmark _ _) <| .seq (.stretch (by simp)) <|
            .seq .literal <| .seq (.stretch (by decide)) <|
              .seq (spans_group_iff.mpr (htype _ _)) <| .seq (.stretch (by simp)) <|
                .seq (.one rfl) .literal
  rw [← row_field, spans_inRow_row] at hrow
  simpa [FieldLine.label, FieldLine.front] using hrow

/-- What the pattern of fields finds is a field on one of the lines. -/
theorem exists_line_of_mem_findAll {found : Match}
    (h : found ∈ field.findAll (lines.flatMap FieldLine.text)) :
    ∃ line ∈ lines, found.group 1 = line.name ∧
      identifiers (found.group 2) = identifiersOf line.type := by
  rcases exists_between_of_mem_findAll h with ⟨before, after, hcontent, hmatch⟩
  rcases exists_fieldReading_name hmatch with ⟨front, mark, type, stop, rest, hreading⟩
  rcases exists_lines_of_append hcontent hreading.before_last with
    ⟨earlier, later, rfl, rfl, rfl⟩
  cases later with
  | nil =>
      have hnothing := hreading.text
      simp at hnothing
  | cons line later =>
      rw [List.flatMap_cons] at hmatch
      exact ⟨line, by simp, groups_of_line hmatch⟩

/-- Every line is found. -/
theorem exists_mem_findAll_of_line {line : FieldLine} (h : line ∈ lines) :
    ∃ found ∈ field.findAll (lines.flatMap FieldLine.text), found.group 1 = line.name ∧
      identifiers (found.group 2) = identifiersOf line.type := by
  rcases List.append_of_mem h with ⟨earlier, later, rfl⟩
  have hbefore : ∀ c, (earlier.flatMap FieldLine.text).getLast? = some c → c = '\n' := by
    rcases List.eq_nil_or_concat earlier with rfl | ⟨others, last, rfl⟩
    · simp
    · intro c hc
      rw [List.concat_eq_append, List.flatMap_append, List.flatMap_singleton,
        List.getLast?_append, last.getLast?_text] at hc
      exact (Option.some.inj hc).symm
  rcases exists_matchAt?_of_spans (spans_field line hbefore
    ('\n' :: later.flatMap FieldLine.text)) with ⟨found, hmatch⟩
  have htext : line.label ++ ':' :: ' ' :: line.typeText ++ [';'] ++
      '\n' :: later.flatMap FieldLine.text = line.text ++ later.flatMap FieldLine.text := by
    simp [FieldLine.text]
  rw [htext] at hmatch
  rw [List.flatMap_append, List.flatMap_cons]
  exact ⟨found, mem_findAll_of_matchAt? hmatch (by simp [FieldLine.text])
    (clearAt_field earlier _), groups_of_line hmatch⟩

/-! ## The names of a source -/

/-- A text without parentheses has no constructors. -/
theorem constructorSites_eq_nil {content : List Char} (h : '(' ∉ content) :
    constructorSites content = [] := by
  have hnone : constructorHead.findAll content = [] := by
    rw [List.eq_nil_iff_forall_not_mem]
    intro found hfound
    rcases exists_head_of_mem_findAll hfound with ⟨before, blanks, rest, rfl, -⟩
    exact h (by simp)
  rw [constructorSites, hnone, List.filterMap_nil]

/-- The names of a source of fields, one on a line. -/
theorem extract?_fieldLines (lines : List FieldLine) :
    ∃ names, extract? (lines.flatMap FieldLine.text) = some names ∧ names.classes = ∅ ∧
      (∀ name, name ∈ names.properties ↔ ∃ line ∈ lines, name.toList = line.name) ∧
      ∀ name, name ∈ names.types ↔ ReportedType builtins name ∧
        ∃ line ∈ lines, name.toList ∈ identifiersOf line.type := by
  have hparenthesis : '(' ∉ lines.flatMap FieldLine.text := by
    intro hmem
    rcases List.mem_flatMap.mp hmem with ⟨line, -, hmem⟩
    rcases List.mem_append.mp hmem with hmem | hmem
    · exact line.not_mem_body (by decide) (by decide) hmem
    · simp at hmem
  have hextract : extract? (lines.flatMap FieldLine.text) = some
      { classes := .ofList (foundNames typeDeclaration 1 (lines.flatMap FieldLine.text))
        properties := .ofList ((fields (lines.flatMap FieldLine.text)).map fun found =>
          String.ofList (found.group 1))
        types := .ofList ((fields (lines.flatMap FieldLine.text)).flatMap fun found =>
          referencedTypes builtins (found.group 2)) } := by
    simp [extract?_eq, constructorSites_eq_nil hparenthesis]
  refine ⟨_, hextract, ?_, fun name => ?_, fun name => ?_⟩
  · refine NameSet.eq_of_mem_iff fun name => iff_of_false (fun h => ?_) NameSet.not_mem_empty
    rcases (mem_foundNames_declaredType_iff LanguageFamily.ecmascript.plainWords_typeKeywords
      name).mp (NameSet.mem_ofList.mp h) with ⟨identifier, hdeclares, -⟩
    exact not_declares lines identifier hdeclares
  · dsimp only
    rw [NameSet.mem_ofList, List.mem_map]
    constructor
    · rintro ⟨found, hfound, rfl⟩
      rcases exists_line_of_mem_findAll (List.mem_filter.mp hfound).1 with ⟨line, hmem, hname, -⟩
      exact ⟨line, hmem, by rw [String.toList_ofList, hname]⟩
    · rintro ⟨line, hmem, hname⟩
      rcases exists_mem_findAll_of_line hmem with ⟨found, hfound, hgroup, -⟩
      refine ⟨found, List.mem_filter.mpr ⟨hfound, ?_⟩, by
        rw [hgroup, ← hname, String.ofList_toList]⟩
      rw [hgroup]
      simpa using line.name_not_label
  · dsimp only
    rw [NameSet.mem_ofList, List.mem_flatMap]
    simp only [mem_referencedTypes_iff]
    constructor
    · rintro ⟨found, hfound, hreported, hmem⟩
      rcases exists_line_of_mem_findAll (List.mem_filter.mp hfound).1 with ⟨line, hline, -, htype⟩
      exact ⟨hreported, line, hline, by rwa [← htype]⟩
    · rintro ⟨hreported, line, hline, hmem⟩
      rcases exists_mem_findAll_of_line hline with ⟨found, hfound, hname, htype⟩
      refine ⟨found, List.mem_filter.mpr ⟨hfound, ?_⟩, hreported, by rwa [htype]⟩
      rw [hname]
      simpa using line.name_not_label

/-- A field with arguments, a union and brackets in its type. -/
def genericLine : FieldLine where
  indent := 2
  modifiers := [("private", 0), ("readonly", 1)]
  name := "orders".toList
  mark := ['?']
  type := [.word "Map".toList, .less, .word "Key".toList, .comma, .word "Order".toList, .bar,
    .word "null".toList, .brackets, .greater]
  typeText := "Map<Key,  Order | null[]>".toList
  modifiers_mem := by decide
  name_isAscii := by decide
  name_not_label := by decide
  mark_mem := by decide
  isType := .applied (.word _) (.moreArguments (.argument (.word _))
    (.union (.word _) (.array (.word _))))
  type_tokens := by decide
  writes := .token nofun (.token nofun (.token nofun (.comma 2 (.token nofun (.token nofun
    (.token nofun (.token nofun (.token nofun .nothing))))))))

/-- A field without modifiers. -/
def plainLine : FieldLine where
  indent := 0
  modifiers := []
  name := "$by".toList
  mark := []
  type := [.word "Customer".toList]
  typeText := "Customer".toList
  modifiers_mem := List.forall_mem_nil _
  name_isAscii := by decide
  name_not_label := by decide
  mark_mem := by decide
  isType := .word _
  type_tokens := by decide
  writes := .token nofun .nothing

/-- Of the names in the types, `Map` and `null` come with the language. -/
theorem extract?_fieldLines_generic :
    ∃ names, extract? ("  private readonly  orders?: Map<Key,  Order | null[]>;\n" ++
        "$by: Customer;\n").toList = some names ∧ names.classes = ∅ ∧
      (∀ name, name ∈ names.properties ↔ name ∈ ["orders", "$by"]) ∧
      ∀ name, name ∈ names.types ↔ name ∈ ["Key", "Order", "Customer"] := by
  have htext : [genericLine, plainLine].flatMap FieldLine.text =
      ("  private readonly  orders?: Map<Key,  Order | null[]>;\n" ++
        "$by: Customer;\n").toList := by
    decide
  have htypes : reportedAmong builtins ([genericLine, plainLine].flatMap fun line =>
      identifiersOf line.type) = ["Key", "Order", "Customer"] := by
    decide
  rcases extract?_fieldLines [genericLine, plainLine] with
    ⟨names, hextract, hclasses, hproperties, hnames⟩
  rw [htext] at hextract
  refine ⟨names, hextract, hclasses, fun name => ?_, fun name => ?_⟩
  · rw [hproperties]
    simp [genericLine, plainLine, ← String.toList_inj]
  · rw [hnames, ← List.mem_flatMap, ← mem_reportedAmong_iff, htypes]

end Chunking.EcmaScript
