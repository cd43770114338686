import Chunking.Proofs.ConstructorTexts
import Chunking.Proofs.Identifiers

/-!
# Properties assigned in constructors

An assignment to `this` in the body of a constructor makes a property. Which
assignments of a source count is a matter of two things. Every assignment in a block is
found, because the text of one does not lie across the start of another. And the block
is the first one behind the parameters of a constructor, whatever stands between.

So a block that has nothing to do with the constructor can be taken for its body, if the
constructor has none of its own. The properties of a source are the ones to be expected
exactly if nothing is assigned in such a block, or nothing that is not a property
anyway.

## Main definitions

* `EcmaScript.Assigns`: The text assigns to a property of `this`.
* `EcmaScript.AssignedBehind`: The first block behind a constructor assigns to it.
* `EcmaScript.Accounted`: The property is a field, a parameter, or assigned in the body
  of a constructor.

## Theorems

* `EcmaScript.mem_assignedProperties_iff`: What is found of the assignments in a text.
* `EcmaScript.properties_accounted_iff`: The properties of a source, and when there are
  no others than those to be expected.
-/

namespace Chunking.EcmaScript

open Text Pattern

/-- The text assigns to a property of `this`: the word stands apart, and there is one
equals sign behind the name and white space. -/
def Assigns (text name : List Char) : Prop :=
  ∃ before blanks after,
    text = before ++ ("this.".toList ++ name ++ blanks ++ '=' :: after) ∧ EndsWord before ∧
      IsIdentifier name ∧ (∀ c ∈ blanks, isBlank c = true) ∧ after.head? ≠ some '='

/-- The name is that of an annotated field. -/
def FieldName (content : List Char) (name : String) : Prop :=
  ∃ found ∈ fields content, String.ofList (found.group 1) = name

/-- The name is that of a parameter of a constructor with an access modifier. -/
def PropertyParameter (content : List Char) (name : String) : Prop :=
  ∃ inside after, HasConstructor content inside after ∧
    name ∈ (listNames inside).flatMap Prod.fst

/-- The first block behind a constructor, with the gap before it, assigns to the
property. -/
def AssignedBehind (content gap : List Char) (name : String) : Prop :=
  ∃ inside after block, HasConstructor content inside after ∧ FirstBlock after gap block ∧
    Assigns block name.toList

/-- The property is a field, a parameter with an access modifier, or assigned in a block
that follows directly on the parameters of a constructor. -/
def Accounted (content : List Char) (name : String) : Prop :=
  FieldName content name ∨ PropertyParameter content name ∨
    ∃ gap, (∀ c ∈ gap, isBlank c = true) ∧ AssignedBehind content gap name

variable {content before text after name blanks : List Char}

/-! ## Assignments -/

/-- What an assignment looks like. -/
theorem spans_assignment_iff :
    assignment.Spans before text after ↔ EndsWord before ∧ ∃ name blanks second,
      text = "this.".toList ++ name ++ blanks ++ '=' :: second ∧ IsIdentifier name ∧
        (∀ c ∈ blanks, isBlank c = true) ∧ (second = ['='] ∨ second = []) := by
  have hedge (rest : List Char) :
      (Cursor.between before ("this.".toList ++ rest)).atWordEdge = true ↔ EndsWord before :=
    atWordEdge_between_iff (c := 't') (by decide)
  rw [← spans_inRow_row]
  constructor
  · intro h
    rcases h.exists_of_seq with ⟨nothing, text, rfl, hstart, h⟩
    rcases h.exists_of_seq with ⟨word, text, rfl, hword, h⟩
    rcases h.exists_of_seq with ⟨name, text, rfl, hname, h⟩
    rcases h.exists_of_seq with ⟨blanks, text, rfl, hblanks, h⟩
    rcases h.exists_of_seq with ⟨equals, text, rfl, hequals, h⟩
    rcases h.exists_of_seq with ⟨second, nothing', rfl, hsecond, hnothing'⟩
    have hempty := hstart.eq_of_wordEdge
    subst hempty
    cases hstart with
    | wordEdge hstart =>
        rw [hword.eq_of_literal, List.append_assoc] at hstart
        rw [hword.eq_of_literal, hequals.eq_of_literal, hnothing'.eq_of_literal]
        refine ⟨(hedge _).mp hstart, name, blanks, second, by simp,
          spans_name_iff.mp (spans_group_iff.mp hname), hblanks.forall_of_stretch, ?_⟩
        exact (spans_group_iff.mp hsecond).or_of_either.imp Spans.eq_of_literal Spans.eq_of_literal
  · rintro ⟨hbefore, name, blanks, second, rfl, hname, hblanks, hsecond⟩
    have hoptional (before after : List Char) :
        (optional (literal ['='])).Spans before second after := by
      rcases hsecond with rfl | rfl
      · exact .left .literal
      · exact .right .literal
    have hrow : (inRow assignment.row).Spans before
        ([] ++ ("this.".toList ++ (name ++ (blanks ++ (['='] ++ (second ++ [])))))) after :=
      .seq (.wordEdge (by rw [List.append_assoc]; exact (hedge _).mpr hbefore)) <|
        .seq .literal <| .seq (spans_group_iff.mpr (spans_name_iff.mpr hname)) <|
          .seq (.stretch hblanks) <| .seq .literal <| .seq (spans_group_iff.mpr (hoptional _ _))
            .literal
    simpa using hrow

/-- No assignment lies across the start of the word. -/
theorem clearAt_assignment (before rest : List Char) :
    assignment.ClearAt before ("this.".toList ++ rest) := by
  refine clearAt_of_word "this".toList '.' ?_ before rest
  intro before text after h
  rcases spans_assignment_iff.mp h with ⟨-, name, blanks, second, rfl, hname, hblanks, hsecond⟩
  refine ⟨name ++ blanks ++ '=' :: second, by simp, ?_, '=', ?_, by decide⟩
  · have hmark : '.' ∉ '=' :: second := by
      rcases hsecond with rfl | rfl <;> decide
    simp only [List.mem_append, not_or]
    refine ⟨⟨fun hmem => ?_, fun hmem => ?_⟩, hmark⟩
    · cases hname.forall_isIdentifierChar '.' hmem
    · cases hblanks '.' hmem
  · rcases hsecond with rfl | rfl <;> simp

-- A character that may be missing is taken if it is there.
theorem head?_ways_optional (c : Char) (before after : List Char) (kept : Marks) :
    ((optional (literal [c])).ways (Cursor.between before after) kept).head? =
      some (if after.head? = some c then ⟨Cursor.between (before ++ [c]) after.tail, kept⟩
        else ⟨Cursor.between before after, kept⟩) := by
  have hnothing : (literal []).ways (Cursor.between before after) kept =
      [⟨Cursor.between before after, kept⟩] := rfl
  rw [Pattern.optional, ways, hnothing, ways]
  cases after with
  | nil => rfl
  | cons d after =>
      by_cases hd : d = c
      · subst hd
        have hskip := Cursor.skip?_between before [d] after
        rw [List.singleton_append] at hskip
        rw [hskip]
        simp
      · have hskip : (Cursor.between before (d :: after)).skip? [c] = none := by
          simp [Cursor.skip?, Cursor.between, hd]
        rw [hskip]
        simp [hd]

-- Before the equals sign of an assignment there is no other one.
theorem ne_equals_of_mem_assigned (hname : IsIdentifier name)
    (hblanks : ∀ c ∈ blanks, isBlank c = true) :
    ∀ c ∈ "this.".toList ++ name ++ blanks, (c == '=') = false := by
  have hthis : ∀ c ∈ "this.".toList, (c == '=') = false := by
    decide
  have hequals : isIdentifierChar '=' = false ∧ isBlank '=' = false := by
    decide
  simp only [List.forall_mem_append, beq_eq_false_iff_ne]
  refine ⟨⟨fun c hc => by simpa using hthis c hc, ?_⟩, ?_⟩
  · rintro c hc rfl
    rw [hname.forall_isIdentifierChar _ hc] at hequals
    cases hequals.1
  · rintro c hc rfl
    rw [hblanks _ hc] at hequals
    cases hequals.2

/-- The name of an assignment and what comes behind the equals sign are determined. -/
theorem eq_of_assigned_eq {name' blanks' after' : List Char} (hname : IsIdentifier name)
    (hblanks : ∀ c ∈ blanks, isBlank c = true) (hname' : IsIdentifier name')
    (hblanks' : ∀ c ∈ blanks', isBlank c = true)
    (h : "this.".toList ++ name ++ blanks ++ '=' :: after =
      "this.".toList ++ name' ++ blanks' ++ '=' :: after') : name = name' ∧ after = after' := by
  rcases append_cons_inj_of_first (ne_equals_of_mem_assigned hname hblanks) rfl
    (ne_equals_of_mem_assigned hname' hblanks') rfl h with ⟨hfront, -, hafter⟩
  -- The name ends where the white space before the equals sign starts.
  have hlast {name : List Char} (h : IsIdentifier name) :
      ∀ c, name.getLast? = some c → (!isBlank c) = true := fun c hc => by
    rw [isBlank_of_isIdentifierChar (h.forall_isIdentifierChar c (List.mem_of_getLast? hc))]
    rfl
  have hblank {blanks : List Char} (h : ∀ c ∈ blanks, isBlank c = true) :
      ∀ c ∈ blanks, (!isBlank c) = false := fun c hc => by
    rw [h c hc]
    rfl
  rw [List.append_assoc, List.append_assoc] at hfront
  exact ⟨(append_inj_of_last (hlast hname) (hblank hblanks) (hlast hname') (hblank hblanks')
    (List.append_cancel_left hfront)).1, hafter⟩

-- The parts of an assignment up to the equals sign.
theorem exists_of_spans_assignmentFront
    (h : (inRow (assignment.row.take 5)).Spans before text after) :
    ∃ name blanks, text = "this.".toList ++ name ++ blanks ++ ['='] ∧ IsIdentifier name ∧
      ∀ c ∈ blanks, isBlank c = true := by
  rcases h.exists_of_seq with ⟨edge, text, rfl, hedge, h⟩
  rcases h.exists_of_seq with ⟨this, text, rfl, hthis, h⟩
  rcases h.exists_of_seq with ⟨name, text, rfl, hname, h⟩
  rcases h.exists_of_seq with ⟨blanks, text, rfl, hblanks, h⟩
  rcases h.exists_of_seq with ⟨equals, nothing, rfl, hequals, hnothing⟩
  refine ⟨name, blanks, ?_, spans_name_iff.mp (spans_group_iff.mp hname),
    hblanks.forall_of_stretch⟩
  rw [hedge.eq_of_wordEdge, hthis.eq_of_literal, hequals.eq_of_literal, hnothing.eq_of_literal]
  simp

-- The name is kept.
theorem exists_name_of_matchAt?_assignment {found : Match}
    (h : assignment.matchAt? (Cursor.between before after) = some found) :
    ∃ blanks rest, after = "this.".toList ++ found.group 1 ++ blanks ++ '=' :: rest ∧
      IsIdentifier (found.group 1) ∧ ∀ c ∈ blanks, isBlank c = true := by
  have hrow : assignment.row = [wordEdge, literal "this.".toList] ++
      group 1 identifier :: assignment.row.drop 3 := rfl
  rcases exists_spans_of_matchAt? hrow rfl rfl rfl h with
    ⟨passed, more, rest, hafter, hfront, hname, hmore⟩
  rcases hfront.exists_of_seq with ⟨edge, word, rfl, hedge, hword⟩
  rcases hword.exists_of_seq with ⟨this, nothing, rfl, hthis, hnothing⟩
  rcases hmore.exists_of_seq with ⟨blanks, more, rfl, hblanks, hmore⟩
  rcases hmore.exists_of_seq with ⟨equals, second, rfl, hequals, -⟩
  refine ⟨blanks, second ++ rest, ?_, spans_name_iff.mp hname, hblanks.forall_of_stretch⟩
  rw [hafter, hedge.eq_of_wordEdge, hthis.eq_of_literal, hnothing.eq_of_literal,
    hequals.eq_of_literal]
  simp

-- And so is the second equals sign, if there is one.
theorem exists_second_of_matchAt?_assignment {found : Match}
    (h : assignment.matchAt? (Cursor.between before after) = some found) :
    ∃ name blanks rest, after = "this.".toList ++ name ++ blanks ++ '=' :: rest ∧
      IsIdentifier name ∧ (∀ c ∈ blanks, isBlank c = true) ∧
        found.group 2 = if rest.head? = some '=' then ['='] else [] := by
  have hrow : assignment.row =
      assignment.row.take 5 ++ [group 2 (optional (literal ['=']))] := rfl
  rw [matchAt?_eq, ← ways_inRow_row, hrow, ways_inRow_append, List.head?_flatMap] at h
  rcases Option.map_eq_some_iff.mp h with ⟨way, hway, rfl⟩
  rcases List.exists_of_findSome?_eq_some hway with ⟨start, hstart, hlast⟩
  rw [ways_inRow_singleton, ways_group, List.head?_map] at hlast
  rcases spansTo_of_mem_ways _ _ _ _ start hstart with ⟨passed, rest, rfl, hplace, hfront⟩
  rw [hplace, head?_ways_optional, Option.map_some, Option.some.injEq] at hlast
  have hgroup : Match.group ⟨Cursor.between before (passed ++ rest), way.stop, way.kept⟩ 2 =
      if rest.head? = some '=' then ['='] else [] := by
    have hkept := group_eq_of_marks (Cursor.between before (passed ++ rest)) 2 (before ++ passed)
    rw [← hlast]
    cases rest with
    | nil => simpa using hkept [] [] start.kept
    | cons d rest =>
        by_cases hd : d = '='
        · subst hd
          simpa using hkept ['='] rest start.kept
        · simpa [hd] using hkept [] (d :: rest) start.kept
  rcases exists_of_spans_assignmentFront hfront with ⟨name, blanks, rfl, hname, hblanks⟩
  exact ⟨name, blanks, rest, by simp, hname, hblanks, hgroup⟩

/-- What an assignment keeps: the name, and the second equals sign if there is one. -/
theorem exists_of_matchAt?_assignment {found : Match}
    (h : assignment.matchAt? (Cursor.between before after) = some found) :
    ∃ blanks rest, after = "this.".toList ++ found.group 1 ++ blanks ++ '=' :: rest ∧
      EndsWord before ∧ IsIdentifier (found.group 1) ∧ (∀ c ∈ blanks, isBlank c = true) ∧
        found.group 2 = if rest.head? = some '=' then ['='] else [] := by
  have hbefore : EndsWord before := by
    rcases exists_way_of_matchAt? h with ⟨way, hway, -⟩
    rcases spansTo_of_mem_ways _ _ _ _ way hway with ⟨text, rest, -, -, hspans⟩
    exact (spans_assignment_iff.mp hspans).1
  rcases exists_name_of_matchAt?_assignment h with ⟨blanks, rest, hafter, hname, hblanks⟩
  rcases exists_second_of_matchAt?_assignment h with
    ⟨name', blanks', rest', hafter', hname', hblanks', hgroup⟩
  rw [← (eq_of_assigned_eq hname hblanks hname' hblanks' (hafter.symm.trans hafter')).2] at hgroup
  exact ⟨blanks, rest, hafter, hbefore, hname, hblanks, hgroup⟩

/-- The assignments in a text are found. -/
theorem mem_assignedProperties_iff {name : String} :
    name ∈ assignedProperties text ↔ Assigns text name.toList := by
  unfold assignedProperties
  rw [List.mem_map]
  constructor
  · rintro ⟨found, hfound, rfl⟩
    rcases List.mem_filter.mp hfound with ⟨hfound, hsingle⟩
    rcases exists_between_of_mem_findAll hfound with ⟨before, after, rfl, hmatch⟩
    rcases exists_of_matchAt?_assignment hmatch with
      ⟨blanks, rest, rfl, hbefore, hname, hblanks, hsecond⟩
    have hrest : rest.head? ≠ some '=' := by
      intro hhead
      rw [hsecond, if_pos hhead] at hsingle
      cases hsingle
    rw [String.toList_ofList (l := found.group 1)]
    exact ⟨before, blanks, rest, rfl, hbefore, hname, hblanks, hrest⟩
  · rintro ⟨before, blanks, after, rfl, hbefore, hname, hblanks, hafter⟩
    have hspans :
        assignment.Spans before ("this.".toList ++ name.toList ++ blanks ++ ['=']) after :=
      spans_assignment_iff.mpr ⟨hbefore, _, blanks, [], rfl, hname, hblanks, .inr rfl⟩
    rcases exists_matchAt?_of_spans hspans with ⟨found, hmatch⟩
    have htext : "this.".toList ++ name.toList ++ blanks ++ ['='] ++ after =
        "this.".toList ++ (name.toList ++ blanks ++ '=' :: after) := by
      simp
    rcases exists_of_matchAt?_assignment hmatch with
      ⟨blanks', rest, hsame, -, hname', hblanks', hsecond⟩
    have hsame : "this.".toList ++ name.toList ++ blanks ++ '=' :: after =
        "this.".toList ++ found.group 1 ++ blanks' ++ '=' :: rest := by
      rw [← hsame]
      simp
    rcases eq_of_assigned_eq hname hblanks hname' hblanks' hsame with ⟨hgroup, rfl⟩
    refine ⟨found, List.mem_filter.mpr ⟨?_, ?_⟩, ?_⟩
    · rw [htext] at hmatch
      have hmem := mem_findAll_of_matchAt? hmatch (by simp) (clearAt_assignment before _)
      simpa using hmem
    · rw [hsecond, if_neg hafter]
      rfl
    · rw [← hgroup, String.ofList_toList]

/-! ## The properties of a source -/

/-- The properties of a source are its fields, the parameters with an access modifier,
and what is assigned in the first block behind a constructor. So none but the expected
ones are reported exactly if whatever is assigned in such a block is expected, where
something other than white space comes before the block. -/
theorem properties_accounted_iff (content : List Char) :
    ∃ names, extract? content = some names ∧
      (∀ name, name ∈ names.properties ↔
        FieldName content name ∨ PropertyParameter content name ∨
          ∃ gap, AssignedBehind content gap name) ∧
      ((∀ name ∈ names.properties, Accounted content name) ↔
        ∀ gap name, (∃ c ∈ gap, isBlank c = false) → AssignedBehind content gap name →
          Accounted content name) := by
  rcases exists_extract?_texts content with ⟨names, hnames, hproperties, -⟩
  have hmem (name : String) : name ∈ names.properties ↔
      FieldName content name ∨ PropertyParameter content name ∨
        ∃ gap, AssignedBehind content gap name := by
    rw [hproperties]
    refine or_congr_right ⟨?_, ?_⟩
    · rintro ⟨inside, after, hconstructor, hname | ⟨gap, block, hblock, hname⟩⟩
      · exact .inl ⟨inside, after, hconstructor, hname⟩
      · exact .inr ⟨gap, inside, after, block, hconstructor, hblock,
          mem_assignedProperties_iff.mp hname⟩
    · rintro (⟨inside, after, hconstructor, hname⟩ | ⟨gap, inside, after, block, hassigned⟩)
      · exact ⟨inside, after, hconstructor, .inl hname⟩
      · exact ⟨inside, after, hassigned.1, .inr ⟨gap, block, hassigned.2.1,
          mem_assignedProperties_iff.mpr hassigned.2.2⟩⟩
  refine ⟨names, hnames, hmem, ?_, ?_⟩
  · intro hall gap name _ hassigned
    exact hall name ((hmem name).mpr (.inr (.inr ⟨gap, hassigned⟩)))
  · intro hall name hname
    rcases (hmem name).mp hname with hfield | hparameter | ⟨gap, hassigned⟩
    · exact .inl hfield
    · exact .inr (.inl hparameter)
    · by_cases hblank : ∀ c ∈ gap, isBlank c = true
      · exact .inr (.inr ⟨gap, hblank, hassigned⟩)
      · simp only [not_forall, Bool.not_eq_true] at hblank
        rcases hblank with ⟨c, hc, hblank⟩
        exact hall gap name ⟨c, hc, hblank⟩ hassigned

/-- The body of a method is taken for that of a constructor without one. -/
theorem properties_behind_signature :
    let content := "class A \x7b constructor(); reset() \x7b this.x = 1; \x7d \x7d".toList
    ∃ names, extract? content = some names ∧ "x" ∈ names.properties ∧
      ¬Accounted content "x" := by
  intro content
  have hextract : extract? content =
      some { classes := .ofList ["A"], properties := .ofList ["x"] } := by
    decide +kernel
  -- There is one constructor, and a semicolon comes behind its parameters.
  have hconstructor (inside after : List Char) (h : HasConstructor content inside after) :
      inside = [] ∧ after.head? = some ';' := by
    rcases h with ⟨before, blanks, hcontent, -, hblanks, hinside⟩
    have hplace : ∀ suffix ∈ content.tails, suffix.take 11 = "constructor".toList →
        suffix.drop 11 =
          '(' :: ([] ++ ')' :: "; reset() \x7b this.x = 1; \x7d \x7d".toList) := by
      decide +kernel
    have hsuffix := hplace _ ((List.mem_tails _ _).mpr ⟨before, hcontent.symm⟩) rfl
    have hrest : blanks ++ '(' :: (inside ++ ')' :: after) =
        [] ++ '(' :: ([] ++ ')' :: "; reset() \x7b this.x = 1; \x7d \x7d".toList) := hsuffix
    have hfree : ∀ c ∈ blanks, (c == '(') = false := by
      intro c hc
      rw [beq_eq_false_iff_ne]
      rintro rfl
      cases hblanks _ hc
    rcases append_cons_inj_of_first hfree rfl (by simp) rfl hrest with ⟨-, -, hlist⟩
    rcases hinside.eq_of_append_eq (by decide) .nil hlist with ⟨rfl, rfl⟩
    exact ⟨rfl, rfl⟩
  refine ⟨_, hextract, by simp, ?_⟩
  rintro (⟨found, hfound, -⟩ | ⟨inside, after, h, hname⟩ |
    ⟨gap, hblank, inside, after, block, h, ⟨rest, rfl, -, hblock⟩, -⟩)
  · have hnone : fields content = [] := by
      decide +kernel
    rw [hnone] at hfound
    cases hfound
  · rw [(hconstructor inside after h).1] at hname
    revert hname
    decide +kernel
  · have hhead := (hconstructor inside _ h).2
    rcases hblock.exists_cons with ⟨more, rfl⟩
    cases gap with
    | nil => cases hhead
    | cons c gap =>
        cases hhead
        cases hblank ';' List.mem_cons_self

end Chunking.EcmaScript
