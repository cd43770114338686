import Chunking.Names.EcmaScript
import Chunking.Proofs.ConstructorParts
import Chunking.Proofs.Identifiers
import Chunking.Proofs.SpannedText

/-!
# Reading a parameter

A parameter of a constructor is read as a whole: modifiers, a name, perhaps a question
mark, and perhaps a type behind a colon. The pattern can be read in many ways, but not
with different outcomes. The first colon ends the front of a parameter, and in the front
the last word is the name.

Text between commas need not be a parameter, and then it contributes nothing. Two
reasons for that are enough. Either some other character comes before the first colon,
or there is one word only and no colon at all.

## Main definitions

* `EcmaScript.parameterModifiers`: The words before the name of a parameter.
* `EcmaScript.ParameterReading`: How a text is read as a parameter.
* `EcmaScript.IsFront`: What comes before the colon of a parameter.

## Theorems

* `EcmaScript.exists_parameterReading`: What a match of the pattern keeps.
* `EcmaScript.parameterNames_annotated`: What a parameter with a type contributes.
* `EcmaScript.parameterNames_of_other`, `EcmaScript.parameterNames_of_word`: Texts that
  contribute nothing.
-/

namespace Chunking.EcmaScript

open Text Pattern

/-- The words before the name of a parameter. -/
def parameterModifiers : List String :=
  ["public", "private", "protected", "readonly", "override"]

/-- A character between the name of a parameter and the colon, or the end. -/
def isBehindName (c : Char) : Bool :=
  isBlank c || c == '?'

/-- The text is read as modifiers and a name, and as a type if there is one. -/
structure ParameterReading (text modifiers name : List Char) (type? : Option (List Char)) :
    Prop where
  name_isIdentifier : IsIdentifier name
  modifiers_last : ∀ c, modifiers.getLast? = some c → isBlank c = true
  modifiers_mem : ∀ c ∈ modifiers, isBlank c = true ∨ c.isLower = true
  parts : ∃ blanks behind tail, text = blanks ++ modifiers ++ name ++ behind ++ tail ∧
    (∀ c ∈ blanks, isBlank c = true) ∧ (∀ c ∈ behind, isBehindName c = true) ∧
      (type? = none ∧ tail = [] ∨ ∃ blanks' type, type? = some type ∧
        tail = ':' :: (blanks' ++ type) ∧ ∀ c ∈ blanks', isBlank c = true)

/-- A character of the front of a parameter. -/
def isFrontChar (c : Char) : Bool :=
  isIdentifierChar c || isBehindName c

/-- What comes before the colon of a parameter: modifiers with a space behind each, the
name, and perhaps a question mark. -/
def IsFront (front : List Char) (modifiers : List String) (name : List Char) : Prop :=
  ∃ blanks mark, front = blanks ++ (spaced modifiers ++ name ++ mark) ∧
    (∀ c ∈ blanks, isBlank c = true) ∧ (∀ word ∈ modifiers, word ∈ parameterModifiers) ∧
      IsIdentifier name ∧ (mark = [] ∨ mark = ['?'])

/-! ## What the pattern keeps -/

theorem row_parameter : parameter.row =
    [textStart, blanks, group 1 (Pattern.modifiers parameterModifiers), group 2 identifier,
      blanks, Pattern.optional (literal ['?']), blanks, Pattern.optional typePart, textEnd] :=
  rfl

-- A group on the way, and the marks that it leaves.
theorem exists_of_mem_ways_group {number : Nat} {inner : Pattern}
    (hinner : inner.keeps (.opening number) = false) {before after : List Char} {kept : Marks}
    {stop : Way} (h : stop ∈ (group number inner).ways (Cursor.between before after) kept) :
    ∃ text rest, after = text ++ rest ∧ inner.Spans before text rest ∧
      stop.stop = Cursor.between (before ++ text) rest ∧
      List.lookup (.opening number) stop.kept = some (Cursor.between before (text ++ rest)) ∧
      List.lookup (.closing number) stop.kept = some (Cursor.between (before ++ text) rest) := by
  rw [ways_group] at h
  rcases List.mem_map.mp h with ⟨inside, hinside, rfl⟩
  rcases spansTo_of_mem_ways _ _ _ _ inside hinside with ⟨text, rest, rfl, hstop, hspans⟩
  have hdiffer : (Mark.opening number == Mark.closing number) = false :=
    beq_eq_false_iff_ne.mpr Mark.noConfusion
  refine ⟨text, rest, rfl, hspans, hstop, ?_, ?_⟩
  · rw [List.lookup_cons, hdiffer]
    dsimp only
    rw [lookup_kept hinner _ _ inside hinside, List.lookup_cons_self]
  · rw [List.lookup_cons_self, hstop]

theorem group?_eq_of_lookup {start stop : Cursor} {kept : Marks} {number : Nat}
    {before text after : List Char}
    (hopening : List.lookup (.opening number) kept = some (Cursor.between before (text ++ after)))
    (hclosing : List.lookup (.closing number) kept =
      some (Cursor.between (before ++ text) after)) :
    Match.group? ⟨start, stop, kept⟩ number = some text := by
  have htext := Cursor.textUpTo_between before text after
  simp [Match.group?, hopening, hclosing, htext]

theorem group_eq_of_lookup {start stop : Cursor} {kept : Marks} {number : Nat}
    {before text after : List Char}
    (hopening : List.lookup (.opening number) kept = some (Cursor.between before (text ++ after)))
    (hclosing : List.lookup (.closing number) kept =
      some (Cursor.between (before ++ text) after)) :
    Match.group ⟨start, stop, kept⟩ number = text := by
  rw [Match.group, group?_eq_of_lookup hopening hclosing]
  rfl

theorem isBehindName_of_spans {before text after : List Char}
    (h : (inRow [blanks, Pattern.optional (literal ['?']), blanks]).Spans before text after) :
    ∀ c ∈ text, isBehindName c = true := by
  have hblank (c : Char) (hc : isBlank c = true) : isBehindName c = true := by
    rw [isBehindName, hc]
    rfl
  have hmark : ∀ c ∈ ['?'], isBehindName c = true := by
    decide
  have hnil : ∀ c ∈ ([] : List Char), isBehindName c = true := by
    simp
  exact h.forall_mem ⟨hblank, ⟨hmark, hnil⟩, hblank, hnil⟩

-- What is behind the front of a parameter: nothing, or a colon and the type.
theorem exists_of_mem_ways_type {before tail : List Char} {kept : Marks} {way : Way}
    (h : way ∈ (inRow [Pattern.optional typePart, textEnd]).ways (Cursor.between before tail) kept)
    (hnone : List.lookup (.opening 3) kept = none) (start : Cursor) :
    Match.group? ⟨start, way.stop, way.kept⟩ 3 = none ∧ tail = [] ∨
      ∃ blanks type, Match.group? ⟨start, way.stop, way.kept⟩ 3 = some type ∧
        tail = ':' :: (blanks ++ type) ∧ ∀ c ∈ blanks, isBlank c = true := by
  rcases List.mem_flatMap.mp h with ⟨stop, hstop, hend⟩
  have hnothing := rest_eq_nil_of_textEnd hend
  have hkept (edge : Mark) : List.lookup edge way.kept = List.lookup edge stop.kept :=
    lookup_kept rfl _ _ way hend
  rcases List.mem_append.mp hstop with hstop | hstop
  · right
    have hrow : typePart.row =
        typePart.row.take 2 ++ group 3 (atLeastOne fun _ => true) :: [] := rfl
    rcases exists_ways_of_row hrow hstop with ⟨front, hfront, last, hlast, hsame⟩
    rcases spansTo_of_mem_ways _ _ _ _ front hfront with ⟨text, rest, rfl, hplace, hspans⟩
    rw [hplace] at hlast
    rcases exists_of_mem_ways_group rfl hlast with ⟨type, rest, rfl, -, hplace, hopening, hclosing⟩
    -- Nothing comes behind the type.
    have hsame : stop = last := List.mem_singleton.mp hsame
    subst hsame
    rw [← hkept] at hopening hclosing
    have hrest : rest = [] := by
      rw [hplace] at hnothing
      exact hnothing
    subst hrest
    rcases hspans.exists_of_seq with ⟨colon, gap, rfl, hcolon, hgap⟩
    rcases hgap.exists_of_seq with ⟨blanks, nothing, rfl, hblanks, hempty⟩
    refine ⟨blanks, type, group?_eq_of_lookup hopening hclosing, ?_, hblanks.forall_of_stretch⟩
    rw [hcolon.eq_of_literal, hempty.eq_of_literal]
    simp
  · left
    have hsame : stop = ⟨Cursor.between before tail, kept⟩ := List.mem_singleton.mp hstop
    subst hsame
    exact ⟨by simp [Match.group?, hkept, hnone], hnothing⟩

/-- What a match of the pattern keeps. -/
theorem exists_parameterReading {text : List Char} {found : Match}
    (h : parameter.matchAt? (Cursor.atStart text) = some found) :
    ParameterReading text (found.group 1) (found.group 2) (found.group? 3) := by
  rcases exists_way_of_matchAt? h with ⟨way, hway, rfl⟩
  rw [Cursor.atStart_eq_between] at hway
  -- The parts of the row from the left.
  have hrow : parameter.row = [textStart, blanks] ++
      group 1 (Pattern.modifiers parameterModifiers) :: parameter.row.drop 3 := rfl
  rcases exists_ways_of_row hrow hway with ⟨start, hstart, first, hfirst, hmore⟩
  rcases List.mem_flatMap.mp hmore with ⟨second, hsecond, hmore⟩
  have hrest : [blanks, Pattern.optional (literal ['?']), blanks, Pattern.optional typePart,
      textEnd] = [blanks, Pattern.optional (literal ['?']), blanks] ++
        [Pattern.optional typePart, textEnd] := rfl
  change way ∈ (inRow [blanks, Pattern.optional (literal ['?']), blanks,
    Pattern.optional typePart, textEnd]).ways _ _ at hmore
  rw [hrest, ways_inRow_append] at hmore
  rcases List.mem_flatMap.mp hmore with ⟨third, hthird, hlast⟩
  -- Their texts.
  rcases spansTo_of_mem_ways _ _ _ _ start hstart with ⟨blanks, rest, rfl, hplace, hblanks⟩
  rw [hplace] at hfirst
  rcases exists_of_mem_ways_group rfl hfirst with
    ⟨modifiers, rest, rfl, hmodifiers, hplace, hopening, hclosing⟩
  rw [hplace] at hsecond
  rcases exists_of_mem_ways_group rfl hsecond with
    ⟨name, rest, rfl, hname, hplace, hopening', hclosing'⟩
  rw [hplace] at hthird
  rcases spansTo_of_mem_ways _ _ _ _ third hthird with ⟨behind, tail, rfl, hplace, hbehind⟩
  rw [hplace] at hlast
  -- Their marks.
  have hkept (edge : Mark) (hedge : edge = .opening 1 ∨ edge = .closing 1) :
      List.lookup edge way.kept = List.lookup edge first.kept := by
    rcases hedge with rfl | rfl <;>
      rw [lookup_kept rfl _ _ way hlast, lookup_kept rfl _ _ third hthird,
        lookup_kept rfl _ _ second hsecond]
  have hkept' (edge : Mark) (hedge : edge = .opening 2 ∨ edge = .closing 2) :
      List.lookup edge way.kept = List.lookup edge second.kept := by
    rcases hedge with rfl | rfl <;>
      rw [lookup_kept rfl _ _ way hlast, lookup_kept rfl _ _ third hthird]
  rw [← hkept _ (.inl rfl)] at hopening
  rw [← hkept _ (.inr rfl)] at hclosing
  rw [← hkept' _ (.inl rfl)] at hopening'
  rw [← hkept' _ (.inr rfl)] at hclosing'
  rw [group_eq_of_lookup hopening hclosing, group_eq_of_lookup hopening' hclosing']
  have hmodifier : ∀ word ∈ parameterModifiers, ∀ c ∈ word.toList,
      isBlank c = true ∨ c.isLower = true := by
    decide
  refine ⟨spans_name_iff.mp hname, getLast?_of_spans_modifiers hmodifiers,
    hmodifiers.forall_mem (spansOnly_modifiers hmodifier fun _ hc => .inl hc), ?_⟩
  have hblank : ∀ c ∈ blanks, isBlank c = true := by
    have hnil : ∀ c ∈ ([] : List Char), isBlank c = true := by
      simp
    exact hblanks.forall_mem ⟨trivial, fun _ hc => hc, hnil⟩
  have hnone : List.lookup (.opening 3) third.kept = none := by
    rw [lookup_kept rfl _ _ third hthird, lookup_kept rfl _ _ second hsecond,
      lookup_kept rfl _ _ first hfirst, lookup_kept rfl _ _ start hstart]
    rfl
  exact ⟨blanks, behind, tail, by simp, hblank, isBehindName_of_spans hbehind,
    exists_of_mem_ways_type hlast hnone _⟩

/-! ## Fronts -/

theorem isFrontChar_of_isBlank {c : Char} (h : isBlank c = true) : isFrontChar c = true := by
  rw [isFrontChar, isBehindName, h, Bool.true_or, Bool.or_true]

theorem isFrontChar_of_isIdentifierChar {c : Char} (h : isIdentifierChar c = true) :
    isFrontChar c = true := by
  rw [isFrontChar, h, Bool.true_or]

theorem isBehindName_of_isIdentifierChar {c : Char} (h : isIdentifierChar c = true) :
    isBehindName c = false := by
  unfold isBehindName
  rw [isBlank_of_isIdentifierChar h, Bool.false_or, beq_eq_false_iff_ne]
  rintro rfl
  cases h

theorem isLower_of_mem_parameterModifiers :
    ∀ word ∈ parameterModifiers, word.toList ≠ [] ∧ ∀ c ∈ word.toList, c.isLower = true := by
  decide

variable {text front name modifiers' name' type : List Char} {modifiers : List String}
  {type? : Option (List Char)}

theorem getLast?_spaced : ∀ c, (spaced modifiers).getLast? = some c → isBlank c = true := by
  intro c hc
  rcases List.eq_nil_or_concat modifiers with rfl | ⟨earlier, last, rfl⟩
  · cases hc
  · have hspace : c = ' ' := by
      simpa [spaced, eq_comm] using hc
    rw [hspace]
    decide

theorem IsFront.forall_isFrontChar (h : IsFront front modifiers name) :
    ∀ c ∈ front, isFrontChar c = true := by
  rcases h with ⟨blanks, mark, rfl, hblanks, hmodifiers, hname, hmark⟩
  simp only [List.forall_mem_append]
  refine ⟨fun c hc => isFrontChar_of_isBlank (hblanks c hc), ⟨?_, fun c hc =>
    isFrontChar_of_isIdentifierChar (hname.forall_isIdentifierChar c hc)⟩, ?_⟩
  · intro c hc
    rcases List.mem_flatMap.mp hc with ⟨word, hword, hc⟩
    rcases List.mem_append.mp hc with hc | hc
    · have hlower := (isLower_of_mem_parameterModifiers word (hmodifiers word hword)).2 c hc
      exact isFrontChar_of_isIdentifierChar (isIdentifierChar_of_isLower hlower)
    · rw [List.mem_singleton.mp hc]
      decide
  · rcases hmark with rfl | rfl <;> decide

theorem ParameterReading.exists_front (h : ParameterReading text modifiers' name' type?) :
    ∃ blanks behind tail, text = blanks ++ modifiers' ++ name' ++ behind ++ tail ∧
      (∀ c ∈ blanks ++ modifiers' ++ name' ++ behind, isFrontChar c = true) ∧
      (∀ c ∈ blanks, isBlank c = true) ∧ (∀ c ∈ behind, isBehindName c = true) ∧
      (type? = none ∧ tail = [] ∨ ∃ blanks' type, type? = some type ∧
        tail = ':' :: (blanks' ++ type) ∧ ∀ c ∈ blanks', isBlank c = true) := by
  rcases h.parts with ⟨blanks, behind, tail, htext, hblanks, hbehind, htail⟩
  refine ⟨blanks, behind, tail, htext, ?_, hblanks, hbehind, htail⟩
  simp only [List.forall_mem_append]
  refine ⟨⟨⟨fun c hc => isFrontChar_of_isBlank (hblanks c hc), fun c hc => ?_⟩, fun c hc =>
    isFrontChar_of_isIdentifierChar (h.name_isIdentifier.forall_isIdentifierChar c hc)⟩,
    fun c hc => ?_⟩
  · rcases h.modifiers_mem c hc with hblank | hlower
    · exact isFrontChar_of_isBlank hblank
    · exact isFrontChar_of_isIdentifierChar (isIdentifierChar_of_isLower hlower)
  · rw [isFrontChar, hbehind c hc, Bool.or_true]

theorem any_isBlank_spaced (h : ∀ word ∈ modifiers, word ∈ parameterModifiers) :
    ((spaced modifiers).any fun c => !isBlank c) = true ↔ modifiers ≠ [] := by
  constructor
  · rintro hany rfl
    cases hany
  · intro hne
    rcases List.exists_cons_of_ne_nil hne with ⟨word, words, rfl⟩
    rcases isLower_of_mem_parameterModifiers word (h word List.mem_cons_self) with ⟨hword, hlower⟩
    rcases List.exists_cons_of_ne_nil hword with ⟨c, rest, hcons⟩
    have hc : isBlank c = false := isBlank_of_isLower (hlower c (by simp [hcons]))
    simp [spaced, hcons, hc]

theorem isIdentifierChar_of_isBehindName {c : Char} (h : isBehindName c = true) :
    isIdentifierChar c = false := by
  by_contra hchar
  rw [isBehindName_of_isIdentifierChar (by simpa using hchar)] at h
  cases h

-- In a front the name is the last word, and what comes before it ends with a blank.
theorem IsFront.eq_of_append_eq (h : IsFront front modifiers name)
    (hreading : ParameterReading text modifiers' name' type?) {blanks behind : List Char}
    (hblanks : ∀ c ∈ blanks, isBlank c = true) (hbehind : ∀ c ∈ behind, isBehindName c = true)
    (hfront : front = blanks ++ modifiers' ++ name' ++ behind) :
    name' = name ∧ ((modifiers'.any fun c => !isBlank c) = true ↔ modifiers ≠ []) := by
  rcases h with ⟨blanks', mark, rfl, hblanks', hmodifiers, hname, hmark⟩
  have hmark : ∀ c ∈ mark, isBehindName c = true := by
    rcases hmark with rfl | rfl <;> decide
  have hends {blanks : List Char} (h : ∀ c ∈ blanks, isBlank c = true) :
      ∀ c, blanks.getLast? = some c → isBlank c = true := fun c hc =>
    h c (List.mem_of_getLast? hc)
  have hwhole : blanks' ++ spaced modifiers ++ name ++ mark =
      blanks ++ modifiers' ++ name' ++ behind := by
    rw [← hfront]
    simp
  rcases hname.append_inj hreading.name_isIdentifier
    (getLast?_append_of_kind (hends hblanks') getLast?_spaced)
    (getLast?_append_of_kind (hends hblanks) hreading.modifiers_last)
    (fun c hc => isIdentifierChar_of_isBehindName (hmark c hc))
    (fun c hc => isIdentifierChar_of_isBehindName (hbehind c hc)) hwhole with ⟨hbefore, rfl⟩
  refine ⟨rfl, ?_⟩
  have hany {blanks : List Char} (h : ∀ c ∈ blanks, isBlank c = true) :
      (blanks.any fun c => !isBlank c) = false := by
    simpa using h
  have hboth := congrArg (List.any · fun c => !isBlank c) hbefore
  simp only [List.any_append, hany hblanks, hany hblanks', Bool.false_or] at hboth
  rw [← hboth]
  exact any_isBlank_spaced hmodifiers

/-! ## Contributions -/

theorem IsFront.spans_parameter (h : IsFront front modifiers name) (htype : type ≠ []) :
    parameter.Spans [] (front ++ ':' :: type) [] := by
  rcases h with ⟨blanks, mark, rfl, hblanks, hmodifiers, hname, hmark⟩
  rcases List.exists_cons_of_ne_nil htype with ⟨c, rest, rfl⟩
  have hoptional (before after : List Char) :
      (Pattern.optional (literal ['?'])).Spans before mark after := by
    rcases hmark with rfl | rfl
    · exact .right .literal
    · exact .left .literal
  have htype (before after : List Char) : typePart.Spans before (':' :: c :: rest) after := by
    rw [← spans_inRow_row]
    have hrow : (inRow typePart.row).Spans before ([':'] ++ ([] ++ (c :: rest ++ []))) after :=
      .seq .literal <| .seq (.stretch (by simp)) <|
        .seq (spans_group_iff.mpr (spans_name_iff.mpr ⟨c, rest, rfl, rfl, by simp⟩)) .literal
    simpa using hrow
  rw [← spans_inRow_row, row_parameter]
  have hrow : (inRow parameter.row).Spans [] ([] ++ (blanks ++ (spaced modifiers ++ (name ++ ([] ++
      (mark ++ ([] ++ (':' :: c :: rest ++ ([] ++ []))))))))) [] :=
    .seq .textStart <| .seq (.stretch hblanks) <|
      .seq (spans_group_iff.mpr (spans_modifiers hmodifiers _ _)) <|
        .seq (spans_group_iff.mpr (spans_name_iff.mpr hname)) <| .seq (.stretch (by simp)) <|
          .seq (hoptional _ _) <| .seq (.stretch (by simp)) <| .seq (.left (htype _ _)) <|
            .seq .textEnd .literal
  simpa [row_parameter] using hrow

/-- A parameter with a type contributes its types, and its name if it has modifiers. -/
theorem parameterNames_annotated (h : IsFront front modifiers name) (htype : type ≠ []) :
    parameterNames (front ++ ':' :: type) =
      (if modifiers = [] then [] else [String.ofList name], referencedTypes builtins type) := by
  rcases exists_matchAt?_of_spans (h.spans_parameter htype) with ⟨found, hmatch⟩
  rw [List.append_nil, ← Cursor.atStart_eq_between] at hmatch
  have hreading := exists_parameterReading hmatch
  rcases hreading.exists_front with ⟨blanks, behind, tail, htext, hchars, hblanks, hbehind, htail⟩
  have hcolon {front : List Char} (h : ∀ c ∈ front, isFrontChar c = true) :
      ∀ c ∈ front, (c == ':') = false := by
    intro c hc
    rw [beq_eq_false_iff_ne]
    rintro rfl
    cases h _ hc
  rcases htail with ⟨-, rfl⟩ | ⟨blanks', type', hgroup, rfl, hblanks'⟩
  · -- There is a colon.
    have hmem : ':' ∈ front ++ ':' :: type := by
      simp
    rw [htext, List.append_nil] at hmem
    cases hchars _ hmem
  · rcases append_cons_inj_of_first (hcolon h.forall_isFrontChar) rfl (hcolon hchars) rfl htext with
      ⟨hfront, -, rfl⟩
    rcases h.eq_of_append_eq hreading hblanks hbehind hfront with ⟨hname, hany⟩
    have htypes : referencedTypes builtins (blanks' ++ type') = referencedTypes builtins type' := by
      rw [referencedTypes, ← List.append_nil (blanks' ++ type'),
        identifiers_padded hblanks' (by simp)]
      rfl
    unfold parameterNames
    rw [hmatch]
    dsimp only
    rw [hgroup, hname, htypes]
    by_cases hmodifiers : modifiers = []
    · rw [if_pos hmodifiers, if_neg (by rw [hany]; simpa using hmodifiers)]
    · rw [if_neg hmodifiers, if_pos (hany.mpr hmodifiers)]

/-- With another character before the first colon a text contributes nothing. -/
theorem parameterNames_of_other {c : Char} {back : List Char} (hfront : ':' ∉ front) (hc : c ≠ ':')
    (hother : isFrontChar c = false) : parameterNames (front ++ c :: back) = ([], []) := by
  unfold parameterNames
  cases hmatch : parameter.matchAt? (Cursor.atStart (front ++ c :: back)) with
  | none => rfl
  | some found =>
      exfalso
      rcases (exists_parameterReading hmatch).exists_front with
        ⟨blanks, behind, tail, htext, hchars, -, -, htail⟩
      -- The other character is not in the front that is read, so the colon comes before it.
      rcases append_eq_append_cons_cases htext.symm with ⟨rest, hread, -⟩ | ⟨rest, rfl, hrest⟩
      · have hmem := hchars c (by rw [hread]; simp)
        rw [hother] at hmem
        cases hmem
      · rcases htail with ⟨-, rfl⟩ | ⟨blanks', type', -, rfl, -⟩
        · cases rest <;> cases hrest
        · cases rest with
          | nil => exact hc (List.cons.inj hrest).1.symm
          | cons d rest =>
              rw [← (List.cons.inj hrest).1] at hfront
              exact hfront (by simp)

/-- A single word without a type contributes nothing. -/
theorem parameterNames_of_word {blanks word : List Char} (hblanks : ∀ c ∈ blanks, isBlank c = true)
    (hword : ∀ c ∈ word, isBlank c = false ∧ c ≠ ':') :
    parameterNames (blanks ++ word) = ([], []) := by
  unfold parameterNames
  cases hmatch : parameter.matchAt? (Cursor.atStart (blanks ++ word)) with
  | none => rfl
  | some found =>
      have hreading := exists_parameterReading hmatch
      rcases hreading.exists_front with
        ⟨blanks', behind, tail, htext, -, hblanks', -, htail⟩
      -- There is no colon, so there is no type.
      have hcolon : ':' ∉ blanks ++ word := by
        rw [List.mem_append, not_or]
        constructor
        · intro hmem
          cases hblanks _ hmem
        · exact fun hmem => (hword _ hmem).2 rfl
      rcases htail with ⟨hgroup, rfl⟩ | ⟨blanks'', type', -, rfl, -⟩
      · -- A blank behind the modifiers would come behind them in the word.
        have hmodifiers : ∀ c ∈ found.group 1, isBlank c = true := by
          have hends := getLast?_append_of_kind (p := isBlank)
            (fun c hc => hblanks' c (List.mem_of_getLast? hc)) hreading.modifiers_last
          have hwhole : blanks ++ word =
              (blanks' ++ found.group 1) ++ (found.group 2 ++ behind) := by
            rw [htext]
            simp
          have hbefore : ∀ c ∈ blanks' ++ found.group 1, isBlank c = true := by
            rcases List.append_eq_append_iff.mp hwhole with ⟨more, hread, rfl⟩ | ⟨more, rfl, -⟩
            · rcases List.eq_nil_or_concat more with rfl | ⟨more, last, rfl⟩
              · rwa [hread, List.append_nil]
              · have hlast := hends last (by rw [hread]; simp)
                rw [(hword last (by simp)).1] at hlast
                cases hlast
            · exact fun c hc => hblanks c (List.mem_append_left _ hc)
          exact (List.forall_mem_append.mp hbefore).2
        have hany : ((found.group 1).any fun c => !isBlank c) = false := by
          simpa using hmodifiers
        dsimp only
        rw [hgroup, hany]
        rfl
      · exact absurd (by rw [htext]; simp) hcolon

end Chunking.EcmaScript
