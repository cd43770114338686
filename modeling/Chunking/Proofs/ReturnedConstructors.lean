import Chunking.Proofs.ConstructorTexts
import Chunking.Proofs.SteadyPatterns

/-!
# Constructors among carriage returns

What a constructor contributes is not found by one pattern. Its list and its body are cut
out by counting brackets, the list is cut at its commas, and each piece is read from its
start to its end. A carriage return is neither a bracket nor a comma, so each cut is made
at the same place in the text with carriage returns, and what is cut out is the same part
with carriage returns in it.

The pattern of a parameter looks for the start of the text first. It is only ever tried
there, and the rest of it bears carriage returns.

## Theorems

* `encloses_withReturns_iff`: The same delimiters are open.
* `topLevelPieces_withReturns`: The same pieces between commas.
* `EcmaScript.parameterNames_withReturns`: What one parameter contributes.
* `EcmaScript.hasConstructor_withReturns_iff`: The same constructors.
* `EcmaScript.extract?_withReturns`: The same names.
-/

namespace Chunking

open Text

variable {text inside after : List Char}

/-! ## Brackets and commas -/

/-- As many delimiters are open as without carriage returns. -/
theorem encloses_withReturns_iff {opening closing : Char} {depth : Nat}
    (hne : opening ≠ closing) (hopening : EndsNoLine opening) (hclosing : EndsNoLine closing) :
    Encloses opening closing depth (withReturns inside) ↔
      Encloses opening closing depth inside := by
  induction inside generalizing depth with
  | nil => rfl
  | cons c inside ih =>
      -- The two characters of a line ending are no delimiters, and are passed one by one.
      by_cases hc : c = '\n'
      · subst hc
        rw [withReturns_cons_newline,
          Encloses.other_cons_iff hopening.2.symm hclosing.2.symm,
          Encloses.other_cons_iff hopening.1.symm hclosing.1.symm,
          Encloses.other_cons_iff hopening.1.symm hclosing.1.symm, ih]
      · rw [withReturns_cons hc]
        by_cases hopens : c = opening
        · subst hopens
          rw [Encloses.opening_cons_iff hne, Encloses.opening_cons_iff hne, ih]
        · by_cases hcloses : c = closing
          · subst hcloses
            cases depth with
            | zero =>
                exact iff_of_false (Encloses.not_closing_cons hne) (Encloses.not_closing_cons hne)
            | succ depth =>
                rw [Encloses.closing_cons_iff hne, Encloses.closing_cons_iff hne, ih]
          · rw [Encloses.other_cons_iff hopens hcloses, Encloses.other_cons_iff hopens hcloses, ih]

-- The piece that is open comes with its carriage returns, as the induction needs it.
theorem topLevelPiecesFrom_withReturns (depth : Int32) (current rest : List Char) :
    topLevelPiecesFrom depth (withReturns current) (withReturns rest) =
      (topLevelPiecesFrom depth current rest).map withReturns := by
  have hother {c : Char} (hcomma : c ≠ ',') (hbracket : bracketChange c = 0) (depth : Int32)
      (current rest : List Char) : topLevelPiecesFrom depth current (c :: rest) =
        topLevelPiecesFrom depth (current ++ [c]) rest := by
    rw [topLevelPiecesFrom, if_neg fun h => hcomma h.1, depthBehind_of_eq_zero hbracket]
  induction rest generalizing depth current with
  | nil => rfl
  | cons c rest ih =>
      by_cases hc : c = '\n'
      · subst hc
        have hreturn := @hother '\r' (by decide) (by decide)
        have hnewline := @hother '\n' (by decide) (by decide)
        rw [withReturns_cons_newline, hreturn, hnewline, hnewline, ← withReturns_concat_newline, ih]
      · rw [withReturns_cons hc, topLevelPiecesFrom, topLevelPiecesFrom, ← withReturns_concat hc]
        split_ifs with hcomma
        · rw [List.map_cons, ← ih]
          rfl
        · exact ih _ _

/-- The pieces between commas are the same ones. -/
theorem topLevelPieces_withReturns (text : List Char) :
    topLevelPieces (withReturns text) = (topLevelPieces text).map withReturns :=
  topLevelPiecesFrom_withReturns 0 [] text

-- The stop is no part of a line ending, so none is cut in two.
theorem takeWhile_withReturns {stop : Char} (hstop : EndsNoLine stop) (text : List Char) :
    (withReturns text).takeWhile (· != stop) = withReturns (text.takeWhile (· != stop)) := by
  induction text with
  | nil => rfl
  | cons c rest ih =>
      by_cases hc : c = '\n'
      · have hnewline : ('\n' != stop) = true := bne_iff_ne.mpr hstop.1.symm
        have hreturn : ('\r' != stop) = true := bne_iff_ne.mpr hstop.2.symm
        rw [hc, withReturns_cons_newline]
        simp only [List.takeWhile_cons, hnewline, hreturn, if_true]
        rw [ih, withReturns_cons_newline]
      · rw [withReturns_cons hc, List.takeWhile_cons, List.takeWhile_cons]
        split_ifs
        · rw [withReturns_cons hc, ih]
        · rfl

namespace EcmaScript

open Pattern

/-! ## Parameters -/

/-- The pattern of a parameter behind the start of the text. -/
def parameterRest : Pattern :=
  inRow parameter.row.tail

-- The start of the text holds at the start, and nothing is kept there.
theorem matchAt?_parameter (text : List Char) :
    parameter.matchAt? (Cursor.atStart text) = parameterRest.matchAt? (Cursor.atStart text) := by
  have hways : parameter.ways (Cursor.atStart text) [] =
      parameterRest.ways (Cursor.atStart text) [] := by
    rw [← ways_inRow_row]
    change ([⟨Cursor.atStart text, []⟩] : List Way).flatMap _ = _
    exact List.flatMap_singleton _ _
  rw [matchAt?_eq, matchAt?_eq, hways]

theorem spansOnly_identifier : identifier.SpansOnly EndsNoLine :=
  ⟨endsNoLine_of_allowed (by decide), endsNoLine_of_allowed (by decide)⟩

theorem keepsInLine_parameter : parameter.KeepsInLine 2 :=
  ⟨parameter.row.take 3, identifier, parameter.row.drop 4, rfl, rfl, rfl, rfl,
    spansOnly_identifier⟩

-- What a parameter contributes, by what its match keeps.
theorem parameterNames_of_some {found : Match}
    (h : parameter.matchAt? (Cursor.atStart text) = some found) :
    parameterNames text =
      (if (found.group 1).any (fun c => !isBlank c) then [String.ofList (found.group 2)] else [],
        (found.group? 3).elim [] (referencedTypes builtins)) := by
  unfold parameterNames
  rw [h]
  dsimp only
  cases found.group? 3 <;> rfl

-- There is a type in both or in neither.
theorem types_eq {type' type : Option (List Char)} (h : Option.Rel PartWithReturns type' type) :
    type'.elim [] (referencedTypes builtins) = type.elim [] (referencedTypes builtins) := by
  cases h with
  | none => rfl
  | some h => exact h.referencedTypes_eq builtins

/-- What one parameter contributes is the same. -/
theorem parameterNames_withReturns (text : List Char) :
    parameterNames (withReturns text) = parameterNames text := by
  have hrest : (parameterRest.tolerance? ⟨false, false⟩).isSome = true := by
    decide
  rcases Option.isSome_iff_exists.mp hrest with ⟨front, hfront⟩
  rcases matchAt?_none_or_some hfront (Cursor.withReturns_atStart text) with
    ⟨hnone', hnone⟩ | ⟨found', found, hsome', hsome, hfound⟩
  · unfold parameterNames
    rw [matchAt?_parameter, matchAt?_parameter, hnone', hnone]
  · rw [← matchAt?_parameter] at hsome' hsome
    have hmodifiers : (found'.group 1).any (fun c => !isBlank c) =
        (found.group 1).any fun c => !isBlank c := by
      -- A modifier is no white space, so a carriage return is never taken for one.
      have hreturn : isBlank '\r' = true := by
        decide
      rw [Bool.eq_iff_iff, List.any_eq_true, List.any_eq_true]
      refine exists_congr fun c => and_congr_left fun hc => (hfound.part_group 1).mem_iff ?_
      rintro rfl
      rw [hreturn] at hc
      cases hc
    have hname : found'.group 2 = found.group 2 := by
      rw [Cursor.atStart_eq_between] at hsome' hsome
      exact (hfound.part_group 2).eq_of_endsNoLine (keepsInLine_parameter.endsNoLine hsome')
        (keepsInLine_parameter.endsNoLine hsome)
    have htype := hfound.part_group? 3
    rw [parameterNames_of_some hsome', parameterNames_of_some hsome, hmodifiers, hname,
      types_eq htype]

theorem listNames_withReturns (inside : List Char) :
    listNames (withReturns inside) = listNames inside := by
  rw [listNames, listNames, topLevelPieces_withReturns, List.map_map]
  refine List.map_congr_left fun piece _ => ?_
  rw [Function.comp_apply, pieceNames, pieceNames, takeWhile_withReturns (by decide),
    parameterNames_withReturns]

/-! ## Bodies -/

-- Both groups of an assignment are inside a line: the name, and a second equals sign.
theorem keepsInLine_assignment_name : assignment.KeepsInLine 1 :=
  ⟨assignment.row.take 2, identifier, assignment.row.drop 3, rfl, rfl, rfl, rfl,
    spansOnly_identifier⟩

theorem keepsInLine_assignment_second : assignment.KeepsInLine 2 := by
  refine ⟨assignment.row.take 5, optional (literal ['=']), [], rfl, rfl, rfl, rfl, ?_, ?_⟩
  · exact (by decide : ∀ c ∈ ['='], EndsNoLine c)
  · exact fun c hc => absurd hc List.not_mem_nil

/-- What a body assigns is the same. -/
theorem assignedProperties_withReturns (body : List Char) :
    assignedProperties (withReturns body) = assignedProperties body := by
  have hmap : (assignment.findAll (withReturns body)).map
      (fun found => (found.group 1, found.group 2)) =
        (assignment.findAll body).map fun found => (found.group 1, found.group 2) :=
    isSteady.map_findAll (by decide) fun _ hfound' _ hfound hsame =>
      Prod.ext (keepsInLine_assignment_name.group_eq hfound' hfound hsame)
        (keepsInLine_assignment_second.group_eq hfound' hfound hsame)
  have hassigned (matches_ : List Match) :
      ((matches_.filter fun found => (found.group 2).isEmpty).map fun found =>
          String.ofList (found.group 1)) =
        ((matches_.map fun found => (found.group 1, found.group 2)).filter fun kept =>
          kept.2.isEmpty).map fun kept => String.ofList kept.1 := by
    rw [List.filter_map, List.map_map]
    rfl
  rw [assignedProperties, assignedProperties, hassigned, hassigned, hmap]

-- A brace that nothing closes has a block as well, which goes to the end.
theorem exists_block (rest : List Char) : ∃ block, Block ('\x7b' :: rest) block := by
  by_cases h : ∃ inner after, rest = inner ++ '\x7d' :: after ∧ Balanced '\x7b' '\x7d' inner
  · rcases h with ⟨inner, after, rfl, hinner⟩
    exact ⟨_, .closed hinner⟩
  · exact ⟨_, .unclosed fun inner after heq hinner => h ⟨inner, after, heq, hinner⟩⟩

theorem Block.withReturns {block : List Char} (h : Block text block) :
    Block (withReturns text) (withReturns block) := by
  have hbrace (rest : List Char) :
      Chunking.withReturns ('\x7b' :: rest) = '\x7b' :: Chunking.withReturns rest :=
    withReturns_cons (by decide) rest
  cases h with
  | @closed inner after hinner =>
      rw [hbrace, hbrace, withReturns_append, withReturns_cons (by decide)]
      exact .closed ((encloses_withReturns_iff (by decide) (by decide) (by decide)).mpr hinner)
  | @unclosed rest hnone =>
      rw [hbrace]
      refine .unclosed fun inner' after' heq hinner' => ?_
      rcases exists_of_withReturns_eq (by decide) heq with ⟨inner, after, rfl, rfl, rfl⟩
      exact hnone inner after rfl
        ((encloses_withReturns_iff (by decide) (by decide) (by decide)).mp hinner')

/-- The first block assigns to the same properties. -/
theorem assignsFirst_withReturns_iff {name : String} :
    (∃ gap block, FirstBlock (withReturns after) gap block ∧ name ∈ assignedProperties block) ↔
      ∃ gap block, FirstBlock after gap block ∧ name ∈ assignedProperties block := by
  have hbrace : EndsNoLine '\x7b' := by
    decide
  have hfirst {gap block : List Char} (h : FirstBlock after gap block) :
      FirstBlock (withReturns after) (withReturns gap) (withReturns block) := by
    rcases h with ⟨rest, rfl, hgap, hblock⟩
    exact ⟨withReturns rest, withReturns_append _ _, mt (mem_withReturns_iff hbrace.2).mp hgap,
      hblock.withReturns⟩
  constructor
  -- Backwards the brace is found in the text first, and then the block is the only one.
  · rintro ⟨gap', block', hblock', hname⟩
    rcases hblock' with ⟨rest', heq, hgap', hrest'⟩
    rcases hrest'.exists_cons with ⟨more', rfl⟩
    rcases exists_of_withReturns_eq hbrace heq with ⟨gap, more, rfl, rfl, rfl⟩
    rcases exists_block more with ⟨block, hblock⟩
    have hthis : FirstBlock (gap ++ '\x7b' :: more) gap block :=
      ⟨_, rfl, mt (mem_withReturns_iff hbrace.2).mpr hgap', hblock⟩
    refine ⟨gap, block, hthis, ?_⟩
    rw [← assignedProperties_withReturns,
      ((hfirst hthis).unique ⟨_, heq, hgap', hrest'⟩).2]
    exact hname
  · rintro ⟨gap, block, hblock, hname⟩
    exact ⟨_, _, hfirst hblock, by rwa [assignedProperties_withReturns]⟩

/-! ## Constructors -/

/-- The constructors are the same ones. -/
theorem hasConstructor_withReturns_iff {content inside' after' : List Char} :
    HasConstructor (withReturns content) inside' after' ↔
      ∃ inside after, inside' = withReturns inside ∧ after' = withReturns after ∧
        HasConstructor content inside after := by
  have hword : ∀ c ∈ "constructor".toList, EndsNoLine c := by
    decide
  have hends (before : List Char) : EndsWord (withReturns before) ↔ EndsWord before := by
    rw [EndsWord, EndsWord, getLast?_withReturns]
  have hblank {blanks : List Char} :
      (∀ c ∈ withReturns blanks, isBlank c = true) ↔ ∀ c ∈ blanks, isBlank c = true :=
    forall_mem_withReturns_iff (by decide)
  have hbalanced {inside : List Char} :
      Balanced '(' ')' (withReturns inside) ↔ Balanced '(' ')' inside :=
    encloses_withReturns_iff (by decide) (by decide) (by decide)
  constructor
  · rintro ⟨before', blanks', heq, hbefore, hblanks, hinside⟩
    -- Cut at the word, and then at each parenthesis in what is behind it.
    rw [List.append_assoc, ← List.append_assoc] at heq
    rcases exists_of_withReturns_eq_word hword (by decide) heq with
      ⟨before, rest, rfl, rfl, hrest⟩
    rcases exists_of_withReturns_eq (by decide) hrest.symm with ⟨blanks, list, rfl, rfl, hlist⟩
    rcases exists_of_withReturns_eq (by decide) hlist.symm with ⟨inside, after, rfl, rfl, rfl⟩
    exact ⟨inside, after, rfl, rfl, before, blanks, by simp, (hends before).mp hbefore,
      hblank.mp hblanks, hbalanced.mp hinside⟩
  · rintro ⟨inside, after, rfl, rfl, before, blanks, rfl, hbefore, hblanks, hinside⟩
    refine ⟨withReturns before, withReturns blanks, ?_, (hends before).mpr hbefore,
      hblank.mpr hblanks, hbalanced.mpr hinside⟩
    have hsame : withReturns "constructor".toList = "constructor".toList := by
      decide
    simp only [withReturns_append, hsame]
    rw [withReturns_cons (by decide), withReturns_append, withReturns_cons (by decide)]

/-! ## The names of a source -/

theorem keepsInLine_field : field.KeepsInLine 1 :=
  ⟨field.row.take 3, identifier, field.row.drop 4, rfl, rfl, rfl, rfl, spansOnly_identifier⟩

/-- The fields have the same names, and their types refer to the same ones. -/
theorem map_fields_withReturns (content : List Char) :
    (fields (withReturns content)).map
        (fun found => (found.group 1, referencedTypes builtins (found.group 2))) =
      (fields content).map fun found =>
        (found.group 1, referencedTypes builtins (found.group 2)) := by
  have hmap : (field.findAll (withReturns content)).map
      (fun found => (found.group 1, referencedTypes builtins (found.group 2))) =
        (field.findAll content).map fun found =>
          (found.group 1, referencedTypes builtins (found.group 2)) :=
    isSteady.map_findAll (by decide) fun _ hfound' _ hfound hsame =>
      Prod.ext (keepsInLine_field.group_eq hfound' hfound hsame)
        ((hsame.part_group 2).referencedTypes_eq builtins)
  have hfields (content : List Char) : (fields content).map
      (fun found => (found.group 1, referencedTypes builtins (found.group 2))) =
        ((field.findAll content).map fun found =>
          (found.group 1, referencedTypes builtins (found.group 2))).filter fun kept =>
            !labels.contains (String.ofList kept.1) := by
    rw [List.filter_map]
    rfl
  rw [hfields, hfields, hmap]

theorem exists_fields_withReturns_iff {content : List Char}
    (kind : List Char × List String → Prop) :
    (∃ found ∈ fields (withReturns content),
        kind (found.group 1, referencedTypes builtins (found.group 2))) ↔
      ∃ found ∈ fields content,
        kind (found.group 1, referencedTypes builtins (found.group 2)) := by
  have hmap (content : List Char) : (∃ found ∈ fields content,
      kind (found.group 1, referencedTypes builtins (found.group 2))) ↔
        ∃ kept ∈ (fields content).map
          (fun found => (found.group 1, referencedTypes builtins (found.group 2))), kind kept := by
    simp
  rw [hmap, hmap, map_fields_withReturns]

-- The declared types do not depend on the constructors.
theorem classes_of_extract? {content : List Char} {names : ExtractedNames}
    (h : extract? content = some names) :
    names.classes = .ofList (foundNames typeDeclaration 1 content) := by
  rcases Option.bind_eq_some_iff.mp h with ⟨constructors, _, h⟩
  cases h
  rfl

/-- The names are the same. -/
theorem extract?_withReturns (content : List Char) :
    extract? (withReturns content) = extract? content := by
  rcases exists_extract?_texts content with ⟨names, hnames, hproperties, htypes⟩
  rcases exists_extract?_texts (withReturns content) with ⟨names', hnames', hproperties', htypes'⟩
  have hconstructors (kind : List Char → List Char → Prop) :
      (∃ inside' after', HasConstructor (withReturns content) inside' after' ∧
          kind inside' after') ↔
        ∃ inside after, HasConstructor content inside after ∧
          kind (withReturns inside) (withReturns after) := by
    simp only [hasConstructor_withReturns_iff]
    constructor
    · rintro ⟨_, _, ⟨inside, after, rfl, rfl, h⟩, hkind⟩
      exact ⟨inside, after, h, hkind⟩
    · rintro ⟨inside, after, h, hkind⟩
      exact ⟨_, _, ⟨inside, after, rfl, rfl, h⟩, hkind⟩
  have hclass : names'.classes = names.classes := by
    rw [classes_of_extract? hnames', classes_of_extract? hnames, foundNames_withReturns]
    · decide
    · exact keepsInLine_declaredType _
  have hproperty : names'.properties = names.properties := by
    refine NameSet.eq_of_mem_iff fun name => ?_
    rw [hproperties', hproperties,
      exists_fields_withReturns_iff fun kept => String.ofList kept.1 = name, hconstructors]
    simp only [listNames_withReturns, assignsFirst_withReturns_iff]
  have htype : names'.types = names.types := by
    refine NameSet.eq_of_mem_iff fun name => ?_
    rw [htypes', htypes, exists_fields_withReturns_iff fun kept => name ∈ kept.2, hconstructors]
    simp only [listNames_withReturns]
  rw [hnames', hnames, Option.some.injEq]
  rcases names' with ⟨classes', properties', types'⟩
  rcases names with ⟨classes, properties, types⟩
  rw [ExtractedNames.mk.injEq]
  exact ⟨hclass, hproperty, htype⟩

end EcmaScript

end Chunking
