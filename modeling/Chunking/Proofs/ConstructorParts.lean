import Chunking.Names.EcmaScript
import Chunking.Proofs.CountedCommas
import Chunking.Proofs.WholeWords

/-!
# Parts of constructors

Constructors in JavaScript and TypeScript are cut out of the source by counting
brackets, and their parameters by looking for commas. All of it goes by offsets in
bytes. What comes out are parts of the source, and the cuts are made at
parentheses, commas and equals signs. None of these is part of an identifier, so
a whole word of a parameter is a whole word of the source.

A body is different. What comes right before its brace is not known, and so the
names in it are followed to the source one by one. Each of them has a dot before
it and more of the assignment behind it, both in the body.

## Theorems

* `wholeWord_of_mem_topLevelParts`: What stands between commas.
* `wholeWord_takeWhile`: What comes before an equals sign.
* `EcmaScript.exists_of_mem_constructorHead`: Where the parameters start.
* `EcmaScript.wholeWord_parameters`: What stands between the parentheses.
* `EcmaScript.wholeWord_parameterNames`: The names in a parameter.
* `EcmaScript.exists_of_mem_assignedProperties`: The names assigned in a body.
-/

namespace Chunking

open Text

/-! ## Parts between commas -/

-- The ranges lie between commas, as does the part that is still open.
theorem exists_of_mem_topLevelPartsFrom {depth : Int32} {done current rest : List Char}
    (hdone : Apart done.getLast?) {range : ByteRange}
    (h : range ∈ topLevelPartsFrom depth (byteLength done) (byteLength (done ++ current)) rest) :
    ∃ before inside after, done ++ current ++ rest = before ++ inside ++ after ∧
      range = ⟨byteLength before, byteLength (before ++ inside)⟩ ∧
      Apart before.getLast? ∧ Apart after.head? := by
  induction rest generalizing depth done current with
  | nil =>
      rw [topLevelPartsFrom, List.mem_singleton] at h
      exact ⟨done, current, [], rfl, h, hdone, apart_none⟩
  | cons c rest ih =>
      have hnext : byteLength (done ++ current) + c.utf8Size =
          byteLength (done ++ (current ++ [c])) := by
        simp only [byteLength_append, byteLength_cons, byteLength_nil]
        omega
      rw [topLevelPartsFrom, hnext] at h
      split_ifs at h with hcomma
      · rcases List.mem_cons.mp h with rfl | h
        · refine ⟨done, current, c :: rest, rfl, rfl, hdone, apart_some ?_⟩
          rw [hcomma.1]
          decide
        · -- A new part starts behind the comma.
          have hlast : Apart (done ++ (current ++ [c])).getLast? := by
            rw [← List.append_assoc, List.getLast?_concat, hcomma.1]
            exact apart_some (by decide)
          have hempty := List.append_nil (done ++ (current ++ [c]))
          rcases @ih depth _ [] hlast (by rwa [hempty]) with ⟨before, inside, after, htext, hrange⟩
          exact ⟨before, inside, after, by rw [← htext]; simp, hrange⟩
      · rcases ih hdone h with ⟨before, inside, after, htext, hrange⟩
        exact ⟨before, inside, after, by rw [← htext]; simp, hrange⟩

theorem wholeWord_of_mem_topLevelParts {text part : List Char} {range : ByteRange}
    (h : range ∈ topLevelParts text) (hpart : range.slice? text = some part) :
    WholeWord part text := by
  rcases @exists_of_mem_topLevelPartsFrom 0 [] [] text apart_none range h with
    ⟨before, inside, after, htext, rfl, hbefore, hafter⟩
  rw [List.nil_append, List.nil_append] at htext
  subst htext
  rw [slice?_eq_some_iff] at hpart
  rw [hpart]
  exact ⟨before, after, rfl, hbefore, hafter⟩

theorem wholeWord_takeWhile {stop : Char} (hstop : isIdentifierPart stop = false)
    (text : List Char) : WholeWord (text.takeWhile (· != stop)) text := by
  refine ⟨[], text.dropWhile (· != stop), by simp, apart_none, fun c hc => ?_⟩
  have hnot := List.head?_dropWhile_not (· != stop) text
  rw [hc] at hnot
  have heq : c = stop := by
    simpa using hnot
  rw [heq]
  exact hstop

/-! ## Constructors -/

namespace EcmaScript

open Pattern

/-- The head of a constructor ends with the parenthesis before its parameters. -/
theorem exists_of_mem_constructorHead {content : List Char} {found : Match}
    (h : found ∈ constructorHead.findAll content) :
    ∃ before after, content = before ++ '(' :: after ∧
      found.stop.offset - 1 = byteLength before := by
  rcases exists_between_of_mem_findAll h with ⟨before, after, rfl, hmatch⟩
  rcases exists_way_of_matchAt? hmatch with ⟨way, hway, rfl⟩
  rcases spansTo_of_mem_ways _ _ _ _ way hway with ⟨text, rest, rfl, hstop, hspans⟩
  have hhead : (seq (Pattern.sequence [wordEdge, literal "constructor".toList, blanks])
      (literal ['('])).Spans before text rest :=
    hspans
  rcases hhead.exists_of_seq with ⟨name, parenthesis, rfl, _, hparenthesis⟩
  rw [hparenthesis.eq_of_literal] at hstop ⊢
  -- The parenthesis is one byte long, so its offset is one less than that of the stop.
  refine ⟨before ++ name, rest, by simp, ?_⟩
  have hone : '('.utf8Size = 1 := by
    decide
  simp only [hstop, Cursor.between, byteLength_append, byteLength_cons, byteLength_nil, hone]
  omega

/-- The parameters stand between parentheses. -/
theorem wholeWord_parameters {content parameters : List Char} {found : Match}
    {site : ConstructorSite} (hfound : found ∈ constructorHead.findAll content)
    (hsite : siteOf? content found = some site)
    (hparameters : site.parameters.slice? content = some parameters) :
    WholeWord parameters content := by
  rcases exists_of_mem_constructorHead hfound with ⟨before, after, hcontent, hopening⟩
  rcases Option.map_eq_some_iff.mp hsite with ⟨closing, hclosing, rfl⟩
  rw [hcontent, hopening] at hclosing
  rcases (matchingClose?_eq_some_iff (by decide)).mp hclosing with
    ⟨inside, following, rfl, -, rfl⟩
  rcases sliceBytes?_eq_some_iff.mp hparameters with ⟨first, last, hslice, hfirst, hlast⟩
  -- The offset behind the parenthesis is the one at which the parameters start.
  have hstart : byteLength first = byteLength (before ++ ['(']) := by
    rw [hfirst, hopening, byteLength_append before ['(']]
    rfl
  -- The source cut at the start of the parameters, and cut at their end.
  have hfront : first ++ (parameters ++ last) =
      before ++ ['('] ++ (inside ++ ')' :: following) := by
    rw [← List.append_assoc, ← hslice, hcontent]
    simp
  have hback : first ++ parameters ++ last = (before ++ '(' :: inside) ++ ')' :: following := by
    rw [← hslice, hcontent]
    simp
  refine ⟨first, last, hslice, ?_, ?_⟩
  · rw [(append_inj_of_byteLength_eq hfront hstart).1, List.getLast?_concat]
    exact apart_some (by decide)
  · rw [(append_inj_of_byteLength_eq hback hlast).2]
    exact apart_some (by decide)

-- A question mark, a colon or the end comes behind the name, after blanks.
theorem keepsWord_parameter : parameter.KeepsWord 2 := by
  refine ⟨parameter.row.take 3, identifier, parameter.row.drop 4, rfl, rfl, rfl, rfl, ?_, ?_⟩
  · simp [parameter, Pattern.sequence, row, inRow, EndsApart]
  · have hchars : isIdentifierPart '?' = false ∧ isIdentifierPart ':' = false := by
      decide
    simpa [parameter, Pattern.sequence, row, inRow, StartsApart] using hchars

/-- The type of a parameter, which stands between a colon and the end. -/
def typePart : Pattern :=
  Pattern.sequence [literal [':'], blanks, group 3 (atLeastOne fun _ => true)]

-- The end of the text leaves nothing, and so the type goes to the end.
theorem rest_eq_nil_of_textEnd {cursor : Cursor} {kept : Marks} {way : Way}
    (h : way ∈ (inRow [textEnd]).ways cursor kept) : cursor.rest = [] := by
  rw [ways_inRow_singleton, ways] at h
  split_ifs at h with hrest
  · exact hrest
  · cases h

/-- The type of a parameter starts apart from what comes before it, and it ends
the parameter. -/
theorem wholeWord_typePart {text type : List Char} {found : Match}
    (h : parameter.matchAt? (Cursor.atStart text) = some found)
    (htype : found.group? 3 = some type) : WholeWord type text := by
  rcases exists_way_of_matchAt? h with ⟨way, hway, rfl⟩
  have hrow : parameter.row = parameter.row.take 7 ++ optional typePart :: [textEnd] :=
    rfl
  rcases exists_ways_of_row hrow hway with ⟨start, hstart, stop, hstop, hend⟩
  rcases spansTo_of_mem_ways _ [] text [] start hstart with ⟨passed, rest, rfl, hplace, _⟩
  rw [hplace] at hstop
  -- What comes behind the type keeps no marks of its own.
  have hkept (edge : Mark) : List.lookup edge way.kept = List.lookup edge stop.kept :=
    lookup_kept rfl _ _ way hend
  simp only [Match.group?, hkept] at htype
  rcases List.mem_append.mp hstop with hstop | hstop
  · have htypePart : typePart.row =
        typePart.row.take 2 ++ group 3 (atLeastOne fun _ => true) :: [] :=
      rfl
    rcases exists_spans_of_group htypePart rfl rfl rfl hstop with
      ⟨front, inside, more, last, rfl, hfront, _, hmore, hplace, hopening, hclosing⟩
    have hinside : inside = type := by
      rw [hopening, hclosing] at htype
      exact (Cursor.textUpTo_between _ _ _).symm.trans (Option.some.inj htype)
    subst hinside
    cases hmore
    have hlast : last = [] := by
      rw [hplace] at hend
      exact rest_eq_nil_of_textEnd hend
    have hends : (inRow (typePart.row.take 2)).EndsApart False := by
      have hcolon : isIdentifierPart ':' = false := by
        decide
      simpa [typePart, Pattern.sequence, row, inRow, EndsApart] using hcolon
    have hapart := apart_of_endsApart hfront False hends False.elim
    exact ⟨passed ++ front, last, by simp, by simpa using hapart, by simp [hlast, apart_none]⟩
  · -- Without a type nothing is kept.
    have hnothing : stop = ⟨Cursor.between ([] ++ passed) rest, start.kept⟩ :=
      List.mem_singleton.mp hstop
    have hnone : List.lookup (.opening 3) start.kept = none :=
      lookup_kept rfl _ _ start hstart
    rw [hnothing, hnone] at htype
    cases htype

/-- What one parameter contributes is found in it. -/
theorem wholeWord_parameterNames (text : List Char) :
    (∀ name ∈ (parameterNames text).1, WholeWord name.toList text) ∧
      ∀ name ∈ (parameterNames text).2, ∃ type, WholeWord type text ∧
        name ∈ referencedTypes builtins type := by
  unfold parameterNames
  cases hmatch : parameter.matchAt? (Cursor.atStart text) with
  | none => simp
  | some found =>
      dsimp only
      constructor
      · intro name hname
        split_ifs at hname
        · rw [List.mem_singleton.mp hname, String.toList_ofList]
          rw [Cursor.atStart_eq_between] at hmatch
          exact keepsWord_parameter.wholeWord_of_matchAt? hmatch
        · cases hname
      · intro name hname
        cases htype : found.group? 3 with
        | none =>
            rw [htype] at hname
            cases hname
        | some type =>
            rw [htype] at hname
            exact ⟨type, wholeWord_typePart hmatch htype, hname⟩

/-- An assigned property has a dot before it, and more of the assignment behind
it. -/
theorem exists_of_mem_assignedProperties {body : List Char} {name : String}
    (h : name ∈ assignedProperties body) :
    ∃ before after, body = before ++ ['.'] ++ name.toList ++ after ∧ after ≠ [] ∧
      Apart after.head? := by
  rcases List.mem_map.mp h with ⟨found, hfound, rfl⟩
  rcases exists_between_of_mem_findAll (List.mem_filter.mp hfound).1 with
    ⟨before, after, rfl, hmatch⟩
  have hrow : assignment.row = [wordEdge, literal "this.".toList] ++
      Pattern.group 1 identifier :: assignment.row.drop 3 :=
    rfl
  rcases exists_spans_of_matchAt? hrow rfl rfl rfl hmatch with
    ⟨passed, more, rest, rfl, hfront, _, hmore⟩
  have hequals : isIdentifierPart '=' = false := by
    decide
  have hstarts : (inRow (assignment.row.drop 3)).StartsApart False := by
    simpa [assignment, Pattern.sequence, row, inRow, StartsApart] using hequals
  -- The edge of a word takes nothing, so what is passed is the literal alone.
  have hpassed : passed = "this.".toList := by
    rcases hfront.exists_of_seq with ⟨edge, text, rfl, hedge, htext⟩
    rcases htext.exists_of_seq with ⟨this, nothing, rfl, hthis, hnothing⟩
    rw [hedge.eq_of_wordEdge, hthis.eq_of_literal, hnothing.eq_of_literal, List.append_nil,
      List.nil_append]
  have hnonempty : more ≠ [] := by
    rcases hmore.exists_of_seq with ⟨blank, text, rfl, _, htext⟩
    rcases htext.exists_of_seq with ⟨equals, text, rfl, hequals, _⟩
    rw [hequals.eq_of_literal]
    simp
  refine ⟨before ++ "this".toList, more ++ rest, ?_, by simp [hnonempty],
    apart_of_startsApart hmore False hstarts False.elim⟩
  rw [hpassed, String.toList_ofList]
  simp

-- Parameters are cut out one by one, and each part that is there has a range.
theorem exists_of_mem_mapM {α β : Type} {f : α → Option β} {l : List α} {l' : List β}
    (h : l.mapM f = some l') {b : β} (hb : b ∈ l') : ∃ a ∈ l, f a = some b := by
  induction l generalizing l' with
  | nil =>
      cases h
      cases hb
  | cons a l ih =>
      rw [List.mapM_cons] at h
      rcases Option.bind_eq_some_iff.mp h with ⟨first, hfirst, h⟩
      rcases Option.bind_eq_some_iff.mp h with ⟨rest, hrest, h⟩
      cases h
      rcases List.mem_cons.mp hb with rfl | hb
      · exact ⟨a, List.mem_cons_self, hfirst⟩
      · rcases ih hrest hb with ⟨a', ha', hfa'⟩
        exact ⟨a', List.mem_cons_of_mem a ha', hfa'⟩

theorem constructorNames?_eq (content : List Char) (site : ConstructorSite) :
    constructorNames? content site =
      (site.parameters.slice? content).bind fun parameters =>
        ((topLevelParts parameters).mapM (ByteRange.slice? · parameters)).bind
          fun (parts : List (List Char)) =>
            (match site.body with
              | none => some []
              | some range => range.slice? content).bind fun body =>
                let names := parts.map fun (part : List Char) =>
                  parameterNames (part.takeWhile (· != '='))
                some (names.flatMap Prod.fst ++ assignedProperties body,
                  names.flatMap Prod.snd) := by
  unfold constructorNames? constructorNamesBy?
  cases site.body <;> rfl

/-- What a constructor contributes is found in the source. -/
theorem wholeWord_constructorNames {content : List Char} {site : ConstructorSite}
    {names : List String × List String} (hsite : site ∈ constructorSites content)
    (h : constructorNames? content site = some names) :
    (∀ name ∈ names.1, WholeWord name.toList content) ∧
      ∀ name ∈ names.2, ∃ type, WholeWord type content ∧ name ∈ referencedTypes builtins type := by
  rcases List.mem_filterMap.mp hsite with ⟨found, hfound, hsite⟩
  rw [constructorNames?_eq] at h
  rcases Option.bind_eq_some_iff.mp h with ⟨parameters, hparameters, h⟩
  rcases Option.bind_eq_some_iff.mp h with ⟨parts, hparts, h⟩
  rcases Option.bind_eq_some_iff.mp h with ⟨body, hbody, h⟩
  cases h
  -- A parameter is cut out of the source, and then its default value is cut off.
  have hpart (part : List Char) (hpart : part ∈ parts) :
      WholeWord (part.takeWhile (· != '=')) content := by
    rcases exists_of_mem_mapM hparts hpart with ⟨range, hrange, hslice⟩
    exact ((wholeWord_takeWhile (by decide) part).trans
      (wholeWord_of_mem_topLevelParts hrange hslice)).trans
        (wholeWord_parameters hfound hsite hparameters)
  constructor
  · intro name hname
    rcases List.mem_append.mp hname with hname | hname
    · rcases List.mem_flatMap.mp hname with ⟨pair, hpair, hname⟩
      rcases List.mem_map.mp hpair with ⟨part, hmem, rfl⟩
      exact ((wholeWord_parameterNames _).1 name hname).trans (hpart part hmem)
    · rcases exists_of_mem_assignedProperties hname with ⟨before, after, hbefore, hne, hafter⟩
      -- Without a body the text searched is empty, and that is a part of any source.
      have hpart : ∃ first last, content = first ++ body ++ last := by
        cases hrange : site.body with
        | none =>
            rw [hrange] at hbody
            cases hbody
            exact ⟨[], content, rfl⟩
        | some range =>
            rw [hrange] at hbody
            rcases sliceBytes?_eq_some_iff.mp hbody with ⟨first, last, hcontent, _⟩
            exact ⟨first, last, hcontent⟩
      rcases hpart with ⟨first, last, rfl⟩
      refine ⟨first ++ (before ++ ['.']), after ++ last, by simp [hbefore], ?_, ?_⟩
      -- The dot and what follows the name lie in the body, whatever is around it.
      · rw [← List.append_assoc, List.getLast?_concat]
        exact apart_some (by decide)
      · rw [List.head?_append_of_ne_nil _ hne]
        exact hafter
  · intro name hname
    rcases List.mem_flatMap.mp hname with ⟨pair, hpair, hname⟩
    rcases List.mem_map.mp hpair with ⟨part, hmem, rfl⟩
    rcases (wholeWord_parameterNames _).2 name hname with ⟨type, htype, hname⟩
    exact ⟨type, htype.trans (hpart part hmem), hname⟩

end EcmaScript

end Chunking
