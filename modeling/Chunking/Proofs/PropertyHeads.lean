import Chunking.Names.CSharp
import Chunking.Names.Java
import Chunking.Proofs.SpacedNames

/-!
# Properties behind a gap

Two patterns look for a name behind a gap. One wants a brace or an equals sign behind the
name, and leaves out what has the keyword of a declaration in its gap. The other one wants
a list of parameters, and the name of a property behind `get` or `is`.

Both keep only parts of what they span, and each part on its own could come from another
reading of the text. That gap and name are determined brings them together.

## Main definitions

* `HeadForm.ReadBy`: The parts of such a pattern.
* `CSharp.propertyForm`: Properties by their head.
* `Java.accessorForm`: Methods named after a property.

## Theorems

* `HeadForm.ReadBy.describes`: Such a pattern spans the texts of the form.
* `CSharp.tells_property`: A match keeps the name, and the keywords of its gap.
* `Java.tells_accessor`: A match keeps the name behind `get` or `is`.
-/

namespace Chunking

open Text Pattern

/-! ## Rows -/

namespace HeadForm

variable {form : HeadForm} {before passed type rear name tail rest after : List Char}
  {pattern kept stop : Pattern} {named : List Pattern}

/-- The pattern reads the form: a word, white space, a type, white space, a name, and the
character at the end. -/
structure ReadBy (form : HeadForm) (pattern kept stop : Pattern) (named : List Pattern) :
    Prop where
  row : pattern.row = [wordEdge, words form.access, someBlanks] ++
    (kept :: someBlanks :: (named ++ [blanks, stop]))
  spans_kept : ∀ {before text after}, kept.Spans before text after ↔
    text ≠ [] ∧ ∀ c ∈ text, isTypeChar c = true
  spans_named : ∀ {before text after}, (inRow named).Spans before text after ↔ form.IsName text
  spans_stop : ∀ {before text after}, stop.Spans before text after ↔ ∃ c ∈ form.stops, text = [c]

/-- The parts of a text of the form, put together. -/
theorem ReadBy.exists_spells (h : form.ReadBy pattern kept stop named)
    (hfront : (inRow [wordEdge, words form.access, someBlanks]).Spans before passed after)
    (htype : type ≠ [] ∧ ∀ c ∈ type, isTypeChar c = true) (hrear : IsBlanks rear)
    (hname : form.IsName name) {before' after' : List Char}
    (htail : (inRow [blanks, stop]).Spans before' tail after') :
    EndsWord before ∧ ∃ lead, IsBlanks lead ∧ IsGap (lead ++ type ++ rear) ∧
      form.Spells (lead ++ type ++ rear) name (passed ++ type ++ rear ++ name ++ tail) := by
  rcases exists_of_spans_front form.access_plain hfront with
    ⟨hbefore, access, haccess, lead, rfl, hlead⟩
  rcases htail.exists_of_seq with ⟨blanks, last, rfl, hblanks, hlast⟩
  rcases h.spans_stop.mp (spans_inRow_singleton_iff.mp hlast) with ⟨c, hc, rfl⟩
  exact ⟨hbefore, lead, hlead, isGap_iff.mpr ⟨lead, type, rear, rfl, hlead, htype, hrear⟩, access,
    haccess, blanks, c, by simp, hname, hblanks.forall_of_stretch, hc⟩

/-- Such a pattern spans the texts of the form. -/
theorem ReadBy.describes (h : form.ReadBy pattern kept stop named) : form.Describes pattern := by
  intro before text after
  rw [← spans_inRow_row, h.row]
  constructor
  · intro hspans
    rcases spans_inRow_append hspans with ⟨passed, more, rfl, hfront, hmore⟩
    rcases hmore.exists_of_seq with ⟨type, more, rfl, htype, hmore⟩
    rcases hmore.exists_of_seq with ⟨rear, more, rfl, hrear, hmore⟩
    rcases spans_inRow_append hmore with ⟨name, tail, rfl, hname, htail⟩
    rcases h.exists_spells hfront (h.spans_kept.mp htype) (spans_someBlanks_iff.mp hrear)
      (h.spans_named.mp hname) htail with ⟨hbefore, lead, -, hgap, hspells⟩
    exact ⟨hbefore, _, name, hgap, by simpa using hspells⟩
  -- The other way the row is built up from its end, since each part is followed by the rest.
  · rintro ⟨hbefore, gap, name, hgap, access, haccess, blanks, c, rfl, hname, hblanks, hc⟩
    rcases isGap_iff.mp hgap with ⟨lead, type, rear, rfl, hlead, htype, hrear⟩
    have htail (before : List Char) :
        (inRow [Pattern.blanks, stop]).Spans before (blanks ++ ([c] ++ [])) after :=
      .seq (.stretch hblanks) (.seq (h.spans_stop.mpr ⟨c, hc, rfl⟩) .literal)
    have hrest (before : List Char) :
        (inRow (kept :: someBlanks :: (named ++ [Pattern.blanks, stop]))).Spans before
          (type ++ (rear ++ (name ++ (blanks ++ ([c] ++ []))))) after :=
      .seq (h.spans_kept.mpr htype) <| .seq (spans_someBlanks_iff.mpr hrear) <|
        .inRow_append (h.spans_named.mpr hname) (htail _)
    have hrow := (spans_front form.access_plain haccess hbefore hlead _).inRow_append (hrest _)
    simpa using hrow

end HeadForm

/-! ## Names -/

/-- A capital letter, and then ASCII letters, digits and underscores. -/
def IsCapitalName (name : List Char) : Prop :=
  ∃ first rest, name = first :: rest ∧ isCapital first = true ∧ ∀ c ∈ rest, isNamePart c = true

theorem IsCapitalName.spells {name : List Char} (h : IsCapitalName name) :
    name ≠ [] ∧ ∀ c ∈ name, isNamePart c = true := by
  rcases h with ⟨first, rest, rfl, hfirst, hrest⟩
  exact ⟨List.cons_ne_nil _ _, List.forall_mem_cons.mpr ⟨isNamePart_of_isCapital hfirst, hrest⟩⟩

theorem spans_capitalized_iff {before text after : List Char} :
    capitalized.Spans before text after ↔ IsCapitalName text :=
  spans_name_iff

namespace CSharp

/-! ## Properties -/

/-- An access modifier, a gap, a capitalized name, and a brace or an equals sign. -/
def propertyForm : HeadForm where
  access := ["public", "protected", "internal"]
  IsName := IsCapitalName
  stops := ['\x7b', '=']
  access_plain := by simp [PlainWords, isLower_iff]
  name_spells _ h := h.spells
  stop_apart := by decide

/-- The pattern of properties reads them. -/
theorem readBy_property : propertyForm.ReadBy property (group 1 (atLeastOne isTypeChar))
    (one (['\x7b', '='].contains ·)) [group 2 capitalized] where
  row := rfl
  spans_kept := spans_group_iff.trans spans_kind_iff
  spans_named := spans_inRow_singleton_iff.trans (spans_group_iff.trans spans_capitalized_iff)
  spans_stop := by
    intro before text after
    constructor
    · intro h
      rcases h.exists_of_one with ⟨c, rfl, hc⟩
      exact ⟨c, List.contains_iff_mem.mp hc, rfl⟩
    · rintro ⟨c, hc, rfl⟩
      exact .one (List.contains_iff_mem.mpr hc)

/-- A text falls into two at white space, and its words are those of both. -/
theorem blankSeparated_append_cons {c : Char} (hc : isBlank c = true) (first second : List Char) :
    blankSeparated (first ++ c :: second) = blankSeparated first ++ blankSeparated second := by
  unfold blankSeparated
  rw [List.splitOnP_append_cons _ _ hc, List.filter_append, List.map_append]

theorem blankSeparated_of_blanks {blanks : List Char} (h : ∀ c ∈ blanks, isBlank c = true) :
    blankSeparated blanks = [] := by
  induction blanks with
  | nil => simp [blankSeparated]
  | cons c blanks ih =>
      rw [List.forall_mem_cons] at h
      have hsplit := blankSeparated_append_cons h.1 [] blanks
      rw [ih h.2] at hsplit
      simpa [blankSeparated] using hsplit

/-- White space around a text has no words. -/
theorem blankSeparated_padded {lead rear : List Char} (hlead : IsBlanks lead)
    (hrear : IsBlanks rear) (text : List Char) :
    blankSeparated (lead ++ text ++ rear) = blankSeparated text := by
  -- The text is cut off at the last blank before it and at the first behind it.
  rcases List.eq_nil_or_concat lead with rfl | ⟨others, last, rfl⟩
  · exact absurd rfl hlead.1
  · rcases List.exists_cons_of_ne_nil hrear.1 with ⟨first, more, rfl⟩
    have hblank := hlead.2
    have hblank' := hrear.2
    simp only [List.concat_eq_append, List.forall_mem_append, List.forall_mem_cons]
      at hblank hblank'
    rw [blankSeparated_append_cons hblank'.1, blankSeparated_of_blanks hblank'.2,
      List.concat_eq_append, List.append_assoc, List.singleton_append,
      blankSeparated_append_cons hblank.2.1, blankSeparated_of_blanks hblank.1, List.nil_append,
      List.append_nil]

theorem blankSeparated_withReturns (text : List Char) :
    blankSeparated (withReturns text) = blankSeparated text :=
  congrArg (List.map String.ofList) (splitOnP_withReturns (by decide) (by decide) text)

/-- The gap has the keyword of a declaration in it. -/
def HasKeyword (gap : List Char) : Prop :=
  (blankSeparated gap).any declarationKeywords.contains = true

/-- A match keeps the name, and the keywords of its gap. -/
theorem tells_property (name : String) :
    propertyForm.Tells property
      (fun found => isDeclaration found = false ∧ String.ofList (found.group 2) = name)
      (fun gap chars => ¬HasKeyword gap ∧ String.ofList chars = name) := by
  intro before after found hmatch
  -- The row is cut twice, around the type and around the name, since each cut keeps one part.
  have htype : property.row = [wordEdge, words propertyForm.access, someBlanks] ++
      group 1 (atLeastOne isTypeChar) :: [someBlanks, group 2 capitalized, Pattern.blanks,
        one (['\x7b', '='].contains ·)] :=
    rfl
  have hname : property.row = ([wordEdge, words propertyForm.access, someBlanks] ++
      [group 1 (atLeastOne isTypeChar), someBlanks]) ++ group 2 capitalized :: [Pattern.blanks,
        one (['\x7b', '='].contains ·)] :=
    rfl
  rcases exists_spans_of_matchAt? htype rfl rfl rfl hmatch with
    ⟨passed, more, rest, rfl, hfront, hkept, hmore⟩
  rcases exists_spans_of_matchAt? hname rfl rfl rfl hmatch with
    ⟨passed', tail', rest', hafter, hpassed', hkept', htail'⟩
  rcases hmore.exists_of_seq with ⟨rear, more, rfl, hrear, hmore⟩
  rcases hmore.exists_of_seq with ⟨chars, tail, rfl, hchars, htail⟩
  rcases spans_inRow_append hpassed' with ⟨front', passed', rfl, hfront', hpassed'⟩
  rcases hpassed'.exists_of_seq with ⟨type', more', rfl, htype', hmore'⟩
  rw [spans_inRow_singleton_iff] at hmore'
  rw [spans_group_iff] at hchars
  rcases readBy_property.exists_spells hfront (spans_kind_iff.mp hkept)
    (spans_someBlanks_iff.mp hrear) (spans_capitalized_iff.mp hchars) htail with
    ⟨hbefore, lead, hlead, hgap, hspells⟩
  rcases readBy_property.exists_spells hfront' (spans_kind_iff.mp (spans_group_iff.mp htype'))
    (spans_someBlanks_iff.mp hmore') (spans_capitalized_iff.mp hkept') htail' with
    ⟨-, lead', -, hgap', hspells'⟩
  -- The two readings have the name in common.
  have hsame := (hspells.unique hgap.1 hspells' hgap'.1 (by simpa using hafter)).2
  have hkeyword : HasKeyword (lead ++ found.group 1 ++ rear) ↔ isDeclaration found = true := by
    unfold HasKeyword isDeclaration
    rw [blankSeparated_padded hlead (spans_someBlanks_iff.mp hrear)]
  refine ⟨_, chars, _, rest, ?_, hbefore, hgap, hspells, ?_⟩
  · simp
  · simp only [hkeyword, hsame, Bool.not_eq_true]

end CSharp

namespace Java

/-! ## Accessors -/

/-- What the name of an accessor starts with. -/
def accessorVerbs : List String :=
  ["get", "is"]

/-- An access modifier, a gap, the name of an accessor, and a list of parameters. -/
def accessorForm : HeadForm where
  access := ["public", "protected"]
  IsName name := ∃ verb ∈ accessorVerbs, ∃ rest, name = verb.toList ++ rest ∧ IsCapitalName rest
  stops := ['(']
  access_plain := by simp [PlainWords, isLower_iff]
  name_spells := by
    rintro _ ⟨verb, hverb, rest, rfl, hrest⟩
    have hplain : PlainWords accessorVerbs := by
      simp [PlainWords, accessorVerbs, isLower_iff]
    exact ⟨List.append_ne_nil_of_left_ne_nil (hplain verb hverb).1 rest,
      List.forall_mem_append.mpr ⟨fun c hc => isNamePart_of_isLower ((hplain verb hverb).2 c hc),
        hrest.spells.2⟩⟩
  stop_apart := by decide

/-- The pattern of accessors reads them. -/
theorem readBy_accessor : accessorForm.ReadBy accessor (atLeastOneLazy isTypeChar) (literal ['('])
    [words accessorVerbs, group 1 capitalized] where
  row := rfl
  spans_kept := spans_kind_iff
  spans_named := by
    intro before text after
    constructor
    · intro h
      rcases h.exists_of_seq with ⟨word, rest, rfl, hword, hrest⟩
      rcases hword.exists_of_words with ⟨verb, hverb, rfl⟩
      exact ⟨verb, hverb, rest, rfl,
        spans_capitalized_iff.mp (spans_group_iff.mp (spans_inRow_singleton_iff.mp hrest))⟩
    · rintro ⟨verb, hverb, rest, rfl, hrest⟩
      exact .seq (spans_words hverb _ _)
        (spans_inRow_singleton_iff.mpr (spans_group_iff.mpr (spans_capitalized_iff.mpr hrest)))
  spans_stop := by
    intro before text after
    constructor
    · intro h
      exact ⟨'(', List.mem_singleton_self _, h.eq_of_literal⟩
    · rintro ⟨c, hc, rfl⟩
      rw [List.mem_singleton.mp hc]
      exact .literal

/-- The name is that of an accessor for the property. -/
def AccessorOf (property : String) (name : List Char) : Prop :=
  ∃ verb ∈ accessorVerbs, ∃ rest, name = verb.toList ++ rest ∧
    String.ofList (propertyOfAccessor rest) = property

-- No verb starts another one.
theorem accessor_inj {verb verb' : String} (hverb : verb ∈ accessorVerbs)
    (hverb' : verb' ∈ accessorVerbs) {rest rest' : List Char}
    (h : verb.toList ++ rest = verb'.toList ++ rest') : rest = rest' := by
  have hhead : ∀ verb ∈ accessorVerbs, ∀ verb' ∈ accessorVerbs,
      verb.toList.head? = verb'.toList.head? → verb = verb' := by
    decide
  have hne : ∀ verb ∈ accessorVerbs, verb.toList ≠ [] := by
    decide
  have hsame := congrArg List.head? h
  rw [List.head?_append_of_ne_nil _ (hne verb hverb),
    List.head?_append_of_ne_nil _ (hne verb' hverb')] at hsame
  rw [hhead verb hverb verb' hverb' hsame] at h
  exact List.append_cancel_left h

/-- A match keeps the name behind `get` or `is`. -/
theorem tells_accessor (property : String) :
    accessorForm.Tells accessor
      (fun found => String.ofList (propertyOfAccessor (found.group 1)) = property)
      (fun _ name => AccessorOf property name) := by
  intro before after found hmatch
  have hrow : accessor.row = ([wordEdge, words accessorForm.access, someBlanks] ++
      [atLeastOneLazy isTypeChar, someBlanks, words accessorVerbs]) ++ group 1 capitalized ::
        [Pattern.blanks, literal ['(']] :=
    rfl
  rcases exists_spans_of_matchAt? hrow rfl rfl rfl hmatch with
    ⟨passed, tail, rest, rfl, hpassed, hkept, htail⟩
  rcases spans_inRow_append hpassed with ⟨front, passed, rfl, hfront, hpassed⟩
  rcases hpassed.exists_of_seq with ⟨type, more, rfl, htype, hmore⟩
  rcases hmore.exists_of_seq with ⟨rear, more, rfl, hrear, hmore⟩
  rw [spans_inRow_singleton_iff] at hmore
  rcases hmore.exists_of_words with ⟨verb, hverb, rfl⟩
  -- What is kept lacks the verb.
  have hname : accessorForm.IsName (verb.toList ++ found.group 1) :=
    ⟨verb, hverb, found.group 1, rfl, spans_capitalized_iff.mp hkept⟩
  rcases readBy_accessor.exists_spells hfront (spans_kind_iff.mp htype)
    (spans_someBlanks_iff.mp hrear) hname htail with ⟨hbefore, lead, -, hgap, hspells⟩
  refine ⟨_, _, _, rest, ?_, hbefore, hgap, hspells, ?_⟩
  · simp
  · constructor
    · intro h
      exact ⟨verb, hverb, found.group 1, rfl, h⟩
    · rintro ⟨verb', hverb', rest', heq, h⟩
      rwa [accessor_inj hverb hverb' heq]

end Java

end Chunking
