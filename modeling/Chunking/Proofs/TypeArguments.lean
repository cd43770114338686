import Chunking.Proofs.Identifiers
import Chunking.Proofs.SpannedText

/-!
# Lists of type arguments

Besides the types of members, C# source is searched for lists of type arguments,
names in angle brackets with commas between them. The pattern wants the first name
to start with a capital letter. A list that starts with `string` or `int` is passed
over, and what comes behind it in the list is not seen.

The matches of this pattern are easy to tell. There is an angle bracket at either
end and none inside, so no two of them overlap, and a list at any place in any text
is found, provided that it starts with a capital letter. All that is reported comes
from these lists and from the types of members.

## Main definitions

* `CommaSeparated`: A text of words with commas between them.
* `CSharp.IsScanned`: What the pattern takes for a list of type arguments.
* `CSharp.ScannedIn`: A text in angle brackets that is taken for such a list.

## Theorems

* `identifiers_of_commaSeparated`: The identifiers of a list are its words.
* `CSharp.spans_typeArguments_iff`: What the pattern spans.
* `CSharp.mem_foundTypes_typeArguments_iff`: What is found in lists.
* `CSharp.typeArguments_found_iff`: When a name in a list is reported.
-/

namespace Chunking

open Text Pattern

/-- The text is made of the words, with a comma between two of them and any white
space around it. -/
inductive CommaSeparated : List (List Char) → List Char → Prop
  | one (word : List Char) : CommaSeparated [word] word
  | more {words : List (List Char)} {blanks blanks' text : List Char} (word : List Char)
      (h : ∀ c ∈ blanks, isBlank c = true) (h' : ∀ c ∈ blanks', isBlank c = true)
      (rest : CommaSeparated words text) :
      CommaSeparated (word :: words) (word ++ blanks ++ ',' :: (blanks' ++ text))

/-- The identifiers of a list are its words. -/
theorem identifiers_of_commaSeparated {words : List (List Char)} {text : List Char}
    (h : CommaSeparated words text) (hwords : ∀ word ∈ words, identifiers word = [word]) :
    identifiers text = words := by
  have hblanks {blanks : List Char} (h : ∀ c ∈ blanks, isBlank c = true) :
      ∀ c ∈ blanks, isIdentifierPart c = false := fun c hc =>
    isIdentifierPart_of_isBlank (h c hc)
  have hcomma : isIdentifierPart ',' = false := by
    decide
  induction h with
  | one word => exact hwords word List.mem_cons_self
  | @more words blanks blanks' text word hbefore hbehind _ ih =>
      have hrest := ih fun other hother => hwords other (List.mem_cons_of_mem word hother)
      have hword : identifiers (word ++ blanks) = [word] := by
        cases blanks with
        | nil => rw [List.append_nil, hwords word List.mem_cons_self]
        | cons c blanks =>
            have hseparators := hblanks hbefore
            rw [identifiers_append_cons (hseparators c List.mem_cons_self),
              identifiers_of_separators (List.forall_mem_cons.mp hseparators).2, List.append_nil,
              hwords word List.mem_cons_self]
      have hbehind : Apart blanks'.getLast? := fun c hc =>
        hblanks hbehind c (List.mem_of_getLast? hc)
      rw [identifiers_append_cons hcomma, hword, identifiers_append (.inl hbehind), hrest,
        identifiers_of_separators (hblanks ‹_›)]
      rfl

namespace CSharp

/-- A character of a list of type arguments. -/
def isArgumentChar (c : Char) : Bool :=
  isNamePart c || c == ',' || isBlank c

/-- A capital letter and at least one more character, all of them characters of
names, commas and white space. -/
def IsScanned (inside : List Char) : Prop :=
  ∃ first second rest, inside = first :: second :: rest ∧ isCapital first = true ∧
    ∀ c ∈ second :: rest, isArgumentChar c = true

/-- The text stands in angle brackets and is taken for a list of type arguments. -/
def ScannedIn (content inside : List Char) : Prop :=
  ∃ before after, content = before ++ '<' :: (inside ++ '>' :: after) ∧ IsScanned inside

/-! ## What the pattern spans -/

variable {before text after inside content : List Char}

theorem isArgumentChar_of_isNamePart {c : Char} (h : isNamePart c = true) :
    isArgumentChar c = true := by
  rw [isArgumentChar, h]
  rfl

theorem ne_angle_of_isArgumentChar {c : Char} (h : isArgumentChar c = true) :
    c ≠ '<' ∧ c ≠ '>' := by
  have hangles : isArgumentChar '<' = false ∧ isArgumentChar '>' = false := by
    decide
  constructor
  · rintro rfl
    rw [hangles.1] at h
    cases h
  · rintro rfl
    rw [hangles.2] at h
    cases h

theorem IsScanned.forall_ne (h : IsScanned inside) : ∀ c ∈ inside, c ≠ '<' ∧ c ≠ '>' := by
  rcases h with ⟨first, second, rest, rfl, hfirst, hrest⟩
  intro c hc
  rcases List.mem_cons.mp hc with rfl | hc
  · exact ne_angle_of_isArgumentChar
      (isArgumentChar_of_isNamePart (isNamePart_of_isCapital hfirst))
  · exact ne_angle_of_isArgumentChar (hrest c hc)

theorem spans_inside_iff :
    (seq (one isCapital) (atLeastOne isArgumentChar)).Spans before inside after ↔
      IsScanned inside := by
  constructor
  · intro h
    rcases h.exists_of_seq with ⟨start, rest, rfl, hstart, hrest⟩
    rcases hstart.exists_of_one with ⟨first, rfl, hfirst⟩
    rcases spans_name_iff.mp hrest with ⟨second, rest, rfl, hsecond, hrest⟩
    exact ⟨first, second, rest, rfl, hfirst, List.forall_mem_cons.mpr ⟨hsecond, hrest⟩⟩
  · rintro ⟨first, second, rest, rfl, hfirst, hrest⟩
    exact .seq (.one hfirst) (spans_name_iff.mpr ⟨second, rest, rfl, List.forall_mem_cons.mp hrest⟩)

/-- The pattern spans a list with the angle brackets around it. -/
theorem spans_typeArguments_iff :
    typeArguments.Spans before text after ↔
      ∃ inside, text = '<' :: (inside ++ ['>']) ∧ IsScanned inside := by
  constructor
  · intro h
    rcases h.exists_of_seq with ⟨opened, closing, rfl, hopened, hclosing⟩
    rcases hopened.exists_of_seq with ⟨opening, inside, rfl, hopening, hinside⟩
    rw [hopening.eq_of_literal, hclosing.eq_of_literal]
    exact ⟨inside, by simp, spans_inside_iff.mp (spans_group_iff.mp hinside)⟩
  · rintro ⟨inside, rfl, hinside⟩
    have hopened : (seq (literal ['<']) (group 1 (seq (one isCapital)
        (atLeastOne isArgumentChar)))).Spans before (['<'] ++ inside) (['>'] ++ after) :=
      .seq .literal (spans_group_iff.mpr (spans_inside_iff.mpr hinside))
    exact .seq hopened .literal

-- A list has an angle bracket at its start, and no other before its end.
theorem clearAt_typeArguments (before rest : List Char) :
    typeArguments.ClearAt before ('<' :: rest) := by
  refine clearAt_of_word [] '<' ?_ before rest
  intro before text after h
  rcases spans_typeArguments_iff.mp h with ⟨inside, rfl, hinside⟩
  refine ⟨inside ++ ['>'], rfl, ?_, '>', by simp, by decide⟩
  intro hmem
  rcases List.mem_append.mp hmem with hmem | hmem
  · exact (hinside.forall_ne '<' hmem).1 rfl
  · cases List.mem_singleton.mp hmem

/-! ## What is found -/

/-- What a match keeps is the list. -/
theorem exists_of_matchAt?_typeArguments {found : Match}
    (h : typeArguments.matchAt? (Cursor.between before after) = some found) :
    ∃ rest, after = '<' :: (found.group 1 ++ '>' :: rest) ∧ IsScanned (found.group 1) := by
  have hrow : typeArguments.row = [literal ['<']] ++ group 1 (seq (one isCapital)
      (atLeastOne isArgumentChar)) :: [literal ['>']] :=
    rfl
  rcases exists_spans_of_matchAt? hrow rfl rfl rfl h with
    ⟨passed, more, rest, hafter, hpassed, hinside, hmore⟩
  rcases hpassed.exists_of_seq with ⟨opening, nothing, rfl, hopening, hnothing⟩
  rcases hmore.exists_of_seq with ⟨closing, nothing', rfl, hclosing, hnothing'⟩
  rw [hopening.eq_of_literal, hnothing.eq_of_literal, hclosing.eq_of_literal,
    hnothing'.eq_of_literal] at hafter
  exact ⟨rest, by rw [hafter]; simp, spans_inside_iff.mp hinside⟩

theorem exists_of_mem_findAll_typeArguments {found : Match}
    (h : found ∈ typeArguments.findAll content) : ScannedIn content (found.group 1) := by
  rcases exists_between_of_mem_findAll h with ⟨before, after, rfl, hmatch⟩
  rcases exists_of_matchAt?_typeArguments hmatch with ⟨rest, rfl, hinside⟩
  exact ⟨before, rest, rfl, hinside⟩

theorem exists_mem_findAll_of_scannedIn (h : ScannedIn content inside) :
    ∃ found ∈ typeArguments.findAll content, found.group 1 = inside := by
  rcases h with ⟨before, after, rfl, hinside⟩
  have hspans : typeArguments.Spans before ('<' :: (inside ++ ['>'])) after :=
    spans_typeArguments_iff.mpr ⟨inside, rfl, hinside⟩
  rcases exists_matchAt?_of_spans hspans with ⟨found, hmatch⟩
  have htext : '<' :: (inside ++ ['>']) ++ after = '<' :: (inside ++ '>' :: after) := by
    simp
  rw [htext] at hmatch
  have hmem := mem_findAll_of_matchAt? hmatch (List.cons_ne_nil _ _)
    (clearAt_typeArguments before _)
  refine ⟨found, hmem, ?_⟩
  rcases exists_of_matchAt?_typeArguments hmatch with ⟨rest, hsame, hgroup⟩
  -- The bracket at the end is the first one of its kind.
  exact (append_cons_inj_of_first (p := (· == '>'))
    (fun c hc => by simpa using (hgroup.forall_ne c hc).2) rfl
    (fun c hc => by simpa using (hinside.forall_ne c hc).2) rfl (List.cons.inj hsame).2.symm).1

/-- What is found in lists are the types in the texts that are taken for one. -/
theorem mem_foundTypes_typeArguments_iff {name : String} :
    name ∈ foundTypes builtins typeArguments 1 content ↔
      ∃ inside, ScannedIn content inside ∧ name ∈ referencedTypes builtins inside := by
  unfold foundTypes
  rw [List.mem_flatMap]
  constructor
  · rintro ⟨found, hfound, hname⟩
    exact ⟨found.group 1, exists_of_mem_findAll_typeArguments hfound, hname⟩
  · rintro ⟨inside, hinside, hname⟩
    rcases exists_mem_findAll_of_scannedIn hinside with ⟨found, hfound, rfl⟩
    exact ⟨found, hfound, hname⟩

-- With a capital letter at its start a list that holds the name of a type is long
-- enough, because such a name has two characters.
theorem isScanned_of_commaSeparated {words : List (List Char)} (h : CommaSeparated words text)
    (hwords : ∀ word ∈ words, IsAsciiIdentifier word)
    (hcapital : ∃ c, text.head? = some c ∧ isCapital c = true) {name : List Char}
    (hname : name ∈ words) (htype : isTypeName name = true) : IsScanned text := by
  have hchars : ∀ c ∈ text, isArgumentChar c = true := by
    clear hcapital hname
    have hblank {blanks : List Char} (h : ∀ c ∈ blanks, isBlank c = true) :
        ∀ c ∈ blanks, isArgumentChar c = true := fun c hc => by
      rw [isArgumentChar, h c hc, Bool.or_true]
    have hword {word : List Char} (h : IsAsciiIdentifier word) :
        ∀ c ∈ word, isArgumentChar c = true := fun c hc =>
      isArgumentChar_of_isNamePart (h.forall_isNamePart c hc)
    induction h with
    | one word => exact hword (hwords word List.mem_cons_self)
    | more word hbefore hbehind _ ih =>
        have hrest := ih fun other hother => hwords other (List.mem_cons_of_mem word hother)
        have hfirst := hword (hwords word List.mem_cons_self)
        simp only [List.forall_mem_append, List.forall_mem_cons]
        exact ⟨⟨hfirst, hblank hbefore⟩, by decide, hblank hbehind, hrest⟩
  have hlong : 2 ≤ text.length := by
    cases h with
    | one word =>
        rw [List.mem_singleton.mp hname] at htype
        rcases text with _ | ⟨first, _ | ⟨second, rest⟩⟩
        · cases htype
        · simp [isTypeName] at htype
        · exact Nat.le_add_left 2 rest.length
    | more word _ _ rest =>
        have hpos := List.length_pos_iff.mpr (hwords word List.mem_cons_self).ne_nil
        simp only [List.length_append, List.length_cons]
        omega
  rcases hcapital with ⟨c, hhead, hc⟩
  rcases text with _ | ⟨first, _ | ⟨second, rest⟩⟩
  · cases hhead
  · simp at hlong
  · cases hhead
    exact ⟨_, second, rest, rfl, hc, (List.forall_mem_cons.mp hchars).2⟩

/-- A name in a list of type arguments, wherever the list stands, is reported if the
list starts with a capital letter. Otherwise nothing comes of the list, and the name
is reported exactly if it stands in the type of a member or in another list that does
start with a capital letter. -/
theorem typeArguments_found_iff {content text before after : List Char}
    {words : List (List Char)} (hcontent : content = before ++ '<' :: (text ++ '>' :: after))
    (hlist : CommaSeparated words text) (hwords : ∀ word ∈ words, IsAsciiIdentifier word)
    {name : String} (hname : name.toList ∈ words) (hreported : ReportedType builtins name) :
    name ∈ (extract content).types ↔
      (∃ c, text.head? = some c ∧ isCapital c = true) ∨
        name ∈ foundTypes builtins member 1 content ∨
          ∃ inside, ScannedIn content inside ∧ name.toList ∈ identifiers inside := by
  have htypes : name ∈ (extract content).types ↔
      name ∈ foundTypes builtins member 1 content ∨
        ∃ inside, ScannedIn content inside ∧ name.toList ∈ identifiers inside := by
    dsimp only [extract]
    rw [NameSet.mem_ofList, List.mem_append, mem_foundTypes_typeArguments_iff]
    simp only [mem_referencedTypes_iff, hreported, true_and]
  rw [htypes]
  constructor
  · exact .inr
  · rintro (hcapital | h)
    · have hscanned := isScanned_of_commaSeparated hlist hwords hcapital hname hreported.1
      have hidentifiers := identifiers_of_commaSeparated hlist fun word hword =>
        (hwords word hword).identifiers_eq
      exact .inr ⟨text, ⟨before, after, hcontent, hscanned⟩, by rwa [hidentifiers]⟩
    · exact h

/-- A list with a small letter behind its first name. -/
theorem typeArguments_found_iff_mixed :
    let content := "var m = new Map<Order,  int , Customer>();".toList
    "Customer" ∈ (extract content).types ↔
      (∃ c, "Order,  int , Customer".toList.head? = some c ∧ isCapital c = true) ∨
        "Customer" ∈ foundTypes builtins member 1 content ∨
          ∃ inside, ScannedIn content inside ∧ "Customer".toList ∈ identifiers inside := by
  intro content
  have hlist : CommaSeparated ["Order".toList, "int".toList, "Customer".toList]
      "Order,  int , Customer".toList :=
    @CommaSeparated.more _ [] "  ".toList _ "Order".toList (by decide) (by decide)
      (@CommaSeparated.more _ " ".toList " ".toList _ "int".toList (by decide) (by decide)
        (.one "Customer".toList))
  have hwords : ∀ word ∈ ["Order".toList, "int".toList, "Customer".toList],
      IsAsciiIdentifier word := by
    simp only [List.forall_mem_cons]
    exact ⟨⟨'O', _, rfl, by decide, by decide⟩, ⟨'i', _, rfl, by decide, by decide⟩,
      ⟨'C', _, rfl, by decide, by decide⟩, by simp⟩
  exact @typeArguments_found_iff content _ "var m = new Map".toList "();".toList _ rfl hlist hwords
    "Customer" (by decide) (by decide)

/-- Behind a type of the language nothing in a list is seen. -/
theorem typeArguments_behind_builtin :
    let content := "new Dictionary<string, Customer>()".toList
    content = "new Dictionary".toList ++ '<' :: ("string, Customer".toList ++ '>' :: "()".toList) ∧
      CommaSeparated ["string".toList, "Customer".toList] "string, Customer".toList ∧
      ReportedType builtins "Customer" ∧ "Customer" ∉ (extract content).types := by
  intro content
  have hnames : (extract content).types = ∅ := by
    decide +kernel
  refine ⟨rfl, ?_, by decide, by simp [hnames]⟩
  exact @CommaSeparated.more _ [] " ".toList _ "string".toList (by decide) (by decide)
    (.one "Customer".toList)

end CSharp

end Chunking
