import Chunking.Proofs.SpannedText

/-!
# Constructors as parts of a text

The parts of a constructor are cut out by offsets, and here they are given as texts.
A constructor is the word, perhaps white space, and a balanced list between
parentheses. Every place of the word is found, because the word does not lie across
another place of it. What comes behind the list is searched for a brace, however far
away that is, and what is taken for the body is the block that starts there.

With the parts given as texts nothing about offsets is left in what the extractor
answers.

## Main definitions

* `EcmaScript.HasConstructor`: A constructor of a text, by its parameter list and what
  comes behind it.
* `EcmaScript.Block`: A block, and what stands behind it.
* `EcmaScript.FirstBlock`: The first block behind a parameter list.
* `EcmaScript.listNames`: What a parameter list contributes.

## Theorems

* `EcmaScript.clearAt_constructorHead`: No place of the word is missed.
* `EcmaScript.FirstBlock.unique`: There is only one first block.
* `EcmaScript.exists_extract?_texts`: The properties and types of a source.
-/

namespace Chunking.EcmaScript

open Text Pattern

/-- The text has a constructor with this between its parentheses and that behind
them. -/
def HasConstructor (content inside after : List Char) : Prop :=
  ∃ before blanks,
    content = before ++ ("constructor".toList ++ blanks ++ '(' :: (inside ++ ')' :: after)) ∧
      EndsWord before ∧ (∀ c ∈ blanks, isBlank c = true) ∧ Balanced '(' ')' inside

/-- The second text is the block at the start of the first one, from its opening brace
on: up to the brace that closes it, or all there is if none does. -/
inductive Block : List Char → List Char → Prop
  | closed {inner after : List Char} (h : Balanced '\x7b' '\x7d' inner) :
      Block ('\x7b' :: (inner ++ '\x7d' :: after)) ('\x7b' :: inner)
  | unclosed {rest : List Char}
      (h : ∀ inner after, rest = inner ++ '\x7d' :: after → ¬Balanced '\x7b' '\x7d' inner) :
      Block ('\x7b' :: rest) ('\x7b' :: rest)

/-- The block is the first one of the text, and this comes before it. -/
def FirstBlock (text gap block : List Char) : Prop :=
  ∃ rest, text = gap ++ rest ∧ '\x7b' ∉ gap ∧ Block rest block

/-- What a piece between commas contributes: its default value is not looked at. -/
def pieceNames (piece : List Char) : List String × List String :=
  parameterNames (piece.takeWhile (· != '='))

/-- What the pieces between parentheses contribute, one by one. -/
def listNames (inside : List Char) : List (List String × List String) :=
  (topLevelPieces inside).map pieceNames

variable {content before text after inside gap block rest : List Char}

/-! ## Blocks -/

/-- A block starts with a brace. -/
theorem Block.exists_cons (h : Block text block) : ∃ rest, text = '\x7b' :: rest := by
  cases h with
  | closed => exact ⟨_, rfl⟩
  | unclosed => exact ⟨_, rfl⟩

/-- A block ends at one place. -/
theorem Block.unique {block' : List Char} (h : Block text block) (h' : Block text block') :
    block = block' := by
  cases h with
  | @closed inner after hinner =>
      -- A brace that closes the block excludes that none does, and there is only one.
      generalize htext : '\x7b' :: (inner ++ '\x7d' :: after) = text at h'
      cases h' with
      | closed hinner' =>
          rw [(hinner.eq_of_append_eq (by decide) hinner' (List.cons.inj htext).2).1]
      | unclosed hnone => exact absurd hinner (hnone _ _ (List.cons.inj htext).2.symm)
  | @unclosed rest hnone =>
      generalize htext : '\x7b' :: rest = text at h'
      cases h' with
      | closed hinner => exact absurd hinner (hnone _ _ (List.cons.inj htext).2)
      | unclosed => rfl

/-- There is only one first block. -/
theorem FirstBlock.unique {gap' block' : List Char} (h : FirstBlock text gap block)
    (h' : FirstBlock text gap' block') : gap = gap' ∧ block = block' := by
  rcases h with ⟨rest, rfl, hgap, hblock⟩
  rcases h' with ⟨rest', htext, hgap', hblock'⟩
  rcases hblock.exists_cons with ⟨more, rfl⟩
  rcases hblock'.exists_cons with ⟨more', rfl⟩
  have hfree {gap : List Char} (h : '\x7b' ∉ gap) : ∀ c ∈ gap, (c == '\x7b') = false := by
    intro c hc
    rw [beq_eq_false_iff_ne]
    rintro rfl
    exact h hc
  -- The first brace of the text is where the block starts.
  rcases append_cons_inj_of_first (hfree hgap) rfl (hfree hgap') rfl htext with ⟨rfl, -, rfl⟩
  exact ⟨rfl, hblock.unique hblock'⟩

/-! ## The places of the word -/

/-- What the head of a constructor is. -/
theorem spans_constructorHead_iff :
    constructorHead.Spans before text after ↔ EndsWord before ∧ ∃ blanks,
      text = "constructor".toList ++ blanks ++ ['('] ∧ ∀ c ∈ blanks, isBlank c = true := by
  have hedge (rest : List Char) :
      (Cursor.between before ("constructor".toList ++ rest)).atWordEdge = true ↔ EndsWord before :=
    atWordEdge_between_iff (c := 'c') (by decide)
  rw [← spans_inRow_row]
  constructor
  · intro h
    rcases h.exists_of_seq with ⟨nothing, text, rfl, hstart, h⟩
    rcases h.exists_of_seq with ⟨word, text, rfl, hword, h⟩
    rcases h.exists_of_seq with ⟨blanks, text, rfl, hblanks, h⟩
    rcases h.exists_of_seq with ⟨parenthesis, nothing', rfl, hparenthesis, hnothing'⟩
    have hempty := hstart.eq_of_wordEdge
    subst hempty
    cases hstart with
    | wordEdge hstart =>
        rw [hword.eq_of_literal, List.append_assoc] at hstart
        rw [hword.eq_of_literal, hparenthesis.eq_of_literal, hnothing'.eq_of_literal]
        exact ⟨(hedge _).mp hstart, blanks, by simp, hblanks.forall_of_stretch⟩
  · rintro ⟨hbefore, blanks, rfl, hblanks⟩
    have hrow : (inRow constructorHead.row).Spans before
        ([] ++ ("constructor".toList ++ (blanks ++ (['('] ++ [])))) after :=
      .seq (.wordEdge (by rw [List.append_assoc]; exact (hedge _).mpr hbefore)) <|
        .seq .literal <| .seq (.stretch hblanks) <| .seq .literal .literal
    simpa using hrow

/-- No head of a constructor lies across the start of the word. -/
theorem clearAt_constructorHead (before rest : List Char) :
    constructorHead.ClearAt before ("constructor".toList ++ rest) := by
  refine clearAt_of_word "constructo".toList 'r' ?_ before rest
  -- The last letter of the word comes only once in it, and not behind it.
  intro before text after h
  rcases spans_constructorHead_iff.mp h with ⟨-, blanks, rfl, hblanks⟩
  refine ⟨blanks ++ ['('], by simp, ?_, '(', by simp, by decide⟩
  intro hmem
  rcases List.mem_append.mp hmem with hmem | hmem
  · cases hblanks 'r' hmem
  · simp at hmem

-- A match of the head stops behind the parenthesis.
theorem offset_stop {stop : Cursor} {blanks : List Char}
    (h : stop = Cursor.between (before ++ ("constructor".toList ++ blanks ++ ['('])) rest) :
    stop.offset - 1 = byteLength (before ++ ("constructor".toList ++ blanks)) := by
  have hone : byteLength ['('] = 1 := by
    decide
  have hoffset :
      stop.offset = byteLength (before ++ ("constructor".toList ++ blanks ++ ['('])) := by
    rw [h]
    rfl
  rw [hoffset, ← List.append_assoc, byteLength_append _ ['('], hone, Nat.add_sub_cancel]

/-- What is found of the heads of constructors. -/
theorem exists_head_of_mem_findAll {found : Match} (h : found ∈ constructorHead.findAll content) :
    ∃ before blanks rest, content = before ++ ("constructor".toList ++ blanks ++ '(' :: rest) ∧
      EndsWord before ∧ (∀ c ∈ blanks, isBlank c = true) ∧
        found.stop.offset - 1 = byteLength (before ++ ("constructor".toList ++ blanks)) := by
  rcases exists_between_of_mem_findAll h with ⟨before, after, rfl, hmatch⟩
  rcases exists_way_of_matchAt? hmatch with ⟨way, hway, rfl⟩
  rcases spansTo_of_mem_ways _ _ _ _ way hway with ⟨text, rest, rfl, hstop, hspans⟩
  rcases spans_constructorHead_iff.mp hspans with ⟨hbefore, blanks, rfl, hblanks⟩
  refine ⟨before, blanks, rest, by simp, hbefore, hblanks, ?_⟩
  exact offset_stop hstop

/-- Every head of a constructor is found. -/
theorem exists_mem_findAll_constructorHead {blanks : List Char} (hbefore : EndsWord before)
    (hblanks : ∀ c ∈ blanks, isBlank c = true) (rest : List Char) :
    ∃ found ∈ constructorHead.findAll (before ++ ("constructor".toList ++ blanks ++ '(' :: rest)),
      found.stop.offset - 1 = byteLength (before ++ ("constructor".toList ++ blanks)) := by
  have hspans : constructorHead.Spans before ("constructor".toList ++ blanks ++ ['(']) rest :=
    spans_constructorHead_iff.mpr ⟨hbefore, blanks, rfl, hblanks⟩
  rcases exists_matchAt?_of_spans hspans with ⟨found, hmatch⟩
  have htext : "constructor".toList ++ blanks ++ ['('] ++ rest =
      "constructor".toList ++ (blanks ++ '(' :: rest) := by
    simp
  refine ⟨found, ?_, ?_⟩
  · rw [htext] at hmatch
    have hmem := mem_findAll_of_matchAt? hmatch (by simp) (clearAt_constructorHead before _)
    rwa [List.append_assoc]
  · rcases exists_way_of_matchAt? hmatch with ⟨way, hway, rfl⟩
    rcases spansTo_of_mem_ways _ _ _ _ way hway with ⟨text, rest', hsame, hstop, hspans'⟩
    rcases spans_constructorHead_iff.mp hspans' with ⟨-, blanks', rfl, hblanks'⟩
    -- The first parenthesis behind the word is the same.
    have hparenthesis {blanks : List Char} (h : ∀ c ∈ blanks, isBlank c = true) :
        ∀ c ∈ blanks, (!isBlank c) = false := by
      simpa using h
    simp only [List.append_assoc, List.append_cancel_left_eq, List.singleton_append] at hsame
    rcases append_cons_inj_of_first (hparenthesis hblanks) (by decide) (hparenthesis hblanks')
      (by decide) hsame with ⟨rfl, -, -⟩
    exact offset_stop hstop

/-! ## The parts of a constructor -/

/-- The body of a constructor whose list ends at an offset. -/
def bodyFrom? (content : List Char) (closing : Nat) : Option ByteRange :=
  (findFrom? content closing '\x7b').map fun brace =>
    ⟨brace, (matchingClose? content brace '\x7b' '\x7d').getD (byteLength content)⟩

/-- Where the parts of a constructor lie if its list stands behind this text and the
parenthesis. -/
def siteAt (content before inside : List Char) : ConstructorSite where
  parameters := ⟨byteLength (before ++ ['(']), byteLength (before ++ ['('] ++ inside)⟩
  body := bodyFrom? content (byteLength (before ++ ['('] ++ inside))

/-- A constructor lies where its list is balanced. -/
theorem siteOf?_eq_some_iff {found : Match} {site : ConstructorSite}
    (hcontent : content = before ++ '(' :: rest)
    (hopening : found.stop.offset - 1 = byteLength before) :
    siteOf? content found = some site ↔
      ∃ inside after, rest = inside ++ ')' :: after ∧ Balanced '(' ')' inside ∧
        siteAt content before inside = site := by
  have hstart : byteLength (before ++ ['(']) = byteLength before + 1 := by
    rw [byteLength_append]
    rfl
  have hclosing {close : Nat} := @matchingClose?_eq_some_iff '(' ')' close (by decide) before rest
  rw [siteOf?, hopening, Option.map_eq_some_iff]
  constructor
  · rintro ⟨close, hclose, rfl⟩
    rw [hcontent] at hclose
    rcases hclosing.mp hclose with ⟨inside, after, hrest, hinside, rfl⟩
    exact ⟨inside, after, hrest, hinside, by simp [siteAt, bodyFrom?, hstart]⟩
  · rintro ⟨inside, after, hrest, hinside, rfl⟩
    have hclose := hclosing.mpr ⟨inside, after, hrest, hinside, rfl⟩
    rw [← hcontent] at hclose
    exact ⟨_, hclose, by simp [siteAt, bodyFrom?, hstart]⟩

-- The parenthesis that ends the list is no brace, so the search goes on behind it.
theorem bodyFrom?_eq_none_or (front after : List Char) :
    (bodyFrom? (front ++ ')' :: after) (byteLength front) = none ∧
        ∀ gap block, ¬FirstBlock after gap block) ∨
      ∃ range gap block, bodyFrom? (front ++ ')' :: after) (byteLength front) = some range ∧
        FirstBlock after gap block ∧ range.slice? (front ++ ')' :: after) = some block := by
  unfold bodyFrom?
  cases hfind : findFrom? (front ++ ')' :: after) (byteLength front) '\x7b' with
  | none =>
      refine .inl ⟨rfl, ?_⟩
      rintro gap block ⟨rest, rfl, hgap, hblock⟩
      rcases hblock.exists_cons with ⟨more, rfl⟩
      have hparenthesis : '\x7b' ∉ ')' :: gap := by
        simp [hgap]
      rw [← List.cons_append,
        findFrom?_eq_some_iff.mpr ⟨')' :: gap, more, rfl, hparenthesis, rfl⟩] at hfind
      cases hfind
  | some brace =>
      rcases findFrom?_eq_some_iff.mp hfind with ⟨gap, rest, htext, hgap, rfl⟩
      right
      cases gap with
      | nil => cases (List.cons.inj htext).1
      | cons c gap =>
          -- A brace is found, and the block goes up to the one that closes it, or to the end.
          have hc : c = ')' := (List.cons.inj htext).1.symm
          have hafter : after = gap ++ '\x7b' :: rest := (List.cons.inj htext).2
          subst hc hafter
          have hcontent : front ++ ')' :: (gap ++ '\x7b' :: rest) =
              (front ++ ')' :: gap) ++ '\x7b' :: rest := by
            simp
          have hgap : '\x7b' ∉ gap := fun h => hgap (List.mem_cons_of_mem _ h)
          have hclosing {close : Nat} := @matchingClose?_eq_some_iff '\x7b' '\x7d' close
            (by decide) (front ++ ')' :: gap) rest
          rw [hcontent, Option.map_some]
          cases hclose : matchingClose? ((front ++ ')' :: gap) ++ '\x7b' :: rest)
              (byteLength (front ++ ')' :: gap)) '\x7b' '\x7d' with
          | none =>
              have hslice := (@slice?_eq_some_iff (front ++ ')' :: gap) ('\x7b' :: rest) [] _).mpr
                rfl
              rw [List.append_nil] at hslice
              refine ⟨_, gap, '\x7b' :: rest, rfl, ⟨_, rfl, hgap, .unclosed ?_⟩, hslice⟩
              intro inner following hrest hinner
              rw [hclosing.mpr ⟨inner, following, hrest, hinner, rfl⟩] at hclose
              cases hclose
          | some close =>
              rcases hclosing.mp hclose with ⟨inner, following, rfl, hinner, rfl⟩
              have hslice := (@slice?_eq_some_iff (front ++ ')' :: gap) ('\x7b' :: inner)
                ('\x7d' :: following) _).mpr rfl
              rw [List.append_assoc (front ++ ')' :: gap)] at hslice
              exact ⟨_, gap, '\x7b' :: inner, rfl, ⟨_, rfl, hgap, .closed hinner⟩, hslice⟩

/-- The names are what a constructor with this list and that behind it contributes. -/
def Contributes (inside after : List Char) (names : List String × List String) : Prop :=
  names.2 = (listNames inside).flatMap Prod.snd ∧
    ∀ name, name ∈ names.1 ↔ name ∈ (listNames inside).flatMap Prod.fst ∨
      ∃ gap block, FirstBlock after gap block ∧ name ∈ assignedProperties block

/-- What a constructor contributes, by the texts of its parts. -/
theorem exists_constructorNames?_siteAt
    (hcontent : content = before ++ '(' :: (inside ++ ')' :: after)) :
    ∃ names, constructorNames? content (siteAt content before inside) = some names ∧
      Contributes inside after names := by
  have hfront : content = (before ++ ['('] ++ inside) ++ ')' :: after := by
    rw [hcontent]
    simp
  have hslice : (siteAt content before inside).parameters.slice? content = some inside := by
    rw [hfront]
    exact slice?_eq_some_iff.mpr rfl
  have hbody : (siteAt content before inside).body =
      bodyFrom? ((before ++ ['('] ++ inside) ++ ')' :: after)
        (byteLength (before ++ ['('] ++ inside)) := by
    rw [← hfront]
    rfl
  rw [constructorNames?_eq, hslice, Option.bind_some, mapM_slice?_topLevelParts, Option.bind_some,
    hbody]
  rcases bodyFrom?_eq_none_or (before ++ ['('] ++ inside) after with
    ⟨hnone, hfirst⟩ | ⟨range, gap, block, hsome, hfirst, hrange⟩
  -- Without a body nothing is assigned, and with one it is that of the first block.
  · rw [hnone]
    refine ⟨_, rfl, rfl, fun name => ?_⟩
    have hnothing : assignedProperties [] = [] := rfl
    dsimp only
    rw [hnothing, List.append_nil]
    refine (or_iff_left ?_).symm
    rintro ⟨gap, block, hblock, -⟩
    exact hfirst gap block hblock
  · rw [hsome]
    dsimp only
    rw [hfront, hrange]
    refine ⟨_, rfl, rfl, fun name => ?_⟩
    dsimp only
    rw [List.mem_append]
    refine or_congr_right ⟨fun hname => ⟨gap, block, hfirst, hname⟩, ?_⟩
    rintro ⟨gap', block', hblock', hname⟩
    rwa [(hfirst.unique hblock').2]

/-! ## The names of a source -/

-- Every one of the things that are gone through has its answer among the answers.
theorem exists_mem_of_mapM {α β : Type} {f : α → Option β} {l : List α} {l' : List β}
    (h : l.mapM f = some l') {a : α} (ha : a ∈ l) : ∃ b ∈ l', f a = some b := by
  induction l generalizing l' with
  | nil => cases ha
  | cons first l ih =>
      rw [List.mapM_cons] at h
      rcases Option.bind_eq_some_iff.mp h with ⟨b, hb, h⟩
      rcases Option.bind_eq_some_iff.mp h with ⟨rest, hrest, h⟩
      cases h
      rcases List.mem_cons.mp ha with rfl | ha
      · exact ⟨b, List.mem_cons_self, hb⟩
      · rcases ih hrest ha with ⟨b', hb', hfa⟩
        exact ⟨b', List.mem_cons_of_mem b hb', hfa⟩

/-- The contributions of the constructors of a source. -/
theorem exists_mapM_constructorNames? (content : List Char) :
    ∃ constructors, (constructorSites content).mapM (constructorNames? content) =
        some constructors ∧
      (∀ names ∈ constructors, ∃ inside after, HasConstructor content inside after ∧
        Contributes inside after names) ∧
      ∀ inside after, HasConstructor content inside after →
        ∃ names ∈ constructors, Contributes inside after names := by
  have hsite (site : ConstructorSite) (h : site ∈ constructorSites content) :
      ∃ names, constructorNames? content site = some names :=
    exists_constructorNames? h
  rcases exists_mapM hsite with ⟨constructors, hconstructors⟩
  have hassoc (before word rest : List Char) :
      before ++ (word ++ '(' :: rest) = (before ++ word) ++ '(' :: rest :=
    (List.append_assoc _ _ _).symm
  refine ⟨constructors, hconstructors, fun names hnames => ?_, fun inside after h => ?_⟩
  -- From an answer back to the head that was found, and from a head to its answer.
  · rcases exists_of_mem_mapM hconstructors hnames with ⟨site, hsite, hsome⟩
    rcases List.mem_filterMap.mp hsite with ⟨found, hfound, hsite⟩
    rcases exists_head_of_mem_findAll hfound with
      ⟨before, blanks, rest, hcontent, hbefore, hblanks, hopening⟩
    rcases (siteOf?_eq_some_iff (hcontent.trans (hassoc _ _ _)) hopening).mp hsite with
      ⟨inside, after, rfl, hinside, rfl⟩
    rcases exists_constructorNames?_siteAt (hcontent.trans (hassoc _ _ _)) with
      ⟨names', hsome', hcontributes⟩
    rw [hsome] at hsome'
    cases hsome'
    exact ⟨inside, after, ⟨before, blanks, hcontent, hbefore, hblanks, hinside⟩, hcontributes⟩
  · rcases h with ⟨before, blanks, hcontent, hbefore, hblanks, hinside⟩
    rcases exists_mem_findAll_constructorHead hbefore hblanks (inside ++ ')' :: after) with
      ⟨found, hfound, hopening⟩
    rw [← hcontent] at hfound
    have hsite := (siteOf?_eq_some_iff (hcontent.trans (hassoc _ _ _)) hopening).mpr
      ⟨inside, after, rfl, hinside, rfl⟩
    rcases exists_mem_of_mapM hconstructors (List.mem_filterMap.mpr ⟨found, hfound, hsite⟩) with
      ⟨names, hnames, hsome⟩
    rcases exists_constructorNames?_siteAt (hcontent.trans (hassoc _ _ _)) with
      ⟨names', hsome', hcontributes⟩
    rw [hsome] at hsome'
    cases hsome'
    exact ⟨names, hnames, hcontributes⟩

/-- The properties and types of a source: those of its fields, those of the parameters
of its constructors, and the properties assigned in the first block behind a
constructor. -/
theorem exists_extract?_texts (content : List Char) :
    ∃ names, extract? content = some names ∧
      (∀ name, name ∈ names.properties ↔
        (∃ found ∈ fields content, String.ofList (found.group 1) = name) ∨
          ∃ inside after, HasConstructor content inside after ∧
            (name ∈ (listNames inside).flatMap Prod.fst ∨
              ∃ gap block, FirstBlock after gap block ∧ name ∈ assignedProperties block)) ∧
      ∀ name, name ∈ names.types ↔
        (∃ found ∈ fields content, name ∈ referencedTypes builtins (found.group 2)) ∨
          ∃ inside after, HasConstructor content inside after ∧
            name ∈ (listNames inside).flatMap Prod.snd := by
  rcases exists_mapM_constructorNames? content with ⟨constructors, hconstructors, hall, hevery⟩
  refine ⟨_, by rw [extract?_eq, hconstructors]; rfl, fun name => ?_, fun name => ?_⟩
  · dsimp only
    rw [NameSet.mem_ofList, List.mem_append, List.mem_map, List.mem_flatMap]
    refine or_congr_right ⟨?_, ?_⟩
    · rintro ⟨names, hnames, hname⟩
      rcases hall names hnames with ⟨inside, after, hconstructor, hcontributes⟩
      exact ⟨inside, after, hconstructor, (hcontributes.2 name).mp hname⟩
    · rintro ⟨inside, after, hconstructor, hname⟩
      rcases hevery inside after hconstructor with ⟨names, hnames, hcontributes⟩
      exact ⟨names, hnames, (hcontributes.2 name).mpr hname⟩
  · dsimp only
    rw [NameSet.mem_ofList, List.mem_append, List.mem_flatMap, List.mem_flatMap]
    refine or_congr_right ⟨?_, ?_⟩
    · rintro ⟨names, hnames, hname⟩
      rcases hall names hnames with ⟨inside, after, hconstructor, hcontributes⟩
      exact ⟨inside, after, hconstructor, hcontributes.1 ▸ hname⟩
    · rintro ⟨inside, after, hconstructor, hname⟩
      rcases hevery inside after hconstructor with ⟨names, hnames, hcontributes⟩
      exact ⟨names, hnames, hcontributes.1 ▸ hname⟩

end Chunking.EcmaScript
