import Chunking.Proofs.Joined
import Chunking.Proofs.SideBySide

/-!
# What stands inside strings and comments

A brace in a string opens no block, and a directive in a comment ends no
region. So the safe splits of a text do not change when the characters inside
its strings and comments do, as long as none of those is changed that tell
where strings, comments and lines end.

The run is the same in both texts, step for step. What is not the same at every
step is the flag for blank lines, because a string or a comment may be all the
line holds so far and the new character may be a space. No directive is looked
for there. A string or a comment ends with a quote, with the mark of a comment
or with its line, and each of these settles the flag before the scan is back in
code.

## Main definitions

* `IsInert`: A character that ends nothing and is the first of no pair.
* `ReadInside`: An offset that a step from a string or a comment reads.
* `DiffersInside`: Two texts that differ in inert characters there.

## Theorems

* `transition_of_inert`: An inert character inside a string or a comment.
* `transition_of_plain`: A plain character in code.
* `transition_closing`: The steps that lead back to code.
* `DiffersInside.step_eq`: The run takes the same steps in both texts.
* `DiffersInside.startsRegionEnd_eq`: It finds the same directives in code.
* `DiffersInside.matches_visit`: One step of the two scans side by side.
* `DiffersInside.matches_foldVisits`: A run of the two scans side by side.
* `safeSplits_of_differsInside`: The safe splits are the same.
-/

namespace Chunking

open Text

/-- A character that ends no line, no string and no comment, and is the first
of no two characters that belong together. -/
def IsInert (c : Char) : Prop :=
  c ∉ ['\n', '"', '\'', '\\', '*', '/']

instance (c : Char) : Decidable (IsInert c) :=
  inferInstanceAs (Decidable (c ∉ ['\n', '"', '\'', '\\', '*', '/']))

theorem IsInert.ne {c other : Char} (hc : IsInert c) (hother : ¬IsInert other) : c ≠ other :=
  fun heq => hother (heq ▸ hc)

/-- Of the run over the text that starts at an offset, a step that starts in a
string or a comment reads the character at `i`. -/
def ReadInside (state : ScanState) (position : Nat) (text : List Char) (i : Nat) : Prop :=
  ∃ visit ∈ visitsFrom state position text,
    visit.state ≠ .code ∧ visit.position ≤ i ∧ i < visit.position + visit.step.consumed

/-- Two texts, of which the run over the first starts at an offset, differ only
where it is inside a string or a comment, and only in inert characters. -/
structure DiffersInside (state : ScanState) (position : Nat) (text other : List Char) : Prop where
  length : other.length = text.length
  inert : ∀ i : Nat, text[i]? ≠ other[i]? →
    (∀ c ∈ text[i]?, IsInert c) ∧ ∀ c ∈ other[i]?, IsInert c
  inside : ∀ i : Nat, text[i]? ≠ other[i]? → ReadInside state position text (position + i)

instance (state : ScanState) (position : Nat) (text : List Char) (i : Nat) :
    Decidable (ReadInside state position text i) :=
  inferInstanceAs (Decidable (∃ visit ∈ visitsFrom state position text,
    visit.state ≠ .code ∧ visit.position ≤ i ∧ i < visit.position + visit.step.consumed))

-- Past the end of the texts nothing differs, so finitely many offsets decide it.
instance (state : ScanState) (position : Nat) (text other : List Char) :
    Decidable (DiffersInside state position text other) :=
  decidable_of_iff (other.length = text.length ∧ ∀ i < text.length, text[i]? ≠ other[i]? →
      (text[i]?.all (IsInert ·) = true ∧ other[i]?.all (IsInert ·) = true) ∧
        ReadInside state position text (position + i)) <| by
    simp only [Option.all_eq_true, decide_eq_true_eq]
    constructor
    · rintro ⟨hlength, hdiffers⟩
      have hinside : ∀ i : Nat, text[i]? ≠ other[i]? → i < text.length := by
        intro i hne
        by_contra hle
        rw [List.getElem?_eq_none (by omega), List.getElem?_eq_none (by omega)] at hne
        exact hne rfl
      exact ⟨hlength, fun i hne => (hdiffers i (hinside i hne) hne).1,
        fun i hne => (hdiffers i (hinside i hne) hne).2⟩
    · rintro ⟨hlength, hinert, hinside⟩
      exact ⟨hlength, fun i _ hne => ⟨hinert i hne, hinside i hne⟩⟩

/-- Inside a string or a comment an inert character is read alone, and the run
stays there. -/
theorem transition_of_inert {state : ScanState} (hstate : state ≠ .code) {c : Char}
    (hc : IsInert c) (lookahead : Option Char) :
    transition state c lookahead = { next := state, consumed := 1 } := by
  cases state with
  | code => exact absurd rfl hstate
  | doubleQuoted =>
      have hends : c ≠ '\\' ∧ c ≠ '"' := ⟨hc.ne (by decide), hc.ne (by decide)⟩
      simp [transition, quotedStep, hends]
  | singleQuoted =>
      have hends : c ≠ '\\' ∧ c ≠ '\'' := ⟨hc.ne (by decide), hc.ne (by decide)⟩
      simp [transition, quotedStep, hends]
  | lineComment =>
      have hends : c ≠ '\n' := hc.ne (by decide)
      simp [transition, lineCommentStep, hends]
  | blockComment =>
      have hends : c ≠ '*' := hc.ne (by decide)
      simp [transition, blockCommentStep, hends]

/-- In code a character that opens nothing and closes nothing is read alone, and
the run stays there. -/
theorem transition_of_plain {c : Char} (hc : c ∉ ['"', '\'', '/', '\x7b', '\x7d'])
    (lookahead : Option Char) :
    transition .code c lookahead = { next := .code, consumed := 1 } := by
  simp only [List.mem_cons, List.not_mem_nil, or_false, not_or] at hc
  simp [transition, codeStep, hc]

/-- A step that leads from a string or a comment back to code reads nothing
inert, and it reads something that settles whether its line is blank. -/
theorem transition_closing {state : ScanState} (hstate : state ≠ .code) {c : Char}
    {lookahead : Option Char} (hnext : (transition state c lookahead).next = .code) :
    ¬IsInert c ∧ (c = '\n' ∨ isBlank c = false) ∧
      ((transition state c lookahead).consumed = 1 ∨ lookahead = some '/') := by
  cases state with
  | code => exact absurd rfl hstate
  | doubleQuoted =>
      simp only [transition, quotedStep] at hnext ⊢
      by_cases hescape : c = '\\'
      · simp [hescape] at hnext
      · by_cases hquote : c = '"'
        · rw [hquote]
          exact ⟨by decide, by decide, Or.inl rfl⟩
        · simp [hescape, hquote] at hnext
  | singleQuoted =>
      simp only [transition, quotedStep] at hnext ⊢
      by_cases hescape : c = '\\'
      · simp [hescape] at hnext
      · by_cases hquote : c = '\''
        · rw [hquote]
          exact ⟨by decide, by decide, Or.inl rfl⟩
        · simp [hescape, hquote] at hnext
  | lineComment =>
      simp only [transition, lineCommentStep] at hnext ⊢
      by_cases hnewline : c = '\n'
      · rw [hnewline]
        exact ⟨by decide, by decide, Or.inl rfl⟩
      · simp [hnewline] at hnext
  | blockComment =>
      simp only [transition, blockCommentStep] at hnext ⊢
      by_cases hmark : c = '*' ∧ lookahead = some '/'
      · rw [hmark.1]
        exact ⟨by decide, by decide, Or.inr hmark.2⟩
      · simp [hmark] at hnext

namespace DiffersInside

section Step

variable {state : ScanState} {position : Nat} {current current' : Char} {rest rest' : List Char}

-- What the first step reads is read inside only if the first step starts there.
theorem not_readInside_of_code {i : Nat}
    (hi : i < (Visit.step ⟨.code, position, current, rest⟩).consumed) :
    ¬ReadInside .code position (current :: rest) (position + i) := by
  rintro ⟨visit, hmem, hstate, hle, hlt⟩
  rw [visitsFrom_cons] at hmem
  rcases List.mem_cons.mp hmem with rfl | hmem
  · exact hstate rfl
  · have := (position_of_mem_visitsFrom hmem).1
    omega

-- In code nothing differs that the next step reads.
theorem getElem?_eq_of_code (h : DiffersInside .code position (current :: rest) (current' :: rest'))
    {i : Nat} (hi : i < (Visit.step ⟨.code, position, current, rest⟩).consumed) :
    (current :: rest)[i]? = (current' :: rest')[i]? := by
  by_contra hne
  exact not_readInside_of_code hi (h.inside i hne)

theorem current_eq_of_code
    (h : DiffersInside .code position (current :: rest) (current' :: rest')) :
    current' = current := by
  have hfirst := getElem?_eq_of_code h (Visit.consumed_pos _)
  rw [List.getElem?_cons_zero, List.getElem?_cons_zero, Option.some.injEq] at hfirst
  exact hfirst.symm

theorem current_eq_or_inert
    (h : DiffersInside state position (current :: rest) (current' :: rest')) :
    current' = current ∨ state ≠ .code ∧ IsInert current ∧ IsInert current' := by
  by_cases hsame : current' = current
  · exact Or.inl hsame
  · refine Or.inr ⟨?_, ?_⟩
    · rintro rfl
      exact hsame (current_eq_of_code h)
    · have hne : (current :: rest)[0]? ≠ (current' :: rest')[0]? := by
        simp only [List.getElem?_cons_zero, ne_eq, Option.some.injEq]
        exact fun heq => hsame heq.symm
      have hinert := h.inert 0 hne
      exact ⟨hinert.1 current rfl, hinert.2 current' rfl⟩

-- A character that is read ahead either is the same or makes no difference.
theorem transition_ahead_eq
    (h : DiffersInside state position (current :: rest) (current' :: rest')) (c : Char) :
    transition state c rest'.head? = transition state c rest.head? := by
  by_cases hsame : rest.head? = rest'.head?
  · rw [hsame]
  · have hne : (current :: rest)[1]? ≠ (current' :: rest')[1]? := by
      rwa [List.getElem?_cons_succ, List.getElem?_cons_succ, ← List.head?_eq_getElem?,
        ← List.head?_eq_getElem?]
    have hplain : ∀ c, IsInert c → c ≠ '/' ∧ c ≠ '*' :=
      fun c hc => ⟨hc.ne (by decide), hc.ne (by decide)⟩
    have hinert := h.inert 1 hne
    simp only [List.getElem?_cons_succ, ← List.head?_eq_getElem?] at hinert
    rw [transition_of_lookahead state c fun c hc => hplain c (hinert.1 c hc),
      transition_of_lookahead state c fun c hc => hplain c (hinert.2 c hc)]

/-- The run takes the same step in both texts. -/
theorem step_eq (h : DiffersInside state position (current :: rest) (current' :: rest')) :
    Visit.step ⟨state, position, current', rest'⟩ =
      Visit.step ⟨state, position, current, rest⟩ := by
  unfold Visit.step
  rw [transition_ahead_eq h]
  rcases current_eq_or_inert h with hsame | ⟨hstate, hinert, hinert'⟩
  · rw [hsame]
  · rw [transition_of_inert hstate hinert, transition_of_inert hstate hinert']

/-- What the step leaves of the two texts differs as the texts did. -/
theorem remaining (h : DiffersInside state position (current :: rest) (current' :: rest')) :
    let visit : Visit := ⟨state, position, current, rest⟩
    let visit' : Visit := ⟨state, position, current', rest'⟩
    DiffersInside visit.step.next (position + visit.step.consumed) visit.remaining
      visit'.remaining := by
  intro visit visit'
  have hdrop : visit.remaining = (current :: rest).drop visit.step.consumed :=
    visit.remaining_eq_drop
  have hdrop' : visit'.remaining = (current' :: rest').drop visit.step.consumed := by
    rw [visit'.remaining_eq_drop, h.step_eq]
    rfl
  refine ⟨?_, fun i hne => ?_, fun i hne => ?_⟩
  · rw [hdrop, hdrop', List.length_drop, List.length_drop, h.length]
  · rw [hdrop, hdrop', List.getElem?_drop, List.getElem?_drop] at hne ⊢
    exact h.inert _ hne
  · rw [hdrop, hdrop', List.getElem?_drop, List.getElem?_drop] at hne
    rcases h.inside _ hne with ⟨reader, hmem, hstate, hle, hlt⟩
    rw [visitsFrom_cons] at hmem
    rcases List.mem_cons.mp hmem with rfl | hmem
    · -- The first step reads nothing of what it leaves.
      exfalso
      change position + (visit.step.consumed + i) < position + visit.step.consumed at hlt
      omega
    · exact ⟨reader, hmem, hstate, by omega, by omega⟩

/-- What the two steps read differs in inert characters only. -/
theorem forall₂_read (h : DiffersInside state position (current :: rest) (current' :: rest')) :
    List.Forall₂ (fun c c' => c = c' ∨ c ≠ '\n' ∧ c' ≠ '\n')
      (Visit.read ⟨state, position, current, rest⟩)
      (Visit.read ⟨state, position, current', rest'⟩) := by
  unfold Visit.read Visit.text
  rw [h.step_eq]
  refine List.forall₂_take _ (List.forall₂_iff_get.mpr ⟨h.length.symm, fun i hi hi' => ?_⟩)
  by_cases hsame : (current :: rest)[i]? = (current' :: rest')[i]?
  · rw [List.getElem?_eq_getElem hi, List.getElem?_eq_getElem hi', Option.some.injEq] at hsame
    exact Or.inl hsame
  · have hinert := h.inert i hsame
    exact Or.inr ⟨(hinert.1 _ (List.getElem?_eq_getElem hi)).ne (by decide),
      (hinert.2 _ (List.getElem?_eq_getElem hi')).ne (by decide)⟩

-- Steps read the same where the texts are the same.
theorem read_eq (h : DiffersInside state position (current :: rest) (current' :: rest'))
    (hsame : ∀ i, i < (Visit.step ⟨state, position, current, rest⟩).consumed →
      (current :: rest)[i]? = (current' :: rest')[i]?) :
    Visit.read ⟨state, position, current', rest'⟩ =
      Visit.read ⟨state, position, current, rest⟩ := by
  unfold Visit.read
  rw [h.step_eq]
  refine List.ext_getElem? fun i => ?_
  rw [List.getElem?_take, List.getElem?_take]
  split
  · next hi => exact (hsame i hi).symm
  · rfl

/-- Two steps that lead back to code read the same, and it settles whether the
line is blank. -/
theorem read_eq_of_closing
    (h : DiffersInside state position (current :: rest) (current' :: rest'))
    (hstate : state ≠ .code) (hnext : (Visit.step ⟨state, position, current, rest⟩).next = .code) :
    Visit.read ⟨state, position, current', rest'⟩ = Visit.read ⟨state, position, current, rest⟩ ∧
      current ∈ Visit.read ⟨state, position, current, rest⟩ ∧
      (current = '\n' ∨ isBlank current = false) := by
  rcases transition_closing hstate hnext with ⟨hinert, hsettles, hconsumed⟩
  refine ⟨h.read_eq fun i hi => ?_, ?_, hsettles⟩
  · -- Neither of the one or two characters is inert.
    by_contra hne
    have hfound := (h.inert i hne).1
    rcases Nat.eq_zero_or_pos i with rfl | hpos
    · exact hinert (hfound current rfl)
    · have htwo := consumed_transition state current rest.head?
      change i < (transition state current rest.head?).consumed at hi
      have hone : i = 1 := by omega
      rw [hone, List.getElem?_cons_succ, ← List.head?_eq_getElem?] at hfound
      rcases hconsumed with hfirst | hslash
      · change (transition state current rest.head?).consumed = 1 at hfirst
        omega
      · exact absurd (hfound '/' hslash) (by decide)
  · exact Visit.current_mem_read _

end Step

-- In code the two texts go on with the same character, or both end.
theorem getElem?_zero_eq_of_code {position : Nat} {text other : List Char}
    (h : DiffersInside .code position text other) : text[0]? = other[0]? := by
  cases text with
  | nil => rw [List.eq_nil_of_length_eq_zero h.length]
  | cons current rest =>
      rcases List.exists_cons_of_length_eq_add_one h.length with ⟨current', rest', rfl⟩
      exact h.getElem?_eq_of_code (Visit.consumed_pos _)

-- The run over a word of plain characters stays in code, so nothing of it can
-- differ, nor the character that follows it.
theorem startsWithWord_iff {word : List Char}
    (hword : ∀ c ∈ word, c ∉ ['"', '\'', '/', '\x7b', '\x7d']) {position : Nat}
    {text other : List Char} (h : DiffersInside .code position text other) :
    StartsWithWord word text ↔ StartsWithWord word other := by
  induction word generalizing position text other with
  | nil => simp only [StartsWithWord, List.nil_prefix, List.length_nil, h.getElem?_zero_eq_of_code]
  | cons c word ih =>
      cases text with
      | nil => rw [List.eq_nil_of_length_eq_zero h.length]
      | cons current rest =>
          rcases List.exists_cons_of_length_eq_add_one h.length with ⟨current', rest', rfl⟩
          rw [startsWithWord_cons_iff, startsWithWord_cons_iff, h.current_eq_of_code]
          refine and_congr_right fun hc => ?_
          have hstep : Visit.step ⟨.code, position, current, rest⟩ =
              { next := .code, consumed := 1 } :=
            transition_of_plain (hc ▸ hword c List.mem_cons_self) _
          have hrest := h.remaining
          simp only [Visit.remaining, h.step_eq, hstep] at hrest
          exact ih (fun d hd => hword d (List.mem_cons_of_mem c hd)) hrest

/-- The run finds the same directives in code. -/
theorem startsRegionEnd_eq {position : Nat} {text other : List Char}
    (h : DiffersInside .code position text other) :
    startsRegionEnd other = startsRegionEnd text := by
  have hplain : ∀ word ∈ regionEndDirectives, ∀ c ∈ word,
      c ∉ ['"', '\'', '/', '\x7b', '\x7d'] := by
    simp [regionEndDirectives]
  rw [Bool.eq_iff_iff, startsRegionEnd_iff, startsRegionEnd_iff]
  exact exists_congr fun word => and_congr_right fun hmem =>
    (h.startsWithWord_iff (hplain word hmem)).symm

section Scans

variable {state : ScanState} {position : Nat} {scan scan' : LineScan}

/-- One step of the two scans. They agree about blank lines where they stand in
code. -/
theorem matches_visit {current current' : Char} {rest rest' : List Char}
    (h : DiffersInside state position (current :: rest) (current' :: rest'))
    (hmatch : LineScan.Matches id (state = .code) scan scan') :
    LineScan.Matches id ((Visit.step ⟨state, position, current, rest⟩).next = .code)
      (scan.visit ⟨state, position, current, rest⟩)
      (scan'.visit ⟨state, position, current', rest'⟩) := by
  have hregion : scan'.atRegionEnd ⟨state, position, current', rest'⟩ =
      scan.atRegionEnd ⟨state, position, current, rest⟩ := by
    unfold LineScan.atRegionEnd
    by_cases hcode : state = .code
    · rw [hcode] at h
      have hsame := h.current_eq_of_code
      have hdirective := h.startsRegionEnd_eq
      simp only [Visit.text, hmatch.lineBlank hcode, hsame] at hdirective ⊢
      rw [hdirective]
    · have hinside : (state == .code) = false := beq_eq_false_iff_ne.mpr hcode
      simp only [hinside, Bool.false_and]
  have hmarked := hmatch.marked (congrArg Step.token h.step_eq) hregion
  rw [LineScan.visit_eq, LineScan.visit_eq]
  by_cases hcode : state = .code
  · subst hcode
    rw [h.read_eq fun i hi => h.getElem?_eq_of_code hi]
    exact (hmarked.readAll_same _ _).weaken fun _ => rfl
  · by_cases hnext : (Visit.step ⟨state, position, current, rest⟩).next = .code
    · rcases h.read_eq_of_closing hcode hnext with ⟨hread, hmem, hsettles⟩
      rw [hread]
      exact (hmarked.readAll_settles _ hmem hsettles).weaken fun _ => trivial
    · exact (hmarked.readAll_alike _ h.forall₂_read).weaken hnext

/-- A run of the two scans. At its end they may still disagree about whether the
last line is blank. -/
theorem matches_foldVisits {text other : List Char} (h : DiffersInside state position text other)
    (hmatch : LineScan.Matches id (state = .code) scan scan') :
    LineScan.Matches id False (foldVisits LineScan.visit scan state position text)
      (foldVisits LineScan.visit scan' state position other) := by
  fun_induction visitsFrom state position text generalizing other scan scan' with
  | case1 state position =>
      rw [List.eq_nil_of_length_eq_zero h.length, foldVisits, foldVisits]
      exact hmatch.weaken False.elim
  | case2 state position current rest visit =>
      rename_i ih
      rcases List.exists_cons_of_length_eq_add_one h.length with ⟨current', rest', rfl⟩
      rw [foldVisits, foldVisits]
      simp only [h.step_eq]
      exact ih h.remaining (h.matches_visit hmatch)

end Scans

end DiffersInside

/-- What stands inside strings and comments cannot move a split. The safe
splits of a text stay where they are when inert characters inside its strings
and comments are replaced by others. -/
theorem safeSplits_of_differsInside (text other : List Char)
    (h : DiffersInside .code 0 text other) : safeSplits text = safeSplits other := by
  have hmatches : LineScan.Matches id False (scanLines text) (scanLines other) :=
    h.matches_foldVisits ⟨rfl, rfl, rfl, fun _ => rfl⟩
  have hsplits := safeSplits_of_matches rfl h.length.symm (fun _ _ => Iff.rfl) hmatches
  rw [hsplits, List.map_id']

/-- A brace in a string and a directive in a comment may be blanked out. -/
theorem safeSplits_of_differsInside_blanked :
    let text := "f() \x7b\n\"\x7d\" /*\n#endif */\n\x7d\ng\n".toList
    let other := "f() \x7b\n\" \" /*\n       */\n\x7d\ng\n".toList
    DiffersInside .code 0 text other ∧ text ≠ other ∧ safeSplits other = [0, 25, 27] ∧
      safeSplits text = safeSplits other := by
  intro text other
  have hdiffers : DiffersInside .code 0 text other := by
    decide +kernel
  exact ⟨hdiffers, by decide, by decide +kernel, safeSplits_of_differsInside text other hdiffers⟩

end Chunking
