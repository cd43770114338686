import Chunking.Scan.Run

/-!
# The run over joined texts

A step looks one character ahead and may take that character along, so in
general the run over a text says little about the run over a part of it. Ends
of lines are the exception. A newline is read alone whatever follows it, and
it is never the first of two characters that belong together. The run over two
texts joined at the end of a line is therefore the run over the first one and
then, from the state where that ends, the run over the second.

Where the run stands at an offset is told by `stateAt?`, and how many blocks
are open there by `depthBefore`. Both are about the run over the whole text.
At the end of a line they need only what stands before, and on a line they
need only what stands between the place and an earlier one that is visited in
code.

## Main definitions

* `EndsLine`: A text after which a line starts.
* `Visit.followedBy`: The same visit in a longer text.
* `Visit.shiftedBy`: The same visit in a text that starts elsewhere.
* `stateAt?`: The state in which a step starts at an offset.
* `braceBalance`: Opening braces less closing ones.
* `depthBefore`: The depth with which the run arrives at an offset.
* `netBraces`: The depth that a text adds when it is read as code.

## Theorems

* `visitsFrom_append`: A run over texts joined at the end of a line.
* `visitsFrom_add`: Where a text starts moves its visits and nothing else.
* `visitsFrom_eq_append_of_mem`: A run starts again at each of its visits.
* `stateAt?_eq_some_iff`: The state at an offset is the state of a visit.
* `stateAt?_append`: The state at the end of a line.
* `depthBefore_append`: The depth at the end of a line.
* `endState_of_code`: The state in which a text ends, from a place in code.
* `netBraces_of_code`: The depth at the end of a text, from a place in code.
-/

namespace Chunking

/-- A text after which a line starts: it is empty, or a newline ends it. -/
def EndsLine (text : List Char) : Prop :=
  ∀ c ∈ text.getLast?, c = '\n'

/-- What is left behind some of the text ends in the same way. -/
theorem EndsLine.drop {text : List Char} (h : EndsLine text) (n : Nat) :
    EndsLine (text.drop n) := by
  intro c hc
  rw [List.getLast?_drop] at hc
  split at hc
  · exact absurd hc (Option.not_mem_none c)
  · exact h c hc

/-- A newline is read alone, whatever follows it. -/
theorem transition_newline (state : ScanState) (lookahead : Option Char) :
    transition state '\n' lookahead = transition state '\n' none ∧
      (transition state '\n' lookahead).consumed = 1 := by
  cases state <;> simp [transition, codeStep, quotedStep, lineCommentStep, blockCommentStep]

namespace Visit

/-- The same visit where more text follows. -/
def followedBy (visit : Visit) (more : List Char) : Visit :=
  { visit with rest := visit.rest ++ more }

/-- The same visit where the text starts at a later offset. -/
def shiftedBy (visit : Visit) (offset : Nat) : Visit :=
  { visit with position := visit.position + offset }

@[simp]
theorem step_shiftedBy (visit : Visit) (offset : Nat) :
    (visit.shiftedBy offset).step = visit.step := rfl

/-- Text after the end of a line changes no step before it. -/
theorem step_followedBy (visit : Visit) (more : List Char) (h : EndsLine visit.text) :
    (visit.followedBy more).step = visit.step := by
  rcases visit with ⟨state, position, current, rest⟩
  -- Only the last character can see what follows, and it is a newline.
  cases rest with
  | nil =>
      have hnewline : current = '\n' := h current (by simp [text])
      simp only [followedBy, step, hnewline]
      exact (transition_newline state _).1
  | cons next rest => rfl

/-- A step before the end of a line does not reach past it. -/
theorem consumed_le (visit : Visit) (h : EndsLine visit.text) :
    visit.step.consumed ≤ visit.text.length := by
  rcases visit with ⟨state, position, current, rest⟩
  cases rest with
  | nil =>
      have hnewline : current = '\n' := h current (by simp [text])
      simp only [step, hnewline, (transition_newline state _).2, text, List.length_singleton]
      exact Nat.le_refl 1
  | cons next rest =>
      have := consumed_transition state current (some next)
      simp only [step, List.head?_cons, text, List.length_cons]
      omega

/-- Every step reads something. -/
theorem consumed_pos (visit : Visit) : 0 < visit.step.consumed :=
  consumed_transition_pos _ _ _

/-- What a step leaves is what is behind the characters that it consumes. -/
theorem remaining_eq_drop (visit : Visit) :
    visit.remaining = visit.text.drop visit.step.consumed := by
  have hpos := visit.consumed_pos
  rw [remaining, text, ← List.drop_succ_cons (a := visit.current)]
  congr 1
  omega

/-- What a step reads and what it leaves are the text that it found. -/
theorem read_append_remaining (visit : Visit) : visit.read ++ visit.remaining = visit.text := by
  rw [read, remaining_eq_drop, List.take_append_drop]

/-- A step reads the character at its place. -/
theorem current_mem_read (visit : Visit) : visit.current ∈ visit.read := by
  rw [read, text, ← Nat.sub_add_cancel visit.consumed_pos, List.take_succ_cons]
  exact List.mem_cons_self

theorem current_ne_of_not_mem_read {visit : Visit} {c : Char} (h : c ∉ visit.read) :
    visit.current ≠ c := by
  rintro rfl
  exact h visit.current_mem_read

/-- A step that leaves something reads as much as it consumes. -/
theorem length_read (visit : Visit) (h : visit.remaining ≠ []) :
    visit.read.length = visit.step.consumed := by
  rw [remaining_eq_drop, ne_eq, List.drop_eq_nil_iff] at h
  rw [read, List.length_take]
  omega

/-- What a step leaves ends with a line if what it found does. -/
theorem endsLine_remaining (visit : Visit) (h : EndsLine visit.text) :
    EndsLine visit.remaining := by
  rw [remaining_eq_drop]
  exact h.drop _

/-- A step in the longer text leaves what it does in the shorter one, and the text behind. -/
theorem remaining_followedBy (visit : Visit) (more : List Char) (h : EndsLine visit.text) :
    (visit.followedBy more).remaining = visit.remaining ++ more := by
  rw [remaining_eq_drop, remaining_eq_drop, visit.step_followedBy more h,
    ← List.drop_append_of_le_length (visit.consumed_le h)]
  rfl

end Visit

/-- The run over a text that is not empty starts with a visit of its first
character. -/
theorem visitsFrom_cons (state : ScanState) (position : Nat) (current : Char)
    (rest : List Char) :
    visitsFrom state position (current :: rest) =
      let visit : Visit := ⟨state, position, current, rest⟩
      visit :: visitsFrom visit.step.next (position + visit.step.consumed) visit.remaining := by
  rw [visitsFrom]

/-- The state in which a run ends is the one that its last step leads to. -/
theorem endState_eq_foldl (state : ScanState) (position : Nat) (text : List Char) :
    endState state text =
      (visitsFrom state position text).foldl (fun _ visit => visit.step.next) state := by
  rw [endState]
  -- The fold may count from anywhere, since no state depends on it.
  generalize 0 = offset
  rw [foldVisits_eq_foldl]
  fun_induction visitsFrom state position text generalizing offset with
  | case1 => rw [visitsFrom]
  | case2 state position current rest visit ih =>
      rw [visitsFrom_cons, List.foldl_cons, List.foldl_cons]
      exact ih _

theorem endState_nil (state : ScanState) : endState state [] = state := by
  rw [endState_eq_foldl state 0, visitsFrom, List.foldl_nil]

/-- A run that takes a step ends where the run over what is left does. -/
theorem endState_cons (state : ScanState) (current : Char) (rest : List Char) :
    endState state (current :: rest) =
      let visit : Visit := ⟨state, 0, current, rest⟩
      endState visit.step.next visit.remaining := by
  rw [endState_eq_foldl state 0, visitsFrom_cons, List.foldl_cons]
  exact (endState_eq_foldl _ _ _).symm

/-- The run over two texts joined at the end of a line is the run over the
first and then, from where that ends, the run over the second. -/
theorem visitsFrom_append (state : ScanState) (position : Nat) (before after : List Char)
    (h : EndsLine before) :
    visitsFrom state position (before ++ after) =
      (visitsFrom state position before).map (fun visit => visit.followedBy after) ++
        visitsFrom (endState state before) (position + before.length) after := by
  fun_induction visitsFrom state position before with
  | case1 state position => simp [endState_nil]
  | case2 state position current rest visit ih =>
      have hconsumed := visit.consumed_le h
      have hlength : position + visit.step.consumed + visit.remaining.length =
          position + (current :: rest).length := by
        rw [visit.remaining_eq_drop, List.length_drop]
        simp only [Visit.text, visit] at hconsumed ⊢
        omega
      -- The first step is the one of the first text, and so is what it leaves.
      rw [List.cons_append, visitsFrom_cons]
      change visit.followedBy after :: visitsFrom (visit.followedBy after).step.next
        (position + (visit.followedBy after).step.consumed)
        (visit.followedBy after).remaining = _
      rw [visit.step_followedBy after h, visit.remaining_followedBy after h,
        ih (visit.endsLine_remaining h), hlength, endState_cons, List.map_cons, List.cons_append]
      rfl

/-- Where a text starts moves its visits and changes nothing else. -/
theorem visitsFrom_add (state : ScanState) (position offset : Nat) (text : List Char) :
    visitsFrom state (position + offset) text =
      (visitsFrom state position text).map fun visit => visit.shiftedBy offset := by
  fun_induction visitsFrom state position text with
  | case1 state position => simp [visitsFrom]
  | case2 state position current rest visit ih =>
      rw [visitsFrom_cons, List.map_cons, ← ih]
      have hnext : position + offset + visit.step.consumed =
          position + visit.step.consumed + offset := by omega
      rw [← hnext]
      rfl

/-- The visits of a run lie in its text. -/
theorem position_of_mem_visitsFrom {state : ScanState} {position : Nat} {text : List Char}
    {visit : Visit} (h : visit ∈ visitsFrom state position text) :
    position ≤ visit.position ∧ visit.position < position + text.length := by
  fun_induction visitsFrom state position text with
  | case1 => exact absurd h List.not_mem_nil
  | case2 state position current rest first ih =>
      rcases List.mem_cons.mp h with rfl | h
      · simp only [List.length_cons, first]
        omega
      · have hpos := first.consumed_pos
        have hlt := first.length_remaining_lt
        have hdrop := congrArg List.length first.remaining_eq_drop
        simp only [List.length_drop, Visit.text, first] at hdrop
        have := ih h
        simp only [first] at this ⊢
        omega

/-- A run starts again at each of its visits: what comes before lies before,
and the rest is the run from there. -/
theorem visitsFrom_eq_append_of_mem {state : ScanState} {position : Nat} {text : List Char}
    {visit : Visit} (h : visit ∈ visitsFrom state position text) :
    ∃ seen, visitsFrom state position text =
        seen ++ visitsFrom visit.state visit.position visit.text ∧
      (∀ earlier ∈ seen, earlier.position < visit.position) ∧
      visit.text = text.drop (visit.position - position) := by
  fun_induction visitsFrom state position text with
  | case1 => exact absurd h List.not_mem_nil
  | case2 state position current rest first ih =>
      rcases List.mem_cons.mp h with rfl | h
      · refine ⟨[], ?_, by simp, by simp [first, Visit.text]⟩
        rw [List.nil_append, Visit.text, visitsFrom_cons]
      · rcases ih h with ⟨seen, hseen, hearlier, htext⟩
        have hpos := position_of_mem_visitsFrom h
        have hconsumed := first.consumed_pos
        refine ⟨first :: seen, by rw [hseen, List.cons_append], ?_, ?_⟩
        · intro earlier hmem
          rcases List.mem_cons.mp hmem with rfl | hmem
          · simp only [first] at hpos hconsumed ⊢
            omega
          · exact hearlier earlier hmem
        · rw [htext, first.remaining_eq_drop, List.drop_drop]
          have hsub : first.step.consumed + (visit.position - (position + first.step.consumed)) =
              visit.position - position := by omega
          rw [hsub]
          rfl

/-- No two visits of a run are at one place. -/
theorem eq_of_position_eq {state : ScanState} {position : Nat} {text : List Char}
    {first second : Visit} (hfirst : first ∈ visitsFrom state position text)
    (hsecond : second ∈ visitsFrom state position text)
    (h : first.position = second.position) : first = second := by
  rcases visitsFrom_eq_append_of_mem hfirst with ⟨seen, hseen, hearlier, _⟩
  rw [hseen, List.mem_append] at hsecond
  rcases hsecond with hsecond | hsecond
  · have := hearlier second hsecond
    omega
  -- The run from the first of them on goes forward, so only its first visit is at that place.
  · rw [Visit.text, visitsFrom_cons] at hsecond
    rcases List.mem_cons.mp hsecond with rfl | hsecond
    · rfl
    · have hpos := position_of_mem_visitsFrom hsecond
      have hconsumed := first.consumed_pos
      change first.position + first.step.consumed ≤ second.position ∧ _ at hpos
      omega

/-- The state in which the run over a text starts a step at an offset, if one
starts there. -/
def stateAt? (text : List Char) (offset : Nat) : Option ScanState :=
  ((visitsFrom .code 0 text).find? fun visit => visit.position == offset).map Visit.state

/-- The state at an offset is that of the visit there, of which there is one at most. -/
theorem stateAt?_eq_some_iff (text : List Char) (offset : Nat) (state : ScanState) :
    stateAt? text offset = some state ↔
      ∃ visit ∈ visitsFrom .code 0 text, visit.position = offset ∧ visit.state = state := by
  rw [stateAt?, Option.map_eq_some_iff]
  constructor
  · rintro ⟨visit, hfind, hstate⟩
    have hposition := List.find?_some hfind
    exact ⟨visit, List.mem_of_find?_eq_some hfind, by simpa using hposition, hstate⟩
  · rintro ⟨visit, hmem, hposition, hstate⟩
    rcases hfind : (visitsFrom .code 0 text).find? fun visit => visit.position == offset with
      _ | found
    · rw [List.find?_eq_none] at hfind
      exact absurd (by simpa using hposition) (hfind visit hmem)
    · have hfound := List.find?_some hfind
      have heq : found = visit := by
        refine eq_of_position_eq (List.mem_of_find?_eq_some hfind) hmem ?_
        rw [hposition]
        simpa using hfound
      exact ⟨visit, by rw [hfind, heq], hstate⟩

/-- Opening braces less closing ones among visits. -/
def braceBalance (visits : List Visit) : Int :=
  visits.countP (fun visit => visit.step.token == some .openBrace) -
    visits.countP (fun visit => visit.step.token == some .closeBrace)

/-- The brace depth with which the run over a text arrives at an offset. -/
def depthBefore (text : List Char) (offset : Nat) : Int :=
  braceBalance ((visitsFrom .code 0 text).filter fun visit => visit.position < offset)

/-- The brace depth that a text adds when it is read as code. -/
def netBraces (text : List Char) : Int :=
  braceBalance (visitsFrom .code 0 text)

@[simp]
theorem braceBalance_nil : braceBalance [] = 0 := rfl

/-- Visits in a row have the sum of their balances. -/
theorem braceBalance_append (first second : List Visit) :
    braceBalance (first ++ second) = braceBalance first + braceBalance second := by
  simp only [braceBalance, List.countP_append]
  omega

/-- Visits that take the same steps have the same balance. -/
theorem braceBalance_map (visits : List Visit) (f : Visit → Visit)
    (h : ∀ visit ∈ visits, (f visit).step = visit.step) :
    braceBalance (visits.map f) = braceBalance visits := by
  have hcount : ∀ token : Token,
      (visits.map f).countP (fun visit => visit.step.token == some token) =
        visits.countP fun visit => visit.step.token == some token := by
    intro token
    rw [List.countP_map]
    refine List.countP_congr fun visit hmem => ?_
    simp only [Function.comp, h visit hmem]
  simp only [braceBalance, hcount]

/-- Where a text starts does not change its balance. -/
theorem braceBalance_visitsFrom (state : ScanState) (position : Nat) (text : List Char) :
    braceBalance (visitsFrom state position text) = braceBalance (visitsFrom state 0 text) := by
  have h := visitsFrom_add state 0 position text
  rw [Nat.zero_add] at h
  rw [h]
  exact braceBalance_map _ _ fun visit _ => visit.step_shiftedBy position

/-- The visits before the end of a line take the steps they take when nothing
follows the line. -/
theorem step_followedBy_of_mem {state : ScanState} {position : Nat} {text : List Char}
    (h : EndsLine text) (more : List Char) (visit : Visit)
    (hmem : visit ∈ visitsFrom state position text) :
    (visit.followedBy more).step = visit.step := by
  rcases visitsFrom_eq_append_of_mem hmem with ⟨_, _, _, htext⟩
  refine visit.step_followedBy more ?_
  rw [htext]
  exact h.drop _

section LineEnd

variable {before : List Char} (after : List Char)

/-- The run arrives at the end of a line in the state in which the run over
the text before ends. -/
theorem stateAt?_append (h : EndsLine before) (hafter : after ≠ []) :
    stateAt? (before ++ after) before.length = some (endState .code before) := by
  cases after with
  | nil => exact absurd rfl hafter
  | cons current rest =>
      rw [stateAt?_eq_some_iff, visitsFrom_append _ _ _ _ h, visitsFrom_cons]
      refine ⟨⟨endState .code before, 0 + before.length, current, rest⟩, ?_, ?_, rfl⟩
      · exact List.mem_append_right _ List.mem_cons_self
      · exact Nat.zero_add _

/-- A place before the end of a line is visited as it is when nothing follows
the line. -/
theorem stateAt?_append_of_lt (h : EndsLine before) {offset : Nat}
    (hlt : offset < before.length) :
    stateAt? (before ++ after) offset = stateAt? before offset := by
  refine Option.ext fun state => ?_
  rw [stateAt?_eq_some_iff, stateAt?_eq_some_iff, visitsFrom_append _ _ _ _ h]
  constructor
  · rintro ⟨visit, hmem, hposition, hstate⟩
    rcases List.mem_append.mp hmem with hmem | hmem
    · rcases List.mem_map.mp hmem with ⟨original, horiginal, rfl⟩
      exact ⟨original, horiginal, hposition, hstate⟩
    · have := position_of_mem_visitsFrom hmem
      omega
  · rintro ⟨visit, hmem, hposition, hstate⟩
    exact ⟨visit.followedBy after, List.mem_append_left _ (List.mem_map_of_mem hmem),
      hposition, hstate⟩

/-- Nothing that follows the end of a line changes the depth before it. -/
theorem depthBefore_append (h : EndsLine before) {offset : Nat} (hle : offset ≤ before.length) :
    depthBefore (before ++ after) offset = depthBefore before offset := by
  rw [depthBefore, visitsFrom_append _ _ _ _ h, List.filter_append, List.filter_map,
    braceBalance_append]
  have hlater : (visitsFrom (endState .code before) (0 + before.length) after).filter
      (fun visit => visit.position < offset) = [] := by
    rw [List.filter_eq_nil_iff]
    intro visit hmem
    have := position_of_mem_visitsFrom hmem
    simp only [decide_eq_true_eq]
    omega
  rw [hlater, braceBalance_nil, Int.add_zero, depthBefore]
  exact braceBalance_map _ _ fun visit hmem =>
    step_followedBy_of_mem h after visit (List.mem_filter.mp hmem).1

/-- The depth at a place is the balance of the visits before it. -/
theorem depthBefore_of_append {text rest : List Char} {seen : List Visit} {state : ScanState}
    {mark : Nat} (hseen : visitsFrom .code 0 text = seen ++ visitsFrom state mark rest)
    (hearlier : ∀ earlier ∈ seen, earlier.position < mark) :
    depthBefore text mark = braceBalance seen := by
  rw [depthBefore, hseen, List.filter_append, List.filter_eq_self.mpr (by simpa using hearlier),
    List.filter_eq_nil_iff.mpr, List.append_nil]
  intro visit hmem
  have := position_of_mem_visitsFrom hmem
  simp only [decide_eq_true_eq]
  omega

/-- The depth at the end of a text is what the text adds. -/
theorem depthBefore_length (text : List Char) : depthBefore text text.length = netBraces text := by
  rw [depthBefore, netBraces, List.filter_eq_self.mpr]
  intro visit hmem
  have := position_of_mem_visitsFrom hmem
  simp only [decide_eq_true_eq]
  omega

end LineEnd

section Code

variable {text : List Char} {mark : Nat}

/-- From a place that is visited in code the run goes on as if the text
started there. -/
theorem visitsFrom_eq_append_of_code (h : stateAt? text mark = some .code) :
    ∃ seen, visitsFrom .code 0 text = seen ++ visitsFrom .code mark (text.drop mark) ∧
      (∀ earlier ∈ seen, earlier.position < mark) ∧ text.drop mark ≠ [] := by
  rw [stateAt?_eq_some_iff] at h
  rcases h with ⟨visit, hmem, hposition, hstate⟩
  rcases visitsFrom_eq_append_of_mem hmem with ⟨seen, hseen, hearlier, htext⟩
  rw [Nat.sub_zero] at htext
  rw [hstate, htext, hposition] at hseen
  rw [hposition] at hearlier htext
  refine ⟨seen, hseen, hearlier, ?_⟩
  rw [← htext]
  exact List.cons_ne_nil _ _

/-- Where a text ends up is decided from any place in code on. -/
theorem endState_of_code (h : stateAt? text mark = some .code) :
    endState .code text = endState .code (text.drop mark) := by
  rcases visitsFrom_eq_append_of_code h with ⟨seen, hseen, _, hne⟩
  rw [endState_eq_foldl .code 0, hseen, List.foldl_append, endState_eq_foldl .code mark]
  -- At least one step is left, and the last one alone tells the state.
  rcases List.exists_cons_of_ne_nil hne with ⟨current, rest, htail⟩
  rw [htail, visitsFrom_cons, List.foldl_cons, List.foldl_cons]

/-- The depth at the end of a text is the depth at any place in code and what
is added from there on. -/
theorem netBraces_of_code (h : stateAt? text mark = some .code) :
    netBraces text = depthBefore text mark + netBraces (text.drop mark) := by
  rcases visitsFrom_eq_append_of_code h with ⟨seen, hseen, hearlier, _⟩
  rw [netBraces, depthBefore_of_append hseen hearlier, hseen, braceBalance_append, netBraces,
    braceBalance_visitsFrom .code mark]

end Code

end Chunking
