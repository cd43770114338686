import Chunking.Proofs.Joined
import Chunking.Proofs.SideBySide
import Mathlib.Order.Monotone.Basic

/-!
# Line endings

A carriage return in front of every newline changes where the lines of a text
are, and nothing else. The safe splits of the text with carriage returns are
those of the text without, each moved by the lines before it.

Side by side the two scans do not keep step. A carriage return that is visited
takes a step of its own, in any state, and what it does to the scan is nothing:
it is white space, and no line ends with it. So the scan of the longer text is
one step behind, and has made it up with the newline. There is one carriage
return that is not visited. Behind a backslash in a string it is taken along in
place of the newline, and then the newline takes the step of its own.

## Main definitions

* `withReturns`: A text with a carriage return in front of every newline.
* `placeWithReturns`: Where an offset of the text lies then.
* `CaughtUp`: Where the scan of the longer text has caught up.

## Theorems

* `foldVisits_return`: A visited carriage return changes nothing.
* `startsWithWord_withReturns_iff`: Words are the same in both texts.
* `transition_escaped_newline`: The steps that take a newline along.
* `caughtUp_visit`: The second scan catches up with each step of the first.
* `matches_withReturns`: A run of the two scans side by side.
* `safeSplits_withReturns`: The safe splits, moved.
-/

namespace Chunking

open Text

/-- The text with a carriage return in front of every newline. -/
def withReturns (text : List Char) : List Char :=
  text.flatMap fun c => if c = '\n' then ['\r', '\n'] else [c]

/-- Where the offset lies in the text with carriage returns: the lines before
it are longer by one each. -/
def placeWithReturns (text : List Char) (p : Nat) : Nat :=
  p + (text.take p).count '\n'

@[simp]
theorem withReturns_nil : withReturns [] = [] := rfl

theorem withReturns_cons_newline (rest : List Char) :
    withReturns ('\n' :: rest) = '\r' :: '\n' :: withReturns rest := rfl

theorem withReturns_cons {c : Char} (hc : c ≠ '\n') (rest : List Char) :
    withReturns (c :: rest) = c :: withReturns rest := by
  unfold withReturns
  rw [List.flatMap_cons, if_neg hc]
  rfl

theorem withReturns_append (before after : List Char) :
    withReturns (before ++ after) = withReturns before ++ withReturns after :=
  List.flatMap_append

theorem withReturns_of_not_mem {text : List Char} (h : '\n' ∉ text) : withReturns text = text := by
  induction text with
  | nil => rfl
  | cons c rest ih =>
      rw [List.mem_cons, not_or] at h
      rw [withReturns_cons (Ne.symm h.1), ih h.2]

theorem length_withReturns (text : List Char) :
    (withReturns text).length = text.length + text.count '\n' := by
  induction text with
  | nil => rfl
  | cons c rest ih =>
      by_cases hc : c = '\n'
      · rw [hc, withReturns_cons_newline, List.count_cons_self, List.length_cons, List.length_cons,
          List.length_cons, ih]
        omega
      · rw [withReturns_cons hc, List.count_cons_of_ne hc, List.length_cons, List.length_cons, ih]
        omega

section Places

variable (text : List Char)

theorem placeWithReturns_zero : placeWithReturns text 0 = 0 := by
  unfold placeWithReturns
  rw [List.take_zero, List.count_nil]

theorem placeWithReturns_length :
    placeWithReturns text text.length = (withReturns text).length := by
  unfold placeWithReturns
  rw [List.take_length, length_withReturns]

-- Behind what has been read, only the newlines of what follows still count.
theorem placeWithReturns_append (seen rest : List Char) (n : Nat) :
    placeWithReturns (seen ++ rest) (seen.length + n) =
      (withReturns seen).length + (n + (rest.take n).count '\n') := by
  unfold placeWithReturns
  rw [List.take_length_add_append, List.count_append, length_withReturns]
  omega

theorem strictMono_placeWithReturns : StrictMono (placeWithReturns text) := by
  intro p q hlt
  have hcount : (text.take p).count '\n' ≤ (text.take q).count '\n' :=
    (List.take_sublist_take_left (Nat.le_of_lt hlt)).count_le '\n'
  unfold placeWithReturns
  omega

end Places

/-- A carriage return is read alone in every state, and the run stays there. -/
theorem transition_return (state : ScanState) (lookahead : Option Char) :
    transition state '\r' lookahead = { next := state, consumed := 1 } := by
  cases state <;> simp [transition, codeStep, quotedStep, lineCommentStep, blockCommentStep]

/-- A carriage return in place of a newline makes no difference to the step
before it. -/
theorem transition_withReturns (state : ScanState) (current : Char) (rest : List Char) :
    transition state current (withReturns rest).head? = transition state current rest.head? := by
  cases rest with
  | nil => rfl
  | cons next rest =>
      by_cases hnext : next = '\n'
      · rw [hnext, withReturns_cons_newline, List.head?_cons, List.head?_cons]
        exact (transition_of_lookahead state current (by simp)).trans
          (transition_of_lookahead state current (by simp)).symm
      · rw [withReturns_cons hnext, List.head?_cons, List.head?_cons]

/-- Words without a newline or a carriage return are the same in both texts, and
neither of the two is part of a word. -/
theorem startsWithWord_withReturns_iff {word : List Char} (hnewline : '\n' ∉ word)
    (hreturn : '\r' ∉ word) (text : List Char) :
    StartsWithWord word (withReturns text) ↔ StartsWithWord word text := by
  induction word generalizing text with
  | nil =>
      cases text with
      | nil => rfl
      | cons c rest =>
          by_cases hc : c = '\n'
          · rw [hc, withReturns_cons_newline]
            have hbreaks : isAlphanumeric '\n' = false ∧ isAlphanumeric '\r' = false := by
              decide
            simp [StartsWithWord, hbreaks]
          · rw [withReturns_cons hc]
            simp [StartsWithWord]
  | cons w word ih =>
      rw [List.mem_cons, not_or] at hnewline hreturn
      cases text with
      | nil => rfl
      | cons c rest =>
          by_cases hc : c = '\n'
          · -- Neither text starts with the first character of the word.
            rw [hc, withReturns_cons_newline, startsWithWord_cons_iff, startsWithWord_cons_iff]
            exact ⟨fun h => absurd h.1.symm hreturn.1, fun h => absurd h.1.symm hnewline.1⟩
          · rw [withReturns_cons hc, startsWithWord_cons_iff, startsWithWord_cons_iff,
              ih hnewline.2 hreturn.2]

theorem startsRegionEnd_withReturns (text : List Char) :
    startsRegionEnd (withReturns text) = startsRegionEnd text := by
  have hwords : ∀ word ∈ regionEndDirectives, '\n' ∉ word ∧ '\r' ∉ word := by
    decide
  rw [Bool.eq_iff_iff, startsRegionEnd_iff, startsRegionEnd_iff]
  exact exists_congr fun word => and_congr_right fun hmem =>
    startsWithWord_withReturns_iff (hwords word hmem).1 (hwords word hmem).2 text

namespace LineScan

variable {place : Nat → Nat} {scan other : LineScan}

/-- A carriage return ends no line, and it is white space. -/
theorem read_return (scan : LineScan) (position : Nat) : scan.read position '\r' = scan := by
  have hblank : isBlank '\r' = true := by
    decide
  unfold LineScan.read
  rw [if_neg (by decide), hblank, Bool.and_true]

theorem atRegionEnd_of_current_ne {visit : Visit} (hcurrent : visit.current ≠ '#') :
    scan.atRegionEnd visit = false := by
  have hne : (visit.current == '#') = false := beq_eq_false_iff_ne.mpr hcurrent
  unfold LineScan.atRegionEnd
  rw [hne, Bool.and_false, Bool.false_and, Bool.false_and]

/-- A visit that finds neither a brace nor a directive marks nothing. -/
theorem marked_eq_self {visit : Visit} (htoken : visit.step.token = none)
    (hcurrent : visit.current ≠ '#') : scan.marked visit = scan := by
  unfold LineScan.marked LineScan.marking
  rw [atRegionEnd_of_current_ne hcurrent, htoken]
  simp [Depth.after]

/-- A visited carriage return changes nothing but the place. -/
theorem foldVisits_return (scan : LineScan) (state : ScanState) (position : Nat)
    (rest : List Char) :
    foldVisits LineScan.visit scan state position ('\r' :: rest) =
      foldVisits LineScan.visit scan state (position + 1) rest := by
  have hstep : Visit.step ⟨state, position, '\r', rest⟩ = { next := state, consumed := 1 } :=
    transition_return state rest.head?
  have hvisit : scan.visit ⟨state, position, '\r', rest⟩ = scan := by
    have hcurrent : '\r' ≠ '#' := by
      decide
    rw [visit_eq, marked_eq_self (by rw [hstep]) hcurrent, Visit.read, hstep]
    exact scan.read_return position
  rw [foldVisits]
  simp only [hvisit, hstep, Visit.remaining]
  rfl

section Steps

variable {state : ScanState} {position position' : Nat} {current : Char} {rest : List Char}

/-- The step is the same in both texts. -/
theorem step_withReturns (state : ScanState) (position position' : Nat) (current : Char)
    (rest : List Char) :
    Visit.step ⟨state, position', current, withReturns rest⟩ =
      Visit.step ⟨state, position, current, rest⟩ :=
  transition_withReturns state current rest

-- A step that reads no newline reads the same, and leaves what it left.
theorem read_withReturns (hread : '\n' ∉ Visit.read ⟨state, position, current, rest⟩) :
    Visit.read ⟨state, position', current, withReturns rest⟩ =
        Visit.read ⟨state, position, current, rest⟩ ∧
      Visit.remaining ⟨state, position', current, withReturns rest⟩ =
        withReturns (Visit.remaining ⟨state, position, current, rest⟩) := by
  have hcurrent : current ≠ '\n' := Visit.current_ne_of_not_mem_read hread
  have htext : Visit.text ⟨state, position', current, withReturns rest⟩ =
      Visit.read ⟨state, position, current, rest⟩ ++
        withReturns (Visit.remaining ⟨state, position, current, rest⟩) := by
    have hsplit := Visit.read_append_remaining ⟨state, position, current, rest⟩
    rw [← withReturns_of_not_mem hread, ← withReturns_append, hsplit, Visit.text, Visit.text,
      withReturns_cons hcurrent]
  rw [Visit.remaining_eq_drop, Visit.read, step_withReturns state position position', htext]
  by_cases hend : Visit.remaining ⟨state, position, current, rest⟩ = []
  · -- The last step may consume more than there is.
    have hle : (Visit.read ⟨state, position, current, rest⟩).length ≤
        (Visit.step ⟨state, position, current, rest⟩).consumed := by
      rw [Visit.read, List.length_take]
      exact Nat.min_le_left _ _
    rw [hend, withReturns_nil, List.append_nil, List.take_of_length_le hle,
      List.drop_eq_nil_of_le hle]
    exact ⟨rfl, rfl⟩
  · rw [← Visit.length_read _ hend, List.take_left, List.drop_left]
    exact ⟨rfl, rfl⟩

/-- One step of the two scans that reads no newline. -/
theorem matches_visit_within_line (h : Matches place True scan other)
    (hread : '\n' ∉ Visit.read ⟨state, position, current, rest⟩) (position' : Nat) :
    Matches place True (scan.visit ⟨state, position, current, rest⟩)
      (other.visit ⟨state, position', current, withReturns rest⟩) := by
  have hcurrent : current ≠ '\n' := Visit.current_ne_of_not_mem_read hread
  have hregion : other.atRegionEnd ⟨state, position', current, withReturns rest⟩ =
      scan.atRegionEnd ⟨state, position, current, rest⟩ := by
    unfold atRegionEnd Visit.text
    rw [← withReturns_cons hcurrent, startsRegionEnd_withReturns, h.lineBlank trivial]
  rw [visit_eq, visit_eq, (read_withReturns hread).1]
  exact (h.marked (congrArg Step.token (step_withReturns _ _ _ _ _)) hregion).readAll_within_line
    hread _ _

-- A newline is read alone.
theorem read_newline (state : ScanState) (position : Nat) (rest : List Char) :
    (Visit.step ⟨state, position, '\n', rest⟩).consumed = 1 ∧
      Visit.read ⟨state, position, '\n', rest⟩ = ['\n'] ∧
      Visit.remaining ⟨state, position, '\n', rest⟩ = rest := by
  have hone : (Visit.step ⟨state, position, '\n', rest⟩).consumed = 1 :=
    (transition_newline state rest.head?).2
  rw [Visit.read, Visit.remaining, hone]
  exact ⟨rfl, rfl, rfl⟩

/-- One step of the two scans that starts with a newline, behind the carriage
return. -/
theorem matches_visit_newline (h : Matches place True scan other)
    (hplace : place (position + 1) = position' + 1) :
    Matches place True (scan.visit ⟨state, position, '\n', rest⟩)
      (other.visit ⟨state, position', '\n', withReturns rest⟩) := by
  have hhash : '\n' ≠ '#' := by
    decide
  have hregion : other.atRegionEnd ⟨state, position', '\n', withReturns rest⟩ =
      scan.atRegionEnd ⟨state, position, '\n', rest⟩ := by
    rw [atRegionEnd_of_current_ne hhash, atRegionEnd_of_current_ne hhash]
  have hmarked := h.marked (congrArg Step.token (step_withReturns state position position' '\n'
    rest)) hregion
  rw [visit_eq, visit_eq, (read_newline _ _ _).2.1, (read_newline _ _ _).2.1]
  exact hmarked.read_newline hplace

/-- A step takes a newline along only behind a backslash in a string, where it
would take anything along, and where a newline by itself changes nothing. -/
theorem transition_escaped_newline (h : (transition state current (some '\n')).consumed = 2) :
    current = '\\' ∧
      (∀ lookahead, transition state current lookahead = { next := state, consumed := 2 }) ∧
      ∀ lookahead, transition state '\n' lookahead = { next := state, consumed := 1 } := by
  cases state with
  | code =>
      simp only [transition, codeStep] at h
      repeat' split at h
      all_goals simp_all
  | doubleQuoted =>
      simp only [transition, quotedStep] at h
      by_cases hescape : current = '\\'
      · exact ⟨hescape, fun _ => if_pos hescape, fun _ => rfl⟩
      · rw [if_neg hescape] at h
        split at h <;> simp at h
  | singleQuoted =>
      simp only [transition, quotedStep] at h
      by_cases hescape : current = '\\'
      · exact ⟨hescape, fun _ => if_pos hescape, fun _ => rfl⟩
      · rw [if_neg hescape] at h
        split at h <;> simp at h
  | lineComment =>
      simp only [transition, lineCommentStep] at h
      split at h <;> simp at h
  | blockComment => simp [transition, blockCommentStep] at h

-- A newline that is read, and is not the first character, is taken along.
theorem exists_of_newline_mem_read (hcurrent : current ≠ '\n')
    (hread : '\n' ∈ Visit.read ⟨state, position, current, rest⟩) :
    ∃ later, rest = '\n' :: later ∧ (transition state current (some '\n')).consumed = 2 := by
  simp only [Visit.read, Visit.text, Visit.step] at hread
  rcases consumed_transition state current rest.head? with hone | htwo
  · rw [hone, List.take_succ_cons, List.take_zero, List.mem_singleton] at hread
    exact absurd hread.symm hcurrent
  · rw [htwo, List.take_succ_cons] at hread
    cases rest with
    | nil => exact absurd (List.mem_singleton.mp hread).symm hcurrent
    | cons next later =>
        rw [List.take_succ_cons, List.take_zero, List.mem_cons, List.mem_singleton] at hread
        have hnext : '\n' = next := hread.resolve_left (Ne.symm hcurrent)
        rw [← hnext] at htwo ⊢
        exact ⟨later, rfl, htwo⟩

/-- A step that takes a newline along, and in the other text the step that takes
the carriage return along and the one that reads the newline by itself. -/
theorem matches_visit_escaped_newline (h : Matches place True scan other)
    (htwo : (transition state current (some '\n')).consumed = 2)
    (hplace : place (position + 2) = position' + 3) (later : List Char) :
    Matches place True (scan.visit ⟨state, position, current, '\n' :: later⟩)
      ((other.visit ⟨state, position', current, '\r' :: '\n' :: withReturns later⟩).visit
        ⟨state, position' + 2, '\n', withReturns later⟩) := by
  rcases transition_escaped_newline htwo with ⟨hcurrent, hstep, hnewline⟩
  have hhash : current ≠ '#' := by
    rw [hcurrent]
    decide
  have hhash' : '\n' ≠ '#' := by
    decide
  have hline : current ≠ '\n' := by
    rw [hcurrent]
    decide
  -- None of the three steps marks the line.
  have hunmarked : ∀ (scan : LineScan) (position : Nat) (rest : List Char),
      scan.marked ⟨state, position, current, rest⟩ = scan ∧
        scan.marked ⟨state, position, '\n', rest⟩ = scan := fun scan position rest =>
    ⟨marked_eq_self (by rw [Visit.step, hstep]) hhash,
      marked_eq_self (by rw [Visit.step, hnewline]) hhash'⟩
  rw [visit_eq, visit_eq, visit_eq, (hunmarked _ _ _).1, (hunmarked _ _ _).1,
    (hunmarked _ _ _).2]
  simp only [Visit.read, Visit.step, Visit.text, hstep, hnewline]
  -- Of the five characters read, the carriage return is the one that does nothing.
  change Matches place True ((scan.read position current).read (position + 1) '\n')
    (((other.read position' current).read (position' + 1) '\r').read (position' + 2) '\n')
  rw [read_return]
  exact (h.read_other hline hline fun hsure => ⟨hsure, rfl⟩).read_newline hplace

end Steps

/-- The scan of the text with carriage returns has caught up with a visit: what
it has found matches, and what is left of its text is what the visit leaves. -/
def CaughtUp (place : Nat → Nat) (scan other : LineScan) (visit : Visit) (position' : Nat) : Prop :=
  ∃ other', Matches place True (scan.visit visit) other' ∧
    foldVisits LineScan.visit other visit.state position' (withReturns visit.text) =
      foldVisits LineScan.visit other' visit.step.next
        (position' + (withReturns visit.read).length) (withReturns visit.remaining)

section CatchingUp

variable {visit : Visit} {position' : Nat}

-- The step is the same one in both texts.
theorem caughtUp_within_line (h : Matches place True scan other) (hread : '\n' ∉ visit.read) :
    CaughtUp place scan other visit position' := by
  rcases visit with ⟨state, position, current, rest⟩
  refine ⟨_, matches_visit_within_line h hread position', ?_⟩
  have hcurrent : current ≠ '\n' := Visit.current_ne_of_not_mem_read hread
  rw [Visit.text, withReturns_cons hcurrent, foldVisits]
  simp only [step_withReturns state position position']
  rw [(read_withReturns hread).2, withReturns_of_not_mem hread]
  by_cases hend : Visit.remaining ⟨state, position, current, rest⟩ = []
  · rw [hend, withReturns_nil, foldVisits, foldVisits]
  · rw [Visit.length_read _ hend]

-- The carriage return has a step of its own before the newline.
theorem caughtUp_newline (h : Matches place True scan other) (hcurrent : visit.current = '\n')
    (hplace : place (visit.position + 1) = position' + 2) :
    CaughtUp place scan other visit position' := by
  rcases visit with ⟨state, position, current, rest⟩
  change current = '\n' at hcurrent
  subst hcurrent
  refine ⟨_, matches_visit_newline h hplace, ?_⟩
  rcases read_newline state (position' + 1) (withReturns rest) with ⟨_, _, hremaining⟩
  rcases read_newline state position rest with ⟨hone, hread, hremaining'⟩
  rw [hread, hremaining', Visit.text, withReturns_cons_newline, foldVisits_return, foldVisits]
  simp only [hremaining, step_withReturns state position (position' + 1), hone]
  rfl

-- The newline has a step of its own after the carriage return.
theorem caughtUp_escaped_newline (h : Matches place True scan other)
    (hcurrent : visit.current ≠ '\n') (hread : '\n' ∈ visit.read)
    (hplace : place (visit.position + 2) = position' + 3) :
    CaughtUp place scan other visit position' := by
  rcases visit with ⟨state, position, current, rest⟩
  rcases exists_of_newline_mem_read hcurrent hread with ⟨later, rfl, htwo⟩
  refine ⟨_, matches_visit_escaped_newline h htwo hplace later, ?_⟩
  rcases transition_escaped_newline htwo with ⟨_, hstep, hnewline⟩
  rw [Visit.text, withReturns_cons hcurrent, withReturns_cons_newline, foldVisits]
  simp only [Visit.read, Visit.remaining, Visit.step, Visit.text, hstep]
  change foldVisits LineScan.visit _ state (position' + 2) ('\n' :: withReturns later) =
    foldVisits LineScan.visit _ state (position' + (withReturns [current, '\n']).length)
      (withReturns later)
  rw [foldVisits, withReturns_cons hcurrent]
  simp only [Visit.remaining, Visit.step, hnewline]
  rfl

/-- In each of the three cases the second scan catches up. -/
theorem caughtUp_visit (h : Matches place True scan other)
    (hplace : ∀ n, place (visit.position + n) = position' + (n + (visit.text.take n).count '\n')) :
    CaughtUp place scan other visit position' := by
  by_cases hread : '\n' ∈ visit.read
  · by_cases hcurrent : visit.current = '\n'
    · refine caughtUp_newline h hcurrent ?_
      rw [hplace, Visit.text, hcurrent]
      rfl
    · refine caughtUp_escaped_newline h hcurrent hread ?_
      rcases exists_of_newline_mem_read hcurrent hread with ⟨later, hrest, _⟩
      rw [hplace, Visit.text, hrest, List.take_succ_cons, List.count_cons_of_ne hcurrent]
      rfl
  · exact caughtUp_within_line h hread

end CatchingUp

/-- A run of the two scans side by side, from any place in the text that the
first one visits. -/
theorem matches_withReturns {text seen rest : List Char} (htext : text = seen ++ rest)
    {state : ScanState} {position : Nat} (hposition : rest ≠ [] → position = seen.length)
    (h : Matches (placeWithReturns text) True scan other) :
    Matches (placeWithReturns text) True (foldVisits LineScan.visit scan state position rest)
      (foldVisits LineScan.visit other state (withReturns seen).length (withReturns rest)) := by
  fun_induction visitsFrom state position rest generalizing seen scan other with
  | case1 state position =>
      rw [withReturns_nil, foldVisits, foldVisits]
      exact h
  | case2 state position current rest visit =>
      rename_i ih
      have hstart : position = seen.length := hposition (List.cons_ne_nil _ _)
      have hplace : ∀ n, placeWithReturns text (visit.position + n) =
          (withReturns seen).length + (n + (visit.text.take n).count '\n') := by
        intro n
        change placeWithReturns text (position + n) = _
        rw [htext, hstart]
        exact placeWithReturns_append seen (current :: rest) n
      rcases caughtUp_visit h hplace with ⟨other', hmatch, hrun⟩
      -- What the step has read joins what has been seen.
      have htext' : text = (seen ++ visit.read) ++ visit.remaining := by
        rw [List.append_assoc, visit.read_append_remaining, htext]
        rfl
      have hposition' : visit.remaining ≠ [] →
          position + visit.step.consumed = (seen ++ visit.read).length := by
        intro hne
        rw [List.length_append, visit.length_read hne, hstart]
      have hnext := ih htext' hposition' hmatch
      rw [withReturns_append, List.length_append, ← hrun] at hnext
      rw [foldVisits]
      exact hnext

end LineScan

/-- Windows and Unix versions of a text have their safe splits after the same
lines: with a carriage return in front of every newline they are the safe
splits of the text, each of them as many offsets later as there are lines
before it. -/
theorem safeSplits_withReturns (content : String) :
    let text := content.toList
    safeSplits (withReturns text) =
      (safeSplits text).map fun p => p + (text.take p).count '\n' := by
  intro text
  have hmatches : LineScan.Matches (placeWithReturns text) True (scanLines text)
      (scanLines (withReturns text)) :=
    LineScan.matches_withReturns (List.nil_append text).symm (fun _ => rfl)
      ⟨rfl, rfl, rfl, fun _ => rfl⟩
  exact safeSplits_of_matches (placeWithReturns_zero text) (placeWithReturns_length text)
    (fun _ _ => (strictMono_placeWithReturns text).lt_iff_lt) hmatches

end Chunking
