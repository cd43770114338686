import Chunking.Proofs.Joined
import Chunking.Scan.SafeSplit

/-!
# Safe splits are ends of marked lines

What the scan of a text finds, said without the scan. A place marks its line
if a brace there ends the last open block, or if a directive there starts the
line and ends a region; both have to be visited in code. The safe splits of a
text are its two ends and the ends of the lines that are marked.

The scan does not look for the end of a marked line. It carries a flag there,
through whatever the line still holds, and the flag has to mean the same at
every character on the way, the second character of a step included. `Found`
is that meaning, and it is kept by reading one character and by marking the
line at a visit.

## Main definitions

* `BlockEnd`: A closing brace in code ends the last open block.
* `RegionEnd`: A directive in code starts its line and ends a region.
* `MarksLine`: A place marks its line.
* `LineEnd`: The end of the line on which an offset lies.
* `LineScan.Found`: What a scan knows when it has read up to an offset.
* `StartsWithWord`: A text starts with a word of its own.

## Theorems

* `LineScan.Found.read`: Reading a character.
* `LineScan.Found.mark`: Marking the line.
* `token_eq_some_iff`: A brace is read as one exactly in code.
* `startsRegionEnd_iff`: What a directive that ends a region is.
* `found_scanLines`: What is known at the end of a text.
* `mem_safeSplits_iff`: The safe splits are the ends of the marked lines and of
  the text.
* `pairwise_safeSplits`: Safe splits ascend.
-/

namespace Chunking

open Text

/-- The characters of a line that stand before an offset on it. -/
def lineBefore (text : List Char) (offset : Nat) : List Char :=
  ((text.take offset).reverse.takeWhile (· != '\n')).reverse

/-- A closing brace that is visited in code where one block is open. -/
structure BlockEnd (text : List Char) (mark : Nat) : Prop where
  code : stateAt? text mark = some .code
  brace : text[mark]? = some '\x7d'
  depth : depthBefore text mark = 1

/-- A directive that ends a region, visited in code with nothing but white
space before it on its line. -/
structure RegionEnd (text : List Char) (mark : Nat) : Prop where
  code : stateAt? text mark = some .code
  directive : startsRegionEnd (text.drop mark) = true
  first : ∀ c ∈ lineBefore text mark, isBlank c = true

/-- A place that makes the end of its line a safe split. -/
def MarksLine (text : List Char) (mark : Nat) : Prop :=
  BlockEnd text mark ∨ RegionEnd text mark

/-- A place that marks its line is visited in code. -/
theorem MarksLine.code {text : List Char} {mark : Nat} (h : MarksLine text mark) :
    stateAt? text mark = some .code :=
  h.elim BlockEnd.code RegionEnd.code

/-- The line on which an offset lies ends, with its newline, at `stop`. -/
structure LineEnd (text : List Char) (offset stop : Nat) : Prop where
  lt : offset < stop
  newline : text[stop - 1]? = some '\n'
  within : ∀ i, offset ≤ i → i + 1 < stop → text[i]? ≠ some '\n'

namespace LineEnd

variable {text : List Char} {mark stop : Nat}

/-- The newline of a line lies in the text. -/
theorem le_length (h : LineEnd text mark stop) : stop ≤ text.length := by
  have hlt := h.lt
  rcases List.getElem?_eq_some_iff.mp h.newline with ⟨hinside, _⟩
  omega

theorem length_take (h : LineEnd text mark stop) : (text.take stop).length = stop :=
  List.length_take_of_le h.le_length

theorem endsLine (h : LineEnd text mark stop) : EndsLine (text.take stop) := by
  have hlt := h.lt
  intro c hc
  rw [List.getLast?_take, if_neg (by omega), h.newline] at hc
  simpa using hc.symm

end LineEnd

namespace LineScan

/-- What a scan knows when it has read the text up to an offset and found the
given marks. -/
structure Found (text : List Char) (marks : Nat → Prop) (offset : Nat) (scan : LineScan) :
    Prop where
  marks_le : ∀ m, marks m → m ≤ offset
  lineBlank : scan.lineBlank = (lineBefore text offset).all isBlank
  cutAtLineEnd : scan.cutAtLineEnd = true ↔
    ∃ m, marks m ∧ ∀ i, m ≤ i → i < offset → text[i]? ≠ some '\n'
  lineEnds : ∀ p, p ∈ scan.lineEnds ↔ p ≤ offset ∧ ∃ m, marks m ∧ LineEnd text m p
  descending : scan.lineEnds.Pairwise (· > ·)

theorem lineBefore_succ {text : List Char} {offset : Nat} {c : Char}
    (hc : text[offset]? = some c) :
    lineBefore text (offset + 1) = if c = '\n' then [] else lineBefore text offset ++ [c] := by
  -- The line is read backwards, so the new character is the first one.
  rw [lineBefore, List.take_add_one, hc, Option.toList_some, List.reverse_append,
    List.reverse_singleton, List.singleton_append, List.takeWhile_cons]
  by_cases h : c = '\n'
  · simp [h]
  · simp [h, lineBefore]

namespace Found

variable {text : List Char} {marks : Nat → Prop} {offset : Nat} {scan : LineScan}

/-- The end of a line is known once its newline has been read, and only if the
line was marked. -/
theorem lineEnd_succ_iff (h : scan.Found text marks offset) (hc : text[offset]? = some '\n') :
    scan.cutAtLineEnd = true ↔ ∃ m, marks m ∧ LineEnd text m (offset + 1) := by
  rw [h.cutAtLineEnd]
  constructor
  · rintro ⟨m, hm, hwithin⟩
    have hle := h.marks_le m hm
    exact ⟨m, hm, by omega, hc, fun i hi hlt => hwithin i hi (by omega)⟩
  · rintro ⟨m, hm, hend⟩
    exact ⟨m, hm, fun i hi hlt => hend.within i hi (by omega)⟩

theorem read_newline (h : scan.Found text marks offset) (hc : text[offset]? = some '\n') :
    (scan.read offset '\n').Found text marks (offset + 1) := by
  have hends : (scan.read offset '\n').lineEnds =
      if scan.cutAtLineEnd then (offset + 1) :: scan.lineEnds else scan.lineEnds := rfl
  refine ⟨fun m hm => Nat.le_succ_of_le (h.marks_le m hm), ?_, ?_, ?_, ?_⟩
  · rw [lineBefore_succ hc]
    rfl
  · -- The next line starts without a mark, and no mark lies on it yet.
    constructor
    · intro hcut
      exact absurd hcut (by simp [LineScan.read])
    · rintro ⟨m, hm, hwithin⟩
      exact absurd hc (hwithin offset (h.marks_le m hm) (Nat.lt_succ_self _))
  · intro p
    have hsucc := h.lineEnd_succ_iff hc
    have hold := h.lineEnds p
    rw [hends]
    -- Only the end of this very line is new.
    by_cases hp : p = offset + 1
    · have hnot : p ∉ scan.lineEnds := by
        rw [hold]
        omega
      rw [hp, ← hsucc]
      rw [hp] at hnot
      by_cases hcut : scan.cutAtLineEnd = true
      · simp [hcut]
      · simp [hcut, hnot]
    · have hsplit : p ∈ (if scan.cutAtLineEnd then (offset + 1) :: scan.lineEnds
          else scan.lineEnds) ↔ p ∈ scan.lineEnds := by
        split <;> simp [hp]
      rw [hsplit, hold]
      constructor
      · rintro ⟨hle, hm⟩
        exact ⟨by omega, hm⟩
      · rintro ⟨hle, hm⟩
        exact ⟨by omega, hm⟩
  · rw [hends]
    split
    · refine List.pairwise_cons.mpr ⟨fun p hp => ?_, h.descending⟩
      have := (h.lineEnds p).mp hp
      omega
    · exact h.descending

theorem read_other (h : scan.Found text marks offset) {c : Char} (hc : text[offset]? = some c)
    (hne : c ≠ '\n') : (scan.read offset c).Found text marks (offset + 1) := by
  have hread : scan.read offset c = { scan with lineBlank := scan.lineBlank && isBlank c } := by
    rw [LineScan.read, if_neg hne]
  rw [hread]
  refine ⟨fun m hm => Nat.le_succ_of_le (h.marks_le m hm), ?_, ?_, ?_, h.descending⟩
  · rw [lineBefore_succ hc, if_neg hne, List.all_append, ← h.lineBlank]
    simp
  · rw [h.cutAtLineEnd]
    constructor
    · rintro ⟨m, hm, hwithin⟩
      refine ⟨m, hm, fun i hi hlt => ?_⟩
      by_cases hi' : i = offset
      · rw [hi', hc]
        simpa using hne
      · exact hwithin i hi (by omega)
    · rintro ⟨m, hm, hwithin⟩
      exact ⟨m, hm, fun i hi hlt => hwithin i hi (by omega)⟩
  · intro p
    rw [h.lineEnds p]
    constructor
    · rintro ⟨hle, hm⟩
      exact ⟨by omega, hm⟩
    · rintro ⟨hle, m, hm, hend⟩
      refine ⟨?_, m, hm, hend⟩
      -- A line that ended here would end with the character just read.
      by_cases hp : p = offset + 1
      · have hnewline := hend.newline
        rw [hp, Nat.add_sub_cancel, hc, Option.some.injEq] at hnewline
        exact absurd hnewline hne
      · omega

/-- Reading one character keeps what is known. -/
theorem read (h : scan.Found text marks offset) {c : Char} (hc : text[offset]? = some c) :
    (scan.read offset c).Found text marks (offset + 1) := by
  by_cases hne : c = '\n'
  · rw [hne] at hc ⊢
    exact h.read_newline hc
  · exact h.read_other hc hne

/-- Reading characters that follow one another keeps what is known. -/
theorem readAll (h : scan.Found text marks offset) {chars : List Char}
    (hchars : chars <+: text.drop offset) :
    (scan.readAll offset chars).Found text marks (offset + chars.length) := by
  induction chars generalizing scan offset with
  | nil => exact h
  | cons c chars ih =>
      rcases hchars with ⟨rest, hrest⟩
      have hc : text[offset]? = some c := by
        rw [← List.head?_drop, ← hrest]
        rfl
      have hnext : chars <+: text.drop (offset + 1) := by
        refine ⟨rest, ?_⟩
        rw [← List.drop_drop, ← hrest]
        rfl
      rw [LineScan.readAll, List.length_cons, Nat.add_comm chars.length, ← Nat.add_assoc]
      exact ih (h.read hc) hnext

end Found

/-- Whether a visit marks its line, as the scan decides it. -/
def marking (scan : LineScan) (visit : Visit) : Bool :=
  (scan.depth.after visit.step.token).2 || scan.atRegionEnd visit

/-- The scan after it has counted the brace of a visit and marked the line, if
the visit marks it. -/
def marked (scan : LineScan) (visit : Visit) : LineScan :=
  { scan with
    depth := (scan.depth.after visit.step.token).1
    cutAtLineEnd := scan.cutAtLineEnd || scan.marking visit }

/-- A step marks the line first and then reads. -/
theorem visit_eq (scan : LineScan) (visit : Visit) :
    scan.visit visit = (scan.marked visit).readAll visit.position visit.read := by
  rw [LineScan.visit, marked, marking, ← Bool.or_assoc]

/-- Marking the line keeps what is known. -/
theorem Found.mark {text : List Char} {marks : Nat → Prop} {offset : Nat} {scan : LineScan}
    (h : scan.Found text marks offset) (depth : Depth) (marked : Bool) :
    ({ scan with depth, cutAtLineEnd := scan.cutAtLineEnd || marked } : LineScan).Found text
      (fun m => marks m ∨ marked = true ∧ m = offset) offset := by
  refine ⟨?_, h.lineBlank, ?_, ?_, h.descending⟩
  · rintro m (hm | ⟨_, rfl⟩)
    · exact h.marks_le m hm
    · exact Nat.le_refl _
  · rw [Bool.or_eq_true, h.cutAtLineEnd]
    constructor
    · rintro (⟨m, hm, hwithin⟩ | hmarked)
      · exact ⟨m, Or.inl hm, hwithin⟩
      · exact ⟨offset, Or.inr ⟨hmarked, rfl⟩, fun i hi hlt => by omega⟩
    -- The new mark is at the place itself, so no newline can come after it yet.
    · rintro ⟨m, hm | ⟨hmarked, _⟩, hwithin⟩
      · exact Or.inl ⟨m, hm, hwithin⟩
      · exact Or.inr hmarked
  · intro p
    rw [h.lineEnds p]
    constructor
    · rintro ⟨hle, m, hm, hend⟩
      exact ⟨hle, m, Or.inl hm, hend⟩
    · rintro ⟨hle, m, hm | ⟨_, rfl⟩, hend⟩
      · exact ⟨hle, m, hm, hend⟩
      · have := hend.lt
        omega

/-- What a scan knows when it has taken the given steps of the run over a
text. -/
structure Reached (text : List Char) (seen : List Visit) (offset : Nat) (scan : LineScan) :
    Prop where
  found :
    scan.Found text (fun m => MarksLine text m ∧ ∃ visit ∈ seen, visit.position = m) offset
  depth : scan.depth.value = braceBalance seen

/-- Reading characters counts no braces. -/
theorem depth_readAll (scan : LineScan) (position : Nat) (chars : List Char) :
    (scan.readAll position chars).depth = scan.depth := by
  induction chars generalizing scan position with
  | nil => rfl
  | cons c chars ih =>
      rw [readAll, ih, read]
      split <;> rfl

end LineScan

/-- The character that a brace is. -/
def Token.brace : Token → Char
  | .openBrace => '\x7b'
  | .closeBrace => '\x7d'

/-- A brace is read as one exactly in code. -/
theorem token_eq_some_iff (visit : Visit) (token : Token) :
    visit.step.token = some token ↔ visit.state = .code ∧ visit.current = token.brace := by
  rcases visit with ⟨state, position, current, rest⟩
  cases state <;>
    simp only [Visit.step, transition, codeStep, quotedStep, lineCommentStep, blockCommentStep]
  · -- No other character that code knows is a brace.
    by_cases hopen : current = '\x7b'
    · cases token <;> simp [hopen, Token.brace]
    · by_cases hclose : current = '\x7d'
      · cases token <;> simp [hclose, Token.brace]
      · have hbrace : current ≠ token.brace := by
          cases token
          · exact hopen
          · exact hclose
        simp only [hopen, hclose, hbrace, and_false, iff_false, if_false]
        repeat' split
        all_goals simp
  all_goals
    repeat' split
    all_goals simp

/-- Counting a brace moves the depth by the balance of the visit. -/
theorem value_after (depth : Depth) (visit : Visit) :
    (depth.after visit.step.token).1.value = depth.value + braceBalance [visit] := by
  rcases htoken : visit.step.token with _ | token
  · simp [Depth.after, braceBalance, htoken]
  · cases token
    · simp [Depth.after, Depth.opened, braceBalance, htoken]
    · have hbalance : braceBalance [visit] = -1 := by
        simp [braceBalance, htoken]
      simp only [Depth.after, Depth.closed, hbalance]
      omega

theorem crossing_after_iff (depth : Depth) (token : Option Token) :
    (depth.after token).2 = true ↔ token = some .closeBrace ∧ depth.value = 1 := by
  rcases token with _ | token
  · simp [Depth.after]
  · cases token <;> simp [Depth.after, Depth.crosses_iff]

/-- A text starts with a word of its own: no alphanumeric character or
underscore follows it. -/
def StartsWithWord (word text : List Char) : Prop :=
  word <+: text ∧ ∀ c ∈ text[word.length]?, isAlphanumeric c = false ∧ c ≠ '_'

theorem startsWithWord_cons_iff {c d : Char} {word text : List Char} :
    StartsWithWord (c :: word) (d :: text) ↔ c = d ∧ StartsWithWord word text := by
  unfold StartsWithWord
  rw [List.cons_prefix_cons, List.length_cons, List.getElem?_cons_succ, and_assoc]

theorem startsRegionEnd_iff (text : List Char) :
    startsRegionEnd text = true ↔ ∃ word ∈ regionEndDirectives, StartsWithWord word text := by
  rw [startsRegionEnd, List.any_eq_true]
  refine exists_congr fun word => and_congr_right fun _ => ?_
  rw [Bool.and_eq_true, List.isPrefixOf_iff_prefix, StartsWithWord, List.head?_drop]
  refine and_congr_right fun _ => ?_
  rcases text[word.length]? with _ | next <;> simp

/-- A directive that ends a region starts with its mark. -/
theorem head?_of_startsRegionEnd {text : List Char} (h : startsRegionEnd text = true) :
    text.head? = some '#' := by
  rcases (startsRegionEnd_iff text).mp h with ⟨word, hmem, ⟨rest, hrest⟩, _⟩
  simp only [regionEndDirectives, List.mem_cons, List.not_mem_nil, or_false] at hmem
  rcases hmem with rfl | rfl
  · rw [← hrest]
    rfl
  · rw [← hrest]
    rfl

section Run

variable {text : List Char} {seen : List Visit} {visit : Visit} {scan : LineScan}

/-- The scan marks a line at a visit exactly where the text has a mark. -/
theorem marking_iff (hmem : visit ∈ visitsFrom .code 0 text)
    (htext : visit.text = text.drop visit.position)
    (hdepth : scan.depth.value = depthBefore text visit.position)
    (hblank : scan.lineBlank = (lineBefore text visit.position).all isBlank) :
    scan.marking visit = true ↔ MarksLine text visit.position := by
  have hstate : ∀ state, stateAt? text visit.position = some state ↔ visit.state = state := by
    intro state
    have hat :=
      (stateAt?_eq_some_iff text visit.position visit.state).mpr ⟨visit, hmem, rfl, rfl⟩
    rw [hat, Option.some.injEq]
  have hcurrent : text[visit.position]? = some visit.current := by
    rw [← List.head?_drop, ← htext]
    rfl
  have hblockEnd : (scan.depth.after visit.step.token).2 = true ↔
      BlockEnd text visit.position := by
    rw [crossing_after_iff, token_eq_some_iff, Token.brace, hdepth]
    constructor
    · rintro ⟨⟨hcode, hbrace⟩, hone⟩
      exact ⟨(hstate .code).mpr hcode, by rw [hcurrent, hbrace], hone⟩
    · rintro ⟨hcode, hbrace, hone⟩
      rw [hcurrent, Option.some.injEq] at hbrace
      exact ⟨⟨(hstate .code).mp hcode, hbrace⟩, hone⟩
  -- That the character is the mark of a directive follows from the directive.
  have hregionEnd : scan.atRegionEnd visit = true ↔ RegionEnd text visit.position := by
    simp only [LineScan.atRegionEnd, Bool.and_eq_true, beq_iff_eq, hblank, List.all_eq_true]
    constructor
    · rintro ⟨⟨⟨hcode, _⟩, hfirst⟩, hdirective⟩
      exact ⟨(hstate .code).mpr hcode, by rwa [← htext], hfirst⟩
    · rintro ⟨hcode, hdirective, hfirst⟩
      rw [← htext] at hdirective
      have hhash : visit.current = '#' := by
        simpa [Visit.text] using head?_of_startsRegionEnd hdirective
      exact ⟨⟨⟨(hstate .code).mp hcode, hhash⟩, hfirst⟩, hdirective⟩
  rw [LineScan.marking, Bool.or_eq_true, hblockEnd, hregionEnd, MarksLine]

/-- One step of the run keeps what the scan knows. -/
theorem LineScan.Reached.step (visit : Visit)
    (hrun : visitsFrom .code 0 text = seen ++ visitsFrom visit.state visit.position visit.text)
    (h : scan.Reached text seen visit.position) :
    (scan.visit visit).Reached text (seen ++ [visit]) (visit.position + visit.read.length) := by
  have hmem : visit ∈ visitsFrom .code 0 text := by
    rw [hrun, Visit.text, visitsFrom_cons]
    exact List.mem_append_right _ List.mem_cons_self
  -- A visit is met once, so what was seen is what comes before it in the run.
  rcases visitsFrom_eq_append_of_mem hmem with ⟨earlier, hsplit, hearlier, htext⟩
  have hseen : seen = earlier := List.append_cancel_right (hrun.symm.trans hsplit)
  rw [← hseen] at hearlier
  rw [Nat.sub_zero] at htext
  have hdepth := h.depth
  rw [← depthBefore_of_append hrun hearlier] at hdepth
  have hmarking := marking_iff hmem htext hdepth h.found.lineBlank
  -- The marks that have been visited grow by this place, if it is one.
  have hmarks : (fun m => (MarksLine text m ∧ ∃ visit ∈ seen, visit.position = m) ∨
      scan.marking visit = true ∧ m = visit.position) =
      fun m => MarksLine text m ∧ ∃ other ∈ seen ++ [visit], other.position = m := by
    funext m
    rw [hmarking]
    simp only [List.mem_append, List.mem_singleton, eq_iff_iff]
    constructor
    · rintro (⟨hm, other, hother, rfl⟩ | ⟨hm, rfl⟩)
      · exact ⟨hm, other, Or.inl hother, rfl⟩
      · exact ⟨hm, visit, Or.inr rfl, rfl⟩
    · rintro ⟨hm, other, hother | rfl, rfl⟩
      · exact Or.inl ⟨hm, other, hother, rfl⟩
      · exact Or.inr ⟨hm, rfl⟩
  have hmarked := h.found.mark (scan.depth.after visit.step.token).1 (scan.marking visit)
  rw [hmarks] at hmarked
  rw [LineScan.visit_eq]
  refine ⟨hmarked.readAll (htext ▸ List.take_prefix _ _), ?_⟩
  rw [LineScan.depth_readAll, LineScan.marked, value_after, h.depth, braceBalance_append]

/-- From any step on, the run keeps what the scan knows to the end of the
text. -/
theorem reached_foldVisits (text : List Char) (state : ScanState) (position : Nat)
    (rest : List Char) (seen : List Visit) (offset : Nat) (scan : LineScan)
    (hrun : visitsFrom .code 0 text = seen ++ visitsFrom state position rest)
    (hrest : rest = text.drop offset) (hle : offset ≤ text.length)
    (hposition : rest ≠ [] → position = offset) (h : scan.Reached text seen offset) :
    (foldVisits LineScan.visit scan state position rest).Reached text
      (visitsFrom .code 0 text) text.length := by
  fun_induction foldVisits LineScan.visit scan state position rest
    generalizing seen offset with
  | case1 scan state position =>
      have hend : offset = text.length := by
        have := congrArg List.length hrest
        rw [List.length_nil, List.length_drop] at this
        omega
      rw [hrun, visitsFrom, List.append_nil, ← hend]
      exact h
  | case2 scan state position current rest visit ih =>
      have hoffset : position = offset := hposition (List.cons_ne_nil _ _)
      have hlength : visit.text.length = text.length - offset := by
        rw [← List.length_drop, ← hrest]
        rfl
      have hread : visit.read.length = min visit.step.consumed visit.text.length := by
        rw [Visit.read, List.length_take]
      refine ih (seen ++ [visit]) (offset + visit.read.length) ?_ ?_ ?_ ?_ ?_
      · rw [hrun, visitsFrom_cons, List.append_assoc, List.singleton_append]
      · have htext : visit.text = text.drop offset := hrest
        rw [← List.drop_drop, ← htext, visit.remaining_eq_drop, hread]
        -- The last step can consume more than is left to read.
        by_cases hle' : visit.step.consumed ≤ visit.text.length
        · rw [Nat.min_eq_left hle']
        · rw [Nat.min_eq_right (by omega), List.drop_length, List.drop_eq_nil_of_le (by omega)]
      · omega
      · intro hne
        have hlt : visit.step.consumed < visit.text.length := by
          rw [visit.remaining_eq_drop, ne_eq, List.drop_eq_nil_iff] at hne
          omega
        omega
      · rw [← hoffset] at h ⊢
        exact LineScan.Reached.step visit hrun h

end Run

/-- What the scan of a text has reached at its end. -/
theorem reached_scanLines (text : List Char) :
    (scanLines text).Reached text (visitsFrom .code 0 text) text.length := by
  have hstart : LineScan.Reached text [] 0 {} := by
    refine ⟨⟨by simp, rfl, by simp, by simp, List.Pairwise.nil⟩, rfl⟩
  exact reached_foldVisits text .code 0 text [] 0 {} rfl rfl (Nat.zero_le _) (fun _ => rfl) hstart

/-- The depth at which the scan of a text ends is what the text adds. -/
theorem depth_scanLines (text : List Char) : (scanLines text).depth.value = netBraces text :=
  (reached_scanLines text).depth

/-- What the scan of a text knows at its end. -/
theorem found_scanLines (text : List Char) :
    (scanLines text).Found text (MarksLine text) text.length := by
  have hreached := (reached_scanLines text).found
  -- Every mark is a place that the run visits.
  have hmarks : (fun m => MarksLine text m ∧
      ∃ visit ∈ visitsFrom .code 0 text, visit.position = m) = MarksLine text := by
    funext m
    rw [eq_iff_iff, and_iff_left_iff_imp]
    intro hm
    rcases (stateAt?_eq_some_iff _ _ _).mp hm.code with ⟨visit, hmem, hposition, _⟩
    exact ⟨visit, hmem, hposition⟩
  rw [hmarks] at hreached
  exact hreached

/-- The safe splits of a text are its ends and the ends of its marked lines. -/
theorem mem_safeSplits_iff (text : List Char) (p : Nat) :
    p ∈ safeSplits text ↔ p = 0 ∨ p = text.length ∨
      p < text.length ∧ ∃ m, MarksLine text m ∧ LineEnd text m p := by
  have hfound := (found_scanLines text).lineEnds p
  by_cases hlength : text.length = 0
  · simp [safeSplits, hlength]
  · simp only [safeSplits, if_neg hlength, List.cons_append, List.mem_cons, List.mem_append,
      List.mem_filter, List.mem_reverse, hfound, decide_eq_true_eq, List.not_mem_nil, or_false]
    -- A marked line that ends with the text is left to the end of the text.
    constructor
    · rintro (hp | ⟨⟨_, hm⟩, hlt⟩ | hp)
      · exact Or.inl hp
      · exact Or.inr (Or.inr ⟨hlt, hm⟩)
      · exact Or.inr (Or.inl hp)
    · rintro (hp | hp | ⟨hlt, hm⟩)
      · exact Or.inl hp
      · exact Or.inr (Or.inr hp)
      · exact Or.inr (Or.inl ⟨⟨Nat.le_of_lt hlt, hm⟩, hlt⟩)

theorem le_length_of_mem_safeSplits {text : List Char} {p : Nat} (h : p ∈ safeSplits text) :
    p ≤ text.length := by
  rcases (mem_safeSplits_iff text p).mp h with rfl | rfl | ⟨hlt, _⟩
  · exact Nat.zero_le _
  · exact Nat.le_refl _
  · exact Nat.le_of_lt hlt

/-- A safe split inside a text stands at the start of a line. -/
theorem endsLine_take_of_mem_safeSplits {text : List Char} {p : Nat} (h : p ∈ safeSplits text)
    (hlt : p < text.length) : EndsLine (text.take p) := by
  rcases (mem_safeSplits_iff text p).mp h with rfl | rfl | ⟨_, mark, _, hend⟩
  · simp [EndsLine]
  · exact absurd hlt (Nat.lt_irrefl _)
  · exact hend.endsLine

/-- Safe splits ascend. -/
theorem pairwise_safeSplits (text : List Char) : (safeSplits text).Pairwise (· < ·) := by
  have hfound := found_scanLines text
  by_cases hlength : text.length = 0
  · simp [safeSplits, hlength]
  · simp only [safeSplits, if_neg hlength, List.cons_append]
    refine List.pairwise_cons.mpr ⟨fun p hp => ?_, ?_⟩
    · simp only [List.mem_append, List.mem_filter, List.mem_reverse, List.mem_singleton] at hp
      rcases hp with ⟨hp, _⟩ | rfl
      · rcases (hfound.lineEnds p).mp hp with ⟨_, m, _, hend⟩
        have := hend.lt
        omega
      · omega
    · refine List.pairwise_append.mpr ⟨?_, List.pairwise_singleton _ _, ?_⟩
      · exact (List.pairwise_reverse.mpr hfound.descending).filter _
      · intro p hp q hq
        rw [List.mem_singleton] at hq
        rw [List.mem_filter, decide_eq_true_eq] at hp
        omega

end Chunking
