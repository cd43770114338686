import Chunking.Proofs.JoinedMarks
import Chunking.Scan.Trace
import Mathlib.Data.List.Sort
import Mathlib.Data.List.TakeWhile

/-!
# The safe splits, line by line

Which offsets are safe splits, said of the lines of a text. A line makes its
end one in two ways: it holds the brace that ends the last open block, or a
directive that ends a region is the first thing on it.

The scan asks about places, and it asks at the place. How deep the nesting is
there it knows from the braces it has counted, and whether anything but white
space stands before, from a flag. Both are properties of the text. The depth
is a difference of two counts over offsets, and the blank characters are those
between the start of the line and the place.

The trace of a scan records the same run step by step. Its entries are at the
places of the run, and those that end the last open block are at the braces
that mark their lines.

## Main definitions

* `codeCount`: How often a character is visited in code before an offset.
* `IsLine`: A line with its newline.
* `HoldsBlockEnd`: A line on which the last open block ends.
* `OpensWithRegionEnd`: A line whose first word ends a region.
* `Visit.entry`: What the trace records of a visit.

## Theorems

* `depthBefore_eq`: The depth is a difference of counts.
* `map_position_trace`, `mem_trace_iff`: The entries of the trace.
* `exists_crossing_iff`: The entries that end the last open block.
* `lineBefore_eq_extract`: The characters of a line before a place on it.
* `exists_markedLine_iff`: The lines that are marked.
* `safeSplits_are_line_ends`: Exactly the safe splits of a text.
-/

namespace Chunking

open Text

/-- How often a character is visited in code before an offset. -/
def codeCount (text : List Char) (c : Char) (offset : Nat) : Nat :=
  (List.range offset).countP fun i => stateAt? text i == some .code && text[i]? == some c

section Counts

variable {text : List Char}

/-- A visit finds the character that stands at its place. -/
theorem getElem?_of_mem_visitsFrom {visit : Visit} (h : visit ∈ visitsFrom .code 0 text) :
    text[visit.position]? = some visit.current := by
  rcases visitsFrom_eq_append_of_mem h with ⟨_, _, _, htext⟩
  rw [Nat.sub_zero] at htext
  rw [← List.head?_drop, ← htext]
  rfl

/-- Later visits are at later places. -/
theorem pairwise_visitsFrom (state : ScanState) (position : Nat) (text : List Char) :
    (visitsFrom state position text).Pairwise fun first second =>
      first.position < second.position := by
  fun_induction visitsFrom state position text with
  | case1 => exact List.Pairwise.nil
  | case2 state position current rest visit ih =>
      refine List.pairwise_cons.mpr ⟨fun later hmem => ?_, ih⟩
      have hle := (position_of_mem_visitsFrom hmem).1
      have hpos := visit.consumed_pos
      change position < later.position
      omega

/-- The braces that the run reads before an offset are those that it visits in
code there. -/
theorem countP_token_eq_codeCount (text : List Char) (token : Token) (offset : Nat) :
    ((visitsFrom .code 0 text).filter fun visit => visit.position < offset).countP
        (fun visit => visit.step.token == some token) =
      codeCount text token.brace offset := by
  -- Both count a list of offsets, and the two lists ascend.
  rw [codeCount, List.countP_eq_length_filter, List.countP_eq_length_filter,
    ← List.length_map Visit.position]
  congr 1
  refine List.Pairwise.eq_of_mem_iff (r := (· < ·)) ?_ (List.pairwise_lt_range.filter _) ?_
  · exact List.pairwise_map.mpr (((pairwise_visitsFrom .code 0 text).filter _).filter _)
  intro i
  simp only [List.mem_map, List.mem_filter, List.mem_range, Bool.and_eq_true, beq_iff_eq,
    decide_eq_true_eq, token_eq_some_iff, stateAt?_eq_some_iff]
  constructor
  · rintro ⟨visit, ⟨⟨hmem, hlt⟩, hcode, hbrace⟩, rfl⟩
    refine ⟨hlt, ⟨visit, hmem, rfl, hcode⟩, ?_⟩
    rw [getElem?_of_mem_visitsFrom hmem, hbrace]
  · rintro ⟨hlt, ⟨visit, hmem, rfl, hcode⟩, hchar⟩
    rw [getElem?_of_mem_visitsFrom hmem, Option.some.injEq] at hchar
    exact ⟨visit, ⟨⟨hmem, hlt⟩, hcode, hchar⟩, rfl⟩

/-- The depth at an offset is the number of opening braces in code before it,
less the number of closing ones. -/
theorem depthBefore_eq (text : List Char) (offset : Nat) :
    depthBefore text offset = codeCount text '\x7b' offset - codeCount text '\x7d' offset := by
  unfold depthBefore braceBalance
  rw [countP_token_eq_codeCount, countP_token_eq_codeCount]
  rfl

end Counts

/-! ## The trace -/

/-- What the trace records of a visit, by the depth before it. -/
def Visit.entry (visit : Visit) (depth : Depth) : TraceEntry :=
  ⟨visit.position, visit.step, (depth.after visit.step.token).1, (depth.after visit.step.token).2⟩

/-- The entries are at the places of the run, in order. -/
theorem map_position_trace (state : ScanState) (text : List Char) :
    (trace state text).map TraceEntry.position =
      (visitsFrom state 0 text).map Visit.position := by
  have hfold (visits : List Visit) (log : TraceLog) :
      (visits.foldl TraceLog.add log).newestFirst.map TraceEntry.position =
        (visits.map Visit.position).reverse ++ log.newestFirst.map TraceEntry.position := by
    induction visits generalizing log with
    | nil => rfl
    | cons visit visits ih =>
        rw [List.foldl_cons, ih, List.map_cons, List.reverse_cons, List.append_assoc]
        rfl
  rw [trace, foldVisits_eq_foldl, List.map_reverse, hfold, List.map_nil, List.append_nil,
    List.reverse_reverse]

-- The depth before a visit is what the visits before it leave.
theorem mem_newestFirst_iff (visits : List Visit) (log : TraceLog) (entry : TraceEntry) :
    entry ∈ (visits.foldl TraceLog.add log).newestFirst ↔
      entry ∈ log.newestFirst ∨ ∃ before visit after, visits = before ++ visit :: after ∧
        entry = visit.entry ⟨log.depth.value + braceBalance before⟩ := by
  induction visits generalizing log with
  | nil => simp
  | cons first visits ih =>
      have hdepth (before : List Visit) : (log.add first).depth.value + braceBalance before =
          log.depth.value + braceBalance (first :: before) := by
        have hcons := braceBalance_append [first] before
        rw [List.singleton_append] at hcons
        rw [hcons, TraceLog.add, value_after, Int.add_assoc]
      have hfirst : first.entry ⟨log.depth.value + braceBalance []⟩ = first.entry log.depth := by
        rw [braceBalance_nil, Int.add_zero]
      have hnewest : (log.add first).newestFirst = first.entry log.depth :: log.newestFirst := rfl
      rw [List.foldl_cons, ih, hnewest, List.mem_cons]
      simp only [hdepth]
      constructor
      · rintro ((rfl | hold) | ⟨before, visit, after, rfl, rfl⟩)
        · exact .inr ⟨[], first, visits, rfl, hfirst.symm⟩
        · exact .inl hold
        · exact .inr ⟨first :: before, visit, after, rfl, rfl⟩
      · rintro (hold | ⟨before, visit, after, hsplit, rfl⟩)
        · exact .inl (.inr hold)
        · cases before with
          | nil =>
              cases hsplit
              exact .inl (.inl hfirst)
          | cons _ before =>
              cases hsplit
              exact .inr ⟨before, visit, after, rfl, rfl⟩

/-- Each visit has an entry, with the depth that the run arrives with. -/
theorem mem_trace_iff (text : List Char) (entry : TraceEntry) :
    entry ∈ trace .code text ↔
      ∃ visit ∈ visitsFrom .code 0 text,
        entry = visit.entry ⟨depthBefore text visit.position⟩ := by
  have hdepth {before after : List Visit} {visit : Visit}
      (h : visitsFrom .code 0 text = before ++ visit :: after) :
      depthBefore text visit.position = braceBalance before := by
    have hpairwise := pairwise_visitsFrom .code 0 text
    rw [h, List.pairwise_append, List.pairwise_cons] at hpairwise
    rcases hpairwise with ⟨-, ⟨hafter, -⟩, hbefore⟩
    rw [depthBefore, h, List.filter_append, List.filter_eq_self.mpr, List.filter_eq_nil_iff.mpr,
      List.append_nil]
    · intro other hother
      rcases List.mem_cons.mp hother with rfl | hother
      · simp
      · simpa using Nat.le_of_lt (hafter other hother)
    · intro other hother
      simpa using hbefore other hother visit List.mem_cons_self
  rw [trace, foldVisits_eq_foldl, List.mem_reverse, mem_newestFirst_iff]
  simp only [List.not_mem_nil, false_or, Int.zero_add]
  constructor
  · rintro ⟨before, visit, after, hsplit, rfl⟩
    exact ⟨visit, by rw [hsplit]; simp, by rw [hdepth hsplit]⟩
  · rintro ⟨visit, hvisit, rfl⟩
    rcases List.append_of_mem hvisit with ⟨before, after, hsplit⟩
    exact ⟨before, visit, after, hsplit, by rw [hdepth hsplit]⟩

/-- The last open block ends, in the trace, at the braces that mark their lines. -/
theorem exists_crossing_iff (text : List Char) (mark : Nat) :
    (∃ entry ∈ trace .code text, entry.position = mark ∧ entry.crossing = true) ↔
      BlockEnd text mark := by
  constructor
  · rintro ⟨entry, hentry, rfl, hcrossing⟩
    rcases (mem_trace_iff text entry).mp hentry with ⟨visit, hvisit, rfl⟩
    rcases (crossing_after_iff _ _).mp hcrossing with ⟨htoken, hdepth⟩
    rcases (token_eq_some_iff visit .closeBrace).mp htoken with ⟨hcode, hbrace⟩
    exact ⟨(stateAt?_eq_some_iff _ _ _).mpr ⟨visit, hvisit, rfl, hcode⟩,
      (getElem?_of_mem_visitsFrom hvisit).trans (congrArg some hbrace), hdepth⟩
  · rintro ⟨hstate, hbrace, hdepth⟩
    rcases (stateAt?_eq_some_iff _ _ _).mp hstate with ⟨visit, hvisit, rfl, hcode⟩
    rw [getElem?_of_mem_visitsFrom hvisit, Option.some.injEq] at hbrace
    refine ⟨_, (mem_trace_iff text _).mpr ⟨visit, hvisit, rfl⟩, rfl, ?_⟩
    exact (crossing_after_iff _ _).mpr
      ⟨(token_eq_some_iff visit .closeBrace).mpr ⟨hcode, hbrace⟩, hdepth⟩

/-- The line that ends, with its newline, at `stop` starts at `start`. -/
structure IsLine (text : List Char) (start stop : Nat) : Prop where
  starts : EndsLine (text.take start)
  ends : LineEnd text start stop

/-- A closing brace stands on the line, in code, where the depth is one. -/
def HoldsBlockEnd (text : List Char) (start stop : Nat) : Prop :=
  ∃ i, start ≤ i ∧ i < stop ∧ stateAt? text i = some .code ∧ text[i]? = some '\x7d' ∧
    (codeCount text '\x7b' i : Int) - codeCount text '\x7d' i = 1

/-- The first character of the line that is not blank is the mark of a
directive that ends a region, in code. -/
def OpensWithRegionEnd (text : List Char) (start stop : Nat) : Prop :=
  ∃ i, start ≤ i ∧ i < stop ∧ (∀ c ∈ text.extract start i, isBlank c = true) ∧
    stateAt? text i = some .code ∧ text[i]? = some '#' ∧
    (StartsWithWord "#endif".toList (text.drop i) ∨
      StartsWithWord "#endregion".toList (text.drop i))

section Line

variable {text : List Char} {start stop mark : Nat}

/-- A place on a line has the end of the line. -/
theorem IsLine.lineEnd (h : IsLine text start stop) (hle : start ≤ mark) (hlt : mark < stop) :
    LineEnd text mark stop :=
  ⟨hlt, h.ends.newline, fun i hi hi' => h.ends.within i (Nat.le_trans hle hi) hi'⟩

/-- The characters of a line before a place on it are those from its start to
the place. -/
theorem lineBefore_eq_extract (h : IsLine text start stop) (hle : start ≤ mark)
    (hlt : mark < stop) : lineBefore text mark = text.extract start mark := by
  have hlength := h.ends.le_length
  have hstart : (text.take start).length = start := List.length_take_of_le (by omega)
  have hshift := lineBefore_append_add (text.drop start) h.starts (mark - start)
  rw [List.take_append_drop, hstart, Nat.add_sub_cancel' hle] at hshift
  rw [hshift, lineBefore, List.extract_eq_take_drop]
  -- None of them is a newline, so the way back stops at the start.
  have hall : ∀ c ∈ ((text.drop start).take (mark - start)).reverse, (c != '\n') = true := by
    intro c hc
    rw [List.mem_reverse, List.mem_iff_getElem?] at hc
    rcases hc with ⟨i, hi⟩
    have hlt' : i < mark - start := by
      have := (List.getElem?_eq_some_iff.mp hi).1
      rw [List.length_take] at this
      omega
    rw [List.getElem?_take_of_lt hlt', List.getElem?_drop] at hi
    have hne := h.ends.within (start + i) (by omega) (by omega)
    rw [hi] at hne
    simpa using hne
  rw [List.takeWhile_eq_self_iff.mpr hall, List.reverse_reverse]

-- The way back from a place ends behind a newline or at the start of the text.
theorem exists_append_lineBefore (text : List Char) (mark : Nat) :
    ∃ earlier, text.take mark = earlier ++ lineBefore text mark ∧ EndsLine earlier := by
  refine ⟨((text.take mark).reverse.dropWhile (· != '\n')).reverse, ?_, ?_⟩
  · rw [lineBefore, ← List.reverse_append, List.takeWhile_append_dropWhile, List.reverse_reverse]
  · intro c hc
    rw [List.getLast?_reverse] at hc
    have hstop := List.head?_dropWhile_not (· != '\n') (text.take mark).reverse
    rw [hc] at hstop
    simpa using hstop

theorem newline_not_mem_lineBefore (text : List Char) (mark : Nat) :
    '\n' ∉ lineBefore text mark := by
  rw [lineBefore, List.mem_reverse]
  intro hmem
  simpa using List.mem_takeWhile_imp hmem

/-- Every place on a line that ends has a start of the line before it. -/
theorem LineEnd.exists_isLine (h : LineEnd text mark stop) :
    ∃ start, start ≤ mark ∧ IsLine text start stop := by
  have hlength := h.le_length
  have hlt := h.lt
  rcases exists_append_lineBefore text mark with ⟨earlier, hsplit, hends⟩
  have hmark : earlier.length + (lineBefore text mark).length = mark := by
    rw [← List.length_append, ← hsplit, List.length_take_of_le (by omega)]
  have htake : text.take earlier.length = earlier := by
    have := congrArg (List.take earlier.length) hsplit
    rwa [List.take_take, Nat.min_eq_left (by omega), List.take_left] at this
  refine ⟨earlier.length, by omega, htake.symm ▸ hends, by omega, h.newline, fun i hi hi' => ?_⟩
  -- A newline on the line would stand before the place or behind it.
  by_cases hmarked : mark ≤ i
  · exact h.within i hmarked hi'
  · have hchar : text[i]? = (lineBefore text mark)[i - earlier.length]? := by
      rw [← List.getElem?_take_of_lt (show i < mark by omega), hsplit,
        List.getElem?_append_right hi]
    intro hnewline
    rw [hchar] at hnewline
    exact newline_not_mem_lineBefore text mark (List.mem_of_getElem? hnewline)

theorem exists_blockEnd_iff (text : List Char) (start stop : Nat) :
    (∃ mark, start ≤ mark ∧ mark < stop ∧ BlockEnd text mark) ↔ HoldsBlockEnd text start stop := by
  unfold HoldsBlockEnd
  refine exists_congr fun mark => and_congr_right fun _ => and_congr_right fun _ => ?_
  rw [← depthBefore_eq]
  exact ⟨fun ⟨hcode, hbrace, hone⟩ => ⟨hcode, hbrace, hone⟩,
    fun ⟨hcode, hbrace, hone⟩ => ⟨hcode, hbrace, hone⟩⟩

theorem exists_regionEnd_iff (h : IsLine text start stop) :
    (∃ mark, start ≤ mark ∧ mark < stop ∧ RegionEnd text mark) ↔
      OpensWithRegionEnd text start stop := by
  unfold OpensWithRegionEnd
  refine exists_congr fun mark => and_congr_right fun hle => and_congr_right fun hlt => ?_
  have hwords : startsRegionEnd (text.drop mark) = true ↔
      StartsWithWord "#endif".toList (text.drop mark) ∨
        StartsWithWord "#endregion".toList (text.drop mark) := by
    rw [startsRegionEnd_iff]
    simp [regionEndDirectives]
  rw [← lineBefore_eq_extract h hle hlt, ← hwords]
  constructor
  · rintro ⟨hcode, hdirective, hfirst⟩
    have hhash := head?_of_startsRegionEnd hdirective
    rw [List.head?_drop] at hhash
    exact ⟨hfirst, hcode, hhash, hdirective⟩
  · rintro ⟨hfirst, hcode, _, hdirective⟩
    exact ⟨hcode, hdirective, hfirst⟩

/-- A line is marked if it is of one of the two kinds. -/
theorem exists_marksLine_iff (h : IsLine text start stop) :
    (∃ mark, start ≤ mark ∧ mark < stop ∧ MarksLine text mark) ↔
      HoldsBlockEnd text start stop ∨ OpensWithRegionEnd text start stop := by
  rw [← exists_blockEnd_iff, ← exists_regionEnd_iff h, ← exists_or]
  refine exists_congr fun mark => ?_
  rw [MarksLine, and_or_left, and_or_left]

end Line

/-- The end of a marked line is the end of a line of one of the two kinds. -/
theorem exists_markedLine_iff (text : List Char) (p : Nat) :
    (∃ mark, MarksLine text mark ∧ LineEnd text mark p) ↔
      ∃ start, IsLine text start p ∧
        (HoldsBlockEnd text start p ∨ OpensWithRegionEnd text start p) := by
  constructor
  · rintro ⟨mark, hmark, hend⟩
    rcases hend.exists_isLine with ⟨start, hle, hline⟩
    exact ⟨start, hline, (exists_marksLine_iff hline).mp ⟨mark, hle, hend.lt, hmark⟩⟩
  · rintro ⟨start, hline, hkind⟩
    rcases (exists_marksLine_iff hline).mpr hkind with ⟨mark, hle, hlt, hmark⟩
    exact ⟨mark, hmark, hline.lineEnd hle hlt⟩

/-- The safe splits of a text ascend, and they are its two ends and the offsets
between them at which a line ends that holds the brace ending the last open
block, or that opens with a directive ending a region. -/
theorem safeSplits_are_line_ends (content : String) :
    let text := content.toList
    (safeSplits text).Pairwise (· < ·) ∧
      ∀ p, p ∈ safeSplits text ↔ p = 0 ∨ p = text.length ∨
        p < text.length ∧ text[p - 1]? = some '\n' ∧ ∃ start, IsLine text start p ∧
          (HoldsBlockEnd text start p ∨ OpensWithRegionEnd text start p) := by
  intro text
  refine ⟨pairwise_safeSplits text, fun p => ?_⟩
  rw [mem_safeSplits_iff, exists_markedLine_iff]
  refine or_congr_right (or_congr_right (and_congr_right fun _ => ?_))
  constructor
  · rintro ⟨start, hline, hkind⟩
    exact ⟨hline.ends.newline, start, hline, hkind⟩
  · rintro ⟨_, start, hline, hkind⟩
    exact ⟨start, hline, hkind⟩

end Chunking
