import Chunking.Proofs.MarkedLines

/-!
# Marks of joined texts

Where two texts are joined at the end of a line, neither is read differently
for the other, and so the safe splits of the whole can be told from its parts.

The first part is simple. Whether a place marks its line is decided before the
line ends: the run needs one character more than it has read, and a directive
is a word of the line. So what stands before a safe split is enough to tell
that it is one.

The second part starts where the scan of the first one left it, and of all the
scan has seen only two things are left there: the state, and the depth. That
nothing but white space stands on the line so far is known at the start of any
line, and no mark before can reach past the end of its own line. `ScannedAlike`
says of two texts that they leave the scan alike, and then whatever follows
them has its safe splits at the same places.

## Main definitions

* `ScannedAlike`: Two texts after which a scan goes on alike.

## Theorems

* `marksLine_congr`: What decides whether a place marks its line.
* `marksLine_append_iff`: A text that follows changes no mark.
* `mem_safeSplits_iff_take`: A safe split is decided by what stands before it.
* `mem_safeSplits_iff_of_take_eq`: What two texts share decides its own splits.
* `ScannedAlike.marksLine_iff`: Marks after two texts that are scanned alike.
* `ScannedAlike.mem_safeSplits_iff`: Safe splits after two such texts.
-/

namespace Chunking

open Text

-- The five things that decide it may be taken from different texts.
theorem marksLine_congr {text other : List Char} {mark place : Nat}
    (hstate : stateAt? text mark = stateAt? other place)
    (hdepth : depthBefore text mark = depthBefore other place)
    (hchar : text[mark]? = other[place]?)
    (hdirective : startsRegionEnd (text.drop mark) = startsRegionEnd (other.drop place))
    (hline : lineBefore text mark = lineBefore other place) :
    MarksLine text mark ↔ MarksLine other place := by
  have hblock : BlockEnd text mark ↔ BlockEnd other place :=
    ⟨fun ⟨hcode, hbrace, hone⟩ => ⟨hstate ▸ hcode, hchar ▸ hbrace, hdepth ▸ hone⟩,
      fun ⟨hcode, hbrace, hone⟩ => ⟨hstate ▸ hcode, hchar ▸ hbrace, hdepth ▸ hone⟩⟩
  have hregion : RegionEnd text mark ↔ RegionEnd other place :=
    ⟨fun ⟨hcode, hword, hfirst⟩ => ⟨hstate ▸ hcode, hdirective ▸ hword, hline ▸ hfirst⟩,
      fun ⟨hcode, hword, hfirst⟩ => ⟨hstate ▸ hcode, hdirective ▸ hword, hline ▸ hfirst⟩⟩
  rw [MarksLine, MarksLine, hblock, hregion]

section Before

variable {before : List Char} (after : List Char) {mark stop : Nat}

-- A word that went on past the end of a line would hold its newline.
theorem length_lt_of_isPrefix_append {word : List Char} (hword : '\n' ∉ word)
    (h : EndsLine before) (hne : before ≠ []) (hstarts : word <+: before ++ after) :
    word.length < before.length := by
  refine Nat.lt_of_not_le fun hlong => ?_
  have hbefore : before <+: word :=
    List.prefix_of_prefix_length_le (List.prefix_append before after) hstarts (by omega)
  refine hword (hbefore.subset ?_)
  rcases hlast : before.getLast? with _ | c
  · exact absurd (List.getLast?_eq_none_iff.mp hlast) hne
  · rw [← h c hlast]
    exact List.mem_of_getLast? hlast

theorem startsRegionEnd_append (h : EndsLine before) (hne : before ≠ []) :
    startsRegionEnd (before ++ after) = startsRegionEnd before := by
  have hnewline : ∀ word ∈ regionEndDirectives, '\n' ∉ word := by
    decide
  rw [Bool.eq_iff_iff, startsRegionEnd_iff, startsRegionEnd_iff]
  -- Each directive is looked for by itself, and so is the character behind it.
  refine exists_congr fun word => and_congr_right fun hmem => ?_
  have hlt : word <+: before ++ after → word.length < before.length :=
    length_lt_of_isPrefix_append after (hnewline word hmem) h hne
  constructor
  · rintro ⟨hword, hnext⟩
    rw [List.getElem?_append_left (hlt hword)] at hnext
    exact ⟨List.prefix_of_prefix_length_le hword (List.prefix_append before after)
      (Nat.le_of_lt (hlt hword)), hnext⟩
  · rintro ⟨hword, hnext⟩
    have hword' := hword.trans (List.prefix_append before after)
    refine ⟨hword', ?_⟩
    rwa [List.getElem?_append_left (hlt hword')]

theorem lineBefore_append (hle : mark ≤ before.length) :
    lineBefore (before ++ after) mark = lineBefore before mark := by
  rw [lineBefore, lineBefore, List.take_append_of_le_length hle]

/-- A text that follows the end of a line changes no mark before. -/
theorem marksLine_append_iff (h : EndsLine before) (hlt : mark < before.length) :
    MarksLine (before ++ after) mark ↔ MarksLine before mark := by
  have hne : before.drop mark ≠ [] := by
    rw [ne_eq, List.drop_eq_nil_iff]
    omega
  refine marksLine_congr (stateAt?_append_of_lt after h hlt)
    (depthBefore_append after h (Nat.le_of_lt hlt)) (List.getElem?_append_left hlt) ?_
    (lineBefore_append after (Nat.le_of_lt hlt))
  rw [List.drop_append_of_le_length (Nat.le_of_lt hlt)]
  exact startsRegionEnd_append after (h.drop mark) hne

-- The lines of the first text end where they do by themselves.
theorem lineEnd_append_iff (hle : stop ≤ before.length) :
    LineEnd (before ++ after) mark stop ↔ LineEnd before mark stop := by
  have hchar : ∀ i, i + 1 ≤ stop → (before ++ after)[i]? = before[i]? :=
    fun i hi => List.getElem?_append_left (by omega)
  constructor
  · rintro ⟨hlt, hnewline, hwithin⟩
    refine ⟨hlt, hchar (stop - 1) (by omega) ▸ hnewline, fun i hi hi' => ?_⟩
    rw [← hchar i (by omega)]
    exact hwithin i hi hi'
  · rintro ⟨hlt, hnewline, hwithin⟩
    refine ⟨hlt, (hchar (stop - 1) (by omega)).symm ▸ hnewline, fun i hi hi' => ?_⟩
    rw [hchar i (by omega)]
    exact hwithin i hi hi'

-- A line that starts in the first text does not reach into the second.
theorem LineEnd.le_of_lt (h : EndsLine before) (hlt : mark < before.length)
    (hend : LineEnd (before ++ after) mark stop) : stop ≤ before.length := by
  refine Nat.le_of_not_lt fun hbeyond => ?_
  have hlast : (before ++ after)[before.length - 1]? = some '\n' := by
    rw [List.getElem?_append_left (by omega), ← List.getLast?_eq_getElem?]
    rcases hlast : before.getLast? with _ | c
    · rw [List.getLast?_eq_none_iff.mp hlast, List.length_nil] at hlt
      exact absurd hlt (Nat.not_lt_zero mark)
    · rw [h c hlast]
  exact hend.within (before.length - 1) (by omega) (by omega) hlast

end Before

/-- Whether an offset inside a text is a safe split is decided by what stands
before it. -/
theorem mem_safeSplits_iff_take {text : List Char} {p : Nat} (hpos : 0 < p)
    (hlt : p < text.length) :
    p ∈ safeSplits text ↔ ∃ mark, MarksLine (text.take p) mark ∧ LineEnd (text.take p) mark p := by
  have hlength : (text.take p).length = p := List.length_take_of_le (Nat.le_of_lt hlt)
  have hend : ∀ mark, LineEnd text mark p ↔ LineEnd (text.take p) mark p := by
    intro mark
    have h : LineEnd (text.take p ++ text.drop p) mark p ↔ LineEnd (text.take p) mark p :=
      lineEnd_append_iff _ (Nat.le_of_eq hlength.symm)
    rwa [List.take_append_drop] at h
  have hmark : ∀ mark, LineEnd text mark p →
      (MarksLine text mark ↔ MarksLine (text.take p) mark) := by
    intro mark hline
    have h : MarksLine (text.take p ++ text.drop p) mark ↔ MarksLine (text.take p) mark :=
      marksLine_append_iff _ hline.endsLine (by rw [hlength]; exact hline.lt)
    rwa [List.take_append_drop] at h
  rw [mem_safeSplits_iff]
  constructor
  · rintro (hp | hp | ⟨_, mark, hm, hline⟩)
    · omega
    · omega
    · exact ⟨mark, (hmark mark hline).mp hm, (hend mark).mp hline⟩
  · rintro ⟨mark, hm, hline⟩
    have hline' := (hend mark).mpr hline
    exact Or.inr (Or.inr ⟨hlt, mark, (hmark mark hline').mpr hm, hline'⟩)

-- Texts that start alike start alike up to any earlier offset.
theorem take_eq_of_take_eq {text other : List Char} {n p : Nat} (h : text.take n = other.take n)
    (hp : p ≤ n) : text.take p = other.take p := by
  have := congrArg (List.take p) h
  rwa [List.take_take, List.take_take, Nat.min_eq_left hp] at this

/-- What two texts share decides its own safe splits. -/
theorem mem_safeSplits_iff_of_take_eq {text other : List Char} {n : Nat}
    (h : text.take n = other.take n) {p : Nat} (hp : p ≤ n) (htext : p < text.length)
    (hother : p < other.length) :
    p ∈ safeSplits text ↔ p ∈ safeSplits other := by
  by_cases hpos : 0 < p
  · rw [mem_safeSplits_iff_take hpos htext, mem_safeSplits_iff_take hpos hother,
      take_eq_of_take_eq h hp]
  · have hzero : p = 0 := by omega
    simp only [mem_safeSplits_iff, hzero, true_or]

section After

variable {before : List Char} (after : List Char)

-- The visits of the second text are those that the run from the end of the
-- first one makes there.
theorem stateAt?_append_add (h : EndsLine before) (offset : Nat) (state : ScanState) :
    stateAt? (before ++ after) (before.length + offset) = some state ↔
      ∃ visit ∈ visitsFrom (endState .code before) 0 after,
        visit.position = offset ∧ visit.state = state := by
  rw [stateAt?_eq_some_iff, visitsFrom_append _ _ _ _ h, visitsFrom_add]
  constructor
  · rintro ⟨visit, hmem, hposition, hstate⟩
    rcases List.mem_append.mp hmem with hmem | hmem
    · rcases List.mem_map.mp hmem with ⟨original, horiginal, rfl⟩
      have := position_of_mem_visitsFrom horiginal
      simp only [Visit.followedBy] at hposition
      omega
    · rcases List.mem_map.mp hmem with ⟨original, horiginal, rfl⟩
      simp only [Visit.shiftedBy] at hposition hstate
      exact ⟨original, horiginal, by omega, hstate⟩
  · rintro ⟨visit, hmem, hposition, hstate⟩
    refine ⟨visit.shiftedBy before.length,
      List.mem_append_right _ (List.mem_map_of_mem hmem), ?_, hstate⟩
    simp only [Visit.shiftedBy]
    omega

-- The depth in the second text is what the first one adds and what the run
-- from its end counts.
theorem depthBefore_append_add (h : EndsLine before) (offset : Nat) :
    depthBefore (before ++ after) (before.length + offset) =
      netBraces before + braceBalance ((visitsFrom (endState .code before) 0 after).filter
        fun visit => visit.position < offset) := by
  rw [depthBefore, visitsFrom_append _ _ _ _ h, visitsFrom_add, List.filter_append,
    braceBalance_append]
  have hfirst : ((visitsFrom .code 0 before).map fun visit => visit.followedBy after).filter
      (fun visit => visit.position < before.length + offset) =
      (visitsFrom .code 0 before).map fun visit => visit.followedBy after := by
    refine List.filter_eq_self.mpr fun visit hmem => ?_
    rcases List.mem_map.mp hmem with ⟨original, horiginal, rfl⟩
    have := position_of_mem_visitsFrom horiginal
    refine decide_eq_true ?_
    change original.position < before.length + offset
    omega
  have hsecond : (fun visit => decide (visit.position < before.length + offset)) ∘
      (fun visit : Visit => visit.shiftedBy before.length) =
      fun visit => decide (visit.position < offset) := by
    funext visit
    refine decide_eq_decide.mpr ?_
    change visit.position + before.length < before.length + offset ↔ visit.position < offset
    omega
  rw [hfirst, List.filter_map, hsecond, netBraces]
  congr 1
  · exact braceBalance_map _ _ fun visit hmem => step_followedBy_of_mem h after visit hmem
  · exact braceBalance_map _ _ fun visit _ => visit.step_shiftedBy before.length

theorem lineBefore_append_add (h : EndsLine before) (offset : Nat) :
    lineBefore (before ++ after) (before.length + offset) = lineBefore after offset := by
  rw [lineBefore, lineBefore, List.take_length_add_append, List.reverse_append,
    List.takeWhile_append]
  -- The line starts in the second text, behind the newline of the first.
  have hstart : before.reverse.takeWhile (· != '\n') = [] := by
    rcases hlast : before.getLast? with _ | c
    · rw [List.getLast?_eq_none_iff.mp hlast]
      rfl
    · rw [← List.head?_reverse] at hlast
      rcases List.head?_eq_some_iff.mp hlast with ⟨rest, hrest⟩
      rw [List.head?_reverse] at hlast
      rw [hrest, h c hlast]
      rfl
  split
  · next hall => rw [hstart, List.append_nil, (List.takeWhile_prefix _).eq_of_length hall]
  · rfl

-- The lines of the second text end where they do by themselves.
theorem lineEnd_append_add_iff {mark stop : Nat} :
    LineEnd (before ++ after) (before.length + mark) (before.length + stop) ↔
      LineEnd after mark stop := by
  have hchar : ∀ i, (before ++ after)[before.length + i]? = after[i]? := by
    intro i
    rw [List.getElem?_append_right (Nat.le_add_right _ _), Nat.add_sub_cancel_left]
  constructor
  · rintro ⟨hlt, hnewline, hwithin⟩
    have hlast : before.length + stop - 1 = before.length + (stop - 1) := by
      omega
    rw [hlast, hchar] at hnewline
    refine ⟨by omega, hnewline, fun i hi hi' => ?_⟩
    rw [← hchar]
    exact hwithin _ (by omega) (by omega)
  · rintro ⟨hlt, hnewline, hwithin⟩
    have hlast : before.length + stop - 1 = before.length + (stop - 1) := by
      omega
    refine ⟨by omega, by rw [hlast, hchar, hnewline], fun i hi hi' => ?_⟩
    rcases Nat.exists_eq_add_of_le (Nat.le_trans (Nat.le_add_right _ _) hi) with ⟨j, rfl⟩
    rw [hchar]
    exact hwithin j (by omega) (by omega)

end After

/-- Two texts after which a scan goes on alike: both end with a line, in one
state and at one depth. -/
structure ScannedAlike (before other : List Char) : Prop where
  endsLine : EndsLine before
  other_endsLine : EndsLine other
  state : endState .code before = endState .code other
  depth : netBraces before = netBraces other

namespace ScannedAlike

variable {before other : List Char}

theorem symm (h : ScannedAlike before other) : ScannedAlike other before :=
  ⟨h.other_endsLine, h.endsLine, h.state.symm, h.depth.symm⟩

theorem stateAt?_eq (h : ScannedAlike before other) (after : List Char) (offset : Nat) :
    stateAt? (before ++ after) (before.length + offset) =
      stateAt? (other ++ after) (other.length + offset) := by
  refine Option.ext fun state => ?_
  rw [stateAt?_append_add after h.endsLine, stateAt?_append_add after h.other_endsLine, h.state]

theorem depthBefore_eq (h : ScannedAlike before other) (after : List Char) (offset : Nat) :
    depthBefore (before ++ after) (before.length + offset) =
      depthBefore (other ++ after) (other.length + offset) := by
  rw [depthBefore_append_add after h.endsLine, depthBefore_append_add after h.other_endsLine,
    h.state, h.depth]

/-- Whatever follows two texts that are scanned alike has its marks at the same
places. -/
theorem marksLine_iff (h : ScannedAlike before other) (after : List Char) (mark : Nat) :
    MarksLine (before ++ after) (before.length + mark) ↔
      MarksLine (other ++ after) (other.length + mark) := by
  refine marksLine_congr (h.stateAt?_eq after mark) (h.depthBefore_eq after mark) ?_ ?_ ?_
  · rw [List.getElem?_append_right (Nat.le_add_right _ _),
      List.getElem?_append_right (Nat.le_add_right _ _), Nat.add_sub_cancel_left,
      Nat.add_sub_cancel_left]
  · rw [List.drop_length_add_append, List.drop_length_add_append]
  · rw [lineBefore_append_add after h.endsLine, lineBefore_append_add after h.other_endsLine]

-- One direction suffices, since texts are scanned alike both ways.
theorem mem_safeSplits (h : ScannedAlike before other) {after : List Char} {p : Nat}
    (hpos : 0 < p) (hp : before.length + p ∈ safeSplits (before ++ after)) :
    other.length + p ∈ safeSplits (other ++ after) := by
  rw [mem_safeSplits_iff] at hp ⊢
  simp only [List.length_append] at hp ⊢
  rcases hp with hp | hp | ⟨hlt, mark, hmark, hend⟩
  · omega
  · omega
  · -- The mark lies in the second text, because lines end with the first.
    have hafter : before.length ≤ mark := by
      refine Nat.le_of_not_lt fun hbefore => ?_
      have := LineEnd.le_of_lt after h.endsLine (by omega) hend
      omega
    rcases Nat.exists_eq_add_of_le hafter with ⟨place, rfl⟩
    refine Or.inr (Or.inr ⟨by omega, other.length + place, ?_, ?_⟩)
    · exact (h.marksLine_iff after place).mp hmark
    · exact (lineEnd_append_add_iff after).mpr ((lineEnd_append_add_iff after).mp hend)

/-- Whatever follows two texts that are scanned alike has its safe splits at
the same places. -/
theorem mem_safeSplits_iff (h : ScannedAlike before other) (after : List Char) {p : Nat}
    (hpos : 0 < p) :
    before.length + p ∈ safeSplits (before ++ after) ↔
      other.length + p ∈ safeSplits (other ++ after) :=
  ⟨h.mem_safeSplits hpos, h.symm.mem_safeSplits hpos⟩

end ScannedAlike

end Chunking
