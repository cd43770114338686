import Chunking.Code.Select

/-!
# The selected split

Which candidate a chunk ends at, said without the search for it. `Selected`
gives the three cases: the candidate of the window that is nearest to the
preferred end, the first one after an empty window, and the end of the text.

The search works with offsets that stop at the largest 64-bit size, and
`CodeOptions.exactWindow` does not. As long as the text has no more characters
than that, no candidate can tell the two apart. An offset that was cut off is
the largest size itself, and the only candidate that could lie there is the
end of the text, which is the answer in both.

## Main definitions

* `CodeOptions.leastLength`: The least length of a chunk that is not the last.
* `CodeOptions.exactWindow`: The window for a chunk over unbounded offsets.
* `NoFarther`: Which of two candidates is preferred.
* `Selected`: The split that a window asks for.

## Theorems

* `mem_of_nearest`: The search among candidates keeps one of them.
* `noFarther_of_nearest`: It keeps the one that is preferred to all.
* `selectSplit_bounds`: A split lies after the start and in the text.
* `selected_window`: The search finds the split that its window asks for.
* `Selected.congr`: What decides which split a window asks for.
* `Selected.exact`: Cutting the window off makes no difference.
* `selected_exactWindow`: The search finds the split that the exact window asks
  for.
* `Selected.bounds`: The selected split lies after the start and in the text.
* `Selected.empty_of_highest_lt`: What it means to reach past the window.
-/

namespace Chunking

namespace CodeOptions

/-- The preferred length of a chunk, which is at least one. -/
def target (options : CodeOptions) : Nat :=
  max options.targetSize.toNat 1

/-- The least length of a chunk that is not the last one. -/
def leastLength (options : CodeOptions) : Nat :=
  max 1 (max options.minChunkSize.toNat (options.target - options.margin.toNat))

/-- The window for the chunk that starts at an offset, over unbounded
offsets. -/
def exactWindow (options : CodeOptions) (start : Nat) : SplitWindow where
  lowest := start + options.leastLength
  ideal := start + options.target
  highest := start + options.target + options.margin.toNat

theorem leastLength_pos (options : CodeOptions) : 0 < options.leastLength := by
  rw [leastLength]
  omega

/-- The window of the search is the exact one with its offsets cut off. -/
theorem window_eq (options : CodeOptions) (start : Nat) :
    options.window start =
      ⟨min (start + options.leastLength) maxSize, min (start + options.target) maxSize,
        min (min (start + options.target) maxSize + options.margin.toNat) maxSize⟩ := by
  have hleast : max (max options.minChunkSize.toNat 1)
      (max options.targetSize.toNat 1 - options.margin.toNat) = options.leastLength := by
    rw [leastLength, target]
    omega
  rw [window, hleast]
  rfl

end CodeOptions

/-- Of two candidates, the one that is preferred: the nearer one, or the first
if they are equally near. -/
def NoFarther (ideal p q : Nat) : Prop :=
  distance p ideal < distance q ideal ∨ distance p ideal = distance q ideal ∧ p ≤ q

/-- The split that a window asks for among candidates, in a text of `length`
characters. -/
inductive Selected (candidates : List Nat) (window : SplitWindow) (length : Nat) :
    Nat → Prop where
  /-- The candidate in the window that is nearest to its ideal, the first one
  of those equally near. -/
  | inside {p : Nat} (hmem : p ∈ candidates) (hlow : window.lowest ≤ p)
      (hhigh : p ≤ window.highest)
      (hbest : ∀ q ∈ candidates, window.lowest ≤ q → q ≤ window.highest →
        NoFarther window.ideal p q) :
      Selected candidates window length p
  /-- The first candidate after a window without one. -/
  | after {p : Nat} (hmem : p ∈ candidates) (hlow : window.lowest ≤ p)
      (hempty : ∀ q ∈ candidates, window.lowest ≤ q → window.highest < q)
      (hfirst : ∀ q ∈ candidates, window.lowest ≤ q → p ≤ q) :
      Selected candidates window length p
  /-- The end of the text where no candidate is left. -/
  | rest (hnone : ∀ q ∈ candidates, q < window.lowest) :
      Selected candidates window length length

/-- In ascending order, what is left after those below a bound are the others. -/
theorem dropWhile_lt_eq_filter {l : List Nat} (h : l.Pairwise (· ≤ ·)) (bound : Nat) :
    l.dropWhile (· < bound) = l.filter (bound ≤ ·) := by
  induction l with
  | nil => rfl
  | cons a l ih =>
      rw [List.pairwise_cons] at h
      by_cases ha : a < bound
      · rw [List.dropWhile_cons_of_pos (by simpa using ha), ih h.2,
          List.filter_cons_of_neg (by simpa using ha)]
      · have hall : ∀ q ∈ a :: l, decide (bound ≤ q) = true := by
          intro q hq
          rcases List.mem_cons.mp hq with rfl | hq
          · simpa using ha
          · have := h.1 q hq
            simp only [decide_eq_true_eq]
            omega
        rw [List.dropWhile_cons_of_neg (by simpa using ha), List.filter_eq_self.mpr hall]

theorem dropWhile_le_eq_filter {l : List Nat} (h : l.Pairwise (· ≤ ·)) (bound : Nat) :
    l.dropWhile (· ≤ bound) = l.filter (bound < ·) := by
  have hnext : (fun p : Nat => decide (p ≤ bound)) = fun p => decide (p < bound + 1) := by
    funext p
    exact decide_eq_decide.mpr Nat.lt_succ_iff.symm
  rw [hnext, dropWhile_lt_eq_filter h]
  rfl

/-- In ascending order, those up to a bound come first. -/
theorem takeWhile_le_eq_filter {l : List Nat} (h : l.Pairwise (· ≤ ·)) (bound : Nat) :
    l.takeWhile (· ≤ bound) = l.filter (· ≤ bound) := by
  induction l with
  | nil => rfl
  | cons a l ih =>
      rw [List.pairwise_cons] at h
      by_cases ha : a ≤ bound
      · rw [List.takeWhile_cons_of_pos (by simpa using ha), ih h.2,
          List.filter_cons_of_pos (by simpa using ha)]
      · have hall : ∀ q ∈ a :: l, ¬decide (q ≤ bound) = true := by
          intro q hq
          rcases List.mem_cons.mp hq with rfl | hq
          · simpa using ha
          · have := h.1 q hq
            simp only [decide_eq_true_eq]
            omega
        rw [List.takeWhile_cons_of_neg (by simpa using ha), List.filter_eq_nil_iff.mpr hall]

-- To be preferred is an order by distance first and place second.
theorem NoFarther.trans {ideal p q r : Nat} (hpq : NoFarther ideal p q)
    (hqr : NoFarther ideal q r) : NoFarther ideal p r := by
  unfold NoFarther at *
  omega

/-- Up to the ideal, the later candidate is preferred. -/
theorem noFarther_iff_of_le {ideal p q : Nat} (hp : p ≤ ideal) (hq : q ≤ ideal) :
    NoFarther ideal p q ↔ q ≤ p := by
  simp only [NoFarther, distance, Nat.max_eq_right hp, Nat.max_eq_right hq, Nat.min_eq_left hp,
    Nat.min_eq_left hq]
  omega

/-- What the search keeps is one of the candidates. -/
theorem mem_of_nearest {ideal : Nat} {l : List Nat} {p : Nat} (h : nearest ideal l = some p) :
    p ∈ l := by
  cases l with
  | nil => exact absurd h (by simp [nearest])
  | cons best l =>
      rw [nearest, Option.some.injEq] at h
      induction l generalizing best with
      | nil => exact List.mem_singleton.mpr h.symm
      | cons other l ih =>
          rw [List.foldl_cons] at h
          split at h
          · exact List.mem_cons_of_mem _ (ih other h)
          · rcases List.mem_cons.mp (ih best h) with hp | hp
            · rw [hp]
              exact List.mem_cons_self
            · exact List.mem_cons_of_mem _ (List.mem_cons_of_mem _ hp)

/-- A candidate replaces the best one so far only if it is nearer, so of
candidates in ascending order the search keeps one that is no farther than
any. -/
theorem noFarther_of_nearest {ideal p : Nat} {l : List Nat} (hsorted : l.Pairwise (· ≤ ·))
    (h : nearest ideal l = some p) : ∀ q ∈ l, NoFarther ideal p q := by
  cases l with
  | nil => exact absurd h (by simp [nearest])
  | cons best l =>
      rw [nearest, Option.some.injEq] at h
      induction l generalizing best with
      | nil =>
          intro q hq
          rw [List.mem_singleton] at hq
          rw [← h, hq]
          exact Or.inr ⟨rfl, Nat.le_refl _⟩
      | cons other l ih =>
          rw [List.pairwise_cons, List.pairwise_cons] at hsorted
          rcases hsorted with ⟨hbest, hother, hl⟩
          rw [List.foldl_cons] at h
          intro q hq
          by_cases hnear : distance other ideal < distance best ideal
          · rw [if_pos hnear] at h
            have hmin := ih other (List.pairwise_cons.mpr ⟨hother, hl⟩) h
            rcases List.mem_cons.mp hq with rfl | hq
            · exact (hmin other List.mem_cons_self).trans (Or.inl hnear)
            · exact hmin q hq
          · rw [if_neg hnear] at h
            have hmin := ih best
              (List.pairwise_cons.mpr ⟨fun q hq => hbest q (List.mem_cons_of_mem _ hq), hl⟩) h
            -- The best one so far comes first, so it stays where the two are equally near.
            have hkeep : NoFarther ideal best other := by
              have := hbest other List.mem_cons_self
              unfold NoFarther
              omega
            rcases List.mem_cons.mp hq with rfl | hq
            · exact hmin q List.mem_cons_self
            · rcases List.mem_cons.mp hq with rfl | hq
              · exact (hmin best List.mem_cons_self).trans hkeep
              · exact hmin q (List.mem_cons_of_mem _ hq)

theorem nearest_eq_none_iff (ideal : Nat) (l : List Nat) : nearest ideal l = none ↔ l = [] := by
  cases l <;> simp [nearest]

/-- A split is a candidate or the end of the text. -/
theorem selectSplit_mem (options : CodeOptions) (candidates : List Nat) (start length : Nat) :
    selectSplit options candidates start length ∈ candidates ∨
      selectSplit options candidates start length = length := by
  have hdrop : ∀ p ∈ candidates.dropWhile
      (fun p => p ≤ start || p < (options.window start).lowest), p ∈ candidates :=
    fun p hp => (List.dropWhile_suffix _).subset hp
  simp only [selectSplit]
  split
  case _ p hp => exact Or.inl (hdrop p ((List.takeWhile_prefix _).subset (mem_of_nearest hp)))
  case _ hnone =>
    rcases hlater : candidates.dropWhile
      (fun p => p ≤ start || p < (options.window start).lowest) with _ | ⟨p, later⟩
    · exact Or.inr rfl
    · rw [hlater] at hdrop
      exact Or.inl (hdrop p List.mem_cons_self)

/-- The selected split lies after the start and in the text, however long that is. -/
theorem selectSplit_bounds (options : CodeOptions) {candidates : List Nat} {start length : Nat}
    (hsorted : candidates.Pairwise (· ≤ ·)) (hle : ∀ p ∈ candidates, p ≤ length)
    (hstart : start < length) :
    start < selectSplit options candidates start length ∧
      selectSplit options candidates start length ≤ length := by
  -- Without the candidates up to the start, which make no difference, all are later.
  rw [← selectSplit_dropWhile options candidates start start length (Nat.le_refl _),
    dropWhile_le_eq_filter hsorted]
  rcases selectSplit_mem options (candidates.filter (start < ·)) start length with hmem | hend
  · rw [List.mem_filter, decide_eq_true_eq] at hmem
    exact ⟨hmem.2, hle _ hmem.1⟩
  · rw [hend]
    exact ⟨hstart, Nat.le_refl _⟩

/-- The search finds the split that its window asks for. -/
theorem selected_window (options : CodeOptions) {candidates : List Nat} (start length : Nat)
    (hsorted : candidates.Pairwise (· ≤ ·)) (hstart : start < (options.window start).lowest) :
    Selected candidates (options.window start) length
      (selectSplit options candidates start length) := by
  generalize hwindow : options.window start = window at hstart ⊢
  -- The window lies after the start, so its lower end is the only bound.
  have hpast : (fun p => decide (p ≤ start) || decide (p < window.lowest)) =
      fun p => decide (p < window.lowest) := by
    funext p
    rw [← Bool.decide_or, decide_eq_decide]
    omega
  have hlater := dropWhile_lt_eq_filter hsorted window.lowest
  have hsorted' := hsorted.filter fun p => decide (window.lowest ≤ p)
  have hinside := takeWhile_le_eq_filter hsorted' window.highest
  rw [selectSplit, hwindow, hpast]
  simp only [hlater, hinside]
  split
  case _ p hp =>
    have hmem := mem_of_nearest hp
    have hbest := noFarther_of_nearest (hsorted'.filter _) hp
    simp only [List.mem_filter, decide_eq_true_eq] at hmem hbest
    exact Selected.inside hmem.1.1 hmem.1.2 hmem.2 fun q hq hlow hhigh =>
      hbest q ⟨⟨hq, hlow⟩, hhigh⟩
  case _ hnone =>
    rw [nearest_eq_none_iff, List.filter_eq_nil_iff] at hnone
    simp only [List.mem_filter, decide_eq_true_eq] at hnone
    -- The window holds no candidate, so the first later one is asked for.
    rcases hfilter : candidates.filter fun p => decide (window.lowest ≤ p) with _ | ⟨p, later⟩
    · rw [List.filter_eq_nil_iff] at hfilter
      simp only [decide_eq_true_eq] at hfilter
      exact Selected.rest fun q hq => Nat.lt_of_not_le (hfilter q hq)
    · rw [hfilter, List.pairwise_cons] at hsorted'
      have hmem : ∀ q, q ∈ p :: later ↔ q ∈ candidates ∧ window.lowest ≤ q := by
        intro q
        rw [← hfilter, List.mem_filter, decide_eq_true_eq]
      have hp := (hmem p).mp List.mem_cons_self
      refine Selected.after hp.1 hp.2 (fun q hq hlow => ?_) fun q hq hlow => ?_
      · exact Nat.lt_of_not_le (hnone q ⟨hq, hlow⟩)
      · rcases List.mem_cons.mp ((hmem q).mpr ⟨hq, hlow⟩) with rfl | hq
        · exact Nat.le_refl _
        · exact hsorted'.1 q hq

/-- What a window asks for is decided by which candidates are in it, which lie
past it, and which it prefers. -/
theorem Selected.congr {candidates : List Nat} {window other : SplitWindow} {length split : Nat}
    (h : Selected candidates window length split)
    (hlowest : ∀ q ∈ candidates, window.lowest ≤ q ↔ other.lowest ≤ q)
    (hhighest : ∀ q ∈ candidates, q ≤ window.highest ↔ q ≤ other.highest)
    (hideal : ∀ p ∈ candidates, ∀ q ∈ candidates,
      NoFarther window.ideal p q → NoFarther other.ideal p q) :
    Selected candidates other length split := by
  cases h with
  | inside hmem hlow hhigh hbest =>
      refine Selected.inside hmem ((hlowest _ hmem).mp hlow) ((hhighest _ hmem).mp hhigh) ?_
      intro q hq hlow' hhigh'
      exact hideal _ hmem q hq (hbest q hq ((hlowest q hq).mpr hlow') ((hhighest q hq).mpr hhigh'))
  | after hmem hlow hempty hfirst =>
      refine Selected.after hmem ((hlowest _ hmem).mp hlow) ?_ ?_
      · intro q hq hlow'
        have hbeyond := hempty q hq ((hlowest q hq).mpr hlow')
        have := hhighest q hq
        omega
      · intro q hq hlow'
        exact hfirst q hq ((hlowest q hq).mpr hlow')
  | rest hnone =>
      refine Selected.rest fun q hq => ?_
      have hbefore := hnone q hq
      have := hlowest q hq
      omega

/-- Cutting the window off at the largest size makes no difference in a text
that is no longer than that. -/
theorem Selected.exact {options : CodeOptions} {candidates : List Nat} {start length split : Nat}
    (h : Selected candidates (options.window start) length split)
    (hle : ∀ p ∈ candidates, p ≤ length) (hsize : length ≤ maxSize) :
    Selected candidates (options.exactWindow start) length split := by
  rw [CodeOptions.window_eq] at h
  by_cases hcut : start + options.leastLength ≤ maxSize
  · -- The lower end is exact, and what is cut off above lies past the text.
    refine h.congr (fun q hq => ?_) (fun q hq => ?_) (fun p hp q hq hpq => ?_)
    · simp only [CodeOptions.exactWindow]
      omega
    · have := hle q hq
      simp only [CodeOptions.exactWindow]
      omega
    · have hp' := hle p hp
      have hq' := hle q hq
      by_cases hideal : start + options.target ≤ maxSize
      · rwa [Nat.min_eq_left hideal] at hpq
      · rw [noFarther_iff_of_le (by simp only; omega) (by simp only; omega)] at hpq
        refine (noFarther_iff_of_le ?_ ?_).mpr hpq
        · simp only [CodeOptions.exactWindow]
          omega
        · simp only [CodeOptions.exactWindow]
          omega
  · -- The lower end is cut off, so the window asks for the end of the text.
    have hnone : ∀ q ∈ candidates, q < (options.exactWindow start).lowest := by
      intro q hq
      have := hle q hq
      simp only [CodeOptions.exactWindow]
      omega
    have hend : split = length := by
      cases h with
      | inside hmem hlow hhigh hbest =>
          have := hle _ hmem
          simp only at hlow
          omega
      | after hmem hlow hempty hfirst =>
          have := hle _ hmem
          simp only at hlow
          omega
      | rest hnone => rfl
    rw [hend]
    exact Selected.rest hnone

/-- The search finds the split that the exact window asks for. -/
theorem selected_exactWindow (options : CodeOptions) {candidates : List Nat} {start length : Nat}
    (hsorted : candidates.Pairwise (· ≤ ·)) (hle : ∀ p ∈ candidates, p ≤ length)
    (hstart : start < length) (hsize : length ≤ maxSize) :
    Selected candidates (options.exactWindow start) length
      (selectSplit options candidates start length) := by
  have hleast := options.leastLength_pos
  refine (selected_window options start length hsorted ?_).exact hle hsize
  rw [CodeOptions.window_eq]
  simp only
  omega

/-- The selected split lies after the start and in the text, and unless it is
the end of the text it is a candidate that leaves the chunk long enough. -/
theorem Selected.bounds {options : CodeOptions} {candidates : List Nat} {start length split : Nat}
    (h : Selected candidates (options.exactWindow start) length split)
    (hle : ∀ p ∈ candidates, p ≤ length) (hstart : start < length) :
    start < split ∧ split ≤ length ∧
      (split ≠ length → split ∈ candidates ∧ start + options.leastLength ≤ split) := by
  have hleast := options.leastLength_pos
  cases h with
  | inside hmem hlow hhigh hbest =>
      simp only [CodeOptions.exactWindow] at hlow
      exact ⟨by omega, hle _ hmem, fun _ => ⟨hmem, hlow⟩⟩
  | after hmem hlow hempty hfirst =>
      simp only [CodeOptions.exactWindow] at hlow
      exact ⟨by omega, hle _ hmem, fun _ => ⟨hmem, hlow⟩⟩
  | rest hnone => exact ⟨hstart, Nat.le_refl _, fun hne => absurd rfl hne⟩

/-- A chunk reaches past its window only over a stretch without candidates. -/
theorem Selected.empty_of_highest_lt {options : CodeOptions} {candidates : List Nat}
    {start length split : Nat}
    (h : Selected candidates (options.exactWindow start) length split)
    (hlong : (options.exactWindow start).highest < split) :
    ∀ p ∈ candidates, start + options.leastLength ≤ p →
      (options.exactWindow start).highest < p ∧ split ≤ p := by
  intro p hp hlow
  cases h with
  | inside hmem hlow' hhigh hbest => omega
  | after hmem hlow' hempty hfirst => exact ⟨hempty p hp hlow, hfirst p hp hlow⟩
  | rest hnone =>
      have := hnone p hp
      simp only [CodeOptions.exactWindow] at this
      omega

end Chunking
