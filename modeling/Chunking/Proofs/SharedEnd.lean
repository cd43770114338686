import Chunking.Proofs.JoinedMarks
import Chunking.Proofs.Placement
import Chunking.Proofs.Reused
import Mathlib.Data.List.Sort

/-!
# Texts that end alike

An edit changes the chunks that follow it as well, since each chunk starts
where the one before it ends. But as soon as a chunk of the new text ends at
the place where one of the old text ended, in the part that both share, the
chunks after it are the old ones again. The scan has to arrive there alike: in
one state, and at one depth.

The place is a safe split inside the text, so a line ends there, and the scan
goes on alike in both texts. The candidates that are left then lie at the same
distances. What remains to be shown is that choosing among them does not
depend on where the text starts. The search works with offsets that stop at
the largest 64-bit size, and there moving a text could tell; but `Selected` is
about unbounded offsets, and the search agrees with it in every text that is
no longer than that.

## Main definitions

* `Span.shiftedBy`: The same span where the text starts later.
* `laterSplits`: The safe splits of a text that follows another.

## Theorems

* `Selected.unique`: A window asks for one split only.
* `selectSplit_add`: Where a text starts moves what is selected.
* `codeSpansFrom_add`: Where a text starts moves its spans.
* `drop_codeSpansFrom`: The spans after a cut are those made from there.
* `drop_codeSpans`: The spans after a cut at the end of a line.
* `chunkCode_resynchronises`: The chunks after a common cut are the same ones.
-/

namespace Chunking

/-- The same span where the text starts at a later offset. -/
def Span.shiftedBy (span : Span) (offset : Nat) : Span :=
  ⟨span.start + offset, span.stop + offset⟩

theorem Span.cut_shiftedBy (before after : List Char) (span : Span) :
    (span.shiftedBy before.length).cut (before ++ after) = span.cut after := by
  have hlength : span.stop + before.length - (span.start + before.length) =
      span.stop - span.start := by
    omega
  rw [Span.cut, Span.cut, List.extract_eq_take_drop, List.extract_eq_take_drop, Span.shiftedBy,
    hlength, Nat.add_comm span.start, List.drop_length_add_append]

section Selected

variable {candidates : List Nat} {length : Nat}

-- Of two candidates that are both preferred to each other, there is one.
theorem NoFarther.antisymm {ideal p q : Nat} (hpq : NoFarther ideal p q)
    (hqp : NoFarther ideal q p) : p = q := by
  unfold NoFarther at *
  omega

/-- A window asks for one split only. -/
theorem Selected.unique {window : SplitWindow} {p q : Nat}
    (hp : Selected candidates window length p) (hq : Selected candidates window length q) :
    p = q := by
  cases hp with
  | inside hmem hlow hhigh hbest =>
      cases hq with
      | inside hmem' hlow' hhigh' hbest' =>
          exact (hbest q hmem' hlow' hhigh').antisymm (hbest' p hmem hlow hhigh)
      | after hmem' hlow' hempty' hfirst' =>
          exact absurd (hempty' p hmem hlow) (Nat.not_lt_of_le hhigh)
      | rest hnone => exact absurd (hnone p hmem) (Nat.not_lt_of_le hlow)
  | after hmem hlow hempty hfirst =>
      cases hq with
      | inside hmem' hlow' hhigh' hbest' =>
          exact absurd (hempty q hmem' hlow') (Nat.not_lt_of_le hhigh')
      | after hmem' hlow' hempty' hfirst' =>
          exact Nat.le_antisymm (hfirst q hmem' hlow') (hfirst' p hmem hlow)
      | rest hnone => exact absurd (hnone p hmem) (Nat.not_lt_of_le hlow)
  | rest hnone =>
      cases hq with
      | inside hmem' hlow' hhigh' hbest' =>
          exact absurd (hnone q hmem') (Nat.not_lt_of_le hlow')
      | after hmem' hlow' hempty' hfirst' =>
          exact absurd (hnone q hmem') (Nat.not_lt_of_le hlow')
      | rest hnone' => rfl

theorem distance_add (a b offset : Nat) : distance (a + offset) (b + offset) = distance a b := by
  unfold distance
  omega

-- What the exact window asks for moves with the text.
theorem Selected.add {options : CodeOptions} {start split : Nat}
    (h : Selected candidates (options.exactWindow start) length split) (offset : Nat) :
    Selected (candidates.map (· + offset)) (options.exactWindow (start + offset))
      (length + offset) (split + offset) := by
  have hlowest : (options.exactWindow (start + offset)).lowest =
      (options.exactWindow start).lowest + offset := by
    simp only [CodeOptions.exactWindow]
    omega
  have hideal : (options.exactWindow (start + offset)).ideal =
      (options.exactWindow start).ideal + offset := by
    simp only [CodeOptions.exactWindow]
    omega
  have hhighest : (options.exactWindow (start + offset)).highest =
      (options.exactWindow start).highest + offset := by
    simp only [CodeOptions.exactWindow]
    omega
  cases h with
  | inside hmem hlow hhigh hbest =>
      refine Selected.inside (List.mem_map_of_mem hmem) (by omega) (by omega) ?_
      intro q hq hlow' hhigh'
      rcases List.mem_map.mp hq with ⟨original, horiginal, rfl⟩
      have hpreferred := hbest original horiginal (by omega) (by omega)
      unfold NoFarther at hpreferred ⊢
      rw [hideal, distance_add, distance_add]
      omega
  | after hmem hlow hempty hfirst =>
      refine Selected.after (List.mem_map_of_mem hmem) (by omega) ?_ ?_
      · intro q hq hlow'
        rcases List.mem_map.mp hq with ⟨original, horiginal, rfl⟩
        have := hempty original horiginal (by omega)
        omega
      · intro q hq hlow'
        rcases List.mem_map.mp hq with ⟨original, horiginal, rfl⟩
        have := hfirst original horiginal (by omega)
        omega
  | rest hnone =>
      refine Selected.rest fun q hq => ?_
      rcases List.mem_map.mp hq with ⟨original, horiginal, rfl⟩
      have := hnone original horiginal
      omega

end Selected

section Shifted

variable (options : CodeOptions) {candidates : List Nat} {start length offset : Nat}

/-- Where a text starts moves what is selected in it and changes nothing else,
as long as the text is no longer than the largest size. -/
theorem selectSplit_add (hsorted : candidates.Pairwise (· ≤ ·)) (hle : ∀ p ∈ candidates, p ≤ length)
    (hstart : start < length) (hsize : length + offset ≤ maxSize) :
    selectSplit options (candidates.map (· + offset)) (start + offset) (length + offset) =
      selectSplit options candidates start length + offset := by
  have hselected := selected_exactWindow options hsorted hle hstart (by omega)
  have hsorted' : (candidates.map (· + offset)).Pairwise (· ≤ ·) :=
    hsorted.map _ fun p q hpq => Nat.add_le_add_right hpq offset
  have hle' : ∀ p ∈ candidates.map (· + offset), p ≤ length + offset := by
    intro p hp
    rcases List.mem_map.mp hp with ⟨original, horiginal, rfl⟩
    exact Nat.add_le_add_right (hle original horiginal) offset
  exact (selected_exactWindow options hsorted' hle' (by omega) hsize).unique
    (hselected.add offset)

/-- Where a text starts moves the spans that are made in it and changes nothing
else. -/
theorem codeSpansFrom_add (hsorted : candidates.Pairwise (· ≤ ·))
    (hle : ∀ p ∈ candidates, p ≤ length) (hstart : start < length)
    (hsize : length + offset ≤ maxSize) :
    codeSpansFrom options (candidates.map (· + offset)) (length + offset) (start + offset) =
      (codeSpansFrom options candidates length start).map fun span => span.shiftedBy offset := by
  fun_induction codeSpansFrom options candidates length start with
  | case1 candidates start stop hmore ih =>
      have hselect := selectSplit_add options hsorted hle hstart hsize
      have hdrop : (candidates.map (· + offset)).dropWhile (· ≤ stop + offset) =
          (candidates.dropWhile (· ≤ stop)).map (· + offset) := by
        have hpassed : (fun p => decide (p ≤ stop + offset)) ∘ (· + offset) =
            fun p => decide (p ≤ stop) := by
          funext p
          exact decide_eq_decide.mpr (Nat.add_le_add_iff_right)
        rw [List.dropWhile_map, hpassed]
      have hsuffix := List.dropWhile_suffix (fun p => decide (p ≤ stop)) (l := candidates)
      rw [codeSpansFrom_of_inside (by rw [hselect]; omega), hselect, hdrop,
        ih (hsorted.sublist hsuffix.sublist) (fun p hp => hle p (hsuffix.subset hp)) hmore.2]
      rfl
  | case2 candidates start stop hlast =>
      have hselect := selectSplit_add options hsorted hle hstart hsize
      rw [codeSpansFrom_of_not_inside (by rw [hselect]; omega)]
      rfl

end Shifted

section Passed

variable (options : CodeOptions) (candidates : List Nat) (length : Nat)

/-- Candidates up to the start make no difference to the spans, nor do they when
only some of them are dropped. -/
theorem codeSpansFrom_dropWhile {passed start : Nat} (hpassed : passed ≤ start) :
    codeSpansFrom options (candidates.dropWhile (· ≤ passed)) length start =
      codeSpansFrom options candidates length start := by
  have hselect := selectSplit_dropWhile options candidates passed start length hpassed
  by_cases hmore : start < selectSplit options candidates start length ∧
      selectSplit options candidates start length < length
  · -- What the first span passes includes what lies before it.
    have hdrop : (candidates.dropWhile (· ≤ passed)).dropWhile
          (· ≤ selectSplit options candidates start length) =
        candidates.dropWhile (· ≤ selectSplit options candidates start length) := by
      refine dropWhile_dropWhile_of_imp (fun p hp => ?_) candidates
      rw [decide_eq_true_eq] at hp ⊢
      omega
    rw [codeSpansFrom_of_inside (by rwa [hselect]), codeSpansFrom_of_inside hmore, hselect, hdrop]
  · rw [codeSpansFrom_of_not_inside (by rwa [hselect]), codeSpansFrom_of_not_inside hmore]

/-- The spans from one of them on are those that are made from its start. -/
theorem drop_codeSpansFrom {start k : Nat} {span : Span}
    (hspan : (codeSpansFrom options candidates length start)[k]? = some span) :
    (codeSpansFrom options candidates length start).drop k =
      codeSpansFrom options candidates length span.start := by
  induction k generalizing candidates start with
  | zero =>
      have hstart : span.start = start := by
        rw [codeSpansFrom] at hspan
        split at hspan <;> rcases Option.some.inj hspan with rfl <;> rfl
      rw [List.drop_zero, hstart]
  | succ k ih =>
      by_cases hmore : start < selectSplit options candidates start length ∧
          selectSplit options candidates start length < length
      · rw [codeSpansFrom_of_inside hmore, List.getElem?_cons_succ] at hspan
        have hafter := (covers_codeSpansFrom options _ length _ (Nat.le_of_lt hmore.2)).start_le
          span (List.mem_of_getElem? hspan)
        rw [codeSpansFrom_of_inside hmore, List.drop_succ_cons, ih _ hspan,
          codeSpansFrom_dropWhile options candidates length hafter]
      · rw [codeSpansFrom_of_not_inside hmore] at hspan
        exact absurd hspan (by simp)

end Passed

/-- The safe splits of a text that follows another, counted from where it
starts. -/
def laterSplits (before after : List Char) : List Nat :=
  ((safeSplits (before ++ after)).filter (before.length < ·)).map (· - before.length)

section Later

variable {before after : List Char}

theorem mem_laterSplits_iff {p : Nat} :
    p ∈ laterSplits before after ↔ 0 < p ∧ before.length + p ∈ safeSplits (before ++ after) := by
  simp only [laterSplits, List.mem_map, List.mem_filter, decide_eq_true_eq]
  constructor
  · rintro ⟨q, ⟨hq, hlt⟩, rfl⟩
    rw [Nat.add_sub_cancel' (Nat.le_of_lt hlt)]
    exact ⟨by omega, hq⟩
  · rintro ⟨hpos, hp⟩
    exact ⟨before.length + p, ⟨hp, by omega⟩, Nat.add_sub_cancel_left _ _⟩

theorem pairwise_laterSplits : (laterSplits before after).Pairwise (· < ·) := by
  rw [laterSplits, List.pairwise_map]
  refine ((pairwise_safeSplits (before ++ after)).filter _).imp_of_mem ?_
  intro p q hp hq hlt
  have hp' := (List.mem_filter.mp hp).2
  rw [decide_eq_true_eq] at hp'
  omega

theorem le_length_of_mem_laterSplits {p : Nat} (hp : p ∈ laterSplits before after) :
    p ≤ after.length := by
  have := le_length_of_mem_safeSplits (mem_laterSplits_iff.mp hp).2
  rw [List.length_append] at this
  omega

-- The candidates that are left at the end of the first text are the safe
-- splits of the second one, moved.
theorem dropWhile_safeSplits :
    (safeSplits (before ++ after)).dropWhile (· ≤ before.length) =
      (laterSplits before after).map (· + before.length) := by
  rw [dropWhile_le_eq_filter ((pairwise_safeSplits (before ++ after)).imp Nat.le_of_lt)]
  refine ((pairwise_safeSplits (before ++ after)).filter _).eq_of_mem_iff
    (pairwise_laterSplits.map _ fun p q hpq => Nat.add_lt_add_right hpq before.length) fun p => ?_
  rw [List.mem_filter, List.mem_map, decide_eq_true_eq]
  constructor
  · rintro ⟨hp, hlt⟩
    rcases Nat.exists_eq_add_of_le (Nat.le_of_lt hlt) with ⟨q, rfl⟩
    exact ⟨q, mem_laterSplits_iff.mpr ⟨by omega, hp⟩, Nat.add_comm q _⟩
  · rintro ⟨q, hq, rfl⟩
    rcases mem_laterSplits_iff.mp hq with ⟨hpos, hmem⟩
    rw [Nat.add_comm q]
    exact ⟨hmem, by omega⟩

/-- Texts that are scanned alike leave the same splits to what follows. -/
theorem ScannedAlike.laterSplits_eq {other : List Char} (h : ScannedAlike before other)
    (after : List Char) : laterSplits before after = laterSplits other after := by
  refine pairwise_laterSplits.eq_of_mem_iff pairwise_laterSplits fun p => ?_
  rw [mem_laterSplits_iff, mem_laterSplits_iff]
  exact and_congr_right fun hpos => h.mem_safeSplits_iff after hpos

/-- The spans of source code after a cut are those of the text that follows
it, moved. -/
theorem drop_codeSpans (options : CodeOptions) {k : Nat} {span : Span}
    (hspan : (codeSpans options (before ++ after))[k]? = some span)
    (hcut : span.start = before.length) (hafter : after ≠ [])
    (hlong : options.threshold.toNat < (before ++ after).length)
    (hsize : (before ++ after).length ≤ maxSize) :
    (codeSpans options (before ++ after)).drop k =
      (codeSpansFrom options (laterSplits before after) after.length 0).map fun later =>
        later.shiftedBy before.length := by
  have hpos : 0 < after.length := List.length_pos_iff.mpr hafter
  have hlength : (before ++ after).length = after.length + before.length := by
    rw [List.length_append, Nat.add_comm]
  rw [codeSpans_of_threshold_lt options _ hlong] at hspan ⊢
  rw [drop_codeSpansFrom options _ _ hspan, hcut,
    ← codeSpansFrom_dropWhile options _ _ (Nat.le_refl before.length), dropWhile_safeSplits,
    hlength]
  have hsorted : (laterSplits before after).Pairwise (· ≤ ·) :=
    pairwise_laterSplits.imp Nat.le_of_lt
  have hmove := codeSpansFrom_add options hsorted (fun _ => le_length_of_mem_laterSplits) hpos
    (by rwa [← hlength])
  rwa [Nat.zero_add] at hmove

end Later

section Resynchronised

variable (config : Config) {strategy : Strategy} (ids : Nat → Uuid) {document : Document}
  {before after : String}

/-- What a cut between two chunks of source code tells: it stands at the start
of a line, and the texts after it are decided by the candidates left there. -/
theorem drop_texts_of_cut (hcode : strategy = .code ∧ isCodeFile document.fileName = true)
    (hcontent : document.content = before ++ after) (hne : before ≠ "")
    (hlong : config.code.threshold.toNat < document.content.length)
    (hsize : document.content.length ≤ maxSize) {k : Nat}
    (hk : k < (prepareWith config strategy ids document).texts.length)
    (hcut : Chunk.startOf (prepareWith config strategy ids document).chunks k = before.length) :
    EndsLine before.toList ∧ after.toList ≠ [] ∧
      (prepareWith config strategy ids document).texts.drop k =
        (codeSpansFrom config.code (laterSplits before.toList after.toList) after.toList.length
          0).map fun span => String.ofList (span.cut after.toList) := by
  have hchars : document.content.toList = before.toList ++ after.toList := by
    rw [hcontent, String.toList_append]
  rcases texts_of_code config ids document hcode with ⟨htexts, hstarts⟩
  rw [htexts, List.length_map] at hk
  rw [hstarts k hk, ← String.length_toList] at hcut
  rw [← String.length_toList] at hlong hsize
  -- The first chunk starts with the content, so this is a later one.
  cases k with
  | zero =>
      have hzero := (covers_codeSpans config.code document.content.toList).start_eq_sum 0 hk
      rw [hcut, List.take_zero, List.map_nil, List.foldr_nil] at hzero
      exact absurd (by simpa using hzero) hne
  | succ k =>
      rcases start_mem_safeSplits config.code document.content.toList k hk with ⟨hmem, _, hlt⟩
      rw [hcut] at hmem hlt
      have hends := endsLine_take_of_mem_safeSplits hmem hlt
      rw [hchars, List.take_left] at hends
      have hafter : after.toList ≠ [] := by
        intro hnil
        rw [hchars, hnil, List.append_nil] at hlt
        exact Nat.lt_irrefl _ hlt
      have hdrop := List.getElem?_eq_getElem hk
      rw [hchars] at hlong hsize
      refine ⟨hends, hafter, ?_⟩
      rw [htexts, ← List.map_drop]
      simp only [hchars] at hdrop hcut ⊢
      rw [drop_codeSpans config.code hdrop hcut hafter hlong hsize, List.map_map]
      refine List.map_congr_left fun span _ => ?_
      rw [Function.comp, Span.cut_shiftedBy]

end Resynchronised

-- A text behind the cut of one file stands behind the cut of the other one.
theorem mem_of_drop_eq {texts others : List String} {k k' i : Nat} {text : String}
    (h : texts.drop k = others.drop k') (hki : k ≤ i) (htext : texts[i]? = some text) :
    text ∈ others := by
  rcases Nat.exists_eq_add_of_le hki with ⟨n, rfl⟩
  rw [← List.getElem?_drop, h] at htext
  exact List.mem_of_mem_drop (List.mem_of_getElem? htext)

/-- Two source files, or two versions of one, that end with the same text. If
each of them is cut where that text starts, and the scan arrives there in one
state and at one depth, then the chunks after the cut have the same texts, and
a plan for either file reuses all that are stored for the other.

Neither content may be longer than the largest size, and no content that is
held in memory is. -/
theorem chunkCode_resynchronises (config : Config) (ids ids' : Nat → Uuid)
    (first second : Document) (before before' after : String)
    (hfile : isCodeFile first.fileName = true) (hfile' : isCodeFile second.fileName = true)
    (hcontent : first.content = before ++ after) (hcontent' : second.content = before' ++ after)
    (hne : before ≠ "") (hne' : before' ≠ "")
    (hlong : config.code.threshold.toNat < first.content.length)
    (hlong' : config.code.threshold.toNat < second.content.length)
    (hsize : first.content.length ≤ maxSize) (hsize' : second.content.length ≤ maxSize)
    (k k' : Nat) :
    let old := prepareWith config .code ids first
    let new := prepareWith config .code ids' second
    k < old.texts.length → k' < new.texts.length →
    Chunk.startOf old.chunks k = before.length →
    Chunk.startOf new.chunks k' = before'.length →
    stateAt? first.content.toList before.length = stateAt? second.content.toList before'.length →
    depthBefore first.content.toList before.length =
      depthBefore second.content.toList before'.length →
      old.texts.drop k = new.texts.drop k' ∧
        (∀ i text, k ≤ i → old.texts[i]? = some text →
          (i, textDigest text) ∈ (planReindex old new.texts).reuse) ∧
        ∀ i text, k' ≤ i → new.texts[i]? = some text →
          (i, textDigest text) ∈ (planReindex new old.texts).reuse := by
  intro old new hk hk' hcut hcut' hstate hdepth
  rcases drop_texts_of_cut config ids ⟨rfl, hfile⟩ hcontent hne hlong hsize hk hcut with
    ⟨hends, hafter, htexts⟩
  rcases drop_texts_of_cut config ids' ⟨rfl, hfile'⟩ hcontent' hne' hlong' hsize' hk' hcut' with
    ⟨hends', _, htexts'⟩
  -- At the start of a line the run stands as it does at the end of what comes before.
  rw [hcontent, hcontent', String.toList_append, String.toList_append, ← String.length_toList,
    ← String.length_toList] at hstate hdepth
  rw [stateAt?_append _ hends hafter, stateAt?_append _ hends' hafter, Option.some.injEq] at hstate
  rw [depthBefore_append _ hends (Nat.le_refl _), depthBefore_append _ hends' (Nat.le_refl _),
    depthBefore_length, depthBefore_length] at hdepth
  have halike : ScannedAlike before.toList before'.toList := ⟨hends, hends', hstate, hdepth⟩
  have hsame : old.texts.drop k = new.texts.drop k' := by
    rw [htexts, htexts', halike.laterSplits_eq]
  refine ⟨hsame, fun i text hki htext => ?_, fun i text hki htext => ?_⟩
  · exact mem_reuse_of_mem htext (mem_of_drop_eq hsame hki htext)
  · exact mem_reuse_of_mem htext (mem_of_drop_eq hsame.symm hki htext)

/-- A line that is put in front of the first block moves the blocks after it, and
both are reused. -/
theorem chunkCode_resynchronises_moved_blocks :
    let config : Config :=
      { code := { targetSize := 4, margin := 1, minChunkSize := 2, threshold := 3 } }
    let before := "f() \x7b\n\x7d\n"
    let before' := "// \x7b\nf() \x7b\n\x7d\n"
    let after := "g() \x7b\n\x7d\nh() \x7b\n\x7d\n"
    let first : Document := { sourcePath := "a.rs", content := before ++ after }
    let second : Document := { sourcePath := "a.rs", content := before' ++ after }
    let old := prepareWith config .code (fun _ => ⟨0⟩) first
    let new := prepareWith config .code (fun _ => ⟨1⟩) second
    isCodeFile first.fileName = true ∧
      config.code.threshold.toNat < first.content.length ∧
      config.code.threshold.toNat < second.content.length ∧
      first.content.length ≤ maxSize ∧ second.content.length ≤ maxSize ∧
      (1 < old.texts.length ∧ 1 < new.texts.length) ∧
      (Chunk.startOf old.chunks 1 = before.length ∧ Chunk.startOf new.chunks 1 = before'.length) ∧
      stateAt? first.content.toList before.length =
        stateAt? second.content.toList before'.length ∧
      depthBefore first.content.toList before.length =
        depthBefore second.content.toList before'.length ∧
      old.texts.drop 1 = new.texts.drop 1 ∧
      (2, textDigest "h() \x7b\n\x7d\n") ∈ (planReindex new old.texts).reuse := by
  intro config before before' after first second old new
  have hfile : isCodeFile first.fileName = true := by
    decide +kernel
  have hlong : config.code.threshold.toNat < first.content.length ∧
      config.code.threshold.toNat < second.content.length := by
    decide +kernel
  have hsize : first.content.length ≤ maxSize ∧ second.content.length ≤ maxSize := by
    decide +kernel
  have hcount : 1 < old.texts.length ∧ 1 < new.texts.length := by
    decide +kernel
  have hcut : Chunk.startOf old.chunks 1 = before.length ∧
      Chunk.startOf new.chunks 1 = before'.length := by
    decide +kernel
  have hstate : stateAt? first.content.toList before.length =
      stateAt? second.content.toList before'.length := by
    decide +kernel
  have hdepth : depthBefore first.content.toList before.length =
      depthBefore second.content.toList before'.length := by
    decide +kernel
  have htext : new.texts[2]? = some "h() \x7b\n\x7d\n" := by
    decide +kernel
  have hsame := chunkCode_resynchronises config (fun _ => ⟨0⟩) (fun _ => ⟨1⟩) first second before
    before' after hfile hfile rfl rfl (by decide) (by decide) hlong.1 hlong.2 hsize.1 hsize.2 1 1
    hcount.1 hcount.2 hcut.1 hcut.2 hstate hdepth
  exact ⟨hfile, hlong.1, hlong.2, hsize.1, hsize.2, hcount, hcut, hstate, hdepth, hsame.1,
    hsame.2.2 2 _ (by decide) htext⟩

end Chunking
