import Chunking.Proofs.JoinedMarks
import Chunking.Proofs.Placement
import Chunking.Proofs.Reused
import Chunking.Proofs.WindowPlaces
import Mathlib.Data.List.Sort

/-!
# Texts that start alike

An edit leaves alone what stands before it. The chunks before the edit should
then be the old ones, so that none of them has to be embedded again. They are,
as far as nothing that decided them lies behind the edit.

A window is decided by its offsets. A chunk of source code is decided by the
candidates in its window, and by the first one after it when there is none. A
bound that neither the window nor the chunk reaches past, and that lies in the
part that was kept, is therefore enough: the candidates up to it are the same
ones in both texts. The chunks before that chunk have earlier windows, so the
same bound serves them all.

## Theorems

* `safeSplits_eq_append`: The candidates up to a bound in what two texts share.
* `selectSplit_append`: A selection up to a bound reads no candidate past it.
* `getElem?_codeSpansFrom_append`: The spans up to a bound.
* `getElem?_windowsFrom`: The full windows over a text.
* `planReindex_reuses_start`: The chunks before an edit are reused.
-/

namespace Chunking

/-- A piece that lies in what two texts share is a piece of both. -/
theorem Span.cut_eq_of_take_eq {text other : List Char} {n : Nat}
    (h : text.take n = other.take n) (span : Span) (hstop : span.stop ≤ n) :
    span.cut text = span.cut other := by
  rw [Span.cut, Span.cut, List.extract_eq_take_drop, List.extract_eq_take_drop, ← List.drop_take,
    ← List.drop_take, take_eq_of_take_eq h hstop]

section Candidates

variable {text other : List Char} {n bound : Nat}

/-- The candidates of two texts are the same ones up to a bound in what they
share, and the others lie past it. -/
theorem safeSplits_eq_append (h : text.take n = other.take n) (hbound : bound ≤ n)
    (htext : bound < text.length) (hother : bound < other.length) :
    ∃ shared rest rest', safeSplits text = shared ++ rest ∧ safeSplits other = shared ++ rest' ∧
      (∀ p ∈ rest, bound < p) ∧ ∀ p ∈ rest', bound < p := by
  have hsplit : ∀ chars : List Char, safeSplits chars =
      (safeSplits chars).filter (· ≤ bound) ++ (safeSplits chars).dropWhile (· ≤ bound) := by
    intro chars
    rw [← takeWhile_le_eq_filter ((pairwise_safeSplits chars).imp Nat.le_of_lt),
      List.takeWhile_append_dropWhile]
  have hpast : ∀ chars : List Char, ∀ p ∈ (safeSplits chars).dropWhile (· ≤ bound), bound < p := by
    intro chars p hp
    rw [dropWhile_le_eq_filter ((pairwise_safeSplits chars).imp Nat.le_of_lt), List.mem_filter,
      decide_eq_true_eq] at hp
    exact hp.2
  have hshared : (safeSplits text).filter (· ≤ bound) = (safeSplits other).filter (· ≤ bound) := by
    refine ((pairwise_safeSplits text).filter _).eq_of_mem_iff
      ((pairwise_safeSplits other).filter _) fun p => ?_
    rw [List.mem_filter, List.mem_filter]
    refine and_congr_left fun hp => ?_
    rw [decide_eq_true_eq] at hp
    exact mem_safeSplits_iff_of_take_eq h (by omega) (by omega) (by omega)
  exact ⟨_, _, _, hsplit text, hshared ▸ hsplit other, hpast text, hpast other⟩

end Candidates

theorem CodeOptions.highest_window_le (options : CodeOptions) (start : Nat) :
    (options.window start).highest ≤ start + options.target + options.margin.toNat := by
  rw [options.window_eq]
  simp only
  omega

theorem CodeOptions.highest_window_mono (options : CodeOptions) {start later : Nat}
    (h : start ≤ later) : (options.window start).highest ≤ (options.window later).highest := by
  rw [options.window_eq, options.window_eq]
  simp only
  omega

-- Candidates past a window are not taken into it.
theorem takeWhile_append_of_lt {highest : Nat} {past : List Nat} (h : ∀ p ∈ past, highest < p)
    (candidates : List Nat) :
    (candidates ++ past).takeWhile (· ≤ highest) = candidates.takeWhile (· ≤ highest) := by
  have hnone : past.takeWhile (· ≤ highest) = [] := by
    cases past with
    | nil => rfl
    | cons p past =>
        have := h p List.mem_cons_self
        rw [List.takeWhile_cons_of_neg]
        simp only [decide_eq_true_eq]
        omega
  rw [List.takeWhile_append]
  split
  · next hall => rw [hnone, List.append_nil, (List.takeWhile_prefix _).eq_of_length hall]
  · rfl

section Selection

variable (options : CodeOptions) {shared rest rest' : List Nat} {bound : Nat}

/-- A selection that ends up to a bound makes no use of the candidates past it,
nor of the length of the text. -/
theorem selectSplit_append (hrest : ∀ p ∈ rest, bound < p) (hrest' : ∀ p ∈ rest', bound < p)
    {start length length' : Nat} (hlength : bound < length)
    (hhigh : (options.window start).highest ≤ bound)
    (h : selectSplit options (shared ++ rest) start length ≤ bound) :
    selectSplit options (shared ++ rest') start length' =
      selectSplit options (shared ++ rest) start length := by
  simp only [selectSplit, List.dropWhile_append] at h ⊢
  generalize options.window start = window at hhigh h ⊢
  generalize hlater : shared.dropWhile (fun p => p ≤ start || p < window.lowest) = later at h ⊢
  cases later with
  | nil =>
      -- Nothing is left up to the bound, so the selection would lie past it.
      exfalso
      have hdrop : ∀ p ∈ rest.dropWhile (fun p => p ≤ start || p < window.lowest), bound < p :=
        fun p hp => hrest p ((List.dropWhile_suffix _).subset hp)
      have hinside := takeWhile_append_of_lt
        (fun p hp => Nat.lt_of_le_of_lt hhigh (hdrop p hp)) []
      simp only [List.nil_append, List.takeWhile_nil] at hinside
      simp only [List.isEmpty_nil, if_true, hinside, nearest] at h
      rcases hnext : rest.dropWhile (fun p => p ≤ start || p < window.lowest) with _ | ⟨p, next⟩
      · simp only [hnext, List.head?_nil, Option.getD_none] at h
        omega
      · have := hdrop p (by rw [hnext]; exact List.mem_cons_self)
        simp only [hnext, List.head?_cons, Option.getD_some] at h
        omega
  | cons p later =>
      have hinside : ∀ past : List Nat, (∀ q ∈ past, bound < q) →
          (p :: later ++ past).takeWhile (· ≤ window.highest) =
            (p :: later).takeWhile (· ≤ window.highest) :=
        fun past hpast =>
          takeWhile_append_of_lt (fun q hq => Nat.lt_of_le_of_lt hhigh (hpast q hq)) _
      simp only [List.isEmpty_cons, Bool.false_eq_true, if_false]
      rw [hinside rest hrest, hinside rest' hrest']
      rfl

-- Candidates past a bound outlast those that a span up to it has passed.
theorem dropWhile_append_of_lt {stop : Nat} (hrest : ∀ p ∈ rest, stop < p) :
    (shared ++ rest).dropWhile (· ≤ stop) = shared.dropWhile (· ≤ stop) ++ rest := by
  have hkeep : rest.dropWhile (· ≤ stop) = rest := by
    cases rest with
    | nil => rfl
    | cons p rest =>
        have := hrest p List.mem_cons_self
        rw [List.dropWhile_cons_of_neg]
        simp only [decide_eq_true_eq]
        omega
  rw [List.dropWhile_append, hkeep]
  split
  · next hempty => rw [List.isEmpty_iff.mp hempty, List.nil_append]
  · rfl

/-- A span of source code whose window and end lie up to a bound is decided by
the candidates up to there. -/
theorem getElem?_codeSpansFrom_append (hrest : ∀ p ∈ rest, bound < p)
    (hrest' : ∀ p ∈ rest', bound < p) {length length' : Nat} (hlength : bound < length)
    (hlength' : bound < length') {start : Nat} (k : Nat) {span : Span}
    (hspan : (codeSpansFrom options (shared ++ rest) length start)[k]? = some span)
    (hstop : span.stop ≤ bound) (hhigh : (options.window span.start).highest ≤ bound) :
    (codeSpansFrom options (shared ++ rest') length' start)[k]? = some span := by
  induction k generalizing shared start with
  | zero =>
      rw [codeSpansFrom] at hspan ⊢
      split at hspan
      · next hmore =>
          rcases Option.some.inj hspan with rfl
          rw [selectSplit_append options hrest hrest' hlength hhigh hstop,
            if_pos ⟨hmore.1, Nat.lt_of_le_of_lt hstop hlength'⟩]
          rfl
      · -- The last span ends with the text, past the bound.
        rcases Option.some.inj hspan with rfl
        exact absurd hlength (Nat.not_lt_of_le hstop)
  | succ k ih =>
      rw [codeSpansFrom] at hspan ⊢
      split at hspan
      · next hmore =>
          -- The first span ends before the given one, so it is decided as well.
          rw [List.getElem?_cons_succ] at hspan
          have hcovers := covers_codeSpansFrom options
            ((shared ++ rest).dropWhile (· ≤ selectSplit options (shared ++ rest) start length))
            length _ (Nat.le_of_lt hmore.2)
          have hmem := List.mem_of_getElem? hspan
          have hafter := hcovers.start_le span hmem
          have hspan_le := hcovers.start_le_stop span hmem
          have hhigh' := options.highest_window_mono
            (Nat.le_trans (Nat.le_of_lt hmore.1) hafter)
          have hselect : selectSplit options (shared ++ rest') start length' =
              selectSplit options (shared ++ rest) start length :=
            selectSplit_append options hrest hrest' hlength (by omega) (by omega)
          rw [hselect, if_pos ⟨hmore.1, by omega⟩, List.getElem?_cons_succ]
          rw [dropWhile_append_of_lt fun p hp =>
            Nat.lt_of_le_of_lt (by omega) (hrest p hp)] at hspan
          rw [dropWhile_append_of_lt fun p hp => Nat.lt_of_le_of_lt (by omega) (hrest' p hp)]
          exact ih hspan
      · exact absurd hspan (by simp)

end Selection

/-- A full window lies as many steps behind the first one as there are windows
before it. -/
theorem getElem?_windowsFrom (frame : Frame) (length start i : Nat)
    (h : start + i * frame.step + frame.size ≤ length) :
    (windowsFrom frame length start)[i]? =
      some ⟨start + i * frame.step, start + i * frame.step + frame.size⟩ := by
  -- The steps before the window are whole, and there are no more than all steps.
  have hsteps : i ≤ (length - start - frame.size) ⌈/⌉ frame.step := by
    have hall : length - start - frame.size ≤
        frame.step * ((length - start - frame.size) ⌈/⌉ frame.step) :=
      le_smul_ceilDiv frame.step_pos
    refine Nat.le_of_mul_le_mul_left ?_ frame.step_pos
    rw [Nat.mul_comm frame.step i]
    omega
  rw [windowsFrom_eq, List.getElem?_map, List.getElem?_range (by omega), Option.map_some,
    Nat.min_eq_left h]

section Texts

variable (config : Config) {strategy : Strategy} (ids : Nat → Uuid) (document : Document)

-- A full window of a document that is not split as source code.
theorem getElem?_texts_of_window
    (hcode : ¬(strategy = .code ∧ isCodeFile document.fileName = true))
    (hlong : (config.windowOptions strategy).threshold.toNat < document.content.length) (i : Nat)
    (h : i * (config.windowOptions strategy).frame.step +
      (config.windowOptions strategy).frame.size ≤ document.content.length) :
    (prepareWith config strategy ids document).texts[i]? =
      some (String.ofList (Span.cut document.content.toList
        ⟨i * (config.windowOptions strategy).frame.step,
          i * (config.windowOptions strategy).frame.step +
            (config.windowOptions strategy).frame.size⟩)) := by
  rw [← String.length_toList] at hlong h
  have hspans := getElem?_windowsFrom (config.windowOptions strategy).frame
    document.content.toList.length 0 i (by omega)
  rw [Nat.zero_add] at hspans
  rw [texts_prepareWith, chunk_eq_of_not_code config _ hcode, Chunk.map_text_ofTexts,
    List.getElem?_map, windowSpans, if_neg (Nat.not_le_of_lt hlong), hspans]
  rfl

end Texts

/-- The spans of source code that are decided before the end of what two texts
share are spans of both. -/
theorem getElem?_codeSpans_of_take_eq (options : CodeOptions) {text other : List Char} {n k : Nat}
    (h : text.take n = other.take n) (htext : options.threshold.toNat < text.length)
    (hother : options.threshold.toNat < other.length) {span : Span}
    (hspan : (codeSpans options text)[k]? = some span) (hstop : span.stop ≤ n)
    (hhigh : span.start + options.target + options.margin.toNat ≤ n)
    (hinside : max span.stop (span.start + options.target + options.margin.toNat) < text.length)
    (hinside' : max span.stop (span.start + options.target + options.margin.toNat) <
      other.length) :
    (codeSpans options other)[k]? = some span := by
  rcases safeSplits_eq_append h (Nat.max_le.mpr ⟨hstop, hhigh⟩) hinside hinside' with
    ⟨shared, rest, rest', hsplits, hsplits', hrest, hrest'⟩
  have hwindow := options.highest_window_le span.start
  rw [codeSpans_of_threshold_lt options text htext, hsplits] at hspan
  rw [codeSpans_of_threshold_lt options other hother, hsplits']
  exact getElem?_codeSpansFrom_append options hrest hrest' hinside hinside' k hspan
    (Nat.le_max_left _ _) (Nat.le_trans hwindow (Nat.le_max_right _ _))

/-- Two documents of one name that share their first `n` characters, both
longer than the threshold, prepared in the same way. The chunks of the first
one that are decided by those characters are chunks of the second one, at the
same places, and a plan for the second one against the first reuses them.

A window is decided where it is full. A chunk of source code is decided where
neither it nor its window reaches past what is shared, nor to the end of
either content. -/
theorem planReindex_reuses_start (config : Config) (strategy : Strategy) (ids ids' : Nat → Uuid)
    (first second : Document) (n : Nat) (hname : first.fileName = second.fileName)
    (hlong : (config.windowOptions strategy).threshold.toNat < first.content.length)
    (hlong' : (config.windowOptions strategy).threshold.toNat < second.content.length)
    (hfirst : n ≤ first.content.length) (hsecond : n ≤ second.content.length)
    (hshared : first.content.toList.take n = second.content.toList.take n) :
    let old := prepareWith config strategy ids first
    let new := prepareWith config strategy ids' second
    let plan := planReindex new old.texts
    (¬(strategy = .code ∧ isCodeFile first.fileName = true) →
      let size := (config.windowOptions strategy).frame.size
      let overlap := (config.windowOptions strategy).frame.overlap
      ∀ i, i * (size - overlap) + size ≤ n →
        ∃ text, old.texts[i]? = some text ∧ new.texts[i]? = some text ∧
          (i, textDigest text) ∈ plan.reuse) ∧
    (strategy = .code ∧ isCodeFile first.fileName = true →
      let target := max config.code.targetSize.toNat 1
      let margin := config.code.margin.toNat
      ∀ k text, old.texts[k]? = some text →
        let start := Chunk.startOf old.chunks k
        let stop := start + text.length
        stop ≤ n → start + target + margin ≤ n →
        max stop (start + target + margin) < first.content.length →
        max stop (start + target + margin) < second.content.length →
          new.texts[k]? = some text ∧ Chunk.startOf new.chunks k = start ∧
            (k, textDigest text) ∈ plan.reuse) := by
  intro old new plan
  -- A text at one place in both documents is stored, so the plan reuses it.
  have hreuse : ∀ i text, old.texts[i]? = some text → new.texts[i]? = some text →
      (i, textDigest text) ∈ plan.reuse :=
    fun i text hold hnew => mem_reuse_of_mem hnew (List.mem_of_getElem? hold)
  refine ⟨?_, ?_⟩
  · intro hcode size overlap i hfull
    have hold := getElem?_texts_of_window config ids first hcode hlong i
      (Nat.le_trans hfull hfirst)
    have hnew := getElem?_texts_of_window config ids' second (hname ▸ hcode) hlong' i
      (Nat.le_trans hfull hsecond)
    rw [← Span.cut_eq_of_take_eq hshared _ hfull] at hnew
    exact ⟨_, hold, hnew, hreuse i _ hold hnew⟩
  · intro hcode target margin k text hold start stop hstop hhigh hinside hinside'
    have hthreshold : (config.windowOptions strategy).threshold = config.code.threshold := by
      rw [hcode.1]
      rfl
    rw [hthreshold, ← String.length_toList] at hlong hlong'
    rw [← String.length_toList] at hinside hinside'
    rcases texts_of_code config ids first hcode with ⟨htexts, hstarts⟩
    rcases texts_of_code config ids' second (hname ▸ hcode) with ⟨htexts', hstarts'⟩
    have hspan := hold
    simp only [old, htexts, List.getElem?_map, Option.map_eq_some_iff] at hspan
    rcases hspan with ⟨span, hspan, rfl⟩
    rcases List.getElem?_eq_some_iff.mp hspan with ⟨hk, hget⟩
    -- The chunk lies where its span does.
    have hstart : span.start = start := by
      rw [← hget, ← hstarts k hk]
    have hend : span.stop = stop := by
      have hcovers := covers_codeSpans config.code first.content.toList
      have hle := hcovers.start_le_stop span (List.mem_of_getElem? hspan)
      have hlength := Span.length_cut first.content.toList span
        (hcovers.stop_le span (List.mem_of_getElem? hspan))
      simp only [stop, String.length_ofList, hlength, ← hstart]
      omega
    have hsame := getElem?_codeSpans_of_take_eq config.code hshared hlong hlong' hspan
      (by rwa [hend]) (by rwa [hstart]) (by rwa [hend, hstart]) (by rwa [hend, hstart])
    rcases List.getElem?_eq_some_iff.mp hsame with ⟨hk', hget'⟩
    have hnew : new.texts[k]? = some (String.ofList (span.cut first.content.toList)) := by
      rw [Span.cut_eq_of_take_eq hshared span (by omega)]
      simp only [new, htexts', List.getElem?_map, hsame, Option.map_some]
    refine ⟨hnew, ?_, hreuse k _ hold hnew⟩
    rw [← hstart, ← hget', ← hstarts' k hk']

/-- What is appended to two blocks leaves the second one to be reused, and so it
does with the second of the windows. -/
theorem planReindex_reuses_start_appended :
    let config : Config :=
      { text := { chunkSize := 4, overlap := 1, threshold := 2 }
        code := { targetSize := 4, margin := 1, minChunkSize := 2, threshold := 3 } }
    let shared := "f() \x7b\n\x7d\ng() \x7b\n\x7d\n"
    let first : Document := { sourcePath := "a.rs", content := shared ++ "x" }
    let second : Document := { sourcePath := "a.rs", content := shared ++ "y()\n" }
    let reused := fun strategy => (planReindex (prepareWith config strategy (fun _ => ⟨1⟩) second)
      (prepareWith config strategy (fun _ => ⟨0⟩) first).texts).reuse
    first.fileName = second.fileName ∧ isCodeFile first.fileName = true ∧
      config.code.threshold.toNat < first.content.length ∧
      config.code.threshold.toNat < second.content.length ∧
      config.text.threshold.toNat < first.content.length ∧
      config.text.threshold.toNat < second.content.length ∧
      16 ≤ first.content.length ∧ 16 ≤ second.content.length ∧
      first.content.toList.take 16 = second.content.toList.take 16 ∧
      (1, textDigest "g() \x7b\n\x7d\n") ∈ reused .code ∧
      (1, textDigest " \x7b\n\x7d") ∈ reused .text := by
  intro config shared first second reused
  have hname : first.fileName = second.fileName := rfl
  have hfile : isCodeFile first.fileName = true := by
    decide +kernel
  have hcode : config.code.threshold.toNat < first.content.length ∧
      config.code.threshold.toNat < second.content.length := by
    decide +kernel
  have htext : config.text.threshold.toNat < first.content.length ∧
      config.text.threshold.toNat < second.content.length := by
    decide +kernel
  have hlength : 16 ≤ first.content.length ∧ 16 ≤ second.content.length := by
    decide +kernel
  have hshared : first.content.toList.take 16 = second.content.toList.take 16 := by
    decide +kernel
  have hchunk : (prepareWith config .code (fun _ => ⟨0⟩) first).texts[1]? =
      some "g() \x7b\n\x7d\n" := by
    decide +kernel
  have hstart : Chunk.startOf (prepareWith config .code (fun _ => ⟨0⟩) first).chunks 1 = 8 := by
    decide +kernel
  have hwindow : (prepareWith config .text (fun _ => ⟨0⟩) first).texts[1]? =
      some " \x7b\n\x7d" := by
    decide +kernel
  have hblocks := (planReindex_reuses_start config .code (fun _ => ⟨0⟩) (fun _ => ⟨1⟩) first second
    16 hname hcode.1 hcode.2 hlength.1 hlength.2 hshared).2 ⟨rfl, hfile⟩ 1 _ hchunk
  simp only [hstart] at hblocks
  have hwindows := (planReindex_reuses_start config .text (fun _ => ⟨0⟩) (fun _ => ⟨1⟩) first second
    16 hname htext.1 htext.2 hlength.1 hlength.2 hshared).1 (by simp) 1 (by decide)
  refine ⟨hname, hfile, hcode.1, hcode.2, htext.1, htext.2, hlength.1, hlength.2, hshared, ?_, ?_⟩
  · exact (hblocks (by decide) (by decide) (by decide) (by decide)).2.2
  · rcases hwindows with ⟨text, hold, _, hreused⟩
    rw [hwindow] at hold
    rwa [← Option.some.inj hold] at hreused

end Chunking
