import Chunking.Proofs.WindowPlaces
import Chunking.Size
import Mathlib.Data.Nat.Basic

/-!
# Windows with 64-bit offsets

The offsets of windows are natural numbers, and no sum of them is ever cut off.
Where they are held in 64 bits instead, each sum and each difference has to be
one that 64 bits can hold, or the run breaks off. `chunkText64?` is that run: it
answers nothing as soon as one of its results is out of range, so to answer at
all it has to stay in range to the end.

It always does. The size of a window may be any 64-bit number, and a window is
then as long as the text or longer, and the first one is the last. A second
window is asked for only if the first one ends inside the text. From then on its
size and all offsets are less than the length of the text, and a text in memory
is no longer than the largest signed number, which is half of the range.

## Main definitions

* `sum64?`, `difference64?`, `quotient64?`: Arithmetic that stays in range.
* `Frame64`: A window that advances, with 64-bit sizes.
* `windowsFrom64?`: The windows from an offset on.
* `chunkText64?`: The chunks of a text.
* `maxTextSize`: The most characters of a text in memory.

## Theorems

* `sum64?_eq_some_iff`, `difference64?_eq_some_iff`: What is in range is exact.
* `windowsFrom64?_eq`: The windows are those over unbounded offsets.
* `chunkText64?_eq`: So are the chunks.
* `chunkText_closed_form`: How many chunks there are, where they lie, and that
  their offsets are in range.
-/

namespace Chunking

/-! ## Arithmetic -/

/-- The sum of two 64-bit numbers, if that is one. -/
def sum64? (a b : UInt64) : Option UInt64 :=
  if a.toNat + b.toNat ≤ maxSize then some (a + b) else none

/-- The difference of two 64-bit numbers, unless it is negative. -/
def difference64? (a b : UInt64) : Option UInt64 :=
  if b ≤ a then some (a - b) else none

/-- The quotient of two 64-bit numbers, unless the divisor is zero. -/
def quotient64? (a b : UInt64) : Option UInt64 :=
  if b = 0 then none else some (a / b)

theorem toNat_le_maxSize (a : UInt64) : a.toNat ≤ maxSize := by
  have := a.toNat_lt
  unfold maxSize
  omega

theorem sum64?_eq_some_iff {a b c : UInt64} :
    sum64? a b = some c ↔ a.toNat + b.toNat = c.toNat := by
  have hc := toNat_le_maxSize c
  unfold sum64?
  split
  case isTrue hle =>
      have hexact : (a + b).toNat = a.toNat + b.toNat := by
        unfold maxSize at hle
        rw [UInt64.toNat_add]
        omega
      rw [Option.some.injEq, ← UInt64.toNat_inj, hexact]
  case isFalse hlt =>
      refine ⟨fun h => absurd h (by simp), fun h => ?_⟩
      omega

theorem difference64?_eq_some_iff {a b c : UInt64} :
    difference64? a b = some c ↔ b.toNat + c.toNat = a.toNat := by
  unfold difference64?
  split
  case isTrue hle =>
      rw [Option.some.injEq, ← UInt64.toNat_inj, UInt64.toNat_sub_of_le a b hle]
      rw [UInt64.le_iff_toNat_le] at hle
      omega
  case isFalse hlt =>
      rw [UInt64.le_iff_toNat_le] at hlt
      refine ⟨fun h => absurd h (by simp), fun h => ?_⟩
      omega

/-- What 64 bits can hold is the result of a sum. -/
theorem exists_sum64? {a b : UInt64} (h : a.toNat + b.toNat ≤ maxSize) :
    ∃ c, sum64? a b = some c ∧ c.toNat = a.toNat + b.toNat := by
  have hsum : sum64? a b = some (a + b) := if_pos h
  exact ⟨a + b, hsum, (sum64?_eq_some_iff.mp hsum).symm⟩

theorem exists_difference64? {a b : UInt64} (h : b.toNat ≤ a.toNat) :
    ∃ c, difference64? a b = some c ∧ c.toNat = a.toNat - b.toNat := by
  have hdifference : difference64? a b = some (a - b) := if_pos (UInt64.le_iff_toNat_le.mpr h)
  have := difference64?_eq_some_iff.mp hdifference
  exact ⟨a - b, hdifference, by omega⟩

/-! ## Windows -/

/-- A window that advances, with 64-bit sizes. -/
structure Frame64 where
  /-- The characters in a full window. -/
  size : UInt64
  /-- The characters it shares with the next window. -/
  overlap : UInt64
  /-- Every window reaches past its predecessor. -/
  overlap_lt_size : overlap < size

/-- The same window with unbounded sizes. -/
def Frame64.exact (frame : Frame64) : Frame where
  size := frame.size.toNat
  overlap := frame.overlap.toNat
  overlap_lt_size := UInt64.lt_iff_toNat_lt.mp frame.overlap_lt_size

theorem TextOptions.toNat_size (options : TextOptions) :
    (max options.chunkSize 1).toNat = options.frame.size :=
  UInt64.toNat_max _ _

theorem TextOptions.toNat_overlap (options : TextOptions) :
    (min options.overlap (max options.chunkSize 1 - 1)).toNat = options.frame.overlap := by
  have hone : (1 : UInt64) ≤ max options.chunkSize 1 := by
    rw [UInt64.le_iff_toNat_le, UInt64.toNat_max]
    exact Nat.le_max_right _ _
  rw [UInt64.toNat_min, UInt64.toNat_sub_of_le _ _ hone, UInt64.toNat_max]
  rfl

/-- The window that is really used, with 64-bit sizes. -/
def TextOptions.frame64 (options : TextOptions) : Frame64 where
  size := max options.chunkSize 1
  overlap := min options.overlap (max options.chunkSize 1 - 1)
  overlap_lt_size := by
    rw [UInt64.lt_iff_toNat_lt, options.toNat_overlap, options.toNat_size]
    exact options.frame.overlap_lt_size

theorem TextOptions.exact_frame64 (options : TextOptions) :
    options.frame64.exact = options.frame := by
  unfold Frame64.exact frame64
  simp only [options.toNat_size, options.toNat_overlap]

/-- The windows over a text of `length` characters, the first at `start`;
nothing if an offset is out of range. -/
def windowsFrom64? (frame : Frame64) (length start : UInt64) : Option (List Span) :=
  match _ : sum64? start frame.size with
  | none => none
  | some reach =>
    let stop := min reach length
    if length ≤ stop then some [⟨start.toNat, stop.toNat⟩]
    else
      match _ : difference64? stop frame.overlap with
      | none => none
      | some next =>
        (windowsFrom64? frame length next).map fun rest => ⟨start.toNat, stop.toNat⟩ :: rest
termination_by length.toNat - start.toNat
decreasing_by
  rename_i hsum hstop hdifference
  have hreach := sum64?_eq_some_iff.mp hsum
  have hnext := difference64?_eq_some_iff.mp hdifference
  have hover := UInt64.lt_iff_toNat_lt.mp frame.overlap_lt_size
  rw [UInt64.le_iff_toNat_le] at hstop
  simp only [stop, UInt64.toNat_min] at hstop hnext
  omega

/-- The chunks of a text; nothing if an offset or a size is out of range. The
room for the chunks is set aside beforehand, one for each step and one more. -/
def chunkText64? (options : TextOptions) (content : String) : Option (List Chunk) :=
  let length := UInt64.ofNat content.length
  if length ≤ options.threshold then some (Chunk.whole content)
  else do
    let step ← difference64? options.frame64.size options.frame64.overlap
    let steps ← quotient64? length step
    let _ ← sum64? steps 1
    let spans ← windowsFrom64? options.frame64 length 0
    return Chunk.ofTexts (Span.cutAll content spans)

/-- The most characters of a text in memory. It takes no more bytes than the
largest signed 64-bit number, and each character takes at least one. -/
def maxTextSize : Nat := 9223372036854775807

-- The window at hand is in range, and so is the next one: its size and its start
-- are less than the length of the text.
theorem windowsFrom64?_eq (frame : Frame64) (length start : UInt64)
    (hlength : length.toNat ≤ maxTextSize) (hreach : start.toNat + frame.size.toNat ≤ maxSize) :
    windowsFrom64? frame length start =
      some (windowsFrom frame.exact length.toNat start.toNat) := by
  have hover := UInt64.lt_iff_toNat_lt.mp frame.overlap_lt_size
  have hsize : frame.exact.size = frame.size.toNat := rfl
  have hstep : frame.exact.step = frame.size.toNat - frame.overlap.toNat := rfl
  unfold maxTextSize at hlength
  fun_induction windowsFrom64? frame length start with
  | case1 start hsum =>
      rcases exists_sum64? hreach with ⟨reach, hsome, _⟩
      rw [hsum] at hsome
      cases hsome
  | case2 start reach hsum stop hstop =>
      rw [sum64?_eq_some_iff] at hsum
      rw [UInt64.le_iff_toNat_le, UInt64.toNat_min] at hstop
      rw [windowsFrom, if_neg (by omega), UInt64.toNat_min, Nat.min_eq_right (by omega)]
  | case3 start reach hsum stop hstop hdifference =>
      rw [sum64?_eq_some_iff] at hsum
      rw [UInt64.le_iff_toNat_le] at hstop
      simp only [stop, UInt64.toNat_min] at hstop
      rcases exists_difference64? (a := stop) (b := frame.overlap)
        (by simp only [stop, UInt64.toNat_min]; omega) with ⟨next, hsome, _⟩
      rw [hdifference] at hsome
      cases hsome
  | case4 start reach hsum stop hstop next hdifference ih =>
      rw [sum64?_eq_some_iff] at hsum
      rw [difference64?_eq_some_iff] at hdifference
      rw [UInt64.le_iff_toNat_le] at hstop
      -- The window ends inside the text, so it is full and the next one is a step behind it.
      have hwhole : stop.toNat = start.toNat + frame.size.toNat := by
        simp only [stop, UInt64.toNat_min] at hstop ⊢
        omega
      have hnext : next.toNat = start.toNat + frame.exact.step := by omega
      have hmore : windowsFrom frame.exact length.toNat start.toNat =
          ⟨start.toNat, stop.toNat⟩ :: windowsFrom frame.exact length.toNat next.toNat := by
        rw [windowsFrom, if_pos (by omega), hwhole, hnext, hsize]
      rw [ih (by unfold maxSize; omega), hmore]
      rfl

/-- The chunks of a text in memory are found without an offset or a size that is
out of range. -/
theorem chunkText64?_eq (options : TextOptions) (content : String)
    (hlong : options.threshold.toNat < content.length) (hsize : content.length ≤ maxTextSize) :
    chunkText64? options content = some (chunkText options content) := by
  have hmax := hsize
  unfold maxTextSize at hmax
  have hlength : (UInt64.ofNat content.length).toNat = content.length :=
    UInt64.toNat_ofNat_of_lt' (by unfold UInt64.size; omega)
  have hframe := options.exact_frame64
  have hover := UInt64.lt_iff_toNat_lt.mp options.frame64.overlap_lt_size
  -- The room for the chunks can be told, for a window advances.
  rcases exists_difference64? (Nat.le_of_lt hover) with ⟨step, hstep, hstepNat⟩
  have hpos : step ≠ 0 := by
    intro hzero
    rw [hzero, UInt64.toNat_zero] at hstepNat
    omega
  have hsteps : (UInt64.ofNat content.length / step).toNat ≤ content.length := by
    rw [UInt64.toNat_div, hlength]
    exact Nat.div_le_self _ _
  rcases exists_sum64? (a := UInt64.ofNat content.length / step) (b := 1)
    (by rw [UInt64.toNat_one]; unfold maxSize; omega) with ⟨room, hroom, _⟩
  have hspans := windowsFrom64?_eq options.frame64 (UInt64.ofNat content.length) 0
    (by rwa [hlength]) (by rw [UInt64.toNat_zero, Nat.zero_add]; exact toNat_le_maxSize _)
  rw [hframe, hlength, UInt64.toNat_zero] at hspans
  unfold chunkText64?
  rw [if_neg (by rw [UInt64.le_iff_toNat_le, hlength]; omega), hstep]
  simp only [Option.bind_eq_bind, Option.bind_some, quotient64?, if_neg hpos, hroom, hspans]
  rw [chunkText, windowSpans, if_neg (Nat.not_le_of_lt hlong)]
  rfl

/-- The chunks of a text above the threshold. There is one if the text is no
longer than a window, and otherwise one more for each step that is begun behind
the first window. Each chunk starts a step behind the one before it, and only
the last one may be shorter than a window. A text in memory is split without a
sum or a difference of offsets and sizes that would leave the 64 bits. -/
theorem chunkText_closed_form (options : TextOptions) (content : String)
    (hlong : options.threshold.toNat < content.length) :
    let size := max options.chunkSize.toNat 1
    let overlap := min options.overlap.toNat (size - 1)
    let step := size - overlap
    let chunks := chunkText options content
    chunks.length =
        (if content.length ≤ size then 1 else 1 + (content.length - size) ⌈/⌉ step) ∧
      (∀ (i : Nat) (_ : i < chunks.length),
        chunks[i] =
          { text := String.ofList
              (content.toList.extract (i * step) (min (i * step + size) content.length))
            index := i
            total := chunks.length }) ∧
      (content.length ≤ maxTextSize → chunkText64? options content = some chunks) := by
  intro size overlap step chunks
  have hchunks : chunks = Chunk.ofTexts
      ((List.range (1 + (content.length - size) ⌈/⌉ step)).map fun i => String.ofList
        (content.toList.extract (i * step) (min (i * step + size) content.length))) := by
    change chunkText options content = _
    rw [chunkText, Span.cutAll_eq, windowSpans_eq options hlong, List.map_map]
    rfl
  have hcount : chunks.length = 1 + (content.length - size) ⌈/⌉ step := by
    rw [hchunks, Chunk.length_ofTexts, List.length_map, List.length_range]
  refine ⟨?_, fun i hi => ?_, chunkText64?_eq options content hlong⟩
  · rw [hcount]
    split
    case isTrue hle => rw [Nat.sub_eq_zero_of_le hle, zero_ceilDiv, Nat.add_zero]
    case isFalse => rfl
  · have hplace := Chunk.getElem_ofTexts _ i (by rwa [hchunks] at hi)
    simp only [hchunks, hplace]
    simp

/-- Where the last step ends with the text, no window follows the one that is
full. -/
theorem chunkText_closed_form_whole_steps :
    let options : TextOptions := { chunkSize := 4, overlap := 1, threshold := 2 }
    let content := "abcdefghij"
    let chunks := chunkText options content
    ∃ _ : 2 < chunks.length,
      options.threshold.toNat < content.length ∧ chunks.length = 3 ∧
        chunks[2] = ⟨"ghij", 2, chunks.length⟩ ∧ chunkText64? options content = some chunks := by
  intro options content chunks
  have hlong : options.threshold.toNat < content.length := by
    decide +kernel
  have hsize : content.length ≤ maxTextSize := by
    decide +kernel
  rcases chunkText_closed_form options content hlong with ⟨hcount, hplaces, hexact⟩
  -- Six characters lie behind the first window, which are two steps of three.
  have hthree : (if content.length ≤ 4 then 1 else 1 + (content.length - 4) ⌈/⌉ 3) = 3 := by
    rw [Nat.ceilDiv_eq_add_pred_div]
    decide +kernel
  have htext : String.ofList (content.toList.extract (2 * 3) (min (2 * 3 + 4) content.length)) =
      "ghij" := by
    decide +kernel
  have hlength : chunks.length = 3 := hcount.trans hthree
  have hlast : 2 < chunks.length := by omega
  have hplace := hplaces 2 hlast
  exact ⟨hlast, hlong, hlength, hplace.trans (congrArg (Chunk.mk · 2 chunks.length) htext),
    hexact hsize⟩

end Chunking
