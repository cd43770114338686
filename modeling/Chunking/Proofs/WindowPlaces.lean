import Chunking.Window
import Mathlib.Algebra.Order.Floor.Div

/-!
# Where the windows lie

The windows over a text are laid one after the other, and the last one is known
only when it reaches the end. Still each of them can be told from its number
alone, and so can how many there are.

A window after the first is needed for each step that is begun before the first
window would reach the end. What is begun and not completed counts as well, so
the division is rounded up. Where the text is no longer than a window nothing is
left to divide, and one formula serves both cases.

## Theorems

* `ceilDiv_eq_succ`: A step that is taken off counts as one.
* `windowsFrom_eq`: The windows from an offset on.
* `windowSpans_eq`: The windows of a text that is split.
-/

namespace Chunking

theorem ceilDiv_eq_succ {n step : Nat} (hstep : 0 < step) (hn : 0 < n) :
    n ⌈/⌉ step = (n - step) ⌈/⌉ step + 1 := by
  rw [Nat.ceilDiv_eq_add_pred_div, Nat.ceilDiv_eq_add_pred_div]
  by_cases hle : step ≤ n
  · have hwhole : n + step - 1 = n - step + step - 1 + step := by omega
    rw [hwhole, Nat.add_div_right _ hstep]
  · have hnone : n - step = 0 := by omega
    have hrest : n + step - 1 = n - 1 + step := by omega
    rw [hnone, hrest, Nat.add_div_right _ hstep, Nat.div_eq_of_lt (by omega),
      Nat.div_eq_of_lt (by omega)]

/-- The windows from an offset on. Each starts a step behind the one before it,
and the last one is cut off at the end of the text. -/
theorem windowsFrom_eq (frame : Frame) (length start : Nat) :
    windowsFrom frame length start =
      (List.range (1 + (length - start - frame.size) ⌈/⌉ frame.step)).map fun i =>
        ⟨start + i * frame.step, min (start + i * frame.step + frame.size) length⟩ := by
  have hstep := frame.step_pos
  fun_induction windowsFrom frame length start with
  | case1 start hlt ih =>
      have hrest : length - (start + frame.step) - frame.size =
          length - start - frame.size - frame.step := by
        omega
      have hcount : 1 + (length - start - frame.size) ⌈/⌉ frame.step =
          1 + (length - (start + frame.step) - frame.size) ⌈/⌉ frame.step + 1 := by
        rw [ceilDiv_eq_succ hstep (by omega), hrest, Nat.add_assoc]
      rw [hcount, List.range_succ_eq_map, List.map_cons, List.map_map, ih]
      have hfirst : min (start + 0 * frame.step + frame.size) length = start + frame.size := by
        omega
      rw [hfirst, Nat.zero_mul, Nat.add_zero]
      refine congrArg _ (List.map_congr_left fun i _ => ?_)
      have hnext : start + (i + 1) * frame.step = start + frame.step + i * frame.step := by
        rw [Nat.succ_mul]
        omega
      rw [Function.comp_apply, Nat.succ_eq_add_one, hnext]
  | case2 start hlt =>
      have hnone : length - start - frame.size = 0 := by omega
      have hend : min (start + 0 * frame.step + frame.size) length = length := by omega
      rw [hnone, zero_ceilDiv, Nat.add_zero, List.range_one, List.map_singleton, hend,
        Nat.zero_mul, Nat.add_zero]

/-- The windows of a text above the threshold. -/
theorem windowSpans_eq (options : TextOptions) {length : Nat}
    (hlong : options.threshold.toNat < length) :
    windowSpans options length =
      (List.range (1 + (length - options.frame.size) ⌈/⌉ options.frame.step)).map fun i =>
        ⟨i * options.frame.step, min (i * options.frame.step + options.frame.size) length⟩ := by
  rw [windowSpans, if_neg (Nat.not_le_of_lt hlong), windowsFrom_eq]
  simp only [Nat.sub_zero, Nat.zero_add]

end Chunking
