import Chunking.Proofs.Recovery
import Chunking.Proofs.WindowPlaces

/-!
# Options that are used as they are

A window that would not advance is never used. What the options say is cut
down first, and `validate` is there to refuse options that this would change.
For the options of prose it does so exactly: they pass if and only if the
window that is used is the one they describe.

There is a second way to the windows. A file that is split as source code but
is none gets a window made of its target size and the default overlap, and
`validate` does not look at that one. A target that is not larger than the
default overlap passes, and then the window is cut down after all, as far as
to a step of one character.

## Main definitions

* `TextOptions.Unclamped`: The window that is used is the one described.

## Theorems

* `TextOptions.validate_eq_ok_iff`: The options of prose that pass.
* `unclamped_asText_iff`: The targets whose window is used as it is.
* `start_windowsFrom`: Where each window starts.
* `unclamped_windowOptions_iff`: What `validate` says about the windows of a file.
-/

namespace Chunking

/-- The window that is used is the one that the options describe. -/
structure TextOptions.Unclamped (options : TextOptions) : Prop where
  size_eq : options.frame.size = options.chunkSize.toNat
  overlap_eq : options.frame.overlap = options.overlap.toNat

theorem TextOptions.unclamped_iff (options : TextOptions) :
    options.Unclamped ↔ options.overlap.toNat < options.chunkSize.toNat := by
  constructor
  · intro h
    rw [← h.size_eq, ← h.overlap_eq]
    exact options.frame.overlap_lt_size
  · intro h
    -- Neither of the two bounds is reached.
    refine ⟨?_, ?_⟩ <;> simp only [TextOptions.frame] <;> omega

/-- The options of prose pass exactly if their window is used as it is. -/
theorem TextOptions.validate_eq_ok_iff (options : TextOptions) :
    options.validate = .ok () ↔ options.Unclamped := by
  rw [options.unclamped_iff, ← UInt64.lt_iff_toNat_lt, validate]
  split
  case isTrue hzero => simp [hzero]
  case isFalse =>
      split
      case isTrue hle => simpa using hle
      case isFalse hlt => simpa using hlt

/-- The window that takes the place of code boundaries is used as it is exactly
if the target is larger than the default overlap. -/
theorem unclamped_asText_iff (options : CodeOptions) :
    options.asText.Unclamped ↔ defaultOverlap < options.targetSize := by
  rw [options.asText.unclamped_iff, ← UInt64.lt_iff_toNat_lt]
  rfl

-- The options of prose are looked at first.
theorem validate_text_of_validate {config : Config} (h : config.validate = .ok ()) :
    config.text.validate = .ok () := by
  cases htext : config.text.validate with
  | ok => rfl
  | error error =>
      rw [Config.validate, htext] at h
      cases h

/-- Every window starts a step behind the one before it. -/
theorem start_windowsFrom (frame : Frame) (length start i : Nat) {span : Span}
    (h : (windowsFrom frame length start)[i]? = some span) :
    span.start = start + i * frame.step := by
  rw [windowsFrom_eq, List.getElem?_map, Option.map_eq_some_iff] at h
  rcases h with ⟨j, hj, rfl⟩
  rcases List.getElem?_eq_some_iff.mp hj with ⟨_, rfl⟩
  rw [List.getElem_range]

theorem start_windowSpans (options : TextOptions) (length i : Nat) {span : Span}
    (h : (windowSpans options length)[i]? = some span) :
    span.start = i * options.frame.step := by
  unfold windowSpans at h
  split at h
  -- Up to the threshold there is one window, which starts at the start.
  · rcases List.getElem?_eq_some_iff.mp h with ⟨hi, rfl⟩
    have hzero : i = 0 := by
      simpa using hi
    simp [hzero]
  · have hstart := start_windowsFrom options.frame length 0 i h
    omega

/-- What it means for the windows of a file that its configuration passes. The
window is the one that the options describe if the file is split as prose, and
otherwise exactly if the target is larger than the default overlap. In both
cases every window then starts behind the one before it by as many characters
as the size exceeds the overlap. -/
theorem unclamped_windowOptions_iff (config : Config) (hvalid : config.validate = .ok ())
    (strategy : Strategy) (fileName : String)
    (hplain : ¬(strategy = .code ∧ isCodeFile fileName = true)) :
    let options := config.windowOptions strategy
    (options.Unclamped ↔ (strategy = .code → defaultOverlap < config.code.targetSize)) ∧
      ∀ content : String, ∃ spans : List Span,
        (config.chunker strategy).chunk fileName content =
          Chunk.ofTexts (spans.map fun span => String.ofList (span.cut content.toList)) ∧
        ((strategy = .code → defaultOverlap < config.code.targetSize) →
          ∀ (i : Nat) (first second : Span), spans[i]? = some first → spans[i + 1]? = some second →
            second.start = first.start + (options.chunkSize.toNat - options.overlap.toNat)) := by
  intro options
  have hunclamped :
      options.Unclamped ↔ (strategy = .code → defaultOverlap < config.code.targetSize) := by
    cases strategy with
    | code =>
        have hcode := unclamped_asText_iff config.code
        exact ⟨fun h _ => hcode.mp h, fun h => hcode.mpr (h rfl)⟩
    | text =>
        have htext := config.text.validate_eq_ok_iff.mp (validate_text_of_validate hvalid)
        exact ⟨fun _ h => Strategy.noConfusion h, fun _ => htext⟩
  refine ⟨hunclamped, fun content => ⟨_, chunk_eq_of_not_code config content hplain, ?_⟩⟩
  intro hlarge i first second hfirst hsecond
  -- The step is made of what is used, and that is what is described.
  have hwindow := hunclamped.mpr hlarge
  rw [start_windowSpans _ _ _ hsecond, start_windowSpans _ _ _ hfirst, Nat.succ_mul,
    ← hwindow.size_eq, ← hwindow.overlap_eq]
  rfl

/-- A target of 201 characters leaves a step of one character, as described. -/
theorem unclamped_windowOptions_iff_least_target :
    let config : Config := { code := { targetSize := 201, threshold := 0 } }
    config.validate = .ok () ∧ ¬(Strategy.code = .code ∧ isCodeFile "a.md" = true) ∧
      defaultOverlap < config.code.targetSize ∧ (config.windowOptions .code).Unclamped := by
  intro config
  have hvalid : config.validate = .ok () := rfl
  have hplain : ¬(Strategy.code = .code ∧ isCodeFile "a.md" = true) := by
    decide +kernel
  have hlarge : defaultOverlap < config.code.targetSize := by
    decide
  exact ⟨hvalid, hplain, hlarge,
    (unclamped_windowOptions_iff config hvalid .code "a.md" hplain).1.mpr fun _ => hlarge⟩

/-- A target of three characters passes, and its windows repeat two of them in
place of two hundred. -/
theorem validate_passes_clamped_target :
    let config : Config := { code := { targetSize := 3, threshold := 0 } }
    config.validate = .ok () ∧ isCodeFile "a.md" = false ∧
      (config.windowOptions .code).overlap = 200 ∧
      ¬(config.windowOptions .code).Unclamped ∧
      ((config.chunker .code).chunk "a.md" "abcde").map Chunk.text = ["abc", "bcd", "cde"] := by
  intro config
  refine ⟨rfl, by decide +kernel, rfl, ?_, by decide +kernel⟩
  rw [(config.windowOptions .code).unclamped_iff]
  decide

end Chunking
