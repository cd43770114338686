import Chunking.Proofs.MatchedBrackets
import Mathlib.Algebra.Group.Nat.Defs
import Mathlib.Algebra.Ring.Int.Defs

/-!
# Commas found by counting

A text is cut at its commas by one count of open brackets. Its parts can be given as texts,
and cutting them out by their offsets comes to the same.

The count has 32 bits and wraps around. What is behind a text still follows from the net
change of the text alone: the count there is exact if the exact one is in range, whatever
has happened on the way. A count that is checked is another matter, because it gives up
where it leaves its range first. It comes through if and only if the net change of every
beginning of the text is in range, and then the parts are the same. No text that is shorter
than `2 ^ 31` characters can bring it there.

## Main definitions

* `netChange`: How a text changes the number of open brackets.
* `topLevelPieces`: The texts between commas outside brackets.
* `CountFits`: No beginning of a text takes the count out of its range.

## Theorems

* `slice?_eq_some_iff`: What a range cuts out.
* `toInt_add_ofInt`, `toInt_add_ofInt_of_inRange`: A count of 32 bits.
* `mapM_slice?_topLevelParts`: The ranges between commas are those of the pieces.
* `checkedPartsFrom?_eq_some_iff`: When a checked count comes through.
* `countFits_of_length_lt`: A short text never leaves the range.
-/

namespace Chunking

open Text

variable {depth : Int32} {text : List Char}

/-! ## The count of open brackets -/

/-- How a text changes the number of open brackets. -/
def netChange (text : List Char) : Int :=
  (text.map bracketChange).sum

theorem netChange_cons (c : Char) (text : List Char) :
    netChange (c :: text) = bracketChange c + netChange text :=
  rfl

/-- The net change of texts in a row is the sum of theirs. -/
theorem netChange_append (first second : List Char) :
    netChange (first ++ second) = netChange first + netChange second := by
  induction first with
  | nil => simp [netChange]
  | cons c first ih => rw [List.cons_append, netChange_cons, netChange_cons, ih, Int.add_assoc]

/-- Behind a change the count is what it would be without bounds, but for a multiple of
`2 ^ 32`. -/
theorem toInt_add_ofInt (count : Int32) (change : Int) :
    (count + Int32.ofInt change).toInt = (count.toInt + change).bmod (2 ^ 32) := by
  rw [Int32.toInt_add, Int32.toInt_ofInt]
  exact Int.add_bmod_bmod

/-- The count is exact where it is in range, whether or not it has been before. -/
theorem toInt_add_ofInt_of_inRange {count : Int32} {change : Int}
    (hlow : -2 ^ 31 ≤ count.toInt + change) (hhigh : count.toInt + change < 2 ^ 31) :
    (count + Int32.ofInt change).toInt = count.toInt + change := by
  rw [toInt_add_ofInt]
  exact Int.bmod_eq_of_le (by omega) (by omega)

-- The change of one more character can be counted to the text behind it. Sums wrap around in
-- the same way whatever they are put together from.
theorem depthBehind_add_ofInt (count : Int32) (c : Char) (text : List Char) :
    depthBehind count c + Int32.ofInt (netChange text) =
      count + Int32.ofInt (netChange (c :: text)) := by
  rw [depthBehind, netChange_cons, Int32.ofInt_add, Int32.add_assoc]

/-- A text opens and closes no more brackets than it has characters. -/
theorem abs_netChange_le_length (text : List Char) :
    -(text.length : Int) ≤ netChange text ∧ netChange text ≤ text.length := by
  induction text with
  | nil => exact ⟨Int.le_refl 0, Int.le_refl 0⟩
  | cons c text ih =>
      have hchange : -1 ≤ bracketChange c ∧ bracketChange c ≤ 1 := by
        unfold bracketChange
        split_ifs <;> decide
      rw [netChange_cons, List.length_cons]
      omega

/-! ## Pieces between commas -/

/-- A range that is cut out is the text between its ends. -/
theorem slice?_eq_some_iff {before inside after part : List Char} :
    ByteRange.slice? ⟨byteLength before, byteLength (before ++ inside)⟩
      (before ++ inside ++ after) = some part ↔ part = inside := by
  have hinside : ByteRange.slice? ⟨byteLength before, byteLength (before ++ inside)⟩
      (before ++ inside ++ after) = some inside :=
    sliceBytes?_eq_some_iff.mpr ⟨before, after, rfl, rfl, rfl⟩
  rw [hinside, Option.some.injEq, eq_comm]

/-- The texts between commas outside brackets, where a piece that started before is
still open. -/
def topLevelPiecesFrom (depth : Int32) (current : List Char) : List Char → List (List Char)
  | [] => [current]
  | c :: rest =>
    if c = ',' ∧ depth ≤ 0 then
      current :: topLevelPiecesFrom depth [] rest
    else
      topLevelPiecesFrom (depthBehind depth c) (current ++ [c]) rest

/-- The texts between the commas of a text that lie outside brackets. -/
def topLevelPieces (text : List Char) : List (List Char) :=
  topLevelPiecesFrom 0 [] text

-- The ranges are cut out of all of the text, of which some is done already.
theorem mapM_slice?_topLevelPartsFrom (depth : Int32) (done current rest : List Char) :
    (topLevelPartsFrom depth (byteLength done) (byteLength (done ++ current)) rest).mapM
        (ByteRange.slice? · (done ++ current ++ rest)) =
      some (topLevelPiecesFrom depth current rest) := by
  have hpiece (rest : List Char) :
      ByteRange.slice? ⟨byteLength done, byteLength (done ++ current)⟩ (done ++ current ++ rest) =
        some current :=
    slice?_eq_some_iff.mpr rfl
  induction rest generalizing depth done current with
  | nil =>
      rw [topLevelPartsFrom, topLevelPiecesFrom, List.mapM_cons, hpiece]
      rfl
  | cons c rest ih =>
      -- A comma is cut off with the piece before it, and what is done ends behind it.
      have hnext : byteLength (done ++ current) + c.utf8Size =
          byteLength (done ++ (current ++ [c])) := by
        simp only [byteLength_append, byteLength_cons, byteLength_nil]
        omega
      have htext : done ++ current ++ c :: rest = done ++ (current ++ [c]) ++ rest := by
        simp
      rw [topLevelPartsFrom, topLevelPiecesFrom, hnext]
      split_ifs with hcomma
      · have hmore := ih depth (done ++ (current ++ [c])) []
          fun rest => slice?_eq_some_iff.mpr rfl
        rw [List.append_nil] at hmore
        rw [List.mapM_cons, hpiece, htext, hmore]
        rfl
      · rw [htext]
        exact ih _ done (current ++ [c]) fun rest => slice?_eq_some_iff.mpr rfl

/-- The ranges between commas are those of the pieces. -/
theorem mapM_slice?_topLevelParts (text : List Char) :
    (topLevelParts text).mapM (ByteRange.slice? · text) = some (topLevelPieces text) :=
  mapM_slice?_topLevelPartsFrom 0 [] [] text

/-! ## A checked count -/

/-- No beginning of the text takes the count out of its range. -/
def CountFits (depth : Int32) (text : List Char) : Prop :=
  ∀ front, front <+: text →
    -2 ^ 31 ≤ depth.toInt + netChange front ∧ depth.toInt + netChange front < 2 ^ 31

theorem countFits_nil (depth : Int32) : CountFits depth [] := by
  intro front hfront
  rw [List.prefix_nil.mp hfront]
  -- The count is where it was, and any count is in range.
  have hlow := depth.le_toInt
  have hhigh := depth.toInt_lt
  simp only [netChange, List.map_nil, List.sum_nil]
  omega

/-- A text comes through if its first character does and then the rest. -/
theorem countFits_cons_iff {c : Char} :
    CountFits depth (c :: text) ↔
      (depthBehind depth c).toInt = depth.toInt + bracketChange c ∧
        CountFits (depthBehind depth c) text := by
  constructor
  · intro h
    have hfirst := h [c] ⟨text, rfl⟩
    simp only [netChange, List.map_cons, List.map_nil, List.sum_cons, List.sum_nil,
      Int.add_zero] at hfirst
    -- The character is itself a beginning of the text.
    have hexact : (depthBehind depth c).toInt = depth.toInt + bracketChange c :=
      toInt_add_ofInt_of_inRange hfirst.1 hfirst.2
    refine ⟨hexact, fun front hfront => ?_⟩
    have hmore := h (c :: front) ((List.prefix_cons_inj c).mpr hfront)
    rw [netChange_cons] at hmore
    rw [hexact]
    omega
  · rintro ⟨hexact, h⟩ front hfront
    rcases List.prefix_cons_iff.mp hfront with rfl | ⟨front, rfl, hrest⟩
    · exact countFits_nil depth [] List.prefix_rfl
    · have hmore := h front hrest
      rw [hexact] at hmore
      rw [netChange_cons]
      omega

/-- A checked count comes through if no beginning of the text takes it out of its range, and
then the parts are those of the count that wraps around. -/
theorem checkedPartsFrom?_eq_some_iff {partStart offset : Nat} {ranges : List ByteRange} :
    checkedPartsFrom? depth partStart offset text = some ranges ↔
      CountFits depth text ∧ ranges = topLevelPartsFrom depth partStart offset text := by
  induction text generalizing depth partStart offset ranges with
  | nil =>
      rw [checkedPartsFrom?, topLevelPartsFrom, Option.some.injEq,
        and_iff_right (countFits_nil depth), eq_comm]
  | cons c text ih =>
      rw [checkedPartsFrom?, topLevelPartsFrom, countFits_cons_iff]
      split_ifs with hcut hexact
      · -- A comma changes nothing, so it never takes the count anywhere.
        have hcomma : bracketChange c = 0 := by
          rw [hcut.1]
          decide
        rw [depthBehind_of_eq_zero hcomma, hcomma, Int.add_zero, and_iff_right rfl,
          Option.map_eq_some_iff]
        constructor
        · rintro ⟨more, hmore, rfl⟩
          rcases ih.mp hmore with ⟨hfits, rfl⟩
          exact ⟨hfits, rfl⟩
        · rintro ⟨hfits, rfl⟩
          exact ⟨_, ih.mpr ⟨hfits, rfl⟩, rfl⟩
      · rw [and_iff_right hexact]
        exact ih
      · exact iff_of_false (by simp) fun h => hexact h.1.1

/-- So do the parts of a whole text. -/
theorem checkedParts?_of_fits (h : CountFits 0 text) :
    checkedParts? text = some (topLevelParts text) :=
  checkedPartsFrom?_eq_some_iff.mpr ⟨h, rfl⟩

theorem checkedParts?_of_not_fits (h : ¬CountFits 0 text) : checkedParts? text = none := by
  rw [Option.eq_none_iff_forall_ne_some]
  intro ranges hranges
  exact h (checkedPartsFrom?_eq_some_iff.mp hranges).1

/-- A short text never takes the count out of its range. -/
theorem countFits_of_length_lt (h : text.length < 2 ^ 31) : CountFits 0 text := by
  intro front hfront
  have hlength := hfront.length_le
  have hnet := abs_netChange_le_length front
  rw [Int32.toInt_zero]
  omega

end Chunking
