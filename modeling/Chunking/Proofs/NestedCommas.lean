import Chunking.Proofs.CountedCommas
import Chunking.Proofs.Pieces
import Mathlib.Data.Set.Card

/-!
# Commas between brackets

A text is cut at the commas where the count of open brackets is not positive, and the one
count serves the four kinds of brackets. What is wanted is a cut at the commas that no
pair of brackets lies around. The two agree as long as every bracket has a partner and the
count does not wrap around, and here it is said what happens to a comma otherwise.

A bracket before a comma is one of four. Its partner also comes before the comma, and the
pair leaves the count as it was. Or its partner comes behind the comma, and the pair lies
around it. Or it opens and is never closed, or it closes and nothing was open. So the
count at a comma is the number of pairs around it, and of brackets before it that are
never closed, less the number of those that close nothing. That is `netChange_eq`, and
it holds for each kind on its own, since only brackets of one kind are partners. The count
has 32 bits, so this is what it is up to a multiple of `2 ^ 32`.

A bracket is named by the text before it. So is a comma.

## Main definitions

* `bracketKinds`: The opening and the closing bracket of each kind.
* `Closes`: Two brackets are partners.
* `LiesAround`, `IsUnclosed`, `IsStray`: What a bracket can be to a comma.
* `numberOfBrackets`: The number of such brackets, of all kinds.
* `IsNested`: A pair of brackets lies around a comma.
* `AllMatched`: Every bracket has a partner.
* `IsCutAt`: One of the parts ends at a comma.

## Theorems

* `Closes.unique`, `Closes.unique_opening`: A bracket has one partner.
* `ncard_add_count_eq`: The brackets of one kind before a comma.
* `isCutAt_iff_netChange`: Where a text is cut.
* `isCutAt_iff_not_nested`: Which commas a text is cut at, and when these are the ones
  that no pair lies around.
-/

namespace Chunking

open Text

/-- The opening and the closing bracket of each kind. -/
def bracketKinds : List (Char × Char) :=
  [('<', '>'), ('(', ')'), ('[', ']'), ('\x7b', '\x7d')]

/-- The bracket that opens behind `front` is closed behind `inner`. -/
def Closes (kind : Char × Char) (text front inner : List Char) : Prop :=
  Balanced kind.1 kind.2 inner ∧ ∃ after, text = front ++ kind.1 :: (inner ++ kind.2 :: after)

/-- The bracket that opens behind `front` and its partner lie around the place behind
`before`. -/
def LiesAround (kind : Char × Char) (text before front : List Char) : Prop :=
  ∃ inner, Closes kind text front inner ∧ front.length < before.length ∧
    before.length < (front ++ kind.1 :: inner).length

/-- A bracket before the place opens behind `front` and is never closed. -/
def IsUnclosed (kind : Char × Char) (text before front : List Char) : Prop :=
  front ++ [kind.1] <+: before ∧ ∀ inner, ¬Closes kind text front inner

/-- A bracket before the place closes behind `front`, and it closes nothing. -/
def IsStray (kind : Char × Char) (text before front : List Char) : Prop :=
  front ++ [kind.2] <+: before ∧
    ∀ opened inner, Closes kind text opened inner → front ≠ opened ++ kind.1 :: inner

/-- The number of brackets of a sort, of the four kinds together. -/
noncomputable def numberOfBrackets (sort : Char × Char → List Char → Prop) : Nat :=
  (bracketKinds.map fun kind => {front | sort kind front}.ncard).sum

/-- A pair of brackets of one of the kinds lies around the place behind `before`. -/
def IsNested (text before : List Char) : Prop :=
  ∃ kind ∈ bracketKinds, ∃ front, LiesAround kind text before front

/-- Every bracket of the text has a partner. -/
def AllMatched (text : List Char) : Prop :=
  ∀ kind ∈ bracketKinds, ∀ front,
    (front ++ [kind.1] <+: text → ∃ inner, Closes kind text front inner) ∧
      (front ++ [kind.2] <+: text → ∃ opened inner, Closes kind text opened inner ∧
        front = opened ++ kind.1 :: inner)

/-- One of the parts of the text ends behind `before`. -/
def IsCutAt (text before : List Char) : Prop :=
  ∃ range ∈ topLevelParts text, range.stop = byteLength before

variable {kind : Char × Char} {text before after front inner : List Char}

/-! ## Partners -/

/-- A bracket is closed by one bracket only. -/
theorem Closes.unique {inner' : List Char} (hne : kind.1 ≠ kind.2)
    (h : Closes kind text front inner) (h' : Closes kind text front inner') : inner = inner' := by
  rcases h with ⟨hinner, after, rfl⟩
  rcases h' with ⟨hinner', after', htext⟩
  have hrest := (List.cons.inj (List.append_cancel_left htext)).2
  exact (hinner.eq_of_append_eq hne hinner' hrest).1

-- With an opening bracket in front, a balanced text could only be a part of a balanced
-- text that goes on behind it.
theorem not_balanced_append (hne : kind.1 ≠ kind.2) (hinner : Balanced kind.1 kind.2 inner) :
    ¬Balanced kind.1 kind.2 (front ++ kind.1 :: inner) := by
  intro h
  have hbelow := h.below front (kind.1 :: inner) rfl
  have hlevel := h.level
  have hinside := hinner.level
  rw [List.count_append, List.count_append, List.count_cons_of_ne hne,
    List.count_cons_self] at hlevel
  omega

/-- A bracket closes one bracket only. -/
theorem Closes.unique_opening {front' inner' : List Char} (hne : kind.1 ≠ kind.2)
    (h : Closes kind text front inner) (h' : Closes kind text front' inner')
    (hplace : front ++ kind.1 :: inner = front' ++ kind.1 :: inner') :
    front = front' ∧ inner = inner' := by
  rcases append_eq_append_cons_cases hplace with ⟨more, rfl, hinner⟩ | ⟨more, rfl, hinner⟩
  · rw [hinner] at h'
    exact absurd h'.1 (not_balanced_append hne h.1)
  · cases more with
    | nil => exact ⟨(List.append_nil front).symm, (List.cons.inj hinner).2⟩
    | cons d more =>
        rcases List.cons.inj hinner with ⟨-, hinner⟩
        rw [hinner] at h
        exact absurd h.1 (not_balanced_append hne h'.1)

/-! ## Counting brackets -/

/-- The places of a character in a text. -/
def placesOf (c : Char) (text : List Char) : Set (List Char) :=
  {front | front ++ [c] <+: text}

theorem finite_placesOf (c : Char) (text : List Char) : (placesOf c text).Finite := by
  refine (List.finite_toSet text.inits).subset fun front hfront => ?_
  exact (List.mem_inits _ _).mpr ((List.prefix_append front [c]).trans hfront)

/-- A character has as many places as it occurs times. -/
theorem ncard_placesOf (c : Char) (text : List Char) : (placesOf c text).ncard = text.count c := by
  induction text using List.reverseRecOn with
  | nil =>
      have hempty : placesOf c [] = ∅ := by
        ext front
        simp [placesOf]
      rw [hempty, Set.ncard_empty, List.count_nil]
  | append_singleton text d ih =>
      have hplaces (front : List Char) :
          front ∈ placesOf c (text ++ [d]) ↔ front = text ∧ c = d ∨ front ∈ placesOf c text := by
        refine List.prefix_concat_iff.trans (or_congr_left ⟨fun h => ?_, ?_⟩)
        · rcases List.append_inj' h rfl with ⟨hfront, hlast⟩
          exact ⟨hfront, (List.cons.inj hlast).1⟩
        · rintro ⟨rfl, rfl⟩
          rfl
      by_cases hc : c = d
      · subst hc
        have hinsert : placesOf c (text ++ [c]) = insert text (placesOf c text) := by
          ext front
          rw [hplaces, Set.mem_insert_iff, and_iff_left rfl]
        -- The last place lies behind all others.
        have hnew : text ∉ placesOf c text := by
          intro hmem
          have hlength := hmem.length_le
          rw [List.length_append, List.length_singleton] at hlength
          omega
        rw [hinsert, Set.ncard_insert_of_notMem hnew (finite_placesOf c text), ih,
          List.count_append, List.count_singleton_self]
      · have hsame : placesOf c (text ++ [d]) = placesOf c text := by
          ext front
          rw [hplaces, or_iff_right fun h => hc h.2]
        rw [hsame, ih, List.count_append, List.count_singleton, if_neg (by simpa using Ne.symm hc),
          Nat.add_zero]

/-! ## The brackets before a comma -/

-- The pairs of which both brackets come before a place, by the text before the first one
-- and the text between the two.
def closedPairs (kind : Char × Char) (text before : List Char) : Set (List Char × List Char) :=
  {pair | Closes kind text pair.1 pair.2 ∧ pair.1 ++ kind.1 :: pair.2 ++ [kind.2] <+: before}

theorem Closes.opening_prefix (h : Closes kind text front inner) : front ++ [kind.1] <+: text := by
  rcases h with ⟨-, after, rfl⟩
  exact ⟨inner ++ kind.2 :: after, by simp⟩

/-- An opening bracket before a comma is closed before it, or behind it, or never. -/
theorem placesOf_opening_eq (hcomma : kind.2 ≠ ',') (htext : text = before ++ ',' :: after) :
    placesOf kind.1 before = Prod.fst '' closedPairs kind text before ∪
      ({front | LiesAround kind text before front} ∪
        {front | IsUnclosed kind text before front}) := by
  ext front
  constructor
  · intro hfront
    by_cases hclosed : ∃ inner, Closes kind text front inner
    · rcases hclosed with ⟨inner, hcloses⟩
      rcases hcloses.2 with ⟨following, hfollowing⟩
      have hsplit : before ++ ',' :: after =
          (front ++ kind.1 :: inner) ++ kind.2 :: following := by
        rw [← htext, hfollowing]
        simp
      rcases append_eq_append_cons_cases hsplit with ⟨rest, rfl, -⟩ | ⟨rest, hplace, hrest⟩
      · exact .inl ⟨(front, inner), ⟨hcloses, ⟨rest, by simp⟩⟩, rfl⟩
      · -- The comma itself is no bracket, so the partner comes behind it.
        refine .inr (.inl ⟨inner, hcloses, ?_, ?_⟩)
        · have hlength := hfront.length_le
          rw [List.length_append, List.length_singleton] at hlength
          omega
        · cases rest with
          | nil => exact absurd (List.cons.inj hrest).1.symm hcomma
          | cons d rest =>
              rw [hplace, List.length_append, List.length_cons]
              omega
    · exact .inr (.inr ⟨hfront, fun inner h => hclosed ⟨inner, h⟩⟩)
  · rintro (⟨⟨front, inner⟩, ⟨-, hpair⟩, rfl⟩ | ⟨inner, hcloses, hlt, -⟩ | hunclosed)
    · exact .trans ⟨inner ++ [kind.2], by simp⟩ hpair
    · refine List.prefix_of_prefix_length_le hcloses.opening_prefix
        ⟨',' :: after, htext.symm⟩ ?_
      rw [List.length_append, List.length_singleton]
      omega
    · exact hunclosed.1

/-- A closing bracket before a comma closes one that opens before it, or nothing. -/
theorem placesOf_closing_eq (kind : Char × Char) (text before : List Char) :
    placesOf kind.2 before =
      (fun pair => pair.1 ++ kind.1 :: pair.2) '' closedPairs kind text before ∪
        {front | IsStray kind text before front} := by
  ext front
  constructor
  · intro hfront
    by_cases hopened : ∃ opened inner, Closes kind text opened inner ∧
        front = opened ++ kind.1 :: inner
    · rcases hopened with ⟨opened, inner, hcloses, rfl⟩
      exact .inl ⟨(opened, inner), ⟨hcloses, hfront⟩, rfl⟩
    · exact .inr ⟨hfront, fun opened inner h heq => hopened ⟨opened, inner, h, heq⟩⟩
  · rintro (⟨pair, ⟨-, hpair⟩, rfl⟩ | hstray)
    · exact hpair
    · exact hstray.1

/-- A pair has one opening bracket, which opens no other pair. -/
theorem ncard_openings (hne : kind.1 ≠ kind.2) :
    (Prod.fst '' closedPairs kind text before).ncard = (closedPairs kind text before).ncard := by
  refine Set.InjOn.ncard_image ?_
  rintro ⟨front, inner⟩ ⟨hcloses, -⟩ ⟨front', inner'⟩ ⟨hcloses', -⟩ hfront
  dsimp only at hcloses hcloses' hfront
  subst hfront
  rw [hcloses.unique hne hcloses']

/-- A pair has one closing bracket, which closes no other pair. -/
theorem ncard_closings (hne : kind.1 ≠ kind.2) :
    ((fun pair => pair.1 ++ kind.1 :: pair.2) '' closedPairs kind text before).ncard =
      (closedPairs kind text before).ncard := by
  refine Set.InjOn.ncard_image ?_
  rintro ⟨front, inner⟩ ⟨hcloses, -⟩ ⟨front', inner'⟩ ⟨hcloses', -⟩ hplace
  rcases hcloses.unique_opening hne hcloses' hplace with ⟨rfl, rfl⟩
  rfl

/-- Of one kind, the brackets that open before a comma are as many as those that close
before it, with the pairs around the comma and the brackets that are never closed, and
without those that close nothing. -/
theorem ncard_add_count_eq (hne : kind.1 ≠ kind.2) (hcomma : kind.2 ≠ ',')
    (htext : text = before ++ ',' :: after) :
    {front | LiesAround kind text before front}.ncard +
          {front | IsUnclosed kind text before front}.ncard + before.count kind.2 =
      before.count kind.1 + {front | IsStray kind text before front}.ncard := by
  have hopening := placesOf_opening_eq hcomma htext
  have hclosing := placesOf_closing_eq kind text before
  have hfinite := finite_placesOf kind.1 before
  have hfinite' := finite_placesOf kind.2 before
  rw [hopening, Set.finite_union, Set.finite_union] at hfinite
  rw [hclosing, Set.finite_union] at hfinite'
  -- Each bracket is of one sort only, because it has only one partner.
  have hapart : Disjoint (Prod.fst '' closedPairs kind text before)
      ({front | LiesAround kind text before front} ∪
        {front | IsUnclosed kind text before front}) := by
    rw [Set.disjoint_left]
    rintro _ ⟨⟨front, inner⟩, ⟨hcloses, hpair⟩, rfl⟩ (⟨inner', hcloses', -, hbehind⟩ | hunclosed)
    · have hlength := hpair.length_le
      rw [← hcloses.unique hne hcloses'] at hbehind
      rw [List.length_append, List.length_singleton] at hlength
      omega
    · exact hunclosed.2 inner hcloses
  have hapart' : Disjoint {front | LiesAround kind text before front}
      {front | IsUnclosed kind text before front} := by
    rw [Set.disjoint_left]
    rintro front ⟨inner, hcloses, -⟩ hunclosed
    exact hunclosed.2 inner hcloses
  have hapart'' : Disjoint
      ((fun pair => pair.1 ++ kind.1 :: pair.2) '' closedPairs kind text before)
      {front | IsStray kind text before front} := by
    rw [Set.disjoint_left]
    rintro _ ⟨pair, ⟨hcloses, -⟩, rfl⟩ hstray
    exact hstray.2 pair.1 pair.2 hcloses rfl
  rw [← ncard_placesOf, ← ncard_placesOf, hopening, hclosing,
    Set.ncard_union_eq hapart hfinite.1 (hfinite.2.1.union hfinite.2.2),
    Set.ncard_union_eq hapart' hfinite.2.1 hfinite.2.2,
    Set.ncard_union_eq hapart'' hfinite'.1 hfinite'.2, ncard_openings hne, ncard_closings hne]
  omega

/-! ## The count at a comma -/

theorem bracketChange_eq_sum (c : Char) :
    bracketChange c = (bracketKinds.map fun kind =>
      (([c].count kind.1 : Int) - [c].count kind.2)).sum := by
  by_cases hc : c ∈ ['<', '(', '[', '\x7b', '>', ')', ']', '\x7d']
  · revert c
    decide
  · simp only [List.mem_cons, List.not_mem_nil, or_false, not_or] at hc
    simp [bracketChange, bracketKinds, List.count_singleton, hc]

/-- The change in the number of open brackets is that of each kind, all four together. -/
theorem netChange_eq_sum (text : List Char) :
    netChange text = (bracketKinds.map fun kind =>
      ((text.count kind.1 : Int) - text.count kind.2)).sum := by
  induction text with
  | nil => rfl
  | cons c text ih =>
      have hcount (d : Char) : (c :: text).count d = [c].count d + text.count d :=
        @List.count_append Char _ d [c] text
      rw [netChange_cons, ih, bracketChange_eq_sum, ← List.sum_map_add]
      congr 1
      refine List.map_congr_left fun kind _ => ?_
      rw [hcount, hcount]
      omega

/-- The count at a comma is the number of pairs around it, and of brackets before it that
are never closed, less the number of those that close nothing. -/
theorem netChange_eq (htext : text = before ++ ',' :: after) :
    netChange before = (numberOfBrackets fun kind => LiesAround kind text before) +
      (numberOfBrackets fun kind => IsUnclosed kind text before) -
        (numberOfBrackets fun kind => IsStray kind text before) := by
  have hkind (kind : Char × Char) (h : kind ∈ bracketKinds) :
      {front | LiesAround kind text before front}.ncard +
          {front | IsUnclosed kind text before front}.ncard + before.count kind.2 =
        before.count kind.1 + {front | IsStray kind text before front}.ncard := by
    have hplain : ∀ kind ∈ bracketKinds, kind.1 ≠ kind.2 ∧ kind.2 ≠ ',' := by
      decide
    exact ncard_add_count_eq (hplain kind h).1 (hplain kind h).2 htext
  rw [netChange_eq_sum]
  simp only [numberOfBrackets, bracketKinds, List.forall_mem_cons, List.map_cons, List.map_nil,
    List.sum_cons, List.sum_nil] at hkind ⊢
  omega

/-! ## Where a text is cut -/

theorem offset_le_stop (depth : Int32) (partStart offset : Nat) (text : List Char) :
    ∀ range ∈ topLevelPartsFrom depth partStart offset text, offset ≤ range.stop := by
  induction text generalizing depth partStart offset with
  | nil => simp [topLevelPartsFrom]
  | cons c text ih =>
      have hmore (depth : Int32) (partStart : Nat) (range : ByteRange)
          (h : range ∈ topLevelPartsFrom depth partStart (offset + c.utf8Size) text) :
          offset ≤ range.stop :=
        Nat.le_of_add_right_le (ih depth partStart _ range h)
      intro range hrange
      unfold topLevelPartsFrom at hrange
      dsimp only at hrange
      split_ifs at hrange with hcut
      · rcases List.mem_cons.mp hrange with rfl | hrange
        · exact Nat.le_refl offset
        · exact hmore _ _ range hrange
      · exact hmore _ _ range hrange

-- The count at the comma is the one that the text starts with, and what has been read since.
theorem exists_stop_iff (depth : Int32) (partStart offset : Nat) (before after : List Char) :
    (∃ range ∈ topLevelPartsFrom depth partStart offset (before ++ ',' :: after),
        range.stop = offset + byteLength before) ↔
      depth + Int32.ofInt (netChange before) ≤ 0 := by
  induction before generalizing depth partStart offset with
  | nil =>
      have hnone (depth : Int32) (partStart : Nat) (range : ByteRange)
          (h : range ∈ topLevelPartsFrom depth partStart (offset + ','.utf8Size) after) :
          range.stop ≠ offset + byteLength [] := by
        have hpos := ','.utf8Size_pos
        have hle := offset_le_stop _ _ _ _ range h
        rw [byteLength_nil]
        omega
      rw [List.nil_append, topLevelPartsFrom]
      split_ifs with hcut
      · refine iff_of_true ⟨_, List.mem_cons_self, rfl⟩ ?_
        simpa [netChange] using hcut.2
      · refine iff_of_false ?_ ?_
        · rintro ⟨range, hrange, hstop⟩
          exact hnone _ _ range hrange hstop
        · simpa [netChange] using hcut
  | cons c before ih =>
      have hlength : offset + byteLength (c :: before) =
          offset + c.utf8Size + byteLength before := by
        rw [byteLength_cons, Nat.add_assoc]
      rw [List.cons_append, topLevelPartsFrom, ← depthBehind_add_ofInt, hlength]
      split_ifs with hcut
      · -- The part that ends here ends before the comma in question.
        have hchange : bracketChange c = 0 := by
          rw [hcut.1]
          decide
        have hpos := c.utf8Size_pos
        rw [depthBehind_of_eq_zero hchange, ← ih depth (offset + c.utf8Size)]
        simp only [List.mem_cons, exists_eq_or_imp]
        exact or_iff_right (by omega)
      · rw [ih]

/-- A text is cut at a comma if the count of open brackets is not positive there. -/
theorem isCutAt_iff_netChange (htext : text = before ++ ',' :: after) :
    IsCutAt text before ↔ (netChange before).bmod (2 ^ 32) ≤ 0 := by
  subst htext
  have hcut := exists_stop_iff 0 0 0 before after
  rwa [Nat.zero_add, Int32.le_iff_toInt_le, toInt_add_ofInt, Int32.toInt_zero, Int.zero_add] at hcut

/-- Up to a comma that is not too far behind, the count is exact. -/
theorem isCutAt_iff_of_length_lt (htext : text = before ++ ',' :: after)
    (hlength : before.length < 2 ^ 31) : IsCutAt text before ↔ netChange before ≤ 0 := by
  have hnet := abs_netChange_le_length before
  rw [isCutAt_iff_netChange htext, Int.bmod_eq_of_le (by omega) (by omega)]

theorem topLevelPiecesFrom_ne_nil (depth : Int32) (current rest : List Char) :
    topLevelPiecesFrom depth current rest ≠ [] := by
  induction rest generalizing depth current with
  | nil => simp [topLevelPiecesFrom]
  | cons c rest ih =>
      unfold topLevelPiecesFrom
      split_ifs
      · exact List.cons_ne_nil _ _
      · exact ih _ _

theorem intercalate_topLevelPiecesFrom (depth : Int32) (current rest : List Char) :
    [','].intercalate (topLevelPiecesFrom depth current rest) = current ++ rest := by
  induction rest generalizing depth current with
  | nil => simp [topLevelPiecesFrom]
  | cons c rest ih =>
      unfold topLevelPiecesFrom
      split_ifs with hcut
      · rw [List.intercalate_cons_of_ne_nil (topLevelPiecesFrom_ne_nil _ _ _), ih, hcut.1]
        simp
      · rw [ih]
        simp

/-- A pair of brackets lies around a comma exactly if there is one to count. -/
theorem isNested_iff (htext : text = before ++ ',' :: after) :
    IsNested text before ↔ 0 < numberOfBrackets fun kind => LiesAround kind text before := by
  have hkind (kind : Char × Char) (h : kind ∈ bracketKinds) :
      0 < {front | LiesAround kind text before front}.ncard ↔
        ∃ front, LiesAround kind text before front := by
    have hcomma : ∀ kind ∈ bracketKinds, kind.2 ≠ ',' := by
      decide
    have hfinite := finite_placesOf kind.1 before
    rw [placesOf_opening_eq (hcomma kind h) htext, Set.finite_union, Set.finite_union] at hfinite
    exact Set.ncard_pos hfinite.2.1
  unfold IsNested numberOfBrackets
  rw [List.sum_pos_iff_exists_pos_nat]
  constructor
  · rintro ⟨kind, hmem, haround⟩
    exact ⟨_, List.mem_map_of_mem hmem, (hkind kind hmem).mpr haround⟩
  · rintro ⟨number, hnumber, hpos⟩
    rcases List.mem_map.mp hnumber with ⟨kind, hmem, rfl⟩
    exact ⟨kind, hmem, (hkind kind hmem).mp hpos⟩

theorem numberOfBrackets_eq_zero {sort : Char × Char → List Char → Prop}
    (h : ∀ kind ∈ bracketKinds, ∀ front, ¬sort kind front) : numberOfBrackets sort = 0 := by
  unfold numberOfBrackets
  refine List.sum_eq_zero fun number hnumber => ?_
  rcases List.mem_map.mp hnumber with ⟨kind, hkind, rfl⟩
  have hempty : {front | sort kind front} = ∅ := by
    ext front
    exact iff_of_false (h kind hkind front) id
  rw [hempty, Set.ncard_empty]

/-- Where every bracket has a partner, a pair around a comma is all that counts there. -/
theorem AllMatched.numberOfBrackets_eq_zero (h : AllMatched text)
    (htext : text = before ++ ',' :: after) :
    (numberOfBrackets fun kind => IsUnclosed kind text before) = 0 ∧
      (numberOfBrackets fun kind => IsStray kind text before) = 0 := by
  have hbegins : before <+: text := ⟨',' :: after, htext.symm⟩
  constructor
  · refine Chunking.numberOfBrackets_eq_zero fun kind hkind front hunclosed => ?_
    rcases (h kind hkind front).1 (hunclosed.1.trans hbegins) with ⟨inner, hcloses⟩
    exact hunclosed.2 inner hcloses
  · refine Chunking.numberOfBrackets_eq_zero fun kind hkind front hstray => ?_
    rcases (h kind hkind front).2 (hstray.1.trans hbegins) with ⟨opened, inner, hcloses, hfront⟩
    exact hstray.2 opened inner hcloses hfront

/-- The parts of a text put together with commas are the text. It is cut at a comma if the
pairs around the comma, and the brackets before it that are never closed, less the brackets
before it that close nothing, are not positive as a number of 32 bits. Near enough to the
start this is so without the wrap. The commas it is cut at are those that no pair lies
around exactly if for each comma that number is positive or no pair lies around it, and not
both. Where every bracket has a partner this is so for the commas with less than `2 ^ 31`
pairs around them. -/
theorem isCutAt_iff_not_nested (text : List Char) :
    (∃ pieces, (topLevelParts text).mapM (ByteRange.slice? · text) = some pieces ∧
        [','].intercalate pieces = text) ∧
      (∀ before after, text = before ++ ',' :: after →
        (IsCutAt text before ↔
          ((numberOfBrackets fun kind => LiesAround kind text before : Int) +
              (numberOfBrackets fun kind => IsUnclosed kind text before) -
            (numberOfBrackets fun kind => IsStray kind text before)).bmod (2 ^ 32) ≤ 0)) ∧
      (∀ before after, text = before ++ ',' :: after → before.length < 2 ^ 31 →
        (IsCutAt text before ↔
          (numberOfBrackets fun kind => LiesAround kind text before) +
              (numberOfBrackets fun kind => IsUnclosed kind text before) ≤
            numberOfBrackets fun kind => IsStray kind text before)) ∧
      ((∀ before after, text = before ++ ',' :: after →
          (IsCutAt text before ↔ ¬IsNested text before)) ↔
        ∀ before after, text = before ++ ',' :: after →
          (IsNested text before →
            0 < ((numberOfBrackets fun kind => LiesAround kind text before : Int) +
                (numberOfBrackets fun kind => IsUnclosed kind text before) -
              (numberOfBrackets fun kind => IsStray kind text before)).bmod (2 ^ 32)) ∧
          (¬IsNested text before →
            ((numberOfBrackets fun kind => IsUnclosed kind text before : Int) -
              (numberOfBrackets fun kind => IsStray kind text before)).bmod (2 ^ 32) ≤ 0)) ∧
      (AllMatched text → ∀ before after, text = before ++ ',' :: after →
        (IsCutAt text before ↔
          (numberOfBrackets fun kind => LiesAround kind text before : Int).bmod (2 ^ 32) ≤ 0) ∧
        ((numberOfBrackets fun kind => LiesAround kind text before) < 2 ^ 31 →
          (IsCutAt text before ↔ ¬IsNested text before))) := by
  have hcut (before after : List Char) (htext : text = before ++ ',' :: after) :
      IsCutAt text before ↔
        ((numberOfBrackets fun kind => LiesAround kind text before : Int) +
            (numberOfBrackets fun kind => IsUnclosed kind text before) -
          (numberOfBrackets fun kind => IsStray kind text before)).bmod (2 ^ 32) ≤ 0 := by
    rw [isCutAt_iff_netChange htext, netChange_eq htext]
  refine ⟨⟨_, mapM_slice?_topLevelParts text, intercalate_topLevelPiecesFrom 0 [] text⟩, hcut,
    fun before after htext hlength => ?_, forall₃_congr fun before after htext => ?_,
    fun hmatched before after htext => ?_⟩
  · rw [isCutAt_iff_of_length_lt htext hlength, netChange_eq htext]
    omega
  · -- Without a pair around the comma the first of the three numbers is zero.
    by_cases hnested : IsNested text before
    · simp only [hcut before after htext, hnested, true_implies, not_true, iff_false, not_le,
        false_implies, and_true]
    · have haround := hnested
      rw [isNested_iff htext, Nat.not_lt, Nat.le_zero] at haround
      have hcomma := hcut before after htext
      rw [haround, Nat.cast_zero, Int.zero_add] at hcomma
      simp only [hcomma, hnested, false_implies, not_false_eq_true, true_implies, iff_true,
        true_and]
  · rcases hmatched.numberOfBrackets_eq_zero htext with ⟨hunclosed, hstray⟩
    have hcomma := hcut before after htext
    rw [hunclosed, hstray, Nat.cast_zero, Int.add_zero, Int.sub_zero] at hcomma
    refine ⟨hcomma, fun hfew => ?_⟩
    rw [hcomma, isNested_iff htext, Int.bmod_eq_of_le (by omega) (by omega)]
    omega

/-- A comparison closes a bracket that is not open, and the text is cut at the comma of a
later pair. -/
theorem isCutAt_nested_behind_comparison :
    let text := "a = 2 > 1, m: Map<Key, Value>".toList
    let before := "a = 2 > 1, m: Map<Key".toList
    text = before ++ ',' :: " Value>".toList ∧ IsCutAt text before ∧ IsNested text before := by
  intro text before
  have hbalanced : Balanced '<' '>' "Key, Value".toList :=
    .of_not_mem (by decide) (by decide)
  refine ⟨by decide, ⟨⟨10, 21⟩, by decide, by decide⟩, ('<', '>'), by decide,
    "a = 2 > 1, m: Map".toList, "Key, Value".toList, ⟨hbalanced, [], by decide⟩, by decide,
    by decide⟩

end Chunking
