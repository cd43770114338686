import Chunking.Proofs.MatchedBrackets
import Mathlib.Order.Bounds.Basic

/-!
# Where a delimiter is closed

The closing delimiter lies behind a balanced text, and `matchingClose?_eq_some_iff` says
so. Here the same is said by counting over the beginnings of the text from the opening
delimiter on: the search stops at the first offset through which as many are closed as
are opened, and before that more are opened than closed. It finds nothing if that goes on
to the end.

An answer that is missing can mean two things, that the text ended or that the count
would have gone below zero. `closeSearch` keeps the two apart. The second never happens,
because the search starts at an opening delimiter and is over as soon as the count is
back at zero.

Offsets count bytes, and a delimiter can have more than one. The offset of a character is
that of its first byte.

## Main definitions

* `charAt?`: The character that starts at an offset.
* `textThrough?`: The text from an offset through the character at another.
* `LevelAt`: As much is closed as is opened.
* `CloseSearch`: How the search for a closing delimiter ends.

## Theorems

* `closeFrom?_eq_none_iff`: When the count does not come down to zero.
* `closeSearch_ne_underflow`: The count never goes below zero.
* `isLeast_of_balanced`: A delimiter is closed behind a balanced text.
* `matchingClose?_exact`: What is found, and when nothing is.
-/

namespace Chunking

open Text

variable {opening closing c : Char} {depth offset start close last : Nat}
  {text before inside after part rest : List Char}

/-! ## Characters at offsets -/

/-- The character that starts at an offset. -/
def charAt? (text : List Char) (offset : Nat) : Option Char :=
  (dropBytes? text offset).bind List.head?

/-- The text from one offset through the character that starts at another one, which does
not lie before it. -/
def textThrough? (text : List Char) (start last : Nat) : Option (List Char) :=
  if start ≤ last then
    (charAt? text last).bind fun c => sliceBytes? text start (last + c.utf8Size)
  else none

theorem charAt?_eq_some_iff :
    charAt? text offset = some c ↔
      ∃ before after, text = before ++ c :: after ∧ byteLength before = offset := by
  unfold charAt?
  rw [Option.bind_eq_some_iff]
  constructor
  · rintro ⟨rest, hrest, hhead⟩
    rcases dropBytes?_eq_some_iff.mp hrest with ⟨before, rfl, hbefore⟩
    rcases List.head?_eq_some_iff.mp hhead with ⟨after, rfl⟩
    exact ⟨before, after, rfl, hbefore⟩
  · rintro ⟨before, after, rfl, rfl⟩
    exact ⟨c :: after, dropBytes?_append _ _, rfl⟩

theorem textThrough?_append (before front : List Char) (c : Char) (after : List Char) :
    textThrough? (before ++ (front ++ c :: after)) (byteLength before)
      (byteLength (before ++ front)) = some (front ++ [c]) := by
  have hchar : charAt? (before ++ (front ++ c :: after)) (byteLength (before ++ front)) = some c :=
    charAt?_eq_some_iff.mpr ⟨before ++ front, after, by simp, rfl⟩
  unfold textThrough?
  rw [if_pos (by rw [byteLength_append]; omega), hchar, Option.bind_some]
  exact sliceBytes?_eq_some_iff.mpr ⟨before, after, by simp, rfl, by simp [Nat.add_assoc]⟩

/-- What reaches through a character ends with it. -/
theorem exists_of_textThrough? (h : textThrough? text start last = some part) :
    ∃ before front c after, text = before ++ (front ++ c :: after) ∧ part = front ++ [c] ∧
      start = byteLength before ∧ last = byteLength (before ++ front) := by
  unfold textThrough? at h
  split_ifs at h with hle
  rcases Option.bind_eq_some_iff.mp h with ⟨c, hc, hslice⟩
  rcases charAt?_eq_some_iff.mp hc with ⟨first, after, rfl, rfl⟩
  rcases sliceBytes?_eq_some_iff.mp hslice with ⟨before, rest, htext, rfl, hend⟩
  have hsplit : (first ++ [c]) ++ after = (before ++ part) ++ rest := by
    simpa using htext
  have hsame : first ++ [c] = before ++ part :=
    (append_inj_of_byteLength_eq hsplit (by rw [hend]; simp)).1
  rcases List.append_eq_append_iff.mp hsame with ⟨more, rfl, hpart⟩ | ⟨more, rfl, hpart⟩
  · -- Nothing lies between the two offsets, as the first is not the greater one.
    have hmore : more = [] := by
      cases more with
      | nil => rfl
      | cons d more =>
          have := d.utf8Size_pos
          simp only [byteLength_append, byteLength_cons] at hle
          omega
    subst hmore
    exact ⟨first, [], c, after, by simp, by simpa using hpart.symm, by simp, by simp⟩
  · exact ⟨before, more, c, after, by simp, hpart, rfl, rfl⟩

/-! ## The count that runs along -/

/-- The count does not come down to zero as long as the beginnings of the text leave
something open. -/
theorem closeFrom?_eq_none_iff (hne : opening ≠ closing) :
    closeFrom? opening closing (depth + 1) offset text = none ↔
      ∀ front, front <+: text → front.count closing ≤ front.count opening + depth := by
  induction text generalizing depth offset with
  | nil => simp [closeFrom?]
  | cons c text ih =>
      -- One character on, the beginnings of the text are those of the rest with it in front.
      have hmore {depth' : Nat} (hcount : ∀ front : List Char,
            (c :: front).count closing ≤ (c :: front).count opening + depth ↔
              front.count closing ≤ front.count opening + depth') :
          (∀ front, front <+: text → front.count closing ≤ front.count opening + depth') ↔
            ∀ front, front <+: c :: text → front.count closing ≤ front.count opening + depth := by
        constructor
        · intro h front hfront
          rcases List.prefix_cons_iff.mp hfront with rfl | ⟨rest, rfl, hrest⟩
          · simp
          · exact (hcount rest).mpr (h rest hrest)
        · intro h front hfront
          exact (hcount front).mp (h (c :: front) ((List.prefix_cons_inj c).mpr hfront))
      unfold closeFrom?
      split_ifs with hopening hclosing
      · subst hopening
        rw [ih, hmore]
        intro front
        rw [List.count_cons_of_ne hne, List.count_cons_self]
        omega
      · subst hclosing
        cases depth with
        | zero =>
            refine iff_of_false (by simp) fun h => ?_
            have hfirst := h [c] (List.prefix_append [c] text)
            rw [List.count_singleton_self, List.count_singleton,
              if_neg (by simpa using hne.symm)] at hfirst
            omega
        | succ depth =>
            dsimp only
            rw [ih, hmore]
            intro front
            rw [List.count_cons_of_ne hne.symm, List.count_cons_self]
            omega
      · rw [ih, hmore]
        intro front
        rw [List.count_cons_of_ne hopening, List.count_cons_of_ne hclosing]

/-- How the search for a closing delimiter ends. -/
inductive CloseSearch where
  /-- The delimiter starts at the offset. -/
  | found (offset : Nat)
  /-- The text ends first. -/
  | textEnds
  /-- A delimiter is closed where none is open. -/
  | underflow
  deriving DecidableEq, Repr

/-- The offset that was found. -/
def CloseSearch.offset? : CloseSearch → Option Nat
  | found offset => some offset
  | textEnds | underflow => none

/-- The search for the closing delimiter at which the depth comes down to zero, in a text
that starts at an offset. -/
def closeSearch (opening closing : Char) (depth offset : Nat) : List Char → CloseSearch
  | [] => .textEnds
  | c :: rest =>
    if c = opening then
      closeSearch opening closing (depth + 1) (offset + c.utf8Size) rest
    else if c = closing then
      match depth with
      | 0 => .underflow
      | 1 => .found offset
      | depth + 2 => closeSearch opening closing (depth + 1) (offset + c.utf8Size) rest
    else
      closeSearch opening closing depth (offset + c.utf8Size) rest

/-- The search answers with the offset that it finds. -/
theorem offset?_closeSearch (opening closing : Char) (depth offset : Nat) (text : List Char) :
    (closeSearch opening closing depth offset text).offset? =
      closeFrom? opening closing depth offset text := by
  induction text generalizing depth offset with
  | nil => rfl
  | cons c text ih =>
      unfold closeSearch closeFrom?
      split_ifs
      · exact ih (depth + 1) _
      · rcases depth with _ | _ | depth
        · rfl
        · rfl
        · exact ih (depth + 1) _
      · exact ih depth _

-- Something is open all the while: the search is over when the last one is closed.
theorem closeSearch_succ_ne_underflow (opening closing : Char) (depth offset : Nat)
    (text : List Char) : closeSearch opening closing (depth + 1) offset text ≠ .underflow := by
  induction text generalizing depth offset with
  | nil => simp [closeSearch]
  | cons c text ih =>
      unfold closeSearch
      split_ifs
      · exact ih (depth + 1) _
      · cases depth with
        | zero => simp
        | succ depth => exact ih depth _
      · exact ih depth _

/-- From an opening delimiter on, the count never goes below zero. -/
theorem closeSearch_ne_underflow (opening closing : Char) (offset : Nat) (text : List Char) :
    closeSearch opening closing 0 offset (opening :: text) ≠ .underflow := by
  rw [closeSearch, if_pos rfl]
  exact closeSearch_succ_ne_underflow opening closing 0 _ text

/-! ## The first offset at which all is closed -/

/-- Through the character at an offset, as much is closed as is opened from the start on. -/
def LevelAt (opening closing : Char) (text : List Char) (start last : Nat) : Prop :=
  ∃ part, textThrough? text start last = some part ∧ part.count closing = part.count opening

-- One delimiter is open before the text, so its beginnings may close as much as they open.
theorem count_lt_iff (hne : opening ≠ closing) (text : List Char) :
    (∀ part, part ≠ [] → part <+: opening :: text → part.count closing < part.count opening) ↔
      ∀ front, front <+: text → front.count closing ≤ front.count opening := by
  have hcount (front : List Char) :
      (opening :: front).count closing < (opening :: front).count opening ↔
        front.count closing ≤ front.count opening := by
    rw [List.count_cons_of_ne hne, List.count_cons_self]
    omega
  constructor
  · intro h front hfront
    exact (hcount front).mp
      (h (opening :: front) (List.cons_ne_nil _ _) ((List.prefix_cons_inj opening).mpr hfront))
  · intro h part hpart hbegins
    rcases List.prefix_cons_iff.mp hbegins with rfl | ⟨front, rfl, hfront⟩
    · exact absurd rfl hpart
    · exact (hcount front).mpr (h front hfront)

-- The character behind the shorter one belongs to the other as well.
theorem concat_prefix_of_byteLength_lt {first second : List Char} (h : first ++ [c] <+: text)
    (h' : second <+: text) (hlt : byteLength first < byteLength second) :
    first ++ [c] <+: second := by
  rcases List.prefix_or_prefix_of_prefix h h' with hbegins | hbegins
  · exact hbegins
  · rcases List.prefix_concat_iff.mp hbegins with rfl | ⟨more, rfl⟩
    · exact List.prefix_rfl
    · rw [byteLength_append] at hlt
      omega

/-- Before the closing delimiter more is open than closed. -/
theorem Encloses.count_lt (hne : opening ≠ closing) (h : Balanced opening closing inside)
    (hpart : part ≠ []) (hbegins : part <+: opening :: inside) :
    part.count closing < part.count opening := by
  refine (count_lt_iff hne inside).mpr (fun front hfront => ?_) part hpart hbegins
  rcases hfront with ⟨back, rfl⟩
  exact h.below front back rfl

/-- A delimiter is closed at the first offset through which as much is closed as opened. -/
theorem isLeast_of_balanced (hne : opening ≠ closing) (h : Balanced opening closing inside)
    (before after : List Char) :
    IsLeast {last | LevelAt opening closing (before ++ opening :: (inside ++ closing :: after))
      (byteLength before) last} (byteLength (before ++ opening :: inside)) := by
  constructor
  · refine ⟨opening :: inside ++ [closing],
      textThrough?_append before (opening :: inside) closing after, ?_⟩
    have hlevel := h.level
    rw [List.cons_append, List.count_cons_of_ne hne, List.count_cons_self, List.count_append,
      List.count_append, List.count_singleton_self, List.count_singleton,
      if_neg (by simpa using hne.symm)]
    omega
  · rintro last ⟨part, hpart, hlevel⟩
    rcases exists_of_textThrough? hpart with ⟨before', front, c, back, htext, rfl, hstart, rfl⟩
    rcases append_inj_of_byteLength_eq htext hstart with ⟨rfl, hrest⟩
    by_contra hlt
    rw [byteLength_append, byteLength_append, Nat.add_le_add_iff_left, Nat.not_le] at hlt
    -- The part through an earlier character would leave something open.
    have hfront : front ++ [c] <+: front ++ c :: back :=
      ⟨back, by simp⟩
    have hbegins : front ++ [c] <+: opening :: inside :=
      concat_prefix_of_byteLength_lt hfront ⟨closing :: after, hrest⟩ hlt
    have hopen := h.count_lt hne (by simp) hbegins
    omega

/-- The search from an opening delimiter finds the first offset through which as much is
closed as is opened. A closing delimiter starts there, behind the opening one, and every
shorter beginning of the text from the opening one on leaves something open. Nothing is
found exactly if all the beginnings do. The count never goes below zero. -/
theorem matchingClose?_exact (hne : opening ≠ closing)
    (hstart : charAt? text start = some opening) :
    ∃ rest, dropBytes? text start = some rest ∧
      (∀ close, matchingClose? text start opening closing = some close ↔
        IsLeast {last | LevelAt opening closing text start last} close) ∧
      (∀ close, matchingClose? text start opening closing = some close →
        charAt? text close = some closing ∧ start < close ∧
          ∀ part, part ≠ [] → part <+: rest → start + byteLength part ≤ close →
            part.count closing < part.count opening) ∧
      (matchingClose? text start opening closing = none ↔
        ∀ part, part ≠ [] → part <+: rest → part.count closing < part.count opening) ∧
      (closeSearch opening closing 0 start rest).offset? =
        matchingClose? text start opening closing ∧
      closeSearch opening closing 0 start rest ≠ .underflow := by
  rcases charAt?_eq_some_iff.mp hstart with ⟨before, after, rfl, rfl⟩
  have hrest := dropBytes?_append before (opening :: after)
  have hsome {close : Nat} := @matchingClose?_eq_some_iff opening closing close hne before after
  have hnone : matchingClose? (before ++ opening :: after) (byteLength before) opening closing =
      none ↔ ∀ part, part ≠ [] → part <+: opening :: after →
        part.count closing < part.count opening := by
    rw [matchingClose?, hrest, Option.bind_some, closeFrom?, if_pos rfl,
      closeFrom?_eq_none_iff hne, count_lt_iff hne]
    rfl
  refine ⟨opening :: after, hrest, fun close => ⟨fun hclose => ?_, fun hleast => ?_⟩,
    fun close hclose => ?_, hnone, ?_, closeSearch_ne_underflow opening closing _ after⟩
  · rcases hsome.mp hclose with ⟨inside, back, rfl, hinside, rfl⟩
    exact isLeast_of_balanced hne hinside before back
  · cases hclose : matchingClose? (before ++ opening :: after) (byteLength before) opening
        closing with
    | none =>
        -- Then no beginning of the text would be level.
        rcases hleast.1 with ⟨part, hpart, hlevel⟩
        rcases exists_of_textThrough? hpart with ⟨before', front, c, back, htext, rfl, hsame, -⟩
        rcases append_inj_of_byteLength_eq htext hsame with ⟨rfl, hafter⟩
        have hopen := hnone.mp hclose (front ++ [c]) (by simp) ⟨back, by rw [hafter]; simp⟩
        omega
    | some found =>
        rcases hsome.mp hclose with ⟨inside, back, rfl, hinside, rfl⟩
        rw [(isLeast_of_balanced hne hinside before back).unique hleast]
  · rcases hsome.mp hclose with ⟨inside, back, rfl, hinside, rfl⟩
    refine ⟨charAt?_eq_some_iff.mpr ⟨before ++ opening :: inside, back, by simp, rfl⟩, ?_, ?_⟩
    · have := opening.utf8Size_pos
      rw [byteLength_append, byteLength_cons]
      omega
    · intro part hpart hbegins hle
      rw [byteLength_append, Nat.add_le_add_iff_left] at hle
      exact hinside.count_lt hne hpart
        (prefix_of_byteLength_le hbegins ⟨closing :: back, rfl⟩ hle)
  · rw [offset?_closeSearch, matchingClose?, hrest, Option.bind_some]

/-- The delimiter is found behind a nested pair, and behind characters of two bytes. -/
theorem matchingClose?_exact_nested :
    let text := "é(ñ(b))".toList
    charAt? text 2 = some '(' ∧ matchingClose? text 2 '(' ')' = some 8 ∧
      IsLeast {last | LevelAt '(' ')' text 2 last} 8 := by
  intro text
  have hstart : charAt? text 2 = some '(' := by
    decide
  have hclose : matchingClose? text 2 '(' ')' = some 8 := by
    decide
  rcases matchingClose?_exact (by decide : '(' ≠ ')') hstart with ⟨rest, -, hleast, -⟩
  exact ⟨hstart, hclose, (hleast 8).mp hclose⟩

end Chunking
