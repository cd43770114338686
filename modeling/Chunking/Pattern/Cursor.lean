import Chunking.Text.CharClass
import Chunking.Text.Utf8

/-!
# Cursors

A place in a text, as a pattern sees it: what follows, and which character
comes before. The character before is all that a pattern may know of the past,
and it is enough to tell the edges of words and the starts of lines.

The start of a line is the start of the text or the place after a newline; no
other character ends a line here.

## Main definitions

* `Cursor`: A place in a text.
* `Cursor.advance`: The place after the next character.
* `Cursor.skip?`: The place after given characters, if they come next.
* `Cursor.stretch`: The places reachable over characters of one kind.
* `Cursor.stretchShort`: The same, short of a given offset.
* `Cursor.atWordEdge`: Whether a word starts or ends at the place.
* `Cursor.atLineStart`: Whether a line starts at the place.
* `Cursor.Ahead`: The places that are reached by advancing.

## Theorems

* `Ahead.eq_of_offset_eq`: Of the places ahead each has an offset of its own.
* `mem_stretch_of_offset_le`: A stretch has no gaps.
* `stretch_eq_of_reached`: What is missing from a short stretch is a stretch.
-/

namespace Chunking

open Text

/-- A place in a text. -/
structure Cursor where
  /-- The number of bytes before the place. -/
  offset : Nat
  /-- The character before the place. -/
  before : Option Char
  /-- The text after the place. -/
  rest : List Char
  deriving DecidableEq, Repr

namespace Cursor

/-- The start of a text. -/
def atStart (text : List Char) : Cursor :=
  ⟨0, none, text⟩

/-- The place after the next character; the same place at the end. -/
def advance (cursor : Cursor) : Cursor :=
  match cursor.rest with
  | [] => cursor
  | c :: rest => ⟨cursor.offset + c.utf8Size, some c, rest⟩

/-- The place after the given characters, if they come next. -/
def skip? (cursor : Cursor) : List Char → Option Cursor
  | [] => some cursor
  | expected :: more =>
    match cursor.rest with
    | [] => none
    | c :: _ => if c = expected then cursor.advance.skip? more else none

/-- The places reachable over characters of one kind, the farthest first,
before those already found. -/
def stretchFrom (allowed : Char → Bool) (found : List Cursor) (offset : Nat)
    (before : Option Char) : List Char → List Cursor
  | [] => ⟨offset, before, []⟩ :: found
  | c :: rest =>
    if allowed c then
      stretchFrom allowed (⟨offset, before, c :: rest⟩ :: found) (offset + c.utf8Size) (some c) rest
    else
      ⟨offset, before, c :: rest⟩ :: found

/-- The places reachable over characters of one kind, the farthest first. The
last one is the place itself. -/
def stretch (cursor : Cursor) (allowed : Char → Bool) : List Cursor :=
  stretchFrom allowed [] cursor.offset cursor.before cursor.rest

/-- The places reachable over characters of one kind, the farthest first, before
those already found, but none from the place at the offset `limit` on. Tells
as well whether that place is reached. -/
def stretchShortFrom (allowed : Char → Bool) (limit : Option Nat) (found : List Cursor)
    (offset : Nat) (before : Option Char) : List Char → List Cursor × Bool
  | [] => if limit = some offset then (found, true) else (⟨offset, before, []⟩ :: found, false)
  | c :: rest =>
    if limit = some offset then (found, true)
    else if allowed c then
      stretchShortFrom allowed limit (⟨offset, before, c :: rest⟩ :: found)
        (offset + c.utf8Size) (some c) rest
    else (⟨offset, before, c :: rest⟩ :: found, false)

/-- The places reachable over characters of one kind, the farthest first, but
none from the place at the offset `limit` on. Tells as well whether that place
is reached. -/
def stretchShort (cursor : Cursor) (allowed : Char → Bool) (limit : Option Nat) :
    List Cursor × Bool :=
  stretchShortFrom allowed limit [] cursor.offset cursor.before cursor.rest

/-- Whether an optional character is a word character. -/
def isWordAt : Option Char → Bool
  | none => false
  | some c => isWord c

/-- Whether a word starts or ends at the place: exactly one of its neighbours
is a word character. -/
def atWordEdge (cursor : Cursor) : Bool :=
  isWordAt cursor.before != isWordAt cursor.rest.head?

/-- Whether a line starts at the place. -/
def atLineStart (cursor : Cursor) : Bool :=
  cursor.before == none || cursor.before == some '\n'

/-- The text between two places, the second of which follows the first. -/
def textUpTo (cursor stop : Cursor) : List Char :=
  (takeBytes? cursor.rest (stop.offset - cursor.offset)).getD []

/-- The place after some characters; the last place if the text ends before. -/
def after (cursor : Cursor) : Nat → Cursor
  | 0 => cursor
  | n + 1 => cursor.advance.after n

/-- The place is reached by advancing. -/
def Ahead (cursor place : Cursor) : Prop :=
  ∃ n, place = cursor.after n

/-- Advancing twice is advancing once over all the characters. -/
theorem after_after (cursor : Cursor) (m n : Nat) :
    (cursor.after m).after n = cursor.after (m + n) := by
  induction m generalizing cursor with
  | zero => simp [after]
  | succ m ih => rw [Nat.succ_add, after, after, ih]

/-- Advancing never goes back. -/
theorem offset_le_offset_after (cursor : Cursor) (n : Nat) :
    cursor.offset ≤ (cursor.after n).offset := by
  induction n generalizing cursor with
  | zero => exact Nat.le_refl _
  | succ n ih =>
    refine Nat.le_trans ?_ (ih cursor.advance)
    unfold advance
    split
    · exact Nat.le_refl _
    · exact Nat.le_add_right _ _

/-- Advancing over a character changes the offset, so a place with the same
offset is the same place. -/
theorem after_eq_of_offset_eq (cursor : Cursor) (n : Nat)
    (h : (cursor.after n).offset = cursor.offset) : cursor.after n = cursor := by
  induction n generalizing cursor with
  | zero => rfl
  | succ n ih =>
    have hle := offset_le_offset_after cursor.advance n
    rw [after] at h ⊢
    cases hrest : cursor.rest with
    | nil =>
      -- At the end advancing stays where it is.
      have hstay : cursor.advance = cursor := by rw [advance, hrest]
      rw [hstay] at h ⊢
      exact ih cursor h
    | cons c rest =>
      have hadvance : cursor.advance.offset = cursor.offset + c.utf8Size := by
        rw [advance, hrest]
      have := c.utf8Size_pos
      omega

namespace Ahead

/-- A place is reached from itself. -/
theorem refl (cursor : Cursor) : cursor.Ahead cursor :=
  ⟨0, rfl⟩

/-- What is reached from a place that is reached is reached. -/
theorem trans {first second third : Cursor} (h₁ : first.Ahead second) (h₂ : second.Ahead third) :
    first.Ahead third := by
  obtain ⟨m, rfl⟩ := h₁
  obtain ⟨n, rfl⟩ := h₂
  exact ⟨m + n, after_after first m n⟩

/-- The next place is reached. -/
theorem advance (cursor : Cursor) : cursor.Ahead cursor.advance :=
  ⟨1, rfl⟩

/-- Of two places ahead the one with the larger offset is ahead of the other. -/
theorem of_offset_le {cursor first second : Cursor} (h₁ : cursor.Ahead first)
    (h₂ : cursor.Ahead second) (h : first.offset ≤ second.offset) : first.Ahead second := by
  obtain ⟨m, rfl⟩ := h₁
  obtain ⟨n, rfl⟩ := h₂
  rcases Nat.le_total m n with hle | hle
  · obtain ⟨k, rfl⟩ := Nat.exists_eq_add_of_le hle
    exact ⟨k, (after_after cursor m k).symm⟩
  · obtain ⟨k, rfl⟩ := Nat.exists_eq_add_of_le hle
    rw [← after_after] at h ⊢
    -- The first one is not behind the second, so both are the same place.
    rw [after_eq_of_offset_eq (cursor.after n) k
      (Nat.le_antisymm h (offset_le_offset_after _ k))]
    exact .refl _

/-- Of the places ahead each has an offset of its own. -/
theorem eq_of_offset_eq {cursor first second : Cursor} (h₁ : cursor.Ahead first)
    (h₂ : cursor.Ahead second) (h : first.offset = second.offset) : first = second := by
  obtain ⟨m, rfl⟩ := h₁
  obtain ⟨n, rfl⟩ := h₂
  rcases Nat.le_total m n with hle | hle
  · obtain ⟨k, rfl⟩ := Nat.exists_eq_add_of_le hle
    rw [← after_after] at h ⊢
    exact (after_eq_of_offset_eq (cursor.after m) k h.symm).symm
  · obtain ⟨k, rfl⟩ := Nat.exists_eq_add_of_le hle
    rw [← after_after] at h ⊢
    exact after_eq_of_offset_eq (cursor.after n) k h

end Ahead

/-- Given characters are passed over by advancing. -/
theorem ahead_of_skip?_eq_some {cursor place : Cursor} {chars : List Char}
    (h : cursor.skip? chars = some place) : cursor.Ahead place := by
  induction chars generalizing cursor with
  | nil =>
    cases h
    exact Ahead.refl _
  | cons expected more ih =>
    unfold skip? at h
    split at h
    · contradiction
    · split at h
      · exact (Ahead.advance cursor).trans (ih h)
      · contradiction

/-- What is found already comes last. -/
theorem stretchFrom_eq_append (allowed : Char → Bool) (found : List Cursor) (offset : Nat)
    (before : Option Char) (rest : List Char) :
    stretchFrom allowed found offset before rest =
      stretchFrom allowed [] offset before rest ++ found := by
  induction rest generalizing found offset before with
  | nil => rfl
  | cons c rest ih =>
    simp only [stretchFrom]
    split
    · rw [ih, ih [_], List.append_assoc]
      rfl
    · rfl

/-- A stretch over an allowed character goes on from the place behind it. -/
theorem stretch_of_allowed {allowed : Char → Bool} {cursor : Cursor} {c : Char}
    {rest : List Char} (hrest : cursor.rest = c :: rest) (h : allowed c = true) :
    cursor.stretch allowed = cursor.advance.stretch allowed ++ [cursor] := by
  obtain ⟨offset, before, text⟩ := cursor
  cases hrest
  simp only [stretch, advance, stretchFrom, if_pos h]
  rw [stretchFrom_eq_append]

/-- A stretch ends where no character is allowed. -/
theorem stretch_of_not_allowed {allowed : Char → Bool} {cursor : Cursor}
    (h : ∀ c, cursor.rest.head? = some c → allowed c = false) :
    cursor.stretch allowed = [cursor] := by
  obtain ⟨offset, before, text⟩ := cursor
  cases text with
  | nil => rfl
  | cons c rest =>
    have hc : allowed c = false := h c rfl
    simp only [stretch, stretchFrom, hc, Bool.false_eq_true, if_false]

/-- The ways in which a stretch goes on. -/
theorem stretch_eq (allowed : Char → Bool) (cursor : Cursor) :
    (cursor.stretch allowed = [cursor]) ∨
      (∃ c rest, cursor.rest = c :: rest) ∧
        cursor.stretch allowed = cursor.advance.stretch allowed ++ [cursor] := by
  cases hrest : cursor.rest with
  | nil =>
    refine .inl (stretch_of_not_allowed fun c hc => ?_)
    rw [hrest] at hc
    contradiction
  | cons c rest =>
    cases hc : allowed c with
    | false =>
      refine .inl (stretch_of_not_allowed fun d hd => ?_)
      rw [hrest] at hd
      cases hd
      exact hc
    | true => exact .inr ⟨⟨c, rest, rfl⟩, stretch_of_allowed hrest hc⟩

/-- Advancing shortens the rest of the text. -/
theorem length_rest_advance {cursor : Cursor} {c : Char} {rest : List Char}
    (h : cursor.rest = c :: rest) : cursor.advance.rest.length < cursor.rest.length := by
  rw [advance, h]
  exact Nat.lt_succ_self rest.length

/-- A stretch starts at its place. -/
theorem mem_stretch_self (allowed : Char → Bool) (cursor : Cursor) :
    cursor ∈ cursor.stretch allowed := by
  rcases stretch_eq allowed cursor with h | ⟨-, h⟩ <;> rw [h] <;> simp

/-- A stretch is passed over by advancing. -/
theorem ahead_of_mem_stretch {allowed : Char → Bool} {cursor place : Cursor}
    (h : place ∈ cursor.stretch allowed) : cursor.Ahead place := by
  rcases stretch_eq allowed cursor with heq | ⟨⟨c, rest, hrest⟩, heq⟩ <;> rw [heq] at h
  · rw [List.mem_singleton.1 h]
    exact .refl cursor
  · rcases List.mem_append.1 h with h | h
    · have := length_rest_advance hrest
      exact (Ahead.advance cursor).trans (ahead_of_mem_stretch h)
    · rw [List.mem_singleton.1 h]
      exact .refl cursor
termination_by cursor.rest.length

/-- A stretch from a place of a stretch is part of it. -/
theorem mem_stretch_trans {allowed : Char → Bool} {cursor place farther : Cursor}
    (h : place ∈ cursor.stretch allowed) (hfarther : farther ∈ place.stretch allowed) :
    farther ∈ cursor.stretch allowed := by
  rcases stretch_eq allowed cursor with heq | ⟨⟨c, rest, hrest⟩, heq⟩
  · rw [heq, List.mem_singleton] at h
    rw [← h]
    exact hfarther
  · rw [heq] at h ⊢
    rcases List.mem_append.1 h with h | h
    · have := length_rest_advance hrest
      exact List.mem_append_left _ (mem_stretch_trans h hfarther)
    · rw [← heq, ← List.mem_singleton.1 h]
      exact hfarther
termination_by cursor.rest.length

/-- A stretch has no gaps: a place ahead that is not behind one of its places is
one of them. -/
theorem mem_stretch_of_offset_le {allowed : Char → Bool} {cursor place farther : Cursor}
    (h : cursor.Ahead place) (hfarther : farther ∈ cursor.stretch allowed)
    (hle : place.offset ≤ farther.offset) : place ∈ cursor.stretch allowed := by
  obtain ⟨n, rfl⟩ := h
  induction n generalizing cursor with
  | zero => exact mem_stretch_self allowed cursor
  | succ n ih =>
    -- If the stretch ends here, nothing ahead has an offset as small but the place itself.
    have hback (h : farther = cursor) : cursor.after (n + 1) ∈ cursor.stretch allowed := by
      have hstay : cursor.after (n + 1) = cursor := by
        refine Ahead.eq_of_offset_eq ⟨n + 1, rfl⟩ (.refl cursor) ?_
        have := offset_le_offset_after cursor (n + 1)
        rw [h] at hle
        omega
      rw [hstay]
      exact mem_stretch_self allowed cursor
    rcases stretch_eq allowed cursor with heq | ⟨-, heq⟩
    · rw [heq] at hfarther
      exact hback (List.mem_singleton.1 hfarther)
    · rw [heq] at hfarther
      rcases List.mem_append.1 hfarther with hfarther | hfarther
      · rw [heq]
        exact List.mem_append_left _ (ih hfarther hle)
      · exact hback (List.mem_singleton.1 hfarther)

/-- A short stretch is a stretch, unless the place at the limit is reached, and
then the stretch from there is missing. -/
theorem stretchShortFrom_eq (allowed : Char → Bool) (limit : Option Nat) (found : List Cursor)
    (offset : Nat) (before : Option Char) (rest : List Char) :
    match stretchShortFrom allowed limit found offset before rest with
    | (places, false) => stretchFrom allowed found offset before rest = places
    | (places, true) => ∃ place ∈ (⟨offset, before, rest⟩ : Cursor).stretch allowed,
      limit = some place.offset ∧
        stretchFrom allowed found offset before rest = place.stretch allowed ++ places := by
  induction rest generalizing found offset before with
  | nil =>
    unfold stretchShortFrom
    split
    case h_1 places h =>
      split at h
      · cases h
      · cases h
        rfl
    case h_2 places h =>
      split at h
      case isTrue hlimit =>
        cases h
        exact ⟨_, mem_stretch_self allowed _, hlimit, rfl⟩
      · cases h
  | cons c rest ih =>
    unfold stretchShortFrom
    by_cases hlimit : limit = some offset
    · rw [if_pos hlimit]
      exact ⟨_, mem_stretch_self allowed _, hlimit, stretchFrom_eq_append _ _ _ _ _⟩
    · rw [if_neg hlimit]
      by_cases hc : allowed c = true
      · rw [if_pos hc]
        have h := ih (⟨offset, before, c :: rest⟩ :: found) (offset + c.utf8Size) (some c)
        rw [stretchFrom, if_pos hc]
        split at h
        · exact h
        · obtain ⟨place, hplace, hoffset, heq⟩ := h
          refine ⟨place, ?_, hoffset, heq⟩
          have hon : (⟨offset, before, c :: rest⟩ : Cursor).stretch allowed = _ :=
            stretch_of_allowed rfl hc
          rw [hon]
          exact List.mem_append_left _ hplace
      · rw [if_neg hc, stretchFrom, if_neg hc]

/-- A short stretch that does not reach its limit is a stretch. -/
theorem stretch_eq_of_not_reached {cursor : Cursor} {allowed : Char → Bool} {limit : Option Nat}
    {places : List Cursor} (h : cursor.stretchShort allowed limit = (places, false)) :
    cursor.stretch allowed = places := by
  have key := stretchShortFrom_eq allowed limit [] cursor.offset cursor.before cursor.rest
  rw [stretchShort] at h
  rw [h] at key
  exact key

/-- A short stretch that reaches its limit lacks the stretch from there. -/
theorem stretch_eq_of_reached {cursor : Cursor} {allowed : Char → Bool} {limit : Option Nat}
    {places : List Cursor} (h : cursor.stretchShort allowed limit = (places, true)) :
    ∃ place ∈ cursor.stretch allowed, limit = some place.offset ∧
      cursor.stretch allowed = place.stretch allowed ++ places := by
  have key := stretchShortFrom_eq allowed limit [] cursor.offset cursor.before cursor.rest
  rw [stretchShort] at h
  rw [h] at key
  exact key

end Cursor

end Chunking
