import Chunking.Pattern.FindAll
import Mathlib.Tactic.SplitIfs

/-!
# Places in a text

A cursor knows the offset of its place and the character before it. In a search
both come from the text that has been passed, so a place can be given by the
text before it and the text behind it, and `Cursor.between` says it in this way.
All that a search meets are such places, and the text between two of them is
what was passed on the way from one to the other.

Offsets count bytes, and a text has at most one place for each offset. What is
cut out of a text by offsets is thus a part of it, and which part it is can be
told from the offsets alone.

## Main definitions

* `Cursor.between`: The place between two parts of a text.

## Theorems

* `dropBytes?_eq_some_iff`, `takeBytes?_eq_some_iff`, `sliceBytes?_eq_some_iff`:
  Parts of a text by offsets.
* `Cursor.Ahead.exists_passed`, `Cursor.exists_between_of_ahead`: A place ahead
  lies farther on in the text.
* `Cursor.textUpTo_between`: The text between two places.
* `Pattern.ahead_of_mem_kept`: Marks lie ahead of the start of a match.
* `Pattern.exists_between_of_mem_findAll`: A match starts at a place of the text.
-/

namespace Chunking

/-! ## Offsets -/

namespace Text

@[simp]
theorem byteLength_nil : byteLength [] = 0 :=
  rfl

@[simp]
theorem byteLength_cons (c : Char) (text : List Char) :
    byteLength (c :: text) = c.utf8Size + byteLength text :=
  rfl

@[simp]
theorem byteLength_append (first second : List Char) :
    byteLength (first ++ second) = byteLength first + byteLength second := by
  induction first with
  | nil => simp
  | cons c first ih =>
      rw [List.cons_append, byteLength_cons, byteLength_cons, ih]
      omega

/-- A text has at most one place for each offset. -/
theorem append_inj_of_byteLength_eq {first second first' second' : List Char}
    (h : first ++ second = first' ++ second') (hlength : byteLength first = byteLength first') :
    first = first' ∧ second = second' := by
  induction first generalizing first' with
  | nil =>
      cases first' with
      | nil => exact ⟨rfl, h⟩
      | cons c first' =>
          have := c.utf8Size_pos
          rw [byteLength_nil, byteLength_cons] at hlength
          omega
  | cons c first ih =>
      cases first' with
      | nil =>
          have := c.utf8Size_pos
          rw [byteLength_nil, byteLength_cons] at hlength
          omega
      | cons d first' =>
          rw [List.cons_append, List.cons_append, List.cons.injEq] at h
          rcases h with ⟨rfl, h⟩
          rw [byteLength_cons, byteLength_cons, Nat.add_left_cancel_iff] at hlength
          rcases ih h hlength with ⟨rfl, rfl⟩
          exact ⟨rfl, rfl⟩

/-- Of two beginnings of a text the one with fewer bytes is a beginning of the other. -/
theorem prefix_of_byteLength_le {text first second : List Char} (h : first <+: text)
    (h' : second <+: text) (hle : byteLength first ≤ byteLength second) : first <+: second := by
  rcases List.prefix_or_prefix_of_prefix h h' with hbegins | ⟨more, rfl⟩
  · exact hbegins
  · cases more with
    | nil => simp
    | cons d more =>
        have := d.utf8Size_pos
        rw [byteLength_append, byteLength_cons d] at hle
        omega

/-- Dropping as many bytes as a beginning has leaves the rest. -/
theorem dropBytes?_append (first second : List Char) :
    dropBytes? (first ++ second) (byteLength first) = some second := by
  induction first with
  | nil =>
      unfold dropBytes?
      rfl
  | cons c first ih =>
      have hpos := c.utf8Size_pos
      rw [List.cons_append, byteLength_cons]
      -- The function looks at a count by its predecessor.
      obtain ⟨count, hcount⟩ := Nat.exists_eq_succ_of_ne_zero
        (Nat.ne_of_gt (Nat.add_pos_left hpos (byteLength first)))
      rw [hcount, dropBytes?, if_pos (by omega), ← ih]
      congr 1
      omega

/-- A text can be cut only where one of its beginnings ends, and never in the middle of a
character. -/
theorem dropBytes?_eq_some_iff {text rest : List Char} {count : Nat} :
    dropBytes? text count = some rest ↔
      ∃ first, text = first ++ rest ∧ byteLength first = count := by
  constructor
  · intro h
    fun_induction dropBytes? text count with
    | case1 text =>
        cases h
        exact ⟨[], rfl, rfl⟩
    | case2 => cases h
    | case3 c text count hle ih =>
        rcases ih h with ⟨first, rfl, hfirst⟩
        exact ⟨c :: first, rfl, by rw [byteLength_cons]; omega⟩
    | case4 => cases h
  · rintro ⟨first, rfl, rfl⟩
    exact dropBytes?_append first rest

-- What has been taken is kept backwards.
theorem takeBytesAfter?_append (taken first second : List Char) :
    takeBytesAfter? taken (first ++ second) (byteLength first) = some (taken.reverse ++ first) := by
  induction first generalizing taken with
  | nil =>
      unfold takeBytesAfter?
      simp
  | cons c first ih =>
      have hpos := c.utf8Size_pos
      rw [List.cons_append, byteLength_cons]
      obtain ⟨count, hcount⟩ := Nat.exists_eq_succ_of_ne_zero
        (Nat.ne_of_gt (Nat.add_pos_left hpos (byteLength first)))
      have hrest : count + 1 - c.utf8Size = byteLength first := by
        omega
      rw [hcount, takeBytesAfter?, if_pos (by omega), hrest, ih]
      simp

-- The converse, along the recursion.
theorem exists_of_takeBytesAfter? {taken text part : List Char} {count : Nat}
    (h : takeBytesAfter? taken text count = some part) :
    ∃ first second, part = taken.reverse ++ first ∧ text = first ++ second ∧
      byteLength first = count := by
  fun_induction takeBytesAfter? taken text count with
  | case1 taken text =>
      cases h
      exact ⟨[], text, by simp, rfl, rfl⟩
  | case2 => cases h
  | case3 taken c text count hle ih =>
      rcases ih h with ⟨first, second, hpart, rfl, hfirst⟩
      exact ⟨c :: first, second, by simp [hpart], rfl, by rw [byteLength_cons]; omega⟩
  | case4 => cases h

/-- What is taken is a beginning of the text. -/
theorem takeBytes?_eq_some_iff {text part : List Char} {count : Nat} :
    takeBytes? text count = some part ↔
      ∃ rest, text = part ++ rest ∧ byteLength part = count := by
  constructor
  · intro h
    rcases exists_of_takeBytesAfter? h with ⟨first, second, rfl, rfl, hfirst⟩
    exact ⟨second, rfl, hfirst⟩
  · rintro ⟨rest, rfl, rfl⟩
    exact takeBytesAfter?_append [] part rest

/-- What is cut out of a text is a part of it, and the offsets tell which one. -/
theorem sliceBytes?_eq_some_iff {text part : List Char} {start stop : Nat} :
    sliceBytes? text start stop = some part ↔
      ∃ first last, text = first ++ part ++ last ∧ byteLength first = start ∧
        byteLength (first ++ part) = stop := by
  unfold sliceBytes?
  constructor
  · intro h
    split_ifs at h with hle
    rcases Option.bind_eq_some_iff.mp h with ⟨rest, hdrop, htake⟩
    rcases dropBytes?_eq_some_iff.mp hdrop with ⟨first, rfl, hfirst⟩
    rcases takeBytes?_eq_some_iff.mp htake with ⟨last, rfl, hpart⟩
    refine ⟨first, last, by rw [List.append_assoc], hfirst, ?_⟩
    rw [byteLength_append]
    omega
  · rintro ⟨first, last, rfl, rfl, rfl⟩
    rw [byteLength_append, if_pos (Nat.le_add_right _ _), List.append_assoc, dropBytes?_append,
      Option.bind_some, Nat.add_sub_cancel_left]
    exact takeBytesAfter?_append [] part last

end Text

/-! ## Cursors -/

namespace Cursor

open Text

/-- A place ahead is behind some of the text that follows. -/
theorem Ahead.exists_passed {cursor place : Cursor} (h : cursor.Ahead place) :
    ∃ passed, cursor.rest = passed ++ place.rest ∧
      place.offset = cursor.offset + byteLength passed ∧
      place.before = passed.getLast?.or cursor.before := by
  rcases h with ⟨n, rfl⟩
  induction n generalizing cursor with
  | zero => exact ⟨[], rfl, rfl, rfl⟩
  | succ n ih =>
      -- At the end of the text a step stays where it is.
      rcases cursor with ⟨offset, before, _ | ⟨c, rest⟩⟩
      · exact ih
      · rcases @ih ⟨offset + c.utf8Size, some c, rest⟩ with ⟨passed, hrest, hoffset, hbefore⟩
        refine ⟨c :: passed, congrArg (c :: ·) hrest, ?_, ?_⟩
        · rw [byteLength_cons, ← Nat.add_assoc]
          exact hoffset
        · refine hbefore.trans ?_
          rw [List.getLast?_cons]
          cases passed.getLast? <;> rfl

/-- The place between two parts of a text. -/
def between (before after : List Char) : Cursor :=
  ⟨byteLength before, before.getLast?, after⟩

theorem atStart_eq_between (text : List Char) : atStart text = between [] text :=
  rfl

theorem advance_between (before : List Char) (c : Char) (after : List Char) :
    (between before (c :: after)).advance = between (before ++ [c]) after := by
  simp [between, advance]

/-- A place ahead lies farther on in the text. -/
theorem exists_between_of_ahead {before after : List Char} {place : Cursor}
    (h : (between before after).Ahead place) :
    ∃ passed rest, after = passed ++ rest ∧ place = between (before ++ passed) rest := by
  rcases h.exists_passed with ⟨passed, hrest, hoffset, hbefore⟩
  -- The offset and the character before the place are those of what has been passed.
  refine ⟨passed, place.rest, hrest, ?_⟩
  rcases place with ⟨offset, last, rest⟩
  rw [between, byteLength_append, List.getLast?_append]
  exact Cursor.mk.injEq .. ▸ ⟨hoffset, hbefore, rfl⟩

/-- What lies between two places was passed on the way. -/
theorem textUpTo_between (before text after : List Char) :
    (between before (text ++ after)).textUpTo (between (before ++ text) after) = text := by
  rw [textUpTo]
  simp only [between, byteLength_append, Nat.add_sub_cancel_left]
  rw [takeBytes?_eq_some_iff.mpr ⟨after, rfl, rfl⟩]
  rfl

end Cursor

/-! ## Searching -/

namespace Pattern

variable (pattern : Pattern)

-- Marks of rounds lie ahead if those of a round do.
theorem ahead_of_mem_kept_rounds {round : Cursor → Marks → List Way}
    (hround : ∀ cursor kept, ∀ way ∈ round cursor kept, cursor.Ahead way.stop ∧
      ∀ mark ∈ way.kept, mark ∈ kept ∨ cursor.Ahead mark.2)
    (bound : List Char) (cursor : Cursor) (kept : Marks) :
    ∀ way ∈ waysOfRounds round bound cursor kept, ∀ mark ∈ way.kept,
      mark ∈ kept ∨ cursor.Ahead mark.2 := by
  induction bound generalizing cursor kept with
  | nil =>
      intro way hway mark hmark
      rw [List.mem_singleton.mp hway] at hmark
      exact .inl hmark
  | cons _ bound ih =>
      intro way hway mark hmark
      rcases List.mem_append.mp hway with hway | hway
      · rcases List.mem_flatMap.mp hway with ⟨first, hfirst, hway⟩
        have hahead := hround cursor kept first hfirst
        rcases ih first.stop first.kept way hway mark hmark with hmark | hmark
        · exact hahead.2 mark hmark
        · exact .inr (hahead.1.trans hmark)
      · rw [List.mem_singleton.mp hway] at hmark
        exact .inl hmark

/-- Marks lie ahead of the start, unless they were kept before. -/
theorem ahead_of_mem_kept (cursor : Cursor) (kept : Marks) :
    ∀ way ∈ pattern.ways cursor kept, ∀ mark ∈ way.kept,
      mark ∈ kept ∨ cursor.Ahead mark.2 := by
  induction pattern generalizing cursor kept with
  | literal chars | stretch eager allowed =>
      intro way hway mark hmark
      rcases List.mem_map.mp hway with ⟨stop, _, rfl⟩
      exact .inl hmark
  | one allowed =>
      intro way hway mark hmark
      unfold ways at hway
      split at hway
      · cases hway
      · split_ifs at hway
        · rw [List.mem_singleton.mp hway] at hmark
          exact .inl hmark
        · cases hway
  | seq first second ihFirst ihSecond =>
      intro way hway mark hmark
      rcases List.mem_flatMap.mp hway with ⟨middle, hmiddle, hway⟩
      rcases ihSecond middle.stop middle.kept way hway mark hmark with hmark | hmark
      · exact ihFirst cursor kept middle hmiddle mark hmark
      · exact .inr ((ahead_of_mem_ways first cursor kept middle hmiddle).trans hmark)
  | either first second ihFirst ihSecond =>
      intro way hway mark hmark
      rcases List.mem_append.mp hway with hway | hway
      · exact ihFirst cursor kept way hway mark hmark
      · exact ihSecond cursor kept way hway mark hmark
  | many round ih =>
      exact ahead_of_mem_kept_rounds (fun cursor kept way hway =>
        ⟨ahead_of_mem_ways round cursor kept way hway, ih cursor kept way hway⟩)
        cursor.rest cursor kept
  | mark edge =>
      intro way hway mark hmark
      rw [List.mem_singleton.mp hway] at hmark
      rcases List.mem_cons.mp hmark with rfl | hmark
      · exact .inr (.refl cursor)
      · exact .inl hmark
  | wordEdge | lineStart | textStart | textEnd =>
      intro way hway mark hmark
      unfold ways at hway
      split_ifs at hway
      · rw [List.mem_singleton.mp hway] at hmark
        exact .inl hmark
      · cases hway

variable {pattern}

/-- A match is the first way of the pattern, so whatever holds of all ways holds of it. -/
theorem exists_way_of_matchAt? {cursor : Cursor} {found : Match}
    (h : pattern.matchAt? cursor = some found) :
    ∃ way ∈ pattern.ways cursor [], found = ⟨cursor, way.stop, way.kept⟩ := by
  rw [matchAt?_eq, Option.map_eq_some_iff] at h
  rcases h with ⟨way, hway, rfl⟩
  exact ⟨way, List.mem_of_mem_head? hway, rfl⟩

theorem ahead_stop_of_matchAt? {cursor : Cursor} {found : Match}
    (h : pattern.matchAt? cursor = some found) : cursor.Ahead found.stop := by
  rcases exists_way_of_matchAt? h with ⟨way, hway, rfl⟩
  exact ahead_of_mem_ways pattern cursor [] way hway

-- The search finds what it is given to start with, and matches ahead.
theorem ahead_of_mem_findAllFrom (newestFirst : List Match) (bound : List Char)
    (cursor : Cursor) :
    ∀ found ∈ pattern.findAllFrom newestFirst bound cursor,
      found ∈ newestFirst ∨ ∃ place, cursor.Ahead place ∧ pattern.matchAt? place = some found := by
  induction bound generalizing newestFirst cursor with
  | nil =>
      intro found hfound
      rw [findAllFrom, List.mem_reverse, List.mem_append, Option.mem_toList] at hfound
      rcases hfound with hfound | hfound
      · exact .inr ⟨cursor, .refl cursor, hfound⟩
      · exact .inl hfound
  | cons _ bound ih =>
      intro found hfound
      rw [findAllFrom] at hfound
      cases hmatch : pattern.matchAt? cursor with
      | none =>
          rw [hmatch] at hfound
          dsimp only at hfound
          split_ifs at hfound
          · exact .inl (List.mem_reverse.mp hfound)
          · rcases ih _ _ found hfound with hfound | ⟨place, hplace, hfound⟩
            · exact .inl hfound
            · exact .inr ⟨place, (Cursor.Ahead.advance cursor).trans hplace, hfound⟩
      | some first =>
          rw [hmatch] at hfound
          dsimp only at hfound
          have hnew (h : found ∈ first :: newestFirst) : found ∈ newestFirst ∨
              ∃ place, cursor.Ahead place ∧ pattern.matchAt? place = some found := by
            rcases List.mem_cons.mp h with rfl | h
            · exact .inr ⟨cursor, .refl cursor, hmatch⟩
            · exact .inl h
          -- The search goes on behind a match, or one character farther on if it is empty.
          split_ifs at hfound with hempty hlt
          · exact hnew (List.mem_reverse.mp hfound)
          · rcases ih _ _ found hfound with hfound | ⟨place, hplace, hfound⟩
            · exact hnew hfound
            · exact .inr ⟨place, (ahead_stop_of_matchAt? hmatch).trans hplace, hfound⟩
          · rcases ih _ _ found hfound with hfound | ⟨place, hplace, hfound⟩
            · exact hnew hfound
            · exact .inr ⟨place, (Cursor.Ahead.advance cursor).trans hplace, hfound⟩

/-- A match starts at a place of the text. -/
theorem exists_between_of_mem_findAll {text : List Char} {found : Match}
    (h : found ∈ pattern.findAll text) :
    ∃ before after, text = before ++ after ∧
      pattern.matchAt? (Cursor.between before after) = some found := by
  rcases ahead_of_mem_findAllFrom [] text _ found h with hfound | ⟨place, hplace, hfound⟩
  · cases hfound
  · rw [Cursor.atStart_eq_between] at hplace
    rcases Cursor.exists_between_of_ahead hplace with ⟨before, after, rfl, rfl⟩
    exact ⟨before, after, rfl, hfound⟩

end Pattern

end Chunking
