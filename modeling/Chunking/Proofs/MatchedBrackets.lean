import Chunking.Names.Bracket
import Chunking.Proofs.Places
import Mathlib.Data.List.Basic

/-!
# Matched brackets

The delimiter that closes another one is found by counting. Said without a count that
runs along, the text between the two is balanced: no beginning of it closes more than
it opens, and all of it closes as much as it opens. There is one such text at most,
and the closing delimiter is not found exactly if there is none.

## Main definitions

* `Encloses`: What stands before the delimiter that closes some open ones.
* `Balanced`: What stands between two delimiters.

## Theorems

* `closeFrom?_eq_some_iff`: Where the count comes down to zero.
* `matchingClose?_eq_some_iff`: The delimiter that closes another.
* `Balanced.eq_of_append_eq`: There is only one.
* `Balanced.append`, `Balanced.between`: Putting balanced texts together.
* `findFrom?_eq_some_iff`: The first place of a character.
-/

namespace Chunking

open Text

variable {opening closing : Char} {depth offset close : Nat} {text inside after : List Char}

/-- Read with some more delimiters open than the one to be closed, the text comes down
to that one, and never below it. -/
structure Encloses (opening closing : Char) (depth : Nat) (inside : List Char) : Prop where
  below : ∀ front back, inside = front ++ back →
    front.count closing ≤ front.count opening + depth
  level : inside.count closing = inside.count opening + depth

/-- No beginning of the text closes more than it opens, and all of it closes as much as
it opens. -/
abbrev Balanced (opening closing : Char) (inside : List Char) : Prop :=
  Encloses opening closing 0 inside

/-! ## One character more -/

namespace Encloses

theorem nil : Balanced opening closing [] where
  below front back h := by
    rw [(List.append_eq_nil_iff.mp h.symm).1]
    exact Nat.le_refl 0
  level := rfl

-- What holds of the beginnings of a text with one more character in front.
theorem cons_iff {c : Char} {depth' : Nat}
    (hcount : ∀ l : List Char, (c :: l).count closing ≤ (c :: l).count opening + depth ↔
      l.count closing ≤ l.count opening + depth')
    (hlevel : ∀ l : List Char, (c :: l).count closing = (c :: l).count opening + depth ↔
      l.count closing = l.count opening + depth') :
    Encloses opening closing depth (c :: inside) ↔ Encloses opening closing depth' inside := by
  constructor
  · intro h
    exact ⟨fun front back hsplit =>
        (hcount front).mp (h.below (c :: front) back (by rw [hsplit]; rfl)),
      (hlevel inside).mp h.level⟩
  · intro h
    refine ⟨fun front back hsplit => ?_, (hlevel inside).mpr h.level⟩
    cases front with
    | nil => simp
    | cons d front =>
        cases hsplit
        exact (hcount front).mpr (h.below front back rfl)

variable (hne : opening ≠ closing)

include hne

/-- An opening delimiter in front is one more to be closed. -/
theorem opening_cons_iff :
    Encloses opening closing depth (opening :: inside) ↔
      Encloses opening closing (depth + 1) inside :=
  cons_iff (fun l => by rw [List.count_cons_of_ne hne, List.count_cons_self]; omega)
    (fun l => by rw [List.count_cons_of_ne hne, List.count_cons_self]; omega)

/-- A closing one is one less. -/
theorem closing_cons_iff :
    Encloses opening closing (depth + 1) (closing :: inside) ↔
      Encloses opening closing depth inside :=
  cons_iff (fun l => by rw [List.count_cons_of_ne hne.symm, List.count_cons_self]; omega)
    (fun l => by rw [List.count_cons_of_ne hne.symm, List.count_cons_self]; omega)

/-- With nothing open a text cannot start with a closing one. -/
theorem not_closing_cons : ¬Balanced opening closing (closing :: inside) := by
  intro h
  have hfirst := h.below [closing] inside rfl
  rw [List.count_singleton_self, List.count_singleton, if_neg (by simpa using hne.symm)] at hfirst
  omega

-- Other characters change nothing, so here the delimiters may be the same.
omit hne in
theorem other_cons_iff {c : Char} (hopening : c ≠ opening) (hclosing : c ≠ closing) :
    Encloses opening closing depth (c :: inside) ↔ Encloses opening closing depth inside :=
  cons_iff (fun l => by rw [List.count_cons_of_ne hopening, List.count_cons_of_ne hclosing])
    (fun l => by rw [List.count_cons_of_ne hopening, List.count_cons_of_ne hclosing])

end Encloses

/-! ## Balanced texts -/

namespace Balanced

variable {first second : List Char}

/-- Balanced texts in a row are balanced. -/
theorem append (h : Balanced opening closing first) (h' : Balanced opening closing second) :
    Balanced opening closing (first ++ second) where
  below front back hsplit := by
    -- Either the first text is passed, and leaves nothing open, or the beginning ends in it.
    rcases List.append_eq_append_iff.mp hsplit with ⟨more, rfl, hmore⟩ | ⟨more, hmore, -⟩
    · have hsecond := h'.below more back hmore
      have hlevel := h.level
      rw [List.count_append, List.count_append]
      omega
    · exact h.below front more hmore
  level := by
    have hfirst := h.level
    have hsecond := h'.level
    rw [List.count_append, List.count_append]
    omega

/-- Without delimiters a text is balanced. -/
theorem of_not_mem (hopening : opening ∉ inside) (hclosing : closing ∉ inside) :
    Balanced opening closing inside where
  below front back hsplit := by
    have hnone : front.count closing = 0 := by
      rw [List.count_eq_zero]
      intro hmem
      apply hclosing
      rw [hsplit]
      exact List.mem_append_left _ hmem
    rw [hnone]
    exact Nat.zero_le _
  level := by
    rw [List.count_eq_zero.mpr hopening, List.count_eq_zero.mpr hclosing]

/-- A balanced text between two delimiters is balanced. -/
theorem between (hne : opening ≠ closing) (h : Balanced opening closing inside) :
    Balanced opening closing (opening :: (inside ++ [closing])) := by
  refine (Encloses.opening_cons_iff hne).mpr ⟨fun front back hsplit => ?_, ?_⟩
  -- The one that is open before gives room for the closing one at the end.
  · rcases List.append_eq_append_iff.mp hsplit with ⟨more, rfl, hmore⟩ | ⟨more, hmore, -⟩
    · have hcount : more.count closing ≤ 1 := by
        have hle := List.count_le_length (a := closing) (l := more)
        have hlength := congrArg List.length hmore
        rw [List.length_append, List.length_singleton] at hlength
        omega
      have hlevel := h.level
      rw [List.count_append, List.count_append]
      omega
    · have hbelow := h.below front more hmore
      omega
  · have hlevel := h.level
    rw [List.count_append, List.count_append, List.count_singleton_self, List.count_singleton,
      if_neg (by simpa using hne.symm)]
    omega

end Balanced

/-! ## The closing delimiter -/

/-- The count comes down to zero behind the text that encloses what is open. -/
theorem closeFrom?_eq_some_iff (hne : opening ≠ closing) :
    closeFrom? opening closing (depth + 1) offset text = some close ↔
      ∃ inside after, text = inside ++ closing :: after ∧
        Encloses opening closing depth inside ∧ close = offset + byteLength inside := by
  induction text generalizing depth offset with
  | nil => simp [closeFrom?]
  | cons c text ih =>
      -- One character on, the text is the rest, and the offset is that behind it.
      have hmore {depth' : Nat} (hc : ∀ inside, Encloses opening closing depth (c :: inside) ↔
            Encloses opening closing depth' inside)
          (hfirst : c = closing → ¬Encloses opening closing depth []) :
          (∃ inside after, text = inside ++ closing :: after ∧
              Encloses opening closing depth' inside ∧
                close = offset + c.utf8Size + byteLength inside) ↔
            ∃ inside after, c :: text = inside ++ closing :: after ∧
              Encloses opening closing depth inside ∧ close = offset + byteLength inside := by
        constructor
        · rintro ⟨inside, after, rfl, hinside, rfl⟩
          exact ⟨c :: inside, after, rfl, (hc inside).mpr hinside,
            by rw [byteLength_cons, Nat.add_assoc]⟩
        · rintro ⟨inside, after, htext, hinside, rfl⟩
          cases inside with
          | nil => exact absurd hinside (hfirst (List.cons.inj htext).1)
          | cons d inside =>
              cases htext
              exact ⟨inside, after, rfl, (hc inside).mp hinside,
                by rw [byteLength_cons, Nat.add_assoc]⟩
      unfold closeFrom?
      split_ifs with hopening hclosing
      · subst hopening
        rw [ih, hmore (fun _ => Encloses.opening_cons_iff hne) fun h => absurd h hne]
      · subst hclosing
        -- With nothing else open the search ends here; otherwise one less is open.
        cases depth with
        | zero =>
            constructor
            · rintro ⟨⟩
              exact ⟨[], text, rfl, .nil, rfl⟩
            · rintro ⟨inside, after, htext, hinside, rfl⟩
              cases inside with
              | nil => rfl
              | cons d inside =>
                  cases htext
                  exact absurd hinside (Encloses.not_closing_cons hne)
        | succ depth =>
            dsimp only
            rw [ih, hmore (fun _ => Encloses.closing_cons_iff hne)]
            intro _ hnil
            have hlevel := hnil.level
            simp at hlevel
      · rw [ih, hmore (fun _ => Encloses.other_cons_iff hopening hclosing)
          fun h => absurd h hclosing]

/-- Between a delimiter and the one that closes it stands a balanced text. -/
theorem matchingClose?_eq_some_iff (hne : opening ≠ closing) {before rest : List Char} :
    matchingClose? (before ++ opening :: rest) (byteLength before) opening closing =
        some close ↔
      ∃ inside after, rest = inside ++ closing :: after ∧ Balanced opening closing inside ∧
        close = byteLength (before ++ opening :: inside) := by
  rw [matchingClose?, dropBytes?_append, Option.bind_some, closeFrom?, if_pos rfl,
    closeFrom?_eq_some_iff hne]
  simp only [byteLength_append, byteLength_cons, Nat.add_assoc]

/-- There is only one delimiter that closes another. -/
theorem Balanced.eq_of_append_eq (hne : opening ≠ closing) {inside' after' : List Char}
    (h : Balanced opening closing inside) (h' : Balanced opening closing inside')
    (htext : inside ++ closing :: after = inside' ++ closing :: after') :
    inside = inside' ∧ after = after' := by
  -- Both are where the count comes down to zero, which is one place.
  have hclose {inside' after' : List Char} (h' : Balanced opening closing inside')
      (htext : inside ++ closing :: after = inside' ++ closing :: after') :
      closeFrom? opening closing 1 0 (inside ++ closing :: after) =
        some (0 + byteLength inside') :=
    (closeFrom?_eq_some_iff hne).mpr ⟨inside', after', htext, h', rfl⟩
  have hsecond := hclose h' htext
  rw [hclose h rfl, Option.some.injEq, Nat.add_left_cancel_iff] at hsecond
  rcases append_inj_of_byteLength_eq htext hsecond with ⟨hinside, hafter⟩
  exact ⟨hinside, (List.cons.inj hafter).2⟩

/-! ## The first place of a character -/

/-- The first character of the wanted kind is found, with its offset. -/
theorem findChar?_eq_some_iff {wanted : Char} {place : Nat} :
    findChar? wanted offset text = some place ↔
      ∃ before after, text = before ++ wanted :: after ∧ wanted ∉ before ∧
        place = offset + byteLength before := by
  induction text generalizing offset with
  | nil => simp [findChar?]
  | cons c text ih =>
      unfold findChar?
      split_ifs with hc
      · subst hc
        constructor
        · rintro ⟨⟩
          exact ⟨[], text, rfl, List.not_mem_nil, rfl⟩
        · rintro ⟨before, after, htext, hbefore, rfl⟩
          cases before with
          | nil => rfl
          | cons d before =>
              cases htext
              exact absurd List.mem_cons_self hbefore
      · rw [ih]
        constructor
        · rintro ⟨before, after, rfl, hbefore, rfl⟩
          exact ⟨c :: before, after, rfl, by simp [hbefore, Ne.symm hc],
            by rw [byteLength_cons, Nat.add_assoc]⟩
        · rintro ⟨before, after, htext, hbefore, rfl⟩
          cases before with
          | nil => exact absurd (List.cons.inj htext).1 hc
          | cons d before =>
              cases htext
              exact ⟨before, after, rfl, fun h => hbefore (List.mem_cons_of_mem c h),
                by rw [byteLength_cons, Nat.add_assoc]⟩

/-- From a place on, the first character of the wanted kind is found. -/
theorem findFrom?_eq_some_iff {wanted : Char} {place : Nat} {before rest : List Char} :
    findFrom? (before ++ rest) (byteLength before) wanted = some place ↔
      ∃ gap after, rest = gap ++ wanted :: after ∧ wanted ∉ gap ∧
        place = byteLength (before ++ gap) := by
  rw [findFrom?, dropBytes?_append, Option.bind_some, findChar?_eq_some_iff]
  simp only [byteLength_append]

end Chunking
