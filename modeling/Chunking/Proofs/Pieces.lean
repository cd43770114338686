import Mathlib.Data.List.Basic
import Mathlib.Data.List.TakeWhile

/-!
# Pieces of a text

Where a text is known to be made of pieces, something that is found in it has to be
traced to the piece that it lies in. Three ways of doing so are enough. What comes
before the first character of a kind is determined by the text, and so is what comes
behind the last. And a place in a row of pieces is a place in one of them.

The kind that matters most are the stops, the characters that a pattern demands at its
end. Which ones they are is up to the pattern. All that is ever asked is that none of
them is in the pieces before.

## Main definitions

* `isStop`: The characters that a pattern ends with.

## Theorems

* `not_isStop_of_kind`, `not_isStop_of_not_mem`: What is no stop.
* `append_eq_append_cons_cases`: A place in two texts in a row.
* `append_cons_inj_of_first`: Texts up to the first character of a kind.
* `append_cons_inj_of_last`: Texts behind the last character of a kind.
* `append_cons_inj_of_only`: The place of the only character of a kind.
* `append_inj_of_last`: A text that ends with a kind, and others behind it.
* `eq_nil_of_append_eq`: Nothing of a kind at the end of a text.
* `forall_mem_of_append_eq`: What does not reach the last character.
* `exists_of_flatMap_eq_append_cons`: A place in a row of pieces.
* `exists_of_flatMap_eq_append_word`: A word in a row of pieces.
-/

namespace Chunking

/-- Whether all characters of a text are of a kind is decided by looking at these.
Otherwise the instance for statements about every character there is can be found first,
and it looks at all of them. -/
instance decidableForallMem (text : List Char) (kind : Char → Prop) [DecidablePred kind] :
    Decidable (∀ c ∈ text, kind c) :=
  List.decidableBAll kind text

/-- The character is one of those that a pattern ends with. -/
def isStop (stops : List Char) (c : Char) : Bool :=
  stops.contains c

variable {p : Char → Bool} {stops u u' v v' : List Char} {c c' : Char}

/-- A character of a kind is no stop if no stop is of the kind. -/
theorem not_isStop_of_kind (hstops : ∀ d ∈ stops, p d = false) (hc : p c = true) :
    isStop stops c = false := by
  by_contra hstop
  rw [Bool.not_eq_false, isStop, List.contains_iff_mem] at hstop
  rw [hstops c hstop] at hc
  cases hc

/-- A text without the stops has no character that is one. -/
theorem not_isStop_of_not_mem (h : ∀ d ∈ stops, d ∉ u) : ∀ d ∈ u, isStop stops d = false := by
  intro d hd
  by_contra hstop
  rw [Bool.not_eq_false, isStop, List.contains_iff_mem] at hstop
  exact h d hstop hd

/-- A character of two texts in a row stands in the first or in the second. -/
theorem append_eq_append_cons_cases (h : u ++ v = u' ++ c :: v') :
    (∃ rest, u = u' ++ c :: rest ∧ v' = rest ++ v) ∨
      ∃ rest, u' = u ++ rest ∧ v = rest ++ c :: v' := by
  rcases List.append_eq_append_iff.mp h with ⟨rest, hu', hv⟩ | ⟨rest, hu, hrest⟩
  · exact .inr ⟨rest, hu', hv⟩
  · cases rest with
    | nil => exact .inr ⟨[], by rw [hu, List.append_nil, List.append_nil], hrest.symm⟩
    | cons d rest =>
        cases hrest
        exact .inl ⟨rest, hu, rfl⟩

/-- The text up to the first character of a kind is determined. -/
theorem append_cons_inj_of_first (hu : ∀ d ∈ u, p d = false) (hc : p c = true)
    (hu' : ∀ d ∈ u', p d = false) (hc' : p c' = true) (h : u ++ c :: v = u' ++ c' :: v') :
    u = u' ∧ c = c' ∧ v = v' := by
  have hupTo {u v : List Char} {c : Char} (hu : ∀ d ∈ u, p d = false) (hc : p c = true) :
      (u ++ c :: v).takeWhile (fun d => !p d) = u := by
    rw [List.takeWhile_append_of_pos fun d hd => by simp [hu d hd],
      List.takeWhile_cons_of_neg (by simp [hc]), List.append_nil]
  have hsame : u = u' := by
    rw [← hupTo (v := v) hu hc, h, hupTo hu' hc']
  subst hsame
  have hrest := List.append_cancel_left h
  exact ⟨rfl, (List.cons.inj hrest).1, (List.cons.inj hrest).2⟩

/-- The text behind the last character of a kind is determined. -/
theorem append_cons_inj_of_last (hv : ∀ d ∈ v, p d = false) (hc : p c = true)
    (hv' : ∀ d ∈ v', p d = false) (hc' : p c' = true) (h : u ++ c :: v = u' ++ c' :: v') :
    u = u' ∧ c = c' ∧ v = v' := by
  -- Read backwards it is the first one.
  have hback : v.reverse ++ c :: u.reverse = v'.reverse ++ c' :: u'.reverse := by
    simpa using congrArg List.reverse h
  rcases append_cons_inj_of_first (by simpa using hv) hc (by simpa using hv') hc' hback with
    ⟨hv, hc, hu⟩
  exact ⟨List.reverse_injective hu, hc, List.reverse_injective hv⟩

/-- The place of a character of a kind is determined if there is only one. -/
theorem append_cons_inj_of_only (hu : ∀ d ∈ u, p d = false) (hv : ∀ d ∈ v, p d = false)
    (hc' : p c' = true) (h : u ++ c :: v = u' ++ c' :: v') : u = u' ∧ c = c' ∧ v = v' := by
  have hnone {l : List Char} (hl : ∀ d ∈ l, p d = false) : c' ∉ l := by
    intro hmem
    rw [hl c' hmem] at hc'
    cases hc'
  rcases append_eq_append_cons_cases h with ⟨rest, rfl, -⟩ | ⟨rest, rfl, hrest⟩
  · exact absurd (by simp) (hnone hu)
  · cases rest with
    | nil => exact ⟨(List.append_nil u).symm, List.cons.inj hrest⟩
    | cons d rest =>
        rw [(List.cons.inj hrest).2] at hv
        exact absurd (by simp) (hnone hv)

/-- If two texts end with characters of a kind, where they end at all, then so does one
behind the other. -/
theorem getLast?_append_of_kind (hu : ∀ d, u.getLast? = some d → p d = true)
    (hv : ∀ d, v.getLast? = some d → p d = true) :
    ∀ d, (u ++ v).getLast? = some d → p d = true := by
  intro d hd
  rw [List.getLast?_append] at hd
  cases hlast : v.getLast? with
  | none =>
      rw [hlast] at hd
      exact hu d hd
  | some e =>
      rw [hlast] at hd
      cases hd
      exact hv _ hlast

/-- Where a text that is empty or ends with a character of a kind goes on with others is
determined. -/
theorem append_inj_of_last (hu : ∀ d, u.getLast? = some d → p d = true) (hv : ∀ d ∈ v, p d = false)
    (hu' : ∀ d, u'.getLast? = some d → p d = true) (hv' : ∀ d ∈ v', p d = false)
    (h : u ++ v = u' ++ v') : u = u' ∧ v = v' := by
  have hnone {u v more : List Char} (hu : ∀ d, (u ++ more).getLast? = some d → p d = true)
      (hv : ∀ d ∈ more ++ v, p d = false) : more = [] := by
    by_contra hne
    have hlast := hu (more.getLast hne)
      (by rw [List.getLast?_append_of_ne_nil u hne, List.getLast?_eq_some_getLast])
    rw [hv _ (List.mem_append_left v (List.getLast_mem hne))] at hlast
    cases hlast
  rcases List.append_eq_append_iff.mp h with ⟨more, rfl, rfl⟩ | ⟨more, rfl, rfl⟩
  · have := hnone hu' hv
    subst this
    simp
  · have := hnone hu hv'
    subst this
    simp

/-- A text that does not end with characters of a kind has none at its end. -/
theorem eq_nil_of_append_eq (hv : ∀ d ∈ v, p d = true) (hne : v' ≠ [])
    (hv' : ∀ d ∈ v', p d = false) (h : u ++ v = u' ++ v') : v = [] := by
  by_contra hv_ne
  have hlast : v.getLast? = v'.getLast? := by
    rw [← List.getLast?_append_of_ne_nil u hv_ne, h, List.getLast?_append_of_ne_nil u' hne]
  rw [List.getLast?_eq_some_getLast hv_ne] at hlast
  have hmem := List.mem_of_getLast? hlast.symm
  have hkind := hv _ (List.getLast_mem hv_ne)
  rw [hv' _ hmem] at hkind
  cases hkind

/-- If the last character of two texts in a row belongs to the second, the first has nothing
but what comes before that character. -/
theorem forall_mem_of_append_eq {body w : List Char} (hv : v ≠ [])
    (h : u ++ v ++ w = body ++ c :: w) : ∀ d ∈ u, d ∈ body := by
  rcases List.eq_nil_or_concat v with rfl | ⟨front, last, rfl⟩
  · exact absurd rfl hv
  · have htext : ((u ++ front) ++ [last]) ++ w = (body ++ [c]) ++ w := by
      simpa using h
    have hbody := (List.append_inj' (List.append_cancel_right htext) rfl).1
    intro d hd
    rw [← hbody]
    exact List.mem_append_left front hd

/-- A character in a row of pieces stands in one of them. -/
theorem exists_of_flatMap_eq_append_cons {α : Type} {pieces : List α} {text : α → List Char}
    (h : pieces.flatMap text = u ++ c :: v) :
    ∃ earlier piece later before after, pieces = earlier ++ piece :: later ∧
      text piece = before ++ c :: after ∧ u = earlier.flatMap text ++ before ∧
      v = after ++ later.flatMap text := by
  induction pieces generalizing u with
  | nil => simp at h
  | cons piece pieces ih =>
      rw [List.flatMap_cons] at h
      rcases append_eq_append_cons_cases h with ⟨rest, hpiece, rfl⟩ | ⟨rest, hu, hrest⟩
      · exact ⟨[], piece, pieces, u, rest, rfl, hpiece, rfl, rfl⟩
      · rcases ih hrest with ⟨earlier, other, later, before, after, rfl, hother, rfl, rfl⟩
        exact ⟨piece :: earlier, other, later, before, after, rfl, hother,
          by rw [hu, List.flatMap_cons, List.append_assoc], rfl⟩

/-- A word in a row of pieces, with a character behind it, stands in one of them if none of
the pieces ends in the middle of the word. -/
theorem exists_of_flatMap_eq_append_word {α : Type} {pieces : List α} {text : α → List Char}
    {word : List Char} (hlast : ∀ piece ∈ pieces, ∃ d, (text piece).getLast? = some d ∧ d ∉ word)
    (h : pieces.flatMap text = u ++ word ++ c :: v) :
    ∃ earlier piece later before after, pieces = earlier ++ piece :: later ∧
      text piece = before ++ word ++ c :: after ∧ u = earlier.flatMap text ++ before ∧
      v = after ++ later.flatMap text := by
  rcases exists_of_flatMap_eq_append_cons h with
    ⟨earlier, piece, later, passed, after, rfl, htext, hpassed, rfl⟩
  rcases List.append_eq_append_iff.mp hpassed with ⟨across, hend, hword⟩ | ⟨before, hu, rfl⟩
  · rcases List.eq_nil_or_concat earlier with rfl | ⟨others, last, rfl⟩
    · have hnil : u = [] ∧ across = [] := List.append_eq_nil_iff.mp hend.symm
      rw [hnil.2, List.nil_append] at hword
      exact ⟨[], piece, later, [], after, rfl, by rw [htext, hword]; rfl, hnil.1, rfl⟩
    · cases across with
      | nil =>
          rw [List.nil_append] at hword
          exact ⟨_, piece, later, [], after, rfl, by rw [htext, hword]; rfl,
            by rw [hend, List.append_nil, List.append_nil], rfl⟩
      | cons e across =>
          -- The piece before would end in the word.
          rcases hlast last (by simp) with ⟨d, hd, hnot⟩
          have hne : text last ≠ [] := by
            rintro hnil
            rw [hnil] at hd
            cases hd
          have hsame := congrArg List.getLast? hend
          rw [List.concat_eq_append, List.flatMap_append, List.flatMap_singleton,
            List.getLast?_append_of_ne_nil _ hne, hd,
            List.getLast?_append_of_ne_nil u (List.cons_ne_nil e across)] at hsame
          refine absurd ?_ hnot
          rw [hword]
          exact List.mem_append_left _ (List.mem_of_getLast? hsame.symm)
  · exact ⟨earlier, piece, later, before, after, rfl, htext, hu, rfl⟩

end Chunking
