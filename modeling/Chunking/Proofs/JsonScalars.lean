import Chunking.Json.Scalar
import Chunking.Json.Write
import Mathlib.Tactic.IntervalCases
import Mathlib.Tactic.SplitIfs

/-!
# Strings and numbers are read back

What is written of a string or a number is read again, whatever follows it.
For a string the closing quote settles where it ends. A number has no such
mark: it goes on for as long as digits follow, and a point or an exponent
would make another number of it, so something else has to follow.

A string is written one character at a time, and a character is either itself
or an escape. `escape_cases` is all that has to be known of the escapes, and
the two readings of a string, one per character and one per written piece,
meet there.

Conversely a number that counts as natural has 64 bits, in whatever spelling it
came, and so whatever is read can be written and read again.

## Main definitions

* `Json.NumberEnds`: The text does not go on with a number.
* `Json.Printable`: No character of the text is below the space.

## Theorems

* `escape_cases`: A character stands for itself, or its escape is read back.
* `readString_quote`: A string is read back.
* `readNumber_number`: A natural number of 64 bits is read back.
* `le_maxSize_of_readNumber`: A natural number that is read has 64 bits.
-/

namespace Chunking.Json

/-- The text does not go on with a number that stands in front of it. -/
def NumberEnds (text : List Char) : Prop :=
  ∀ c, text.head? = some c → c.isDigit = false ∧ c ≠ '.' ∧ c ≠ 'e' ∧ c ≠ 'E'

/-- No character of the text is below the space, and so it lies on one line. -/
def Printable (text : List Char) : Prop :=
  ∀ c ∈ text, 0x20 ≤ c.toNat

namespace Printable

theorem append {first second : List Char} (h : Printable first) (h' : Printable second) :
    Printable (first ++ second) := by
  intro c hc
  rcases List.mem_append.mp hc with hc | hc
  · exact h c hc
  · exact h' c hc

theorem cons {c : Char} {text : List Char} (hc : 0x20 ≤ c.toNat) (h : Printable text) :
    Printable (c :: text) := by
  intro d hd
  rcases List.mem_cons.mp hd with rfl | hd
  · exact hc
  · exact h d hd

theorem nil : Printable [] :=
  fun _ hc => absurd hc List.not_mem_nil

end Printable

/-! ## Strings -/

-- The escapes with four digits are those of the characters below the space.
theorem readEscape_control (n : Nat) (hn : n < 0x20) (text : List Char) :
    readEscape (['u', '0', '0', Nat.digitChar (n / 16), Nat.digitChar (n % 16)] ++ text) =
      .ok (Char.ofNat n, text) := by
  interval_cases n <;> rfl

/-- A character that is written inside a string stands for itself, or it is
written as a backslash and an escape that is read back. -/
theorem escape_cases (c : Char) :
    (escape c = [c] ∧ c ≠ '"' ∧ c ≠ '\\' ∧ 0x20 ≤ c.toNat) ∨
      ∃ letters, escape c = '\\' :: letters ∧
        ∀ text, readEscape (letters ++ text) = .ok (c, text) := by
  unfold escape
  by_cases hquote : c = '"'
  · exact .inr ⟨['"'], by simp [hquote], fun _ => by rw [hquote]; rfl⟩
  by_cases hbackslash : c = '\\'
  · exact .inr ⟨['\\'], by simp [hbackslash], fun _ => by rw [hbackslash]; rfl⟩
  by_cases hbackspace : c = '\x08'
  · exact .inr ⟨['b'], by simp [hbackspace], fun _ => by rw [hbackspace]; rfl⟩
  by_cases hfeed : c = '\x0c'
  · exact .inr ⟨['f'], by simp [hfeed], fun _ => by rw [hfeed]; rfl⟩
  by_cases hnewline : c = '\n'
  · exact .inr ⟨['n'], by simp [hnewline], fun _ => by rw [hnewline]; rfl⟩
  by_cases hreturn : c = '\r'
  · exact .inr ⟨['r'], by simp [hreturn], fun _ => by rw [hreturn]; rfl⟩
  by_cases htab : c = '\t'
  · exact .inr ⟨['t'], by simp [htab], fun _ => by rw [htab]; rfl⟩
  simp only [hquote, hbackslash, hbackspace, hfeed, hnewline, hreturn, htab, if_false]
  by_cases hcontrol : c.toNat < 0x20
  · refine .inr ⟨_, if_pos hcontrol, fun text => ?_⟩
    rw [readEscape_control c.toNat hcontrol, Char.ofNat_toNat]
  · exact .inl ⟨if_neg hcontrol, hquote, hbackslash, Nat.le_of_not_lt hcontrol⟩

theorem printable_escape (c : Char) : Printable (escape c) := by
  unfold escape
  split_ifs with _ _ _ _ _ _ _ hcontrol
  on_goal 8 =>
      -- Two digits of a character below the space are not fixed.
      have hdigit (n : Nat) (hn : n < 16) : 0x20 ≤ (Nat.digitChar n).toNat := by
        interval_cases n <;> decide
      exact .cons (by decide) <| .cons (by decide) <| .cons (by decide) <| .cons (by decide) <|
        .cons (hdigit (c.toNat / 16) (by omega)) <| .cons (hdigit (c.toNat % 16) (by omega)) .nil
  on_goal 8 => exact .cons (Nat.le_of_not_lt hcontrol) .nil
  all_goals exact .cons (by decide) <| .cons (by decide) .nil

theorem printable_quote (s : String) : Printable (quote s) := by
  refine .cons (by decide) (.append ?_ (.cons (by decide) .nil))
  intro c hc
  rcases List.mem_flatMap.mp hc with ⟨d, _, hc⟩
  exact printable_escape d c hc

theorem escape_ne_nil (c : Char) : escape c ≠ [] := by
  rcases escape_cases c with ⟨h, _⟩ | ⟨letters, h, _⟩ <;> rw [h] <;> exact List.cons_ne_nil _ _

-- One character is read in one step, however it was written.
theorem readStringFrom_escape (c b : Char) (taken bound text : List Char) :
    readStringFrom taken (b :: bound) (escape c ++ text) =
      readStringFrom (c :: taken) bound text := by
  rcases escape_cases c with ⟨h, hquote, hbackslash, hspace⟩ | ⟨letters, h, hread⟩
  · rw [h, List.singleton_append, readStringFrom, if_neg hquote, if_neg hbackslash,
      if_neg (Nat.not_lt_of_le hspace)]
  · rw [h, List.cons_append, readStringFrom, if_neg (by decide), if_pos rfl, hread]

theorem readStringFrom_flatMap_escape (chars taken bound text : List Char)
    (h : chars.length < bound.length) :
    readStringFrom taken bound (chars.flatMap escape ++ '"' :: text) =
      .ok (String.ofList (taken.reverse ++ chars), text) := by
  induction chars generalizing taken bound with
  | nil =>
      rcases List.exists_cons_of_length_pos h with ⟨b, bound, rfl⟩
      simp [readStringFrom]
  | cons c chars ih =>
      rcases List.exists_cons_of_length_pos (Nat.zero_lt_of_lt h) with ⟨b, bound, rfl⟩
      rw [List.flatMap_cons, List.append_assoc, readStringFrom_escape,
        ih _ _ (by simpa using h), List.reverse_cons, List.append_assoc]
      rfl

-- Every character is written as one character at least.
theorem length_le_length_flatMap_escape (chars : List Char) :
    chars.length ≤ (chars.flatMap escape).length := by
  induction chars with
  | nil => exact Nat.le_refl 0
  | cons c chars ih =>
      have := List.length_pos_iff.mpr (escape_ne_nil c)
      simp only [List.flatMap_cons, List.length_append, List.length_cons]
      omega

/-- What is written of a string behind its opening quote is read back, whatever
follows. -/
theorem readString_quote (s : String) (text : List Char) :
    readString (s.toList.flatMap escape ++ '"' :: text) = .ok (s, text) := by
  have hlength := length_le_length_flatMap_escape s.toList
  have hbound : s.toList.length < (s.toList.flatMap escape ++ '"' :: text).length := by
    rw [List.length_append, List.length_cons]
    omega
  rw [readString, readStringFrom_flatMap_escape _ _ _ _ hbound, List.reverse_nil,
    List.nil_append, String.ofList_toList]

/-! ## Numbers -/

theorem le_foldl_digits (value : Nat) (digits : List Char) :
    value ≤ digits.foldl (fun value c => value * 10 + (c.toNat - 48)) value := by
  induction digits generalizing value with
  | nil => exact Nat.le_refl value
  | cons c digits ih =>
      have := ih (value * 10 + (c.toNat - 48))
      rw [List.foldl_cons]
      omega

/-- No digit is left over from a number of 64 bits. -/
theorem appendDigits_of_le (value : Nat) (digits : List Char)
    (h : digits.foldl (fun value c => value * 10 + (c.toNat - 48)) value ≤ maxSize) :
    appendDigits value digits =
      (digits.foldl (fun value c => value * 10 + (c.toNat - 48)) value, 0) := by
  induction digits generalizing value with
  | nil => rfl
  | cons c digits ih =>
      rw [List.foldl_cons] at h ⊢
      have hnext := Nat.le_trans (le_foldl_digits _ digits) h
      unfold appendDigits
      rw [if_pos hnext, ih _ h]

theorem appendDigits_le (value : Nat) (digits : List Char) (h : value ≤ maxSize) :
    (appendDigits value digits).1 ≤ maxSize := by
  induction digits generalizing value with
  | nil => exact h
  | cons c digits ih =>
      unfold appendDigits
      by_cases hnext : value * 10 + (c.toNat - 48) ≤ maxSize
      · simp only [if_pos hnext]
        exact ih _ hnext
      · simp only [if_neg hnext]
        exact h

theorem digitsValue_toDigits (n : Nat) : digitsValue (Nat.toDigits 10 n) = n := by
  have h := Nat.ofDigitChars_toDigits (b := 10) (n := n) (by decide) (by decide)
  simpa only [Nat.ofDigitChars, digitsValue, Nat.mul_comm, Char.reduceToNat] using h

-- The first digit of a positive number is not zero.
theorem head?_toDigits_ne_zero (n : Nat) (h : 0 < n) :
    (Nat.toDigits 10 n).head? ≠ some '0' := by
  induction n using Nat.strong_induction_on with
  | _ n ih =>
      by_cases hsmall : n < 10
      · rw [Nat.toDigits_of_lt_base hsmall]
        interval_cases n <;> decide
      · rw [Nat.toDigits_of_base_le (by decide) (by omega)]
        have hfirst := ih (n / 10) (by omega) (by omega)
        rcases List.exists_cons_of_ne_nil (Nat.toDigits_ne_nil (n := n / 10) (b := 10)) with
          ⟨c, rest, hc⟩
        rw [hc] at hfirst ⊢
        exact hfirst

-- A number of several digits has no leading zero.
theorem toDigits_ne_zero_cons (n : Nat) (second : Char) (more : List Char) :
    Nat.toDigits 10 n ≠ '0' :: second :: more := by
  intro h
  rcases Nat.eq_zero_or_pos n with rfl | hpos
  · rw [Nat.toDigits_of_lt_base (by decide)] at h
    simp at h
  · exact head?_toDigits_ne_zero n hpos (by rw [h]; rfl)

/-- A natural number of 64 bits is read back if the text does not go on with
it. -/
theorem readNumber_number (n : Nat) (hn : n ≤ maxSize) (text : List Char) (h : NumberEnds text) :
    readNumber (number n ++ text) = .ok (.natural n, text) := by
  have hdigits : ∀ c ∈ Nat.toDigits 10 n, c.isDigit = true :=
    fun c hc => Nat.isDigit_of_mem_toDigits (by decide) (by decide) hc
  -- The digits are those of the number and no others.
  have htake : (Nat.toDigits 10 n ++ text).takeWhile Char.isDigit = Nat.toDigits 10 n := by
    rw [List.takeWhile_append_of_pos hdigits]
    cases text with
    | nil => simp
    | cons c text => simp [(h c rfl).1]
  have hvalue : appendDigits 0 (Nat.toDigits 10 n) = (n, 0) := by
    have hfold := digitsValue_toDigits n
    rw [digitsValue] at hfold
    rw [appendDigits_of_le 0 _ (by rw [hfold]; exact hn), hfold]
  have hmagnitude : readMagnitude false (Nat.toDigits 10 n ++ text) = .ok (.natural n, text) := by
    unfold readMagnitude
    simp only [htake, List.drop_left, hvalue]
    split
    · rename_i hnil
      exact absurd hnil Nat.toDigits_ne_nil
    · rename_i second more hzero
      exact absurd hzero (toDigits_ne_zero_cons n second more)
    · split
      · exact absurd rfl (h '.' rfl).2.1
      · exact absurd rfl (h 'e' rfl).2.2.1
      · exact absurd rfl (h 'E' rfl).2.2.2
      · simp
  unfold number readNumber
  split
  · rename_i more heq
    -- No digit is a sign.
    rcases List.exists_cons_of_ne_nil (Nat.toDigits_ne_nil (n := n) (b := 10)) with ⟨c, rest, hc⟩
    rw [hc, List.cons_append, List.cons.injEq] at heq
    have := hdigits c (by rw [hc]; exact List.mem_cons_self)
    rw [heq.1] at this
    exact absurd this (by decide)
  · exact hmagnitude

theorem otherNumber_ne_natural (significand : Nat) (exponent : Int) (text : List Char)
    {value : Nat} {rest : List Char} :
    otherNumber significand exponent text ≠ .ok (.natural value, rest) := by
  unfold otherNumber
  split <;> simp

theorem readExponent_ne_natural (significand : Nat) (exponent : Int) (text : List Char)
    {value : Nat} {rest : List Char} :
    readExponent significand exponent text ≠ .ok (.natural value, rest) := by
  unfold readExponent
  dsimp only
  -- With either sign or none, the digits behind it decide.
  split <;> dsimp only
  all_goals
    split
    · split <;> simp
    · exact otherNumber_ne_natural _ _ _

theorem readFraction_ne_natural (significand : Nat) (exponent : Int) (text : List Char)
    {value : Nat} {rest : List Char} :
    readFraction significand exponent text ≠ .ok (.natural value, rest) := by
  unfold readFraction
  dsimp only
  split
  · split <;> simp
  · split
    · exact readExponent_ne_natural _ _ _
    · exact readExponent_ne_natural _ _ _
    · exact otherNumber_ne_natural _ _ _

theorem le_maxSize_of_readMagnitude (negative : Bool) (text : List Char) {value : Nat}
    {rest : List Char} (h : readMagnitude negative text = .ok (.natural value, rest)) :
    value ≤ maxSize := by
  unfold readMagnitude at h
  dsimp only at h
  split at h
  · split at h <;> simp at h
  · simp at h
  · split at h
    · exact absurd h (readFraction_ne_natural _ _ _)
    · exact absurd h (readExponent_ne_natural _ _ _)
    · exact absurd h (readExponent_ne_natural _ _ _)
    · split at h
      · cases negative with
        | true => simp at h
        | false =>
            simp only [Bool.false_eq_true, if_false, Except.ok.injEq, Prod.mk.injEq,
              Number.natural.injEq] at h
            rw [← h.1]
            exact appendDigits_le 0 _ (Nat.zero_le _)
      · exact absurd h (otherNumber_ne_natural _ _ _)

/-- A number that counts as natural has 64 bits, however it is spelled. -/
theorem le_maxSize_of_readNumber {text : List Char} {value : Nat} {rest : List Char}
    (h : readNumber text = .ok (.natural value, rest)) : value ≤ maxSize := by
  unfold readNumber at h
  split at h
  · exact le_maxSize_of_readMagnitude _ _ h
  · exact le_maxSize_of_readMagnitude _ _ h

theorem printable_number (n : Nat) : Printable (number n) := by
  intro c hc
  have hdigit := Nat.isDigit_of_mem_toDigits (b := 10) (by decide) (by decide) hc
  have := (Char.isDigit_iff_toNat.mp hdigit).1
  exact Nat.le_trans (by decide) this

end Chunking.Json
