import Chunking.Json.Codec
import Chunking.Proofs.JsonScalars

/-!
# Codecs that read back what they write

A codec is lawful if it reads what it writes, whatever follows, and if every
value that it reads can be written and read again. The two halves meet in a
condition on values, which says what can be stored at all: sizes of 64 bits.
A codec writes and reads only such values, in whatever spelling they come.

Codecs are put together from smaller ones, and the law is put together along
with them, one lemma for each way of putting codecs together.

## Main definitions

* `Json.Codec.Lawful`: A codec that reads back what it writes.
* `Json.Codec.ReadsBack`: The same of whole texts.

## Theorems

* `readItems_written`: The items of a list are read back.
* `Codec.Lawful.list`, `Codec.Lawful.nullable`, `Codec.Lawful.via`: Codecs that
  are made of others.
* `Codec.Lawful.readsBack`: A lawful codec reads back whole texts.
-/

namespace Chunking.Json

variable {α β : Type}

-- What follows a member or an item ends a number.
theorem numberEnds_cons {c : Char} (text : List Char)
    (h : c.isDigit = false ∧ c ≠ '.' ∧ c ≠ 'e' ∧ c ≠ 'E') : NumberEnds (c :: text) := by
  intro d hd
  cases hd
  exact h

theorem numberEnds_nil : NumberEnds [] := by
  intro c hc
  cases hc

-- What a reader makes of a value that was read is read only if that value is.
theorem exists_of_map_eq_ok {f : α → β} {read : Except Fault α} {value : β}
    (h : read.map f = .ok value) : ∃ inner, read = .ok inner ∧ f inner = value := by
  cases read with
  | error fault => cases h
  | ok inner =>
      cases h
      exact ⟨inner, rfl, rfl⟩

-- Reading on succeeds only behind something that was read.
theorem exists_of_bind_eq_ok {ε : Type} {read : Except ε α} {onward : α → Except ε β} {value : β}
    (h : read >>= onward = .ok value) : ∃ inner, read = .ok inner ∧ onward inner = .ok value := by
  cases read with
  | error fault => cases h
  | ok inner => exact ⟨inner, rfl, h⟩

theorem skipBlanks_cons {c : Char} (text : List Char) (h : isJsonBlank c = false) :
    skipBlanks (c :: text) = c :: text :=
  List.dropWhile_cons_of_neg (by simp [h])

theorem separated_cons (first : List Char) (more : List (List Char)) :
    separated (first :: more) = first ++ more.flatMap (',' :: ·) := by
  unfold separated
  induction more generalizing first with
  | nil => simp
  | cons second more ih => simp [List.intercalate_cons_cons, ih]

theorem printable_separated {texts : List (List Char)} (h : ∀ text ∈ texts, Printable text) :
    Printable (separated texts) := by
  cases texts with
  | nil => exact Printable.nil
  | cons first more =>
      rw [separated_cons]
      refine (h first List.mem_cons_self).append fun c hc => ?_
      rcases List.mem_flatMap.mp hc with ⟨text, htext, hc⟩
      exact Printable.cons (by decide) (h text (List.mem_cons_of_mem first htext)) c hc

theorem Codec.atFirst_cons (read : Char → Reader α) {c : Char} (text : List Char)
    (h : isJsonBlank c = false) : atFirst read (c :: text) = read c text := by
  unfold atFirst
  rw [skipBlanks_cons text h]

-- Reading succeeds only at a first character that is no blank.
theorem Codec.exists_of_atFirst {read : Char → Reader α} {text rest : List Char} {value : α}
    (h : atFirst read text = .ok (value, rest)) :
    ∃ c text', read c text' = .ok (value, rest) := by
  unfold atFirst at h
  split at h
  · exact absurd h (by simp)
  · exact ⟨_, _, h⟩

/-- A codec that reads back what it writes, where only values that are `sized`
can be written so. What it writes is printable, and it starts with a character
by which a list can tell an item from its end. -/
structure Codec.Lawful (codec : Codec α) (sized : α → Prop) : Prop where
  read_write : ∀ value, sized value → ∀ text, NumberEnds text →
    codec.read (codec.write value ++ text) = .ok (value, text)
  sized_of_read : ∀ text value rest, codec.read text = .ok (value, rest) → sized value
  printable : ∀ value, Printable (codec.write value)
  starts : ∀ value, ∃ c text, codec.write value = c :: text ∧ isJsonBlank c = false ∧ c ≠ ']'

namespace Codec

/-! ## Values without parts -/

theorem Lawful.string : string.Lawful fun _ => True where
  read_write value _ text _ := by
    dsimp only [Codec.string, quote]
    rw [List.cons_append, atFirst_cons _ _ (by decide), if_pos rfl, List.append_assoc]
    exact readString_quote value text
  sized_of_read _ _ _ _ := trivial
  printable := printable_quote
  starts value := ⟨'"', _, rfl, by decide, by decide⟩

-- A number starts with a digit.
theorem exists_digit_of_number (n : Nat) :
    ∃ c text, number n = c :: text ∧ c.isDigit = true := by
  rcases List.exists_cons_of_ne_nil (Nat.toDigits_ne_nil (n := n) (b := 10)) with ⟨c, text, h⟩
  refine ⟨c, text, h, Nat.isDigit_of_mem_toDigits (b := 10) (n := n) (by decide) (by decide) ?_⟩
  rw [h]
  exact List.mem_cons_self

theorem isJsonBlank_of_isDigit {c : Char} (h : c.isDigit = true) : isJsonBlank c = false := by
  by_contra hblank
  simp only [isJsonBlank, Bool.not_eq_false, Bool.or_eq_true, beq_iff_eq] at hblank
  rcases hblank with ((rfl | rfl) | rfl) | rfl <;> exact absurd h (by decide)

theorem Lawful.natural : natural.Lawful (· ≤ maxSize) where
  read_write value hvalue text htext := by
    have hread := readNumber_number value hvalue text htext
    rcases exists_digit_of_number value with ⟨c, rest, hnumber, hdigit⟩
    dsimp only [Codec.natural]
    rw [hnumber, List.cons_append] at hread ⊢
    rw [atFirst_cons _ _ (isJsonBlank_of_isDigit hdigit), hdigit, Bool.or_true, if_pos rfl, hread]
  sized_of_read text value rest h := by
    rcases exists_of_atFirst h with ⟨c, text', h⟩
    split at h
    · split at h
      · cases h
      · rename_i hnumber
        cases h
        exact le_maxSize_of_readNumber hnumber
      · cases h
    · cases h
  printable := printable_number
  starts value := by
    rcases exists_digit_of_number value with ⟨c, text, h, hdigit⟩
    refine ⟨c, text, h, isJsonBlank_of_isDigit hdigit, fun hc => ?_⟩
    rw [hc] at hdigit
    exact absurd hdigit (by decide)

/-- One of finitely many values is read back if it has a name of its own. -/
theorem Lawful.oneOf {values : List α} {name : α → String}
    (h : ∀ value, values.find? (fun other => name other == name value) = some value) :
    (oneOf values name).Lawful fun _ => True where
  read_write value _ text _ := by
    dsimp only [Codec.oneOf, quote]
    rw [List.cons_append, atFirst_cons _ _ (by decide), if_pos rfl, List.append_assoc,
      List.singleton_append, readString_quote]
    simp only [bind, Except.bind, pure, Except.pure, h value]
  sized_of_read _ _ _ _ := trivial
  printable value := printable_quote (name value)
  starts value := ⟨'"', _, rfl, by decide, by decide⟩

/-! ## Values that stand for others -/

variable {codec : Codec α} {sized : α → Prop}

theorem Lawful.via {ofValue? : α → Option β} {toValue : β → α} {sized' : β → Prop}
    (h : codec.Lawful sized) (hto : ∀ value, sized' value → sized (toValue value))
    (hback : ∀ value, ofValue? (toValue value) = some value)
    (hof : ∀ value other, sized value → ofValue? value = some other → sized' other) :
    (codec.via ofValue? toValue).Lawful sized' where
  read_write value hvalue text htext := by
    dsimp only [Codec.via]
    rw [h.read_write (toValue value) (hto value hvalue) text htext]
    simp only [bind, Except.bind, pure, Except.pure, hback value]
  sized_of_read text value rest hread := by
    rcases exists_of_bind_eq_ok hread with ⟨read, hcodec, hread⟩
    dsimp only at hread
    split at hread
    · rename_i other hother
      cases hread
      exact hof read.1 value (h.sized_of_read text read.1 read.2 hcodec) hother
    · cases hread
  printable value := h.printable (toValue value)
  starts value := h.starts (toValue value)

/-- A value that may be absent is read back if none that is there starts like the
word for absence. -/
theorem Lawful.nullable (h : codec.Lawful sized)
    (hstarts : ∀ value, (codec.write value).head? ≠ some 'n') :
    (nullable codec).Lawful fun value => ∀ inner, value = some inner → sized inner where
  read_write value hvalue text htext := by
    cases value with
    | none => rfl
    | some value =>
        have hread := h.read_write value (hvalue value rfl) text htext
        rcases h.starts value with ⟨c, rest, hwrite, hblank, _⟩
        have hnull : c ≠ 'n' := by
          rintro rfl
          exact hstarts value (by rw [hwrite]; rfl)
        dsimp only [Codec.nullable]
        rw [hwrite, List.cons_append] at hread ⊢
        rw [atFirst_cons _ _ hblank, if_neg hnull, hread]
        rfl
  sized_of_read text value rest hread inner hinner := by
    rcases exists_of_atFirst hread with ⟨c, text', hread⟩
    split at hread
    · -- The word for absence gives no value.
      rcases exists_of_map_eq_ok hread with ⟨rest', _, hvalue⟩
      cases hvalue
      cases hinner
    · rcases exists_of_map_eq_ok hread with ⟨read, hcodec, hvalue⟩
      cases hvalue
      cases hinner
      exact h.sized_of_read _ _ _ hcodec
  printable value := by
    cases value with
    | none => simp [Codec.nullable, Json.null, Printable]
    | some value => exact h.printable value
  starts value := by
    cases value with
    | none => exact ⟨'n', _, rfl, by decide, by decide⟩
    | some value => exact h.starts value

/-! ## Lists -/

/-- The items of a list behind the first one, each with the comma before it, and
the end of the list. -/
def writtenItems (codec : Codec α) (items : List α) (text : List Char) : List Char :=
  (items.map codec.write).flatMap (',' :: ·) ++ ']' :: text

theorem writtenItems_nil (codec : Codec α) (text : List Char) :
    codec.writtenItems [] text = ']' :: text :=
  rfl

theorem writtenItems_cons (codec : Codec α) (item : α) (items : List α) (text : List Char) :
    codec.writtenItems (item :: items) text =
      ',' :: (codec.write item ++ codec.writtenItems items text) := by
  simp [writtenItems]

-- An item is followed by a comma or by the end of the list.
theorem numberEnds_writtenItems (codec : Codec α) (items : List α) (text : List Char) :
    NumberEnds (codec.writtenItems items text) := by
  cases items with
  | nil => exact numberEnds_cons text (by decide)
  | cons => exact numberEnds_cons _ (by decide)

theorem length_lt_length_writtenItems (codec : Codec α) (items : List α) (text : List Char) :
    items.length < (codec.writtenItems items text).length := by
  induction items with
  | nil => simp [writtenItems_nil]
  | cons item items ih =>
      simp only [writtenItems_cons, List.length_cons, List.length_append]
      omega

theorem readItems_written (h : codec.Lawful sized) (items : List α)
    (hitems : ∀ item ∈ items, sized item) (newestFirst : List α) (hnewest : newestFirst ≠ [])
    (bound text : List Char) (hbound : items.length < bound.length) :
    readItems codec.read newestFirst bound (codec.writtenItems items text) =
      .ok (newestFirst.reverse ++ items, text) := by
  induction items generalizing newestFirst bound with
  | nil =>
      rcases List.exists_cons_of_length_pos hbound with ⟨b, bound, rfl⟩
      rw [readItems, writtenItems_nil, skipBlanks_cons text (by decide)]
      simp
  | cons item items ih =>
      rcases List.exists_cons_of_length_pos (Nat.zero_lt_of_lt hbound) with ⟨b, bound, rfl⟩
      rcases h.starts item with ⟨c, written, hwrite, hblank, hbracket⟩
      have hread := h.read_write item (hitems item List.mem_cons_self) _
        (numberEnds_writtenItems codec items text)
      have hrest := ih (fun other hother => hitems other (List.mem_cons_of_mem item hother))
        (item :: newestFirst) (List.cons_ne_nil _ _) bound (by simpa using hbound)
      rw [readItems, writtenItems_cons, skipBlanks_cons _ (by decide)]
      rw [hwrite, List.cons_append] at hread ⊢
      simp [skipBlanks_cons _ hblank, hbracket, hread, hrest, hnewest]

-- Only items that were read come out of a list.
theorem sized_of_readItems (h : codec.Lawful sized) (newestFirst : List α)
    (hnewest : ∀ item ∈ newestFirst, sized item) (bound text : List Char) {items : List α}
    {rest : List Char} (hread : readItems codec.read newestFirst bound text = .ok (items, rest)) :
    ∀ item ∈ items, sized item := by
  induction bound generalizing newestFirst text with
  | nil => cases hread
  | cons b bound ih =>
      cases hskip : skipBlanks text with
      | nil =>
          rw [readItems, hskip] at hread
          cases hread
      | cons c rest' =>
          rw [readItems, hskip] at hread
          extract_lets item at hread
          have hitem (text : List Char) (hread : item text = .ok (items, rest)) :
              ∀ item ∈ items, sized item := by
            dsimp only [item] at hread
            split at hread
            · cases hread
            · rename_i value rest' hvalue
              refine ih (value :: newestFirst) (fun item hitem => ?_) rest' hread
              rcases List.mem_cons.mp hitem with rfl | hitem
              · exact h.sized_of_read _ _ _ hvalue
              · exact hnewest item hitem
          dsimp only at hread
          split_ifs at hread
          · cases hread
            exact fun item hitem => hnewest item (List.mem_reverse.mp hitem)
          · exact hitem _ hread
          · split at hread
            · cases hread
            · split_ifs at hread
              exact hitem _ hread

theorem Lawful.list (h : codec.Lawful sized) :
    (Codec.list codec).Lawful fun items => ∀ item ∈ items, sized item where
  read_write items hitems text _ := by
    dsimp only [Codec.list, Json.list]
    rw [List.cons_append, atFirst_cons _ _ (by decide), if_pos rfl, List.append_assoc,
      List.singleton_append]
    cases items with
    | nil =>
        rw [readItems, List.map_nil, separated, List.intercalate_nil, List.nil_append,
          skipBlanks_cons text (by decide)]
        simp
    | cons item items =>
        rcases h.starts item with ⟨c, written, hwrite, hblank, hbracket⟩
        have hread := h.read_write item (hitems item List.mem_cons_self) _
          (numberEnds_writtenItems codec items text)
        have hbound := length_lt_length_writtenItems codec items text
        have hrest := readItems_written h items
          (fun other hother => hitems other (List.mem_cons_of_mem item hother)) [item]
          (List.cons_ne_nil _ _) (codec.write item ++ codec.writtenItems items text) text
          (by rw [List.length_append]; omega)
        have hwritten : separated ((item :: items).map codec.write) ++ ']' :: text =
            codec.write item ++ codec.writtenItems items text := by
          rw [List.map_cons, separated_cons, List.append_assoc, writtenItems]
        rw [hwritten, readItems]
        rw [hwrite, List.cons_append] at hread hrest ⊢
        simp [skipBlanks_cons _ hblank, hbracket, hread, hrest]
  sized_of_read text items rest hread := by
    rcases exists_of_atFirst hread with ⟨c, text', hread⟩
    split at hread
    · exact sized_of_readItems h [] (fun _ hitem => absurd hitem List.not_mem_nil) _ _ hread
    · cases hread
  printable items := by
    refine Printable.cons (by decide) (.append (printable_separated ?_) (.cons (by decide) .nil))
    intro text htext
    rcases List.mem_map.mp htext with ⟨item, _, rfl⟩
    exact h.printable item
  starts items := ⟨'[', _, rfl, by decide, by decide⟩

end Codec

/-! ## Whole texts -/

/-- The text of a value is read as that value, and a value that was read from
any text can be written and read again. Only the first asks for a size. -/
def Codec.ReadsBack (codec : Codec α) (sized : α → Prop) : Prop :=
  (∀ value, sized value → codec.decode (codec.encode value) = .ok value) ∧
    ∀ text value, codec.decode text = .ok value → codec.decode (codec.encode value) = .ok value

namespace Codec.Lawful

variable {codec : Codec α} {sized : α → Prop}

theorem decode_encode (h : codec.Lawful sized) {value : α} (hvalue : sized value) :
    codec.decode (codec.encode value) = .ok value := by
  have hread := h.read_write value hvalue [] numberEnds_nil
  rw [List.append_nil] at hread
  rw [decode, encode, String.toList_ofList, hread]
  rfl

theorem sized_of_decode (h : codec.Lawful sized) {text : String} {value : α}
    (hread : codec.decode text = .ok value) : sized value := by
  rcases exists_of_bind_eq_ok hread with ⟨read, hcodec, hread⟩
  dsimp only at hread
  split_ifs at hread
  · cases hread
    exact h.sized_of_read _ _ _ hcodec

/-- A lawful codec reads back whole texts. -/
theorem readsBack (h : codec.Lawful sized) : codec.ReadsBack sized :=
  ⟨fun _ hvalue => h.decode_encode hvalue,
    fun _ _ hread => h.decode_encode (h.sized_of_decode hread)⟩

theorem printable_encode (h : codec.Lawful sized) (value : α) :
    Printable (codec.encode value).toList := by
  rw [encode, String.toList_ofList]
  exact h.printable value

end Codec.Lawful

end Chunking.Json
