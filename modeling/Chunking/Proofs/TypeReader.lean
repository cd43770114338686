import Chunking.Proofs.TypeNesting

/-!
# Reading a type expression in pieces

A parameter list is cut at commas outside brackets, and of each piece only what comes
before an equals sign is looked at. The arrow of a function type upsets both. It has an
equals sign, and it lowers the number of open brackets by one too many, so that a comma
further on may be cut at that lies inside brackets.

What is still seen of a type can be read off its tokens, with two things kept in mind:
how many brackets are open by that count, and whether types are shown at the place. A
cut hides what follows, unless the name of a parameter comes next; an arrow hides what
follows up to the next cut. `Reader` is this reading. Without arrows nothing is hidden, as
long as the count does not come to the end of its range.

## Main definitions

* `Reader`: Where a reading is.
* `Reader.next`: The reading behind one more token.
* `Reader.behindFront`: The reading behind what comes before a type in a list.
* `Reader.words`: The identifiers that are shown.
* `Reader.HasRoom`: The count does not come to the end of its range.
* `Reader.ShowsAll`: All identifiers are shown.

## Theorems

* `Reader.words_sublist`: Nothing else is shown.
* `Reader.depth_after`: The brackets that are open behind a row of tokens.
* `Phrase.Derives.showsAll`: Without arrows all identifiers are shown.
-/

namespace Chunking

/-- How many brackets are open at a place, with a closing one counted for every arrow,
and whether types are shown there. -/
structure Reader where
  depth : Int32
  shown : Bool

namespace Reader

/-- Whether types are shown behind a token. At a comma outside brackets a piece is cut off,
and the next piece shows types if it starts with the name of a parameter. -/
def showsBehind (reader : Reader) : TypeToken → Bool
  | .comma => reader.shown && 0 < reader.depth
  | .nextParameter _ => reader.shown || reader.depth ≤ 0
  | .arrow => false
  | _ => reader.shown

/-- The reading behind a token. -/
def next (reader : Reader) (token : TypeToken) : Reader where
  depth := reader.depth + Int32.ofInt token.change
  shown := reader.showsBehind token

/-- The reading behind the front of a parameter in a list. A piece is cut off before it if
no brackets are open, and the next piece shows types. -/
def behindFront (reader : Reader) : Reader where
  depth := reader.depth
  shown := reader.shown || reader.depth ≤ 0

/-- The identifier of a token, if it is shown. The name of a parameter is taken for a
type if it does not start a piece. -/
def shows (reader : Reader) : TypeToken → List (List Char)
  | .word chars | .firstParameter chars => if reader.shown then [chars] else []
  | .nextParameter chars => if reader.shown && 0 < reader.depth then [chars] else []
  | _ => []

/-- The identifiers that are shown in a row of tokens. -/
def words : Reader → List TypeToken → List (List Char)
  | _, [] => []
  | reader, token :: tokens => reader.shows token ++ (reader.next token).words tokens

/-- Only identifiers of the tokens are shown. -/
theorem words_sublist (reader : Reader) (tokens : List TypeToken) :
    (reader.words tokens).Sublist (identifiersOf tokens) := by
  induction tokens generalizing reader with
  | nil => exact List.Sublist.refl []
  | cons token tokens ih =>
      rw [words, identifiersOf_cons]
      refine .append ?_ (ih (reader.next token))
      unfold shows
      split
      · split_ifs <;> simp [TypeToken.identifier?]
      · split_ifs <;> simp [TypeToken.identifier?]
      · split_ifs <;> simp [TypeToken.identifier?]
      · exact List.nil_sublist _

/-- The reading behind a row of tokens. -/
def after (reader : Reader) (tokens : List TypeToken) : Reader :=
  tokens.foldl next reader

theorem after_append (reader : Reader) (first second : List TypeToken) :
    reader.after (first ++ second) = (reader.after first).after second :=
  List.foldl_append

/-- The identifiers of a row are those of its first part, and those of the second as it is read
behind the first. -/
theorem words_append (reader : Reader) (first second : List TypeToken) :
    reader.words (first ++ second) = reader.words first ++ (reader.after first).words second := by
  induction first generalizing reader with
  | nil => rfl
  | cons token first ih =>
      rw [List.cons_append, words, words, ih, List.append_assoc]
      rfl

theorem shown_next (reader : Reader) (token : TypeToken) :
    (reader.next token).shown = reader.showsBehind token :=
  rfl

theorem depth_next (reader : Reader) (token : TypeToken) :
    (reader.next token).depth = reader.depth + Int32.ofInt token.change :=
  rfl

/-- The count behind a row is its net change, whether or not it wraps around in between. -/
theorem depth_after (reader : Reader) (tokens : List TypeToken) :
    (reader.after tokens).depth = reader.depth + Int32.ofInt (changeOf tokens) := by
  induction tokens generalizing reader with
  | nil => exact (Int32.add_zero _).symm
  | cons token tokens ih =>
      change ((reader.next token).after tokens).depth = _
      rw [ih, changeOf_cons, Int32.ofInt_add, depth_next, Int32.add_assoc]

/-- While the tokens are read the count does not come to the end of its range. -/
def HasRoom (reader : Reader) (tokens : List TypeToken) : Prop :=
  ∀ front, front <+: tokens → reader.depth.toInt + changeOf front < 2 ^ 31

variable {reader : Reader} {first second : List TypeToken} {token : TypeToken}

/-- Where there is room for a row there is room for its start. -/
theorem HasRoom.left (h : reader.HasRoom (first ++ second)) : reader.HasRoom first :=
  fun front hfront => h front (hfront.trans (List.prefix_append first second))

/-- Where there is room and nothing comes down too far, the count is exact. -/
theorem HasRoom.toInt_depth_after (h : reader.HasRoom first)
    (hlow : 0 ≤ reader.depth.toInt + changeOf first) :
    (reader.after first).depth.toInt = reader.depth.toInt + changeOf first := by
  rw [depth_after]
  exact toInt_add_ofInt_of_inRange (by omega) (h first List.prefix_rfl)

/-- And for the rest, as it is read behind the start. -/
theorem HasRoom.right (h : reader.HasRoom (first ++ second))
    (hlow : 0 ≤ reader.depth.toInt + changeOf first) : (reader.after first).HasRoom second := by
  intro front hfront
  have hroom := h (first ++ front) ((List.prefix_append_right_inj first).mpr hfront)
  rw [changeOf_append] at hroom
  rw [h.left.toInt_depth_after hlow]
  omega

-- Behind a token there is room for the rest.
theorem HasRoom.behind (h : reader.HasRoom (first ++ token :: second))
    (hlow : 0 ≤ reader.depth.toInt + (changeOf first + token.change)) :
    ((reader.after first).next token).depth.toInt =
        reader.depth.toInt + (changeOf first + token.change) ∧
      ((reader.after first).next token).HasRoom second := by
  have htokens : first ++ token :: second = (first ++ [token]) ++ second := by
    simp
  have hchange : changeOf (first ++ [token]) = changeOf first + token.change := by
    simp
  have hnext : (reader.after first).next token = reader.after (first ++ [token]) := by
    rw [after_append]
    rfl
  rw [htokens] at h
  rw [← hchange] at hlow ⊢
  rw [hnext]
  exact ⟨h.left.toInt_depth_after hlow, h.right hlow⟩

/-- All identifiers of the tokens are shown, and types are still shown behind them. -/
structure ShowsAll (reader : Reader) (tokens : List TypeToken) : Prop where
  words_eq : reader.words tokens = identifiersOf tokens
  shown_after : (reader.after tokens).shown = true

/-- A token shows its identifier, and the rest does behind it. -/
theorem ShowsAll.cons {reader : Reader} {token : TypeToken} {tokens : List TypeToken}
    (h : reader.shows token = token.identifier?.toList) (h' : (reader.next token).ShowsAll tokens) :
    reader.ShowsAll (token :: tokens) where
  words_eq := by rw [words, h, h'.words_eq, identifiersOf_cons]
  shown_after := h'.shown_after

/-- All is shown of two rows if it is of both. -/
theorem ShowsAll.append {reader : Reader} {first second : List TypeToken}
    (h : reader.ShowsAll first) (h' : (reader.after first).ShowsAll second) :
    reader.ShowsAll (first ++ second) where
  words_eq := by rw [words_append, h.words_eq, h'.words_eq, identifiersOf_append]
  shown_after := by
    rw [after_append]
    exact h'.shown_after

theorem ShowsAll.nil {reader : Reader} (h : reader.shown = true) : reader.ShowsAll [] :=
  ⟨rfl, h⟩

-- A token that has no identifier, and behind it another phrase or nothing.
theorem ShowsAll.between {reader : Reader} {first second : List TypeToken} {token : TypeToken}
    (hfirst : reader.ShowsAll first) (hidentifier : token.identifier? = none)
    (hsecond : ((reader.after first).next token).ShowsAll second) :
    reader.ShowsAll (first ++ token :: second) := by
  refine hfirst.append (.cons ?_ hsecond)
  cases token <;> first | rfl | cases hidentifier

end Reader

/-- How many brackets are open at least where a phrase of the kind stands. -/
def Phrase.least : Phrase → Int
  | arguments => 1
  | type | parameters => 0

/-- Without arrows all identifiers of a phrase are shown. -/
theorem Phrase.Derives.showsAll {phrase : Phrase} {tokens : List TypeToken}
    (h : phrase.Derives tokens) (harrow : .arrow ∉ tokens) {reader : Reader}
    (hshown : reader.shown = true) (hdepth : phrase.least ≤ reader.depth.toInt)
    (hroom : reader.HasRoom tokens) : reader.ShowsAll tokens := by
  -- The count is what changes from one part to the next: inside angle brackets it is positive,
  -- so no comma there cuts anything off, and behind them it is what it was.
  induction h generalizing reader with
  | word chars => exact .cons (by simp [Reader.shows, hshown, TypeToken.identifier?]) (.nil hshown)
  | noParameters => exact .cons rfl (.nil hshown)
  | argument _ ih =>
      exact ih harrow hshown (by simp only [least] at hdepth ⊢; omega) hroom
  | array _ ih | nullable _ ih =>
      simp only [List.mem_append, not_or] at harrow
      have hfirst := ih harrow.1 hshown hdepth hroom.left
      refine hfirst.between rfl (.nil ?_)
      rw [Reader.shown_next]
      exact hfirst.shown_after
  | qualified chars _ ih =>
      simp only [List.mem_append, not_or] at harrow
      have hfirst := ih harrow.1 hshown hdepth hroom.left
      have hshown := hfirst.shown_after
      refine hfirst.between rfl (.cons ?_ (.nil hshown))
      simp [Reader.shows, Reader.shown_next, Reader.showsBehind, hshown, TypeToken.identifier?]
  | @applied head rest h _ ih ih' =>
      simp only [List.mem_append, List.mem_cons, not_or] at harrow
      have hfirst := ih harrow.1 hshown hdepth hroom.left
      have hchange := h.changeOf_eq_level harrow.1
      simp only [least, level] at hdepth hchange
      rcases hroom.behind (by simp only [TypeToken.change]; omega) with ⟨hinside, hroom⟩
      have hsecond := @ih' harrow.2.2.1 ((reader.after head).next .less)
        (by rw [Reader.shown_next]; exact hfirst.shown_after)
        (by rw [hinside]; simp only [TypeToken.change, least]; omega) hroom.left
      refine hfirst.between rfl (hsecond.between rfl (.nil ?_))
      rw [Reader.shown_next]
      exact hsecond.shown_after
  | @union first second h _ ih ih' =>
      simp only [List.mem_append, List.mem_cons, not_or] at harrow
      have hfirst := ih harrow.1 hshown hdepth hroom.left
      have hchange := h.changeOf_eq_level harrow.1
      simp only [least, level] at hdepth hchange
      rcases hroom.behind (by simp only [TypeToken.change]; omega) with ⟨hbehind, hroom⟩
      have hsecond := @ih' harrow.2.2 ((reader.after first).next .bar)
        (by rw [Reader.shown_next]; exact hfirst.shown_after)
        (by rw [hbehind]; simp only [TypeToken.change, least]; omega) hroom
      exact hfirst.between rfl hsecond
  -- There is no arrow.
  | function => simp at harrow
  | @moreArguments rest next h _ ih ih' =>
      simp only [List.mem_append, List.mem_cons, not_or] at harrow
      have hfirst := ih harrow.1 hshown hdepth hroom.left
      have hchange := h.changeOf_eq_level harrow.1
      simp only [least, level] at hdepth hchange
      have hinside := hroom.left.toInt_depth_after (by omega)
      -- The comma is inside brackets.
      have hopen : 0 < (reader.after rest).depth := by
        rw [Int32.lt_iff_toInt_lt, hinside, Int32.toInt_zero]
        omega
      have hshown : ((reader.after rest).next .comma).shown = true := by
        simp [Reader.shown_next, Reader.showsBehind, hfirst.shown_after, hopen]
      rcases hroom.behind (by simp only [TypeToken.change]; omega) with ⟨hbehind, hroom⟩
      refine hfirst.between rfl (ih' harrow.2.2 hshown ?_ hroom)
      simp only [hbehind, TypeToken.change, least]
      omega
  | @parameter first name _ ih =>
      simp only [List.mem_cons, not_or] at harrow
      simp only [least] at hdepth
      rcases @Reader.HasRoom.behind reader [] first (.firstParameter name) hroom
        (by simp only [changeOf_nil, TypeToken.change]; omega) with ⟨hinside, hroom⟩
      refine .cons (by simp [Reader.shows, hshown, TypeToken.identifier?]) ?_
      refine @ih harrow.2 (reader.next (.firstParameter name))
        (by rw [Reader.shown_next]; exact hshown) ?_ hroom
      simp only [Reader.after, List.foldl_nil, changeOf_nil, TypeToken.change] at hinside
      simp only [hinside, least]
      omega
  | @moreParameters rest next name h _ ih ih' =>
      simp only [List.mem_append, List.mem_cons, not_or] at harrow
      have hfirst := ih harrow.1 hshown hdepth hroom.left
      have hchange := h.changeOf_eq_level harrow.1
      simp only [least, level] at hdepth hchange
      have hinside := hroom.left.toInt_depth_after (by omega)
      -- So is the comma between parameters, or the name behind it would start a piece and would
      -- not be shown.
      have hopen : 0 < (reader.after rest).depth := by
        rw [Int32.lt_iff_toInt_lt, hinside, Int32.toInt_zero]
        omega
      rcases hroom.behind (by simp only [TypeToken.change]; omega) with ⟨hbehind, hroom⟩
      refine hfirst.append (.cons ?_ (@ih' harrow.2.2
        ((reader.after rest).next (.nextParameter name)) ?_ ?_ hroom))
      · simp [Reader.shows, hfirst.shown_after, hopen, TypeToken.identifier?]
      · simp [Reader.shown_next, Reader.showsBehind, hfirst.shown_after]
      · simp only [hbehind, TypeToken.change, least]
        omega

end Chunking
