import Chunking.Proofs.FoundMatches
import Chunking.Proofs.Identifiers
import Chunking.Proofs.LineEndings

/-!
# Places among carriage returns

With a carriage return in front of every newline, a text has all of its places and
some more. Each of the new ones is halfway through a line ending, between the carriage
return and the newline, and there is no place of the text that it stands for. A search
comes there nevertheless: a stretch of white space may stop anywhere, and what follows
it is tried there too.

So the places of the two texts are related, and a place halfway is related to the place
before the newline. A part between two such places has the carriage returns of what it
stands for, except that one may be missing at its start and one may be left over at its
end. Neither can be told by a search for names: a carriage return is no character of a
name, and for the names on both sides it is as good as the newline.

## Main definitions

* `Cursor.WithReturns`: The same place in the text with carriage returns.
* `Cursor.PastReturn`: Halfway through a line ending, for the place behind it.
* `Way.WithReturns`, `Match.WithReturns`: The same way, and the same match.
* `PartWithReturns`: A part with its carriage returns, but for those at its ends.

## Theorems

* `exists_of_withReturns_eq`: A character that ends no line is where it was.
* `Cursor.WithReturns.part_textUpTo`: What stands between two places.
* `Match.WithReturns.part_group`: What a match keeps.
* `PartWithReturns.referencedTypes_eq`: The types in a part are the same.
* `PartWithReturns.eq_of_endsNoLine`: A part without line endings is the same.
-/

namespace Chunking

open Text

variable {text before after : List Char}

/-! ## Characters -/

/-- A character that ends no line. -/
def EndsNoLine (c : Char) : Prop :=
  c ≠ '\n' ∧ c ≠ '\r'

instance (c : Char) : Decidable (EndsNoLine c) :=
  inferInstanceAs (Decidable (_ ∧ _))

theorem withReturns_eq_nil_iff : withReturns text = [] ↔ text = [] := by
  cases text with
  | nil => simp
  | cons c rest =>
      by_cases hc : c = '\n'
      · simp [hc, withReturns_cons_newline]
      · simp [withReturns_cons hc]

theorem withReturns_concat {c : Char} (hc : c ≠ '\n') (before : List Char) :
    withReturns (before ++ [c]) = withReturns before ++ [c] := by
  rw [withReturns_append, withReturns_cons hc, withReturns_nil]

theorem withReturns_concat_newline (before : List Char) :
    withReturns (before ++ ['\n']) = withReturns before ++ ['\r'] ++ ['\n'] := by
  rw [withReturns_append, withReturns_cons_newline, withReturns_nil, List.append_assoc]
  rfl

/-- What comes last is the same. -/
theorem getLast?_withReturns (text : List Char) :
    (withReturns text).getLast? = text.getLast? := by
  rcases List.eq_nil_or_concat text with rfl | ⟨rest, c, rfl⟩
  · rfl
  · rw [List.concat_eq_append]
    by_cases hc : c = '\n'
    · rw [hc, withReturns_concat_newline, List.getLast?_concat, List.getLast?_concat]
    · rw [withReturns_concat hc, List.getLast?_concat, List.getLast?_concat]

/-- A character that ends no line stands in the one text where it stands in the other. -/
theorem exists_of_withReturns_eq {c : Char} (hc : EndsNoLine c)
    (h : withReturns text = before ++ c :: after) :
    ∃ before' after', text = before' ++ c :: after' ∧ before = withReturns before' ∧
      after = withReturns after' := by
  induction text generalizing before with
  | nil => simp at h
  | cons d rest ih =>
      by_cases hd : d = '\n'
      · rw [hd, withReturns_cons_newline] at h
        match before with
        | [] => exact absurd (List.cons.inj h).1.symm hc.2
        | [_] => exact absurd (List.cons.inj (List.cons.inj h).2).1.symm hc.1
        | _ :: _ :: before =>
            rw [List.cons_append, List.cons_append, List.cons.injEq, List.cons.injEq] at h
            rcases h with ⟨rfl, rfl, h⟩
            rcases ih h with ⟨before', after', rfl, rfl, rfl⟩
            exact ⟨d :: before', after', rfl, by rw [hd, withReturns_cons_newline], rfl⟩
      · rw [withReturns_cons hd] at h
        cases before with
        | nil =>
            rw [List.nil_append, List.cons.injEq] at h
            rcases h with ⟨rfl, rfl⟩
            exact ⟨[], rest, rfl, rfl, rfl⟩
        | cons _ before =>
            rw [List.cons_append, List.cons.injEq] at h
            rcases h with ⟨rfl, h⟩
            rcases ih h with ⟨before', after', rfl, rfl, rfl⟩
            exact ⟨d :: before', after', rfl, (withReturns_cons hd _).symm, rfl⟩

-- A text that starts with a word does so without carriage returns.
theorem exists_of_withReturns_eq_front {word : List Char} (hword : ∀ c ∈ word, EndsNoLine c)
    (h : withReturns text = word ++ after) :
    ∃ after', text = word ++ after' ∧ after = withReturns after' := by
  induction word generalizing text with
  | nil => exact ⟨text, rfl, h.symm⟩
  | cons c word ih =>
      rcases @exists_of_withReturns_eq text [] _ c (hword c List.mem_cons_self) h with
        ⟨before', rest, rfl, hbefore, hrest⟩
      rcases ih (fun d hd => hword d (List.mem_cons_of_mem c hd)) hrest.symm with
        ⟨after', rfl, rfl⟩
      rw [withReturns_eq_nil_iff.mp hbefore.symm]
      exact ⟨after', rfl, rfl⟩

/-- A word stands in the one text where it stands in the other. -/
theorem exists_of_withReturns_eq_word {word : List Char} (hword : ∀ c ∈ word, EndsNoLine c)
    (hne : word ≠ []) (h : withReturns text = before ++ word ++ after) :
    ∃ before' after', text = before' ++ word ++ after' ∧ before = withReturns before' ∧
      after = withReturns after' := by
  rcases List.exists_cons_of_ne_nil hne with ⟨c, rest, rfl⟩
  rw [List.append_assoc, List.cons_append] at h
  rcases exists_of_withReturns_eq (hword c List.mem_cons_self) h with
    ⟨before', more, rfl, rfl, hmore⟩
  rcases exists_of_withReturns_eq_front (fun d hd => hword d (List.mem_cons_of_mem c hd))
    hmore.symm with ⟨after', rfl, rfl⟩
  exact ⟨before', after', by simp, rfl, rfl⟩

theorem mem_withReturns_of_mem {c : Char} (h : c ∈ text) : c ∈ withReturns text := by
  refine List.mem_flatMap.mpr ⟨c, h, ?_⟩
  split_ifs with hc
  · simp [hc]
  · exact List.mem_singleton_self c

theorem mem_or_eq_of_mem_withReturns {c : Char} (h : c ∈ withReturns text) :
    c ∈ text ∨ c = '\r' := by
  rcases List.mem_flatMap.mp h with ⟨d, hd, hc⟩
  split_ifs at hc with hnewline
  · rw [List.mem_cons, List.mem_singleton] at hc
    exact hc.symm.imp (fun hc => by rwa [hc, ← hnewline]) id
  · rw [List.mem_singleton] at hc
    exact .inl (by rwa [hc])

theorem mem_withReturns_iff {c : Char} (hc : c ≠ '\r') : c ∈ withReturns text ↔ c ∈ text :=
  ⟨fun h => (mem_or_eq_of_mem_withReturns h).resolve_right hc, mem_withReturns_of_mem⟩

/-- What holds of a carriage return holds of all characters if it did so before. -/
theorem forall_mem_withReturns_iff {kind : Char → Prop} (hreturn : kind '\r') :
    (∀ c ∈ withReturns text, kind c) ↔ ∀ c ∈ text, kind c := by
  refine ⟨fun h c hc => h c (mem_withReturns_of_mem hc), fun h c hc => ?_⟩
  rcases mem_or_eq_of_mem_withReturns hc with hmem | rfl
  · exact h c hmem
  · exact hreturn

/-- Where a text is cut at line endings, carriage returns leave the same pieces, but for
empty ones. -/
theorem splitOnP_withReturns {split : Char → Bool} (hnewline : split '\n' = true)
    (hreturn : split '\r' = true) (text : List Char) :
    (((withReturns text).splitOnP split).filter fun piece => !piece.isEmpty) =
      (text.splitOnP split).filter fun piece => !piece.isEmpty := by
  have happend {c : Char} (hc : split c = true) (first second : List Char) :
      (((first ++ c :: second).splitOnP split).filter fun piece => !piece.isEmpty) =
        ((first.splitOnP split).filter fun piece => !piece.isEmpty) ++
          (second.splitOnP split).filter fun piece => !piece.isEmpty := by
    rw [List.splitOnP_append_cons _ _ hc, List.filter_append]
  have hcons {c : Char} (hc : split c = true) (rest : List Char) :
      (((c :: rest).splitOnP split).filter fun piece => !piece.isEmpty) =
        (rest.splitOnP split).filter fun piece => !piece.isEmpty := by
    simpa using happend hc [] rest
  induction hlength : text.length using Nat.strongRecOn generalizing text with
  | _ n ih =>
      subst hlength
      by_cases hmem : '\n' ∈ text
      · rcases List.append_of_mem hmem with ⟨first, rest, rfl⟩
        have hless {part : List Char} (h : part.length < (first ++ '\n' :: rest).length) :=
          ih _ h part rfl
        rw [withReturns_append, withReturns_cons_newline, happend hreturn, hcons hnewline,
          happend hnewline, hless (by simp), hless (by simp; omega)]
      · rw [withReturns_of_not_mem hmem]

/-- Carriage returns between identifiers do not matter. -/
theorem identifiers_withReturns (text : List Char) :
    identifiers (withReturns text) = identifiers text :=
  splitOnP_withReturns (by decide) (by decide) text

/-! ## Parts -/

/-- The first part is the second one with its carriage returns. One may be missing at its
start, and one may be left over at its end. -/
def PartWithReturns (part' part : List Char) : Prop :=
  ∃ missing extra, missing ++ part' = withReturns part ++ extra ∧
    (∀ c ∈ missing, c = '\r') ∧ ∀ c ∈ extra, c = '\r'

namespace PartWithReturns

variable {part' part : List Char}

theorem nil : PartWithReturns [] [] :=
  ⟨[], [], rfl, by simp, by simp⟩

/-- The identifiers in a part are the same. -/
theorem identifiers_eq (h : PartWithReturns part' part) : identifiers part' = identifiers part := by
  have hblank {returns : List Char} (h : ∀ c ∈ returns, c = '\r') :
      ∀ c ∈ returns, isBlank c = true := by
    intro c hc
    rw [h c hc]
    decide
  rcases h with ⟨missing, extra, heq, hmissing, hextra⟩
  have hnone : ∀ c ∈ ([] : List Char), isBlank c = true := by
    simp
  rw [← identifiers_padded (hblank hmissing) hnone part', List.append_nil, heq,
    ← List.nil_append (withReturns part), identifiers_padded hnone (hblank hextra),
    identifiers_withReturns]

/-- The characters in a part are the same. -/
theorem mem_iff (h : PartWithReturns part' part) {c : Char} (hc : c ≠ '\r') :
    c ∈ part' ↔ c ∈ part := by
  rcases h with ⟨missing, extra, heq, hmissing, hextra⟩
  have hsame : c ∈ missing ++ part' ↔ c ∈ withReturns part ++ extra := by
    rw [heq]
  have hnot {returns : List Char} (h : ∀ c ∈ returns, c = '\r') : c ∉ returns :=
    fun hmem => hc (h c hmem)
  rwa [List.mem_append, List.mem_append, or_iff_right (hnot hmissing), or_iff_left (hnot hextra),
    mem_withReturns_iff hc] at hsame

/-- The types in a part are the same. -/
theorem referencedTypes_eq (h : PartWithReturns part' part) (builtins : List String) :
    referencedTypes builtins part' = referencedTypes builtins part := by
  rw [referencedTypes, referencedTypes, h.identifiers_eq]

/-- A part without line endings is the same. -/
theorem eq_of_endsNoLine (h : PartWithReturns part' part) (hpart' : ∀ c ∈ part', EndsNoLine c)
    (hpart : ∀ c ∈ part, EndsNoLine c) : part' = part := by
  rcases h with ⟨missing, extra, heq, hmissing, hextra⟩
  rw [withReturns_of_not_mem fun hmem => (hpart _ hmem).1 rfl] at heq
  have hreturns {returns : List Char} (h : ∀ c ∈ returns, c = '\r') :
      returns.filter (· != '\r') = [] := by
    rw [List.filter_eq_nil_iff]
    intro c hc
    simp [h c hc]
  have hothers {part : List Char} (h : ∀ c ∈ part, EndsNoLine c) :
      part.filter (· != '\r') = part := by
    rw [List.filter_eq_self]
    intro c hc
    simp [(h c hc).2]
  have hfilter := congrArg (List.filter (· != '\r')) heq
  rwa [List.filter_append, List.filter_append, hreturns hmissing, hreturns hextra, hothers hpart',
    hothers hpart, List.nil_append, List.append_nil] at hfilter

end PartWithReturns

/-! ## Places -/

namespace Cursor

/-- The first place is that of the second one in the text with carriage returns. Halfway
through a line ending it is still the place before the newline. -/
inductive WithReturns (text : List Char) : Cursor → Cursor → Prop
  | apart {before after : List Char} (h : text = before ++ after) :
      WithReturns text (between (withReturns before) (withReturns after)) (between before after)
  | halfway {before after : List Char} (h : text = before ++ '\n' :: after) :
      WithReturns text (between (withReturns before ++ ['\r']) ('\n' :: withReturns after))
        (between before ('\n' :: after))

/-- The first place is halfway through a line ending, and the second one is behind it. -/
inductive PastReturn (text : List Char) : Cursor → Cursor → Prop
  | intro {before after : List Char} (h : text = before ++ '\n' :: after) :
      PastReturn text (between (withReturns before ++ ['\r']) ('\n' :: withReturns after))
        (between (before ++ ['\n']) after)

theorem withReturns_atStart (text : List Char) :
    WithReturns text (atStart (withReturns text)) (atStart text) :=
  .apart (List.nil_append text).symm

theorem textUpTo_of_offset_le {start stop : Cursor} (h : stop.offset ≤ start.offset) :
    start.textUpTo stop = [] := by
  rw [textUpTo, Nat.sub_eq_zero_of_le h]
  unfold takeBytes? takeBytesAfter?
  rfl

namespace WithReturns

variable {place' place start' start stop' stop : Cursor}

-- What has been passed of the line ending, if the place is halfway, is still to come at
-- the place that it stands for.
theorem exists_lead (h : WithReturns text place' place) :
    ∃ before after lead rest, text = before ++ after ∧ place = between before after ∧
      place' = between (withReturns before ++ lead) rest ∧ withReturns after = lead ++ rest ∧
        (lead = [] ∨ lead = ['\r']) := by
  cases h with
  | @apart before after h =>
      exact ⟨before, after, [], withReturns after, h, rfl, by rw [List.append_nil], rfl, .inl rfl⟩
  | @halfway before after h =>
      exact ⟨before, '\n' :: after, ['\r'], '\n' :: withReturns after, h, rfl, rfl, rfl, .inr rfl⟩

-- The carriage return that has been passed belongs to what comes next, if anything does.
theorem byteLength_lead_le {lead rest more : List Char} (hlead : lead = [] ∨ lead = ['\r'])
    (hrest : lead ++ rest = withReturns text ++ more) (htext : text ≠ []) :
    byteLength lead ≤ byteLength (withReturns text) := by
  rcases hlead with rfl | rfl
  · exact Nat.zero_le _
  · rcases List.exists_cons_of_ne_nil (mt withReturns_eq_nil_iff.mp htext) with ⟨c, others, heq⟩
    rw [heq] at hrest ⊢
    rw [(List.cons.inj hrest).1, byteLength_cons, byteLength_cons]
    exact Nat.le_add_right _ _

-- The part from a place to one behind it, where the two may be halfway.
theorem part_of_leads {before part after lead rest lead₁ rest₁ : List Char}
    (hrest : withReturns (part ++ after) = lead ++ rest) (hlead : lead = [] ∨ lead = ['\r'])
    (hrest₁ : withReturns after = lead₁ ++ rest₁) (hlead₁ : lead₁ = [] ∨ lead₁ = ['\r']) :
    PartWithReturns ((between (withReturns before ++ lead) rest).textUpTo
      (between (withReturns (before ++ part) ++ lead₁) rest₁)) part := by
  have hreturns {lead : List Char} (h : lead = [] ∨ lead = ['\r']) : ∀ c ∈ lead, c = '\r' := by
    rcases h with rfl | rfl <;> simp
  have hsplit : lead ++ rest = withReturns part ++ lead₁ ++ rest₁ := by
    rw [← hrest, withReturns_append, hrest₁, List.append_assoc]
  have hpart (part' : List Char) (h : lead ++ part' = withReturns part ++ lead₁) :
      PartWithReturns ((between (withReturns before ++ lead) rest).textUpTo
        (between (withReturns (before ++ part) ++ lead₁) rest₁)) part := by
    have hplace : withReturns (before ++ part) ++ lead₁ = withReturns before ++ lead ++ part' := by
      rw [withReturns_append, List.append_assoc, List.append_assoc, h]
    rw [← h, List.append_assoc] at hsplit
    rw [hplace, List.append_cancel_left hsplit, textUpTo_between]
    exact ⟨lead, lead₁, h, hreturns hlead, hreturns hlead₁⟩
  rcases hlead with rfl | rfl
  · exact hpart _ rfl
  · cases hends : withReturns part ++ lead₁ with
    | nil =>
        -- Both stand for the same place, and only the first one is halfway.
        rcases List.append_eq_nil_iff.mp hends with ⟨hnil, rfl⟩
        rw [withReturns_eq_nil_iff.mp hnil, textUpTo_of_offset_le]
        · exact .nil
        · simp only [between, byteLength_append, List.append_nil]
          exact Nat.le_add_right _ _
    | cons c part' =>
        rw [hends] at hsplit
        rw [← (List.cons.inj hsplit).1] at hends
        exact hpart part' hends.symm

/-- What stands between two places. -/
theorem part_textUpTo (hstart : WithReturns text start' start)
    (hstop : WithReturns text stop' stop) :
    PartWithReturns (start'.textUpTo stop') (start.textUpTo stop) := by
  rcases hstart.exists_lead with ⟨before, after, lead, rest, htext, rfl, rfl, hrest, hlead⟩
  rcases hstop.exists_lead with
    ⟨before₁, after₁, lead₁, rest₁, htext₁, rfl, rfl, hrest₁, hlead₁⟩
  rcases List.append_eq_append_iff.mp (htext.symm.trans htext₁) with
    ⟨part, rfl, rfl⟩ | ⟨part, rfl, rfl⟩
  · rw [textUpTo_between]
    exact part_of_leads hrest hlead hrest₁ hlead₁
  · have hnothing : (between (before₁ ++ part) after).textUpTo (between before₁ (part ++ after)) =
        [] := textUpTo_of_offset_le (by simp [between])
    rw [hnothing]
    by_cases hpart : part = []
    · subst hpart
      rw [List.append_nil]
      have hsame := @part_of_leads before₁ [] after lead rest lead₁ rest₁ hrest hlead hrest₁ hlead₁
      rwa [List.append_nil] at hsame
    · rw [textUpTo_of_offset_le]
      · exact .nil
      · have hle := byteLength_lead_le hlead₁ (hrest₁.symm.trans (withReturns_append _ _)) hpart
        simp only [between, byteLength_append, withReturns_append]
        omega

end WithReturns

end Cursor

/-! ## Ways and matches -/

/-- The marks were set at the same places. -/
def Marks.WithReturns (text : List Char) : Marks → Marks → Prop :=
  List.Forall₂ fun mark' mark => mark'.1 = mark.1 ∧ Cursor.WithReturns text mark'.2 mark.2

/-- The first way is the second one in the text with carriage returns. -/
structure Way.WithReturns (text : List Char) (way' way : Way) : Prop where
  stop : Cursor.WithReturns text way'.stop way.stop
  kept : Marks.WithReturns text way'.kept way.kept

/-- The first match is the second one in the text with carriage returns. -/
structure Match.WithReturns (text : List Char) (found' found : Match) : Prop where
  stop : Cursor.WithReturns text found'.stop found.stop
  marks : Marks.WithReturns text found'.marks found.marks

theorem Marks.WithReturns.lookup {marks' marks : Marks} (h : marks'.WithReturns text marks)
    (edge : Mark) :
    Option.Rel (Cursor.WithReturns text) (List.lookup edge marks') (List.lookup edge marks) := by
  induction h with
  | nil => exact .none
  | @cons mark' mark marks' marks hmark _ ih =>
      rcases mark' with ⟨edge', place'⟩
      rcases mark with ⟨edge₁, place⟩
      obtain rfl : edge' = edge₁ := hmark.1
      rw [List.lookup_cons, List.lookup_cons]
      cases edge == edge' with
      | true => exact .some hmark.2
      | false => exact ih

namespace Match.WithReturns

variable {found' found : Match}

theorem part_group? (h : found'.WithReturns text found) (number : Nat) :
    Option.Rel PartWithReturns (found'.group? number) (found.group? number) := by
  have hopening := h.marks.lookup (.opening number)
  have hclosing := h.marks.lookup (.closing number)
  unfold Match.group?
  generalize List.lookup (Mark.opening number) found'.marks = start' at hopening ⊢
  generalize List.lookup (Mark.opening number) found.marks = start at hopening ⊢
  generalize List.lookup (Mark.closing number) found'.marks = stop' at hclosing ⊢
  generalize List.lookup (Mark.closing number) found.marks = stop at hclosing ⊢
  cases hopening with
  | none => exact .none
  | some hstart =>
      cases hclosing with
      | none => exact .none
      | some hstop => exact .some (hstart.part_textUpTo hstop)

/-- What a match keeps is the same part. -/
theorem part_group (h : found'.WithReturns text found) (number : Nat) :
    PartWithReturns (found'.group number) (found.group number) := by
  have hgroup := h.part_group? number
  unfold Match.group
  generalize found'.group? number = group' at hgroup ⊢
  generalize found.group? number = group at hgroup ⊢
  cases hgroup with
  | none => exact .nil
  | some hpart => exact hpart

end Match.WithReturns

end Chunking
