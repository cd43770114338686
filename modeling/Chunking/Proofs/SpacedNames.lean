import Chunking.Proofs.Identifiers
import Chunking.Proofs.Pieces
import Chunking.Proofs.SteadyPatterns

/-!
# Names behind a gap

Two patterns take a name for a property because a word stands before it that says from
where it can be used, and a character behind it that tells what it is. What stands between
the word and the name is the type, with white space on both sides. But white space is also
among the characters of a type, so all that is asked of the gap is that it starts and ends
with white space and has one more character: three characters of white space are a gap as
well.

Where such a text starts and ends is easily told. Nothing in it but its last character is
other than the characters of a type, so it ends with the first other character. Two of
them that overlap end together, and so the first in such a run is found and the others are
not. They have the name in common, which is the last word before the end.

With carriage returns a gap is longer by one character for each newline in it. A gap of
two characters, one of them a newline, becomes long enough, and this is the only way in
which more is found.

## Main definitions

* `HeadForm`: The words, names and final characters of such a pattern.
* `HeadForm.Spells`: A text of the form, with its gap and its name.
* `IsGap`, `IsLineGap`: The gaps that are found, and those that become so.
* `HeadForm.Clear`: No other text of the form goes on across a place.
* `HeadForm.Headed`: The first text of the form in its run.
* `HeadForm.Describes`: The pattern spans the texts of the form.

## Theorems

* `HeadForm.Spells.unique`: Gap and name are determined.
* `HeadForm.clearAt_iff`: What lies across a place.
* `Pattern.clearAt_of_mem_matchesFrom`: Nothing lies across the start of what is found.
* `HeadForm.exists_found_iff`: What is found.
* `HeadForm.exists_found_withReturns_iff`: What is found among carriage returns.
-/

namespace Chunking

open Text Pattern

/-! ## Searching where matches end together -/

namespace Pattern

variable {pattern : Pattern}

/-- Two texts that the pattern spans, and of which one starts in the other, end at the same
place. -/
def EndsTogether (pattern : Pattern) : Prop :=
  ∀ {before skipped text rest text' rest' : List Char},
    pattern.Spans before (skipped ++ text) rest →
    pattern.Spans (before ++ skipped) text' rest' → text ++ rest = text' ++ rest' → text ≠ [] →
      rest = rest'

theorem clearAt_nil (after : List Char) : pattern.ClearAt [] after := by
  intro front first second back hbefore _ hfirst
  exact absurd (List.append_eq_nil_iff.mp hbefore.symm).2 hfirst

-- What lies across the next place lies across this one, or it starts here.
theorem ClearAt.next {before after : List Char} {c : Char}
    (h : pattern.ClearAt before (c :: after))
    (hnone : pattern.matchAt? (Cursor.between before (c :: after)) = none) :
    pattern.ClearAt (before ++ [c]) after := by
  intro front first second back hbefore hafter hfirst hsecond hspans
  rcases List.eq_nil_or_concat first with rfl | ⟨others, d, rfl⟩
  · exact absurd rfl hfirst
  · rw [List.concat_eq_append] at *
    rw [← List.append_assoc] at hbefore
    rcases List.append_inj' hbefore rfl with ⟨rfl, hd⟩
    cases hd
    rw [List.append_assoc] at hspans
    cases others with
    | nil =>
        rw [List.append_nil] at hnone
        rcases exists_matchAt?_of_spans hspans with ⟨found, hfound⟩
        rw [List.nil_append, List.append_assoc, ← hafter, List.singleton_append, hnone] at hfound
        cases hfound
    | cons e others =>
        exact h front (e :: others) ([c] ++ second) back rfl (by rw [hafter]; rfl)
          (List.cons_ne_nil _ _) (List.cons_ne_nil _ _) hspans

-- What lies across the end of a match lies across its start, or it starts in the match.
theorem ClearAt.behind (htogether : pattern.EndsTogether) {before text rest : List Char}
    (h : pattern.ClearAt before (text ++ rest)) (hspans : pattern.Spans before text rest) :
    pattern.ClearAt (before ++ text) rest := by
  intro front first second back hbefore hrest hfirst hsecond hacross
  have hinside {skipped : List Char} (hfront : front = before ++ skipped)
      (htext : text = skipped ++ first) : False := by
    subst hfront htext hrest
    have hsame := htogether hspans hacross (List.append_assoc _ _ _).symm hfirst
    exact hsecond (List.append_left_eq_self.mp hsame)
  rcases List.append_eq_append_iff.mp hbefore with
    ⟨skipped, hfront, htext⟩ | ⟨ahead, rfl, rfl⟩
  · exact hinside hfront htext
  · cases ahead with
    | nil => exact @hinside [] (by simp) (by simp)
    | cons c ahead =>
        refine h front (c :: ahead) (text ++ second) back rfl (by rw [hrest]; simp)
          (List.cons_ne_nil _ _) (List.append_ne_nil_of_right_ne_nil _ hsecond) ?_
        rwa [← List.append_assoc]

/-- Nothing that the pattern spans lies across the start of what is found, if what it spans
ends together. -/
theorem clearAt_of_mem_matchesFrom (hconsumes : pattern.consumes = true)
    (htogether : pattern.EndsTogether) {found : Match} (before after : List Char)
    (hclear : pattern.ClearAt before after)
    (hfound : found ∈ pattern.matchesFrom (Cursor.between before after)) :
    ∃ before' after', before ++ after = before' ++ after' ∧
      pattern.matchAt? (Cursor.between before' after') = some found ∧
        pattern.ClearAt before' after' := by
  induction hlength : after.length using Nat.strongRecOn generalizing before after with
  | _ n ih =>
      subst hlength
      cases hmatch : pattern.matchAt? (Cursor.between before after) with
      | none =>
          cases after with
          | nil =>
              rw [matchesFrom_of_rest_eq_nil hconsumes rfl] at hfound
              cases hfound
          | cons c after =>
              rw [matchesFrom_of_none hmatch] at hfound
              rcases ih after.length (Nat.lt_succ_self _) (before ++ [c]) after
                (hclear.next hmatch) hfound rfl with ⟨before', after', heq, hthis⟩
              exact ⟨before', after', by rw [← heq, List.append_assoc]; rfl, hthis⟩
      | some first =>
          rw [matchesFrom_of_some hconsumes hmatch] at hfound
          rcases List.mem_cons.mp hfound with rfl | hfound
          · exact ⟨before, after, rfl, hmatch, hclear⟩
          · rcases exists_way_of_matchAt? hmatch with ⟨way, hway, hfirst⟩
            have hless := length_rest_lt_of_consumes hconsumes hway
            rcases spansTo_of_mem_ways _ _ _ _ way hway with ⟨text, rest, rfl, hstop, hspans⟩
            rw [hfirst, hstop] at hfound
            rw [hstop] at hless
            rcases ih rest.length hless (before ++ text) rest (hclear.behind htogether hspans)
              hfound rfl with ⟨before', after', heq, hthis⟩
            exact ⟨before', after', by rw [← heq, List.append_assoc], hthis⟩

end Pattern

/-! ## Gaps -/

/-- The text starts with white space. -/
def StartsBlank (text : List Char) : Prop :=
  ∃ c rest, text = c :: rest ∧ isBlank c = true

/-- The text starts and ends with white space, and it has only the characters of types. -/
structure IsSpaced (gap : List Char) : Prop where
  starts : StartsBlank gap
  ends : ∀ c, gap.getLast? = some c → isBlank c = true
  mem : ∀ c ∈ gap, isTypeChar c = true

/-- White space, characters of a type, and more white space. -/
def IsGap (gap : List Char) : Prop :=
  IsSpaced gap ∧ 2 < gap.length

/-- Two characters of white space, and one of them a newline. -/
def IsLineGap (gap : List Char) : Prop :=
  IsSpaced gap ∧ gap.length = 2 ∧ '\n' ∈ gap

theorem startsBlank_withReturns_iff {text : List Char} :
    StartsBlank (withReturns text) ↔ StartsBlank text := by
  have hends : isBlank '\n' = true ∧ isBlank '\r' = true := by
    decide
  cases text with
  | nil => rfl
  | cons c text =>
      by_cases hc : c = '\n'
      · subst hc
        exact iff_of_true ⟨_, _, withReturns_cons_newline text, hends.2⟩ ⟨_, _, rfl, hends.1⟩
      · rw [withReturns_cons hc]
        constructor
        · rintro ⟨_, _, ⟨⟩, hblank⟩
          exact ⟨c, text, rfl, hblank⟩
        · rintro ⟨_, _, ⟨⟩, hblank⟩
          exact ⟨c, withReturns text, rfl, hblank⟩

theorem isSpaced_withReturns_iff {gap : List Char} :
    IsSpaced (withReturns gap) ↔ IsSpaced gap := by
  have hmem : (∀ c ∈ withReturns gap, isTypeChar c = true) ↔ ∀ c ∈ gap, isTypeChar c = true :=
    forall_mem_withReturns_iff (by decide)
  constructor
  · rintro ⟨hstarts, hends, htype⟩
    rw [getLast?_withReturns] at hends
    exact ⟨startsBlank_withReturns_iff.mp hstarts, hends, hmem.mp htype⟩
  · rintro ⟨hstarts, hends, htype⟩
    rw [← getLast?_withReturns] at hends
    exact ⟨startsBlank_withReturns_iff.mpr hstarts, hends, hmem.mpr htype⟩

/-- With carriage returns a gap is long enough if it was, or if it has a newline and is
only one character too short. -/
theorem isGap_withReturns_iff {gap : List Char} :
    IsGap (withReturns gap) ↔ IsGap gap ∨ IsLineGap gap := by
  have hcount : 0 < gap.count '\n' ↔ '\n' ∈ gap := List.count_pos_iff
  have hle : gap.count '\n' ≤ gap.length := List.count_le_length
  rw [IsGap, IsGap, IsLineGap, isSpaced_withReturns_iff, length_withReturns, ← and_or_left,
    ← hcount]
  refine and_congr_right fun _ => ?_
  omega

/-- A gap is what may stand between the word and the name. -/
theorem isGap_iff {gap : List Char} : IsGap gap ↔ ∃ front type rear,
    gap = front ++ type ++ rear ∧ IsBlanks front ∧ (type ≠ [] ∧ ∀ c ∈ type, isTypeChar c = true) ∧
      IsBlanks rear := by
  constructor
  · rintro ⟨⟨⟨first, rest, rfl, hfirst⟩, hends, hmem⟩, hlength⟩
    rcases List.eq_nil_or_concat rest with rfl | ⟨type, last, rfl⟩
    · simp at hlength
    · rw [List.concat_eq_append] at *
      have hlast : isBlank last = true :=
        hends last (by rw [← List.cons_append, List.getLast?_concat])
      refine ⟨[first], type, [last], by simp, ⟨by simp, by simpa using hfirst⟩, ⟨?_, ?_⟩,
        ⟨by simp, by simpa using hlast⟩⟩
      · rintro rfl
        simp at hlength
      · exact fun c hc => hmem c (by simp [hc])
  · rintro ⟨front, type, rear, rfl, ⟨hfront, hblank⟩, ⟨htype, hmem⟩, ⟨hrear, hblank'⟩⟩
    rcases List.exists_cons_of_ne_nil hfront with ⟨first, rest, rfl⟩
    refine ⟨⟨⟨first, rest ++ type ++ rear, by simp, hblank first List.mem_cons_self⟩, ?_, ?_⟩, ?_⟩
    · intro c hc
      rw [List.getLast?_append_of_ne_nil _ hrear] at hc
      exact hblank' c (List.mem_of_getLast? hc)
    · simp only [List.forall_mem_append]
      exact ⟨⟨fun c hc => isTypeChar_of_isBlank (hblank c hc), hmem⟩,
        fun c hc => isTypeChar_of_isBlank (hblank' c hc)⟩
    · have htype := List.length_pos_iff.mpr htype
      have hrear := List.length_pos_iff.mpr hrear
      simp only [List.length_append, List.length_cons]
      omega

/-! ## Texts of a form -/

/-- The words at the start of a text, what may be its name, and the character that ends it. -/
structure HeadForm where
  access : List String
  IsName : List Char → Prop
  stops : List Char
  access_plain : PlainWords access
  name_spells : ∀ name, IsName name → name ≠ [] ∧ ∀ c ∈ name, isNamePart c = true
  stop_apart : ∀ c ∈ stops, isTypeChar c = false

namespace HeadForm

/-- The text is a word at the start, a gap, a name, white space, and a character at the
end. -/
def Spells (form : HeadForm) (gap name text : List Char) : Prop :=
  ∃ access ∈ form.access, ∃ blanks stop,
    text = access.toList ++ gap ++ name ++ blanks ++ [stop] ∧ form.IsName name ∧
      (∀ c ∈ blanks, isBlank c = true) ∧ stop ∈ form.stops

/-- No word at the start of a text, with white space behind it, stands before the place with
only the characters of types behind it. -/
def Clear (form : HeadForm) (before : List Char) : Prop :=
  ∀ front, ∀ access ∈ form.access, ∀ more, before = front ++ access.toList ++ more →
    EndsWord front → StartsBlank more → ¬∀ c ∈ more, isTypeChar c = true

variable {form : HeadForm} {before gap name text rest gap' name' text' rest' : List Char}

/-- All of a text but its last character can stand in a type. -/
theorem isTypeChar_of_mem_body {access : String} {blanks : List Char}
    (haccess : access ∈ form.access) (hgap : IsSpaced gap) (hname : form.IsName name)
    (hblanks : ∀ c ∈ blanks, isBlank c = true) :
    ∀ c ∈ access.toList ++ gap ++ name ++ blanks, isTypeChar c = true := by
  simp only [List.forall_mem_append]
  exact ⟨⟨⟨fun c hc => isTypeChar_of_isWord (isWord_of_isLower
    ((form.access_plain access haccess).2 c hc)), hgap.mem⟩, fun c hc => isTypeChar_of_isWord
      (isWord_of_isNamePart ((form.name_spells name hname).2 c hc))⟩,
        fun c hc => isTypeChar_of_isBlank (hblanks c hc)⟩

theorem Spells.exists_body (h : form.Spells gap name text) (hgap : IsSpaced gap) :
    ∃ body stop, text = body ++ [stop] ∧ (∀ c ∈ body, isTypeChar c = true) ∧
      isTypeChar stop = false := by
  rcases h with ⟨access, haccess, blanks, stop, rfl, hname, hblanks, hstop⟩
  exact ⟨_, stop, rfl, isTypeChar_of_mem_body haccess hgap hname hblanks,
    form.stop_apart stop hstop⟩

-- The first other character is the same.
theorem eq_of_body_eq {body body' : List Char} {stop stop' : Char}
    (hbody : ∀ c ∈ body, isTypeChar c = true) (hstop : isTypeChar stop = false)
    (hbody' : ∀ c ∈ body', isTypeChar c = true) (hstop' : isTypeChar stop' = false)
    (heq : body ++ stop :: rest = body' ++ stop' :: rest') : body = body' ∧ rest = rest' := by
  rcases @append_cons_inj_of_first (fun c => !isTypeChar c) _ _ _ _ _ _
    (fun c hc => by simp [hbody c hc]) (by simp [hstop]) (fun c hc => by simp [hbody' c hc])
    (by simp [hstop']) heq with ⟨hsame, -, hrest⟩
  exact ⟨hsame, hrest⟩

/-- Gap and name are determined. -/
theorem Spells.unique (h : form.Spells gap name text) (hgap : IsSpaced gap)
    (h' : form.Spells gap' name' text') (hgap' : IsSpaced gap')
    (heq : text ++ rest = text' ++ rest') : gap = gap' ∧ name = name' := by
  rcases h with ⟨access, haccess, blanks, stop, rfl, hname, hblanks, hstop⟩
  rcases h' with ⟨access', haccess', blanks', stop', rfl, hname', hblanks', hstop'⟩
  have hbody := (eq_of_body_eq (isTypeChar_of_mem_body haccess hgap hname hblanks)
    (form.stop_apart stop hstop) (isTypeChar_of_mem_body haccess' hgap' hname' hblanks')
    (form.stop_apart stop' hstop') (by simpa using heq)).1
  have hword {access : String} (haccess : access ∈ form.access) :
      ∀ c ∈ access.toList, isBlank c = false := fun c hc =>
    isBlank_of_isLower ((form.access_plain access haccess).2 c hc)
  have hspell {name : List Char} (hname : form.IsName name) : ∀ c ∈ name, isBlank c = false :=
    fun c hc => isBlank_of_isNamePart ((form.name_spells name hname).2 c hc)
  -- The gap starts with the first white space.
  have hrear : gap ++ name ++ blanks = gap' ++ name' ++ blanks' := by
    rcases hgap.starts with ⟨first, more, rfl, hfirst⟩
    rcases hgap'.starts with ⟨first', more', rfl, hfirst'⟩
    have hsplit : access.toList ++ first :: (more ++ name ++ blanks) =
        access'.toList ++ first' :: (more' ++ name' ++ blanks') := by
      simpa using hbody
    rcases append_cons_inj_of_first (hword haccess) hfirst (hword haccess') hfirst' hsplit with
      ⟨-, hc, hrest⟩
    simp only [List.cons_append, hc, hrest]
  -- The name ends before the last white space, and starts behind the white space before it.
  have hfront {gap name : List Char} (hname : form.IsName name) :
      ∀ c, (gap ++ name).getLast? = some c → (!isBlank c) = true := by
    intro c hc
    rw [List.getLast?_append_of_ne_nil _ (form.name_spells name hname).1] at hc
    rw [hspell hname c (List.mem_of_getLast? hc)]
    rfl
  have hback {blanks : List Char} (hblanks : ∀ c ∈ blanks, isBlank c = true) :
      ∀ c ∈ blanks, (!isBlank c) = false := by
    intro c hc
    rw [hblanks c hc]
    rfl
  have hhead := (append_inj_of_last (hfront hname) (hback hblanks) (hfront hname')
    (hback hblanks') hrear).1
  exact append_inj_of_last hgap.ends (hspell hname) hgap'.ends (hspell hname') hhead

/-! ## What lies across a place -/

/-- The pattern spans the texts of the form with a gap that is long enough. -/
def Describes (form : HeadForm) (pattern : Pattern) : Prop :=
  ∀ {before text after : List Char}, pattern.Spans before text after ↔
    EndsWord before ∧ ∃ gap name, IsGap gap ∧ form.Spells gap name text

theorem Describes.endsTogether {pattern : Pattern} (h : form.Describes pattern) :
    pattern.EndsTogether := by
  intro before skipped text rest text' rest' hspans hspans' heq hne
  rcases h.mp hspans with ⟨-, gap, name, hgap, hspells⟩
  rcases h.mp hspans' with ⟨-, gap', name', hgap', hspells'⟩
  rcases hspells.exists_body hgap.1 with ⟨body, stop, htext, hbody, hstop⟩
  rcases hspells'.exists_body hgap'.1 with ⟨body', stop', rfl, hbody', hstop'⟩
  rcases List.eq_nil_or_concat text with rfl | ⟨front, last, rfl⟩
  · exact absurd rfl hne
  · rw [List.concat_eq_append, ← List.append_assoc] at htext
    rcases List.append_inj' htext rfl with ⟨rfl, hlast⟩
    cases hlast
    refine (eq_of_body_eq (fun c hc => hbody c (List.mem_append_right _ hc)) hstop hbody' hstop'
      ?_).2
    simpa using heq

/-- What lies across the start of a text of the form. -/
theorem clearAt_iff {pattern : Pattern} (h : form.Describes pattern) (hbefore : EndsWord before)
    (hspells : form.Spells gap name text) (hgap : IsSpaced gap) :
    pattern.ClearAt before (text ++ rest) ↔ form.Clear before := by
  have hword {access : String} (haccess : access ∈ form.access) := form.access_plain access haccess
  constructor
  · rintro hclear front access haccess more rfl hfront hstarts hmore
    rcases hspells with ⟨access₁, haccess₁, blanks, stop, rfl, hname, hblanks, hstop⟩
    -- From the earlier word on, the gap reaches over the later one.
    have hlonger : IsGap (more ++ access₁.toList ++ gap) := by
      have hne := List.length_pos_iff.mpr (hword haccess₁).1
      rcases hgap.starts with ⟨blank₁, others₁, hcons₁, -⟩
      rcases hstarts with ⟨blank, others, rfl, hblank⟩
      refine ⟨⟨⟨blank, _, rfl, hblank⟩, ?_, ?_⟩, ?_⟩
      · rw [List.getLast?_append_of_ne_nil _ (by simp [hcons₁])]
        exact hgap.ends
      · simp only [List.forall_mem_append]
        exact ⟨⟨hmore, fun c hc => isTypeChar_of_isWord (isWord_of_isLower
          ((hword haccess₁).2 c hc))⟩, hgap.mem⟩
      · simp only [hcons₁, List.length_append, List.length_cons]
        omega
    refine hclear front (access.toList ++ more)
      (access₁.toList ++ gap ++ name ++ blanks ++ [stop]) rest (by simp) rfl
      (List.append_ne_nil_of_left_ne_nil (hword haccess).1 _) (by simp)
      (h.mpr ⟨hfront, _, name, hlonger, access, haccess, blanks, stop, ?_, hname, hblanks, hstop⟩)
    simp
  · rintro hclear front first second back rfl hrest hfirst hsecond hspans
    rcases h.mp hspans with ⟨hfront, gap₀, name₀, hgap₀, hspells₀⟩
    rcases hspells₀.exists_body hgap₀.1 with ⟨body, stop, hbody, hmem, -⟩
    rcases hspells₀ with ⟨access, haccess, blanks, stop₀, htext, -⟩
    -- The word has ended before the place, since no word goes on there.
    have hlast (more : List Char) (hend : access.toList = first ++ more) : False := by
      have hlower := (hword haccess).2 (first.getLast hfirst)
        (by rw [hend]; exact List.mem_append_left _ (List.getLast_mem hfirst))
      have hnot := hbefore (first.getLast hfirst) (by
        rw [List.getLast?_append_of_ne_nil _ hfirst, List.getLast?_eq_some_getLast])
      rw [isWord_of_isLower hlower] at hnot
      cases hnot
    have hinside : ∀ c ∈ first, isTypeChar c = true := fun c hc =>
      hmem c (forall_mem_of_append_eq hsecond (w := []) (by simpa using hbody) c hc)
    rcases hgap₀.1.starts with ⟨blank, others, rfl, hblank⟩
    have hsplit : first ++ second =
        access.toList ++ (blank :: others ++ name₀ ++ blanks ++ [stop₀]) := by
      simpa using htext
    rcases List.append_eq_append_iff.mp hsplit with ⟨more, hend, -⟩ | ⟨more, rfl, hmore⟩
    · exact hlast more hend
    · cases more with
      | nil => exact hlast [] (by simp)
      | cons c more =>
          have hc : blank = c := (List.cons.inj hmore).1
          exact hclear front access haccess (c :: more) (by simp) hfront
            ⟨c, more, rfl, hc ▸ hblank⟩ fun d hd => hinside d (List.mem_append_right _ hd)

/-! ## What is found -/

/-- A text of the form stands in the content, and it is the first one in its run. -/
def Headed (form : HeadForm) (content gap name : List Char) : Prop :=
  ∃ before text rest, content = before ++ (text ++ rest) ∧ EndsWord before ∧ form.Clear before ∧
    form.Spells gap name text

/-- A match of the pattern is told by its gap and its name. -/
def Tells (form : HeadForm) (pattern : Pattern) (accepted : Match → Prop)
    (spelled : List Char → List Char → Prop) : Prop :=
  ∀ {before after : List Char} {found : Match},
    pattern.matchAt? (Cursor.between before after) = some found →
      ∃ gap name text rest, after = text ++ rest ∧ EndsWord before ∧ IsGap gap ∧
        form.Spells gap name text ∧ (accepted found ↔ spelled gap name)

section Found

variable {pattern : Pattern} {accepted : Match → Prop} {spelled : List Char → List Char → Prop}
  {content : List Char}

/-- What is found: the first texts of the form. -/
theorem exists_found_iff (h : form.Describes pattern) (hconsumes : pattern.consumes = true)
    (htells : form.Tells pattern accepted spelled) (content : List Char) :
    (∃ found ∈ pattern.findAll content, accepted found) ↔
      ∃ gap name, IsGap gap ∧ form.Headed content gap name ∧ spelled gap name := by
  constructor
  · rintro ⟨found, hfound, haccepted⟩
    rcases clearAt_of_mem_matchesFrom hconsumes h.endsTogether [] content (clearAt_nil content)
      hfound with ⟨before, after, rfl, hmatch, hclear⟩
    rcases htells hmatch with ⟨gap, name, text, rest, rfl, hbefore, hgap, hspells, hsame⟩
    exact ⟨gap, name, hgap, ⟨before, text, rest, rfl, hbefore,
      (clearAt_iff h hbefore hspells hgap.1).mp hclear, hspells⟩, hsame.mp haccepted⟩
  · rintro ⟨gap, name, hgap, ⟨before, text, rest, rfl, hbefore, hclear, hspells⟩, hspelled⟩
    rcases exists_matchAt?_of_spans (h.mpr ⟨hbefore, gap, name, hgap, hspells⟩) with
      ⟨found, hmatch⟩
    have hne : text ++ rest ≠ [] := by
      rcases hspells.exists_body hgap.1 with ⟨body, stop, rfl, -⟩
      simp
    have hfound := mem_findAll_of_matchAt? hmatch hne
      ((clearAt_iff h hbefore hspells hgap.1).mpr hclear)
    rcases htells hmatch with ⟨gap', name', text', rest', heq, -, hgap', hspells', hsame⟩
    rcases hspells.unique hgap.1 hspells' hgap'.1 heq with ⟨rfl, rfl⟩
    exact ⟨found, hfound, hsame.mpr hspelled⟩

/-! ## Among carriage returns -/

theorem endsWord_withReturns_iff {before : List Char} :
    EndsWord (withReturns before) ↔ EndsWord before := by
  rw [EndsWord, EndsWord, getLast?_withReturns]

theorem endsNoLine_of_isNamePart {c : Char} (h : isNamePart c = true) : EndsNoLine c :=
  endsNoLine_of_allowed (by decide) c h

theorem endsNoLine_access {access : String} (haccess : access ∈ form.access) :
    ∀ c ∈ access.toList, EndsNoLine c := fun c hc =>
  endsNoLine_of_isNamePart (isNamePart_of_isLower ((form.access_plain access haccess).2 c hc))

theorem clear_withReturns_iff : form.Clear (withReturns before) ↔ form.Clear before := by
  have hmem {more : List Char} : (∀ c ∈ withReturns more, isTypeChar c = true) ↔
      ∀ c ∈ more, isTypeChar c = true :=
    forall_mem_withReturns_iff (by decide)
  constructor
  · rintro hclear front access haccess more rfl hfront hstarts hmore
    refine hclear (withReturns front) access haccess (withReturns more) ?_
      (endsWord_withReturns_iff.mpr hfront) (startsBlank_withReturns_iff.mpr hstarts)
      (hmem.mpr hmore)
    have hword : withReturns access.toList = access.toList :=
      withReturns_of_not_mem fun hnewline => (endsNoLine_access haccess _ hnewline).1 rfl
    rw [withReturns_append, withReturns_append, hword]
  · rintro hclear front' access haccess more' heq hfront hstarts hmore
    rcases exists_of_withReturns_eq_word (endsNoLine_access haccess)
      (form.access_plain access haccess).1 heq with ⟨front, more, rfl, rfl, rfl⟩
    exact hclear front access haccess more rfl (endsWord_withReturns_iff.mp hfront)
      (startsBlank_withReturns_iff.mp hstarts) (hmem.mp hmore)

theorem endsNoLine_of_mem_stops {stop : Char} (hstop : stop ∈ form.stops) : EndsNoLine stop := by
  have hapart := form.stop_apart stop hstop
  constructor
  · rintro rfl
    exact absurd hapart (by decide)
  · rintro rfl
    exact absurd hapart (by decide)

/-- The first texts of the form are the same ones. -/
theorem headed_withReturns_iff :
    form.Headed (withReturns content) gap' name ↔
      ∃ gap, gap' = withReturns gap ∧ form.Headed content gap name := by
  have hblank {blanks : List Char} :
      (∀ c ∈ withReturns blanks, isBlank c = true) ↔ ∀ c ∈ blanks, isBlank c = true :=
    forall_mem_withReturns_iff (by decide)
  have hspelled (hname : form.IsName name) : ∀ c ∈ name, EndsNoLine c := fun c hc =>
    endsNoLine_of_isNamePart ((form.name_spells name hname).2 c hc)
  have hword {word : List Char} (h : ∀ c ∈ word, EndsNoLine c) : withReturns word = word :=
    withReturns_of_not_mem fun hnewline => (h _ hnewline).1 rfl
  constructor
  · rintro ⟨before', text', rest', heq, hbefore, hclear, access, haccess, blanks', stop, rfl, hname,
      hblanks, hstop⟩
    have hsplit : withReturns content =
        before' ++ access.toList ++ (gap' ++ name ++ (blanks' ++ stop :: rest')) := by
      simpa using heq
    rcases exists_of_withReturns_eq_word (endsNoLine_access haccess)
      (form.access_plain access haccess).1 hsplit with ⟨before, more, rfl, rfl, hmore⟩
    rcases exists_of_withReturns_eq_word (hspelled hname) (form.name_spells name hname).1
      hmore.symm with ⟨gap, behind, rfl, rfl, hbehind⟩
    rcases exists_of_withReturns_eq (endsNoLine_of_mem_stops hstop) hbehind.symm with
      ⟨blanks, rest, rfl, rfl, rfl⟩
    exact ⟨gap, rfl, before, _, rest, by simp, endsWord_withReturns_iff.mp hbefore,
      clear_withReturns_iff.mp hclear, access, haccess, blanks, stop, rfl, hname, hblank.mp hblanks,
      hstop⟩
  · rintro ⟨gap, rfl, before, _, rest, rfl, hbefore, hclear, access, haccess, blanks, stop, rfl,
      hname, hblanks, hstop⟩
    refine ⟨withReturns before, _, withReturns rest, ?_, endsWord_withReturns_iff.mpr hbefore,
      clear_withReturns_iff.mpr hclear, access, haccess, withReturns blanks, stop, rfl, hname,
      hblank.mpr hblanks, hstop⟩
    simp only [withReturns_append, hword (endsNoLine_access haccess), hword (hspelled hname),
      withReturns_cons (endsNoLine_of_mem_stops hstop).1, withReturns_nil]

/-- What is found among carriage returns is what was found before, and what stands behind a
gap that becomes long enough. -/
theorem exists_found_withReturns_iff (h : form.Describes pattern)
    (hconsumes : pattern.consumes = true) (htells : form.Tells pattern accepted spelled)
    (hspelled : ∀ gap name, spelled (withReturns gap) name ↔ spelled gap name)
    (content : List Char) :
    (∃ found ∈ pattern.findAll (withReturns content), accepted found) ↔
      (∃ found ∈ pattern.findAll content, accepted found) ∨
        ∃ gap name, IsLineGap gap ∧ form.Headed content gap name ∧ spelled gap name := by
  have hboth : (∃ found ∈ pattern.findAll (withReturns content), accepted found) ↔
      ∃ gap name, IsGap (withReturns gap) ∧ form.Headed content gap name ∧ spelled gap name := by
    rw [exists_found_iff h hconsumes htells]
    constructor
    · rintro ⟨gap', name, hgap, hheaded', hthis⟩
      rcases headed_withReturns_iff.mp hheaded' with ⟨gap, rfl, hheaded⟩
      exact ⟨gap, name, hgap, hheaded, (hspelled gap name).mp hthis⟩
    · rintro ⟨gap, name, hgap, hheaded, hthis⟩
      exact ⟨withReturns gap, name, hgap, headed_withReturns_iff.mpr ⟨gap, rfl, hheaded⟩,
        (hspelled gap name).mpr hthis⟩
  rw [hboth, exists_found_iff h hconsumes htells]
  simp only [isGap_withReturns_iff, or_and_right, exists_or]

end Found

end HeadForm

end Chunking
