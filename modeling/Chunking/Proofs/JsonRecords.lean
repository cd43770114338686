import Chunking.Proofs.JsonCodecs

/-!
# Records are read back

A record is written member by member, and it is read by looking each member up
by its name, so the names of a record have to differ. What has been read so far
is a state, and `Reads` follows that state through the members in the order in
which they are written. A shape beside another one keeps to its own part of the
state, and so what is known of the two is known of both together.

In the other direction nothing is known of the order: members may come as an
object or as a list, and others in between. All that is used there is a
condition on the state that every member keeps.

## Main definitions

* `Json.Shape.Reads`: The states while written members are read.
* `Json.Shape.Keep`: What every member keeps of the state.
* `Json.Shape.Lawful`: A shape whose members are read back.

## Theorems

* `Shape.Lawful.and`: Two shapes side by side.
* `readObject_written`: The members of an object are read back.
* `kept_of_readObject`, `kept_of_readList`: What every member keeps is kept.
* `Codec.Lawful.ofShape`: Records.
-/

namespace Chunking.Json

variable {α β σ τ : Type}

namespace Shape

/-- Reading the given members, which are written in this order, leads from the
first state to the second. Each is known to the reader by its name and has not
been read before, and its text is read whatever follows. -/
inductive Reads (members : List (Member σ)) : σ → List (String × List Char) → σ → Prop
  | done (state : σ) : Reads members state [] state
  | next {state middle last : σ} {member : Member σ} {name : String} {written : List Char}
      {entries : List (String × List Char)}
      (known : members.find? (fun other => other.name == name) = some member)
      (unread : member.isRead state = false)
      (read : ∀ text, NumberEnds text → member.read state (written ++ text) = .ok (middle, text))
      (more : Reads members middle entries last) :
      Reads members state ((name, written) :: entries) last

/-- The names of the members. -/
def names (shape : Shape σ α) : List String :=
  shape.members.map Member.name

/-- Every member keeps a condition on what has been read so far. -/
def Keep (members : List (Member σ)) (kept : σ → Prop) : Prop :=
  ∀ member ∈ members, ∀ state, kept state → ∀ text next rest,
    member.read state text = .ok (next, rest) → kept next

/-- A shape whose members are read back if their names differ, where only values
that are `sized` can be written so. What has been read of a value is `kept` to
what is sized. -/
structure Lawful (shape : Shape σ α) (sized : α → Prop) : Prop where
  reads : shape.names.Nodup → ∀ value, sized value → ∃ last,
    Reads shape.members shape.start (shape.write value) last ∧ shape.finish last = some value
  keeps : ∃ kept : σ → Prop, kept shape.start ∧ Keep shape.members kept ∧
    ∀ state value, kept state → shape.finish state = some value → sized value
  printable : ∀ value, ∀ entry ∈ shape.write value, Printable entry.2

/-! ## Single members -/

variable {codec : Codec α} {sized : α → Prop}

-- A single member is found by its name, and it is read as its codec reads.
theorem reads_only (h : codec.Lawful sized) (name : String) (omissible : Bool) {value : α}
    (hvalue : sized value) :
    Reads (only name codec omissible) none [(name, codec.write value)] (some value) := by
  have hknown : (only name codec omissible).find? (fun other => other.name == name) =
      (only name codec omissible).head? := by
    simp [only]
  refine .next hknown rfl (fun text htext => ?_) (.done _)
  simp only [h.read_write value hvalue text htext, Except.map]

-- What has been read of a single member is nothing or a value of its codec.
theorem keeps_only (h : codec.Lawful sized) (name : String) (omissible : Bool)
    {finish : Option α → Option β} {sized' : β → Prop}
    (hfinish : ∀ state value, (∀ inner ∈ state, sized inner) → finish state = some value →
      sized' value) :
    ∃ kept : Option α → Prop, kept none ∧ Keep (only name codec omissible) kept ∧
      ∀ state value, kept state → finish state = some value → sized' value := by
  refine ⟨fun state => ∀ inner ∈ state, sized inner, ?_, ?_, hfinish⟩
  · intro inner hinner
    cases hinner
  · intro member hmember state _ text next rest hread inner hinner
    rw [only, List.mem_singleton] at hmember
    subst hmember
    rcases exists_of_map_eq_ok hread with ⟨read, hcodec, hnext⟩
    cases hnext
    cases hinner
    exact h.sized_of_read _ _ _ hcodec

theorem Lawful.member (h : codec.Lawful sized) (name : String) :
    (member name codec).Lawful sized where
  reads _ value hvalue := ⟨some value, reads_only h name false hvalue, rfl⟩
  keeps := keeps_only h name false fun _ value hkept hfinish => hkept value hfinish
  printable value entry hentry := by
    rw [List.mem_singleton.mp hentry]
    exact h.printable value

theorem Lawful.memberOr (h : codec.Lawful sized) (name : String) {default : α}
    (hdefault : sized default) (omissible : Bool) :
    (memberOr name codec default omissible).Lawful sized where
  reads _ value hvalue := ⟨some value, reads_only h name omissible hvalue, rfl⟩
  keeps := by
    refine keeps_only h name omissible fun state value hkept hfinish => ?_
    cases hfinish
    cases state with
    | none => exact hdefault
    | some value => exact hkept value rfl
  printable value entry hentry := by
    rw [List.mem_singleton.mp hentry]
    exact h.printable value

theorem Lawful.optional (h : codec.Lawful sized) (name : String) :
    (optional name codec).Lawful fun value => ∀ inner ∈ value, sized inner where
  reads _ value hvalue := by
    cases value with
    | none => exact ⟨none, .done _, rfl⟩
    | some value => exact ⟨some value, reads_only h name false (hvalue value rfl), rfl⟩
  keeps := by
    refine keeps_only h name false fun state value hkept hfinish => ?_
    cases hfinish
    exact hkept
  printable value entry hentry := by
    cases value with
    | none => exact absurd hentry List.not_mem_nil
    | some value =>
        rw [List.mem_singleton.mp hentry]
        exact h.printable value

/-! ## Several members -/

variable {sized' : β → Prop}

theorem Reads.append {members : List (Member σ)} {state middle last : σ}
    {entries more : List (String × List Char)} (h : Reads members state entries middle)
    (h' : Reads members middle more last) : Reads members state (entries ++ more) last := by
  induction h with
  | done => exact h'
  | next known unread read _ ih => exact .next known unread read (ih h')

-- A member that is lifted into a larger state reads as it did in its part of it.
theorem read_lift_eq_ok_iff {member : Member σ} {part : τ → σ} {replace : τ → σ → τ}
    {state next : τ} {text rest : List Char} :
    (member.lift part replace).read state text = .ok (next, rest) ↔
      ∃ inner, member.read (part state) text = .ok (inner, rest) ∧ replace state inner = next := by
  constructor
  · intro h
    rcases exists_of_map_eq_ok h with ⟨read, hread, hnext⟩
    cases hnext
    exact ⟨read.1, hread, rfl⟩
  · rintro ⟨inner, hread, rfl⟩
    simp only [Member.lift, hread, Except.map]

/-- What is read of the first shape is read in the same way beside a second
one. -/
theorem Reads.left (first : Shape σ α) (second : Shape τ β) {state last : σ} (other : τ)
    {entries : List (String × List Char)} (h : Reads first.members state entries last) :
    Reads (first.and second).members (state, other) entries (last, other) := by
  induction h with
  | done => exact .done _
  | @next state middle last member name written entries known unread read _ ih =>
      have hknown : (first.and second).members.find? (fun other => other.name == name) =
          some (member.lift Prod.fst fun state read => (read, state.2)) := by
        dsimp only [Shape.and]
        rw [List.find?_append, List.find?_map]
        change ((first.members.find? fun member => member.name == name).map _).or _ = _
        rw [known]
        rfl
      exact .next hknown unread
        (fun text htext => read_lift_eq_ok_iff.mpr ⟨middle, read text htext, rfl⟩) ih

/-- What is read of the second shape is read in the same way behind a first one
without any of its names. -/
theorem Reads.right (first : Shape σ α) (second : Shape τ β) (other : σ) {state last : τ}
    {entries : List (String × List Char)} (hnames : ∀ name ∈ second.names, name ∉ first.names)
    (h : Reads second.members state entries last) :
    Reads (first.and second).members (other, state) entries (other, last) := by
  induction h with
  | done => exact .done _
  | @next state middle last member name written entries known unread read _ ih =>
      have hname : member.name = name := by
        simpa using List.find?_some known
      have hmem : name ∈ second.names :=
        hname ▸ List.mem_map_of_mem (List.mem_of_find?_eq_some known)
      -- The first shape does not know the name.
      have hfirst : first.members.find? (fun member => member.name == name) = none := by
        rw [List.find?_eq_none]
        intro member' hmember' heq
        refine hnames name hmem (List.mem_map.mpr ⟨member', hmember', ?_⟩)
        simpa using heq
      have hknown : (first.and second).members.find? (fun other => other.name == name) =
          some (member.lift Prod.snd fun state read => (state.1, read)) := by
        dsimp only [Shape.and]
        rw [List.find?_append, List.find?_map, List.find?_map]
        change ((first.members.find? fun member => member.name == name).map _).or
          ((second.members.find? fun member => member.name == name).map _) = _
        rw [hfirst, known]
        rfl
      exact .next hknown unread
        (fun text htext => read_lift_eq_ok_iff.mpr ⟨middle, read text htext, rfl⟩) ih

theorem names_and (first : Shape σ α) (second : Shape τ β) :
    (first.and second).names = first.names ++ second.names := by
  simp [names, Shape.and, Member.lift, Function.comp_def]

theorem Lawful.and {first : Shape σ α} {second : Shape τ β} (h : first.Lawful sized)
    (h' : second.Lawful sized') :
    (first.and second).Lawful fun value => sized value.1 ∧ sized' value.2 where
  reads hnames value hvalue := by
    rw [names_and, List.nodup_append] at hnames
    rcases hnames with ⟨hnames, hnames', hdisjoint⟩
    rcases h.reads hnames value.1 hvalue.1 with ⟨last, hreads, hfinish⟩
    rcases h'.reads hnames' value.2 hvalue.2 with ⟨last', hreads', hfinish'⟩
    have hapart (name : String) (hname : name ∈ second.names) : name ∉ first.names :=
      fun hfirst => hdisjoint name hfirst name hname rfl
    refine ⟨(last, last'), (hreads.left first second _).append
      (hreads'.right first second _ hapart), ?_⟩
    simp only [Shape.and, hfinish, hfinish']
    rfl
  keeps := by
    rcases h.keeps with ⟨kept, hstart, hread, hfinish⟩
    rcases h'.keeps with ⟨kept', hstart', hread', hfinish'⟩
    refine ⟨fun state => kept state.1 ∧ kept' state.2, ⟨hstart, hstart'⟩, ?_, ?_⟩
    · intro member hmember state hkept text next rest hnext
      rcases List.mem_append.mp hmember with hmember | hmember
      · rcases List.mem_map.mp hmember with ⟨inner, hinner, rfl⟩
        rcases read_lift_eq_ok_iff.mp hnext with ⟨read, hinnerRead, rfl⟩
        exact ⟨hread inner hinner _ hkept.1 _ _ _ hinnerRead, hkept.2⟩
      · rcases List.mem_map.mp hmember with ⟨inner, hinner, rfl⟩
        rcases read_lift_eq_ok_iff.mp hnext with ⟨read, hinnerRead, rfl⟩
        exact ⟨hkept.1, hread' inner hinner _ hkept.2 _ _ _ hinnerRead⟩
    · intro state value hkept hvalue
      rcases Option.bind_eq_some_iff.mp hvalue with ⟨left, hleft, hvalue⟩
      rcases Option.bind_eq_some_iff.mp hvalue with ⟨right, hright, hvalue⟩
      cases hvalue
      exact ⟨hfinish _ _ hkept.1 hleft, hfinish' _ _ hkept.2 hright⟩
  printable value entry hentry := by
    rcases List.mem_append.mp hentry with hentry | hentry
    · exact h.printable value.1 entry hentry
    · exact h'.printable value.2 entry hentry

theorem Lawful.via {shape : Shape σ α} (h : shape.Lawful sized) {ofValue? : α → Option β}
    {toValue : β → α} (hto : ∀ value, sized' value → sized (toValue value))
    (hback : ∀ value, ofValue? (toValue value) = some value)
    (hof : ∀ value other, sized value → ofValue? value = some other → sized' other) :
    (shape.via ofValue? toValue).Lawful sized' where
  reads hnames value hvalue := by
    rcases h.reads hnames (toValue value) (hto value hvalue) with ⟨last, hreads, hfinish⟩
    refine ⟨last, hreads, ?_⟩
    simp only [Shape.via, hfinish, Option.bind_some, hback value]
  keeps := by
    rcases h.keeps with ⟨kept, hstart, hread, hfinish⟩
    refine ⟨kept, hstart, hread, fun state value hkept hvalue => ?_⟩
    rcases Option.bind_eq_some_iff.mp hvalue with ⟨inner, hinner, hother⟩
    exact hof inner value (hfinish state inner hkept hinner) hother
  printable value := h.printable (toValue value)

/-! ## Objects -/

/-- A member as it is written in an object. -/
def writtenMember (entry : String × List Char) : List Char :=
  quote entry.1 ++ ':' :: entry.2

theorem object_append (entries : List (String × List Char)) (text : List Char) :
    object entries ++ text =
      '\x7b' :: (separated (entries.map writtenMember) ++ '\x7d' :: text) := by
  rw [object, List.cons_append, List.append_assoc]
  rfl

/-- The members of an object behind the first one, each with the comma before it,
and the end of the object. -/
def writtenMembers (entries : List (String × List Char)) (text : List Char) : List Char :=
  (entries.map writtenMember).flatMap (',' :: ·) ++ '\x7d' :: text

theorem writtenMembers_nil (text : List Char) : writtenMembers [] text = '\x7d' :: text :=
  rfl

theorem writtenMembers_cons (entry : String × List Char) (entries : List (String × List Char))
    (text : List Char) : writtenMembers (entry :: entries) text =
      ',' :: (writtenMember entry ++ writtenMembers entries text) := by
  simp [writtenMembers]

-- A member is followed by a comma or by the end of the object.
theorem numberEnds_writtenMembers (entries : List (String × List Char)) (text : List Char) :
    NumberEnds (writtenMembers entries text) := by
  cases entries with
  | nil => exact numberEnds_cons text (by decide)
  | cons => exact numberEnds_cons _ (by decide)

theorem length_lt_length_writtenMembers (entries : List (String × List Char))
    (text : List Char) : entries.length < (writtenMembers entries text).length := by
  induction entries with
  | nil => simp [writtenMembers_nil]
  | cons entry entries ih =>
      simp only [writtenMembers_cons, List.length_cons, List.length_append]
      omega

/-- A member that is known and has not been read is read, the first one and the
others. -/
theorem readObject_member {members : List (Member σ)} {state middle : σ} {member : Member σ}
    {entry : String × List Char} {text : List Char}
    (known : members.find? (fun other => other.name == entry.1) = some member)
    (unread : member.isRead state = false)
    (read : member.read state (entry.2 ++ text) = .ok (middle, text)) (b : Char)
    (bound : List Char) :
    readObject members true state (b :: bound) (writtenMember entry ++ text) =
        readObject members false middle bound text ∧
      readObject members false state (b :: bound) (',' :: (writtenMember entry ++ text)) =
        readObject members false middle bound text := by
  have hwritten : writtenMember entry ++ text =
      '"' :: (entry.1.toList.flatMap escape ++ '"' :: ':' :: (entry.2 ++ text)) := by
    simp [writtenMember, quote]
  have hcolon : readColon (':' :: (entry.2 ++ text)) = .ok (entry.2 ++ text) := by
    rw [readColon, skipBlanks_cons _ (by decide)]
    rfl
  have hquote := skipBlanks_cons (c := '"')
    (entry.1.toList.flatMap escape ++ '"' :: ':' :: (entry.2 ++ text)) (by decide)
  rw [hwritten]
  constructor
  · rw [readObject, hquote]
    simp [readString_quote, known, unread, hcolon, bind, Except.bind, read]
  · rw [readObject, skipBlanks_cons _ (by decide)]
    simp [hquote, readString_quote, known, unread, hcolon, bind, Except.bind, read]

theorem readObject_written {members : List (Member σ)} {state last : σ}
    {entries : List (String × List Char)} (h : Reads members state entries last)
    (bound text : List Char) (hbound : entries.length < bound.length) :
    readObject members false state bound (writtenMembers entries text) = .ok (last, text) := by
  induction h generalizing bound with
  | done =>
      rcases List.exists_cons_of_length_pos hbound with ⟨b, bound, rfl⟩
      rw [readObject, writtenMembers_nil, skipBlanks_cons text (by decide)]
      simp
  | @next _ _ _ _ _ _ entries known unread read _ ih =>
      rcases List.exists_cons_of_length_pos (Nat.zero_lt_of_lt hbound) with ⟨b, bound, rfl⟩
      have hread := read _ (numberEnds_writtenMembers entries text)
      rw [writtenMembers_cons, (readObject_member known unread hread b bound).2]
      exact ih bound (by simpa using hbound)

-- What is kept of the state of every member is kept of an object.
theorem kept_of_readObject {members : List (Member σ)} {kept : σ → Prop}
    (h : Keep members kept) (first : Bool) (state : σ) (hstate : kept state)
    (bound text : List Char) {last : σ} {rest : List Char}
    (hread : readObject members first state bound text = .ok (last, rest)) : kept last := by
  -- The bound on the members takes part in the induction only as a counter.
  induction bound generalizing first state text with
  | nil => cases hread
  | cons b bound ih =>
      cases hskip : skipBlanks text with
      | nil =>
          rw [readObject, hskip] at hread
          cases hread
      | cons c rest' =>
          rw [readObject, hskip] at hread
          extract_lets member at hread
          have hmember (text : List Char) (hread : member text = .ok (last, rest)) : kept last := by
            dsimp only [member] at hread
            split at hread
            · cases hread
            · split at hread
              · -- An unknown member changes nothing.
                split at hread
                · cases hread
                · exact ih _ _ hstate _ hread
              · rename_i member hknown
                split_ifs at hread
                split at hread
                · cases hread
                · rename_i next rest' hnext
                  rcases exists_of_bind_eq_ok hnext with ⟨text', _, hnext⟩
                  have hmem := List.mem_of_find?_eq_some hknown
                  exact ih _ _ (h member hmem state hstate text' _ _ hnext) _ hread
          dsimp only at hread
          split_ifs at hread
          · cases hread
            exact hstate
          · exact hmember _ hread
          · split at hread
            · cases hread
            · split_ifs at hread
              exact hmember _ hread

-- The same of a list, in which the members come in their order.
theorem kept_of_readList {members : List (Member σ)} {kept : σ → Prop}
    (h : Keep members kept) (first : Bool) (state : σ) (hstate : kept state) (text : List Char)
    {last : σ} {rest : List Char}
    (hread : readList first state members text = .ok (last, rest)) : kept last := by
  induction members generalizing first state text with
  | nil =>
      rw [readList] at hread
      split at hread
      · cases hread
      · split_ifs at hread
        cases hread
        exact hstate
  | cons member members ih =>
      have hmore := ih fun other hother => h other (List.mem_cons_of_mem member hother)
      cases hskip : skipBlanks text with
      | nil =>
          rw [readList, hskip] at hread
          cases hread
      | cons c rest' =>
          rw [readList, hskip] at hread
          extract_lets value at hread
          have hvalue (text : List Char) (hread : value text = .ok (last, rest)) : kept last := by
            dsimp only [value] at hread
            split at hread
            · cases hread
            · rename_i next rest' hnext
              exact hmore _ _ (h member List.mem_cons_self state hstate _ _ _ hnext) _ hread
          dsimp only at hread
          split_ifs at hread
          · exact hmore _ _ hstate _ hread
          · exact hvalue _ hread
          · split at hread
            · cases hread
            · split_ifs at hread
              exact hvalue _ hread

theorem readObject_object {members : List (Member σ)} {state last : σ}
    {entries : List (String × List Char)} (h : Reads members state entries last) (b : Char)
    (text : List Char) :
    readObject members true state (b :: (separated (entries.map writtenMember) ++ '\x7d' :: text))
      (separated (entries.map writtenMember) ++ '\x7d' :: text) = .ok (last, text) := by
  cases h with
  | done =>
      rw [readObject, List.map_nil, separated, List.intercalate_nil, List.nil_append,
        skipBlanks_cons text (by decide)]
      simp
  | @next _ _ _ _ name value entries known unread read more =>
      have hread := read _ (numberEnds_writtenMembers entries text)
      have hbound := length_lt_length_writtenMembers entries text
      rw [List.map_cons, separated_cons, List.append_assoc]
      change readObject members true state (b :: (writtenMember (name, value) ++
        writtenMembers entries text))
          (writtenMember (name, value) ++ writtenMembers entries text) = _
      rw [(readObject_member known unread hread b _).1]
      exact readObject_written more _ text (by rw [List.length_append]; omega)

end Shape

/-- A record is read back if its members are and their names differ. -/
theorem Codec.Lawful.ofShape {shape : Shape σ α} {sized : α → Prop} (h : shape.Lawful sized)
    (hnames : shape.names.Nodup) : (Codec.ofShape shape).Lawful sized where
  read_write value hvalue text _ := by
    rcases h.reads hnames value hvalue with ⟨last, hreads, hfinish⟩
    dsimp only [Codec.ofShape]
    rw [Shape.object_append, atFirst_cons _ _ (by decide), if_pos rfl,
      Shape.readObject_object hreads]
    simp only [bind, Except.bind, Shape.settle, hfinish]
  sized_of_read text value rest hread := by
    rcases h.keeps with ⟨kept, hstart, hkeeps, hsized⟩
    rcases exists_of_atFirst hread with ⟨c, text', hread⟩
    -- However the members are given, they make up the value in the end.
    have hsettle (read : Except Fault (σ × List Char))
        (hkept : ∀ last rest, read = .ok (last, rest) → kept last)
        (hread : read >>= shape.settle = .ok (value, rest)) : sized value := by
      rcases exists_of_bind_eq_ok hread with ⟨read, hlast, hread⟩
      rw [Shape.settle] at hread
      split at hread
      · rename_i other hother
        cases hread
        exact hsized read.1 value (hkept read.1 read.2 hlast) hother
      · cases hread
    split_ifs at hread
    · exact hsettle _ (fun last rest => Shape.kept_of_readObject hkeeps _ _ hstart _ _) hread
    · exact hsettle _ (fun last rest => Shape.kept_of_readList hkeeps _ _ hstart _) hread
  printable value := by
    refine Printable.cons (by decide) (.append (printable_separated ?_) (.cons (by decide) .nil))
    intro text htext
    rcases List.mem_map.mp htext with ⟨entry, hentry, rfl⟩
    exact (printable_quote entry.1).append (.cons (by decide) (h.printable value entry hentry))
  starts value := ⟨'\x7b', _, rfl, by decide, by decide⟩

end Chunking.Json
