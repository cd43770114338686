import Mathlib.Data.List.Induction
import Chunking.CommandLine.Arguments

/-!
# Argument lists

Words that say what to do, put together instead of taken apart: arguments in
any order, and perhaps two hyphens with more files behind them. The value of an
option stands in the next word or behind an equals sign, and a word that could
be taken for an option stands only behind one.

Such words are well-formed if every argument is spelled so that it cannot be
taken for another, no option comes twice, no file has the empty name, and there
is a file. These are exactly the words that ask for files to be chunked, and
what they ask for can be read off the arguments.

## Main definitions

* `Argument`: An option with its value, or a file.
* `Argument.words`: The words of an argument.
* `Argument.Spelled`: An argument that cannot be taken for another.
* `ArgumentList`: All arguments, and the files behind two hyphens.
* `ArgumentList.WellFormed`: Arguments that say what to do.
* `ArgumentList.invocation`: What they say.
* `Request.Reading.add?`: What has been read after one more argument.
* `Request.Reading.ofArguments`: What has been read after arguments.
* `Request.Reading.Leads`: Words that are those of arguments.

## Theorems

* `Request.ofWords_append`: An argument is read from its words.
* `Request.foldlM_add?_eq_some_iff`: What has been read after arguments.
* `Request.leads_of_ofWords`: Words that are read to the end are arguments.
* `Request.ofArguments_eq_run_iff`: Exactly the well-formed words are read.
-/

namespace Chunking

/-- One argument. The value of an option is joined to it with an equals sign,
or is the next word. -/
inductive Argument where
  /-- The project of the documents. -/
  | project (joined : Bool) (value : String)
  /-- The strategy for every document, or automatic choice. -/
  | strategy (joined : Bool) (choice : Option Strategy)
  /-- To stop at the first file that fails. -/
  | failFast
  /-- A file to chunk. -/
  | file (path : String)
  deriving DecidableEq

/-- The name of a strategy, or of automatic choice. -/
def nameOfChoice : Option Strategy → String
  | none => "auto"
  | some .code => "code"
  | some .text => "text"

namespace Argument

/-- The option that an argument gives. A file is none. -/
def option? : Argument → Option String
  | project _ _ => some "--project"
  | strategy _ _ => some "--strategy"
  | failFast => some "--fail-fast"
  | file _ => none

def project? : Argument → Option String
  | project _ value => some value
  | _ => none

def strategy? : Argument → Option (Option Strategy)
  | strategy _ choice => some choice
  | _ => none

def file? : Argument → Option String
  | file path => some path
  | _ => none

/-- The words of an option with its value. -/
def optionWords (name value : String) (joined : Bool) : List String :=
  if joined then [name ++ "=" ++ value] else [name, value]

/-- The words of an argument. -/
def words : Argument → List String
  | project joined value => optionWords "--project" value joined
  | strategy joined choice => optionWords "--strategy" (nameOfChoice choice) joined
  | failFast => ["--fail-fast"]
  | file path => [path]

/-- The words of an argument cannot be taken for another: a file has a name, and
neither a file nor a value in a word of its own starts with a hyphen, unless it
is one. -/
def Spelled : Argument → Prop
  | project joined value => joined = false → Request.isOption value = false
  | file path => path ≠ "" ∧ Request.isOption path = false
  | _ => True

instance : DecidablePred Spelled
  | project joined value =>
    inferInstanceAs (Decidable (joined = false → Request.isOption value = false))
  | file path => inferInstanceAs (Decidable (path ≠ "" ∧ Request.isOption path = false))
  | strategy _ _ | failFast => .isTrue trivial

end Argument

/-- Words that say what to do. -/
structure ArgumentList where
  arguments : List Argument
  /-- The files behind two hyphens, if there are two hyphens. -/
  behind : Option (List String) := none

namespace ArgumentList

/-- The words of all arguments. -/
def words (list : ArgumentList) : List String :=
  list.arguments.flatMap Argument.words ++
    match list.behind with
    | none => []
    | some files => "--" :: files

/-- The files in order. -/
def files (list : ArgumentList) : List String :=
  list.arguments.filterMap Argument.file? ++ list.behind.getD []

/-- What the arguments say. -/
def invocation (list : ArgumentList) : Invocation where
  project := (list.arguments.findSome? Argument.project?).getD ""
  strategy := (list.arguments.findSome? Argument.strategy?).join
  failFast := list.arguments.contains .failFast
  files := list.files

/-- Arguments that say what to do. -/
structure WellFormed (list : ArgumentList) : Prop where
  spelled : ∀ argument ∈ list.arguments, argument.Spelled
  /-- No option comes twice. -/
  once : (list.arguments.filterMap Argument.option?).Nodup
  /-- The files behind two hyphens have names. -/
  named : ∀ file ∈ list.behind.getD [], file ≠ ""
  /-- There is a file. -/
  filed : list.files ≠ []

theorem wellFormed_iff (list : ArgumentList) :
    list.WellFormed ↔
      (∀ argument ∈ list.arguments, argument.Spelled) ∧
        (list.arguments.filterMap Argument.option?).Nodup ∧
        (∀ file ∈ list.behind.getD [], file ≠ "") ∧ list.files ≠ [] :=
  ⟨fun h => ⟨h.spelled, h.once, h.named, h.filed⟩, fun h => ⟨h.1, h.2.1, h.2.2.1, h.2.2.2⟩⟩

instance (list : ArgumentList) : Decidable list.WellFormed :=
  decidable_of_iff _ list.wellFormed_iff.symm

end ArgumentList

namespace Request

variable {reading after : Reading} {argument : Argument} {name value word : String}

theorem isOption_eq_true_iff :
    isOption word = true ↔ ['-'] <+: word.toList ∧ word ≠ "-" := by
  simp [isOption, String.startsWith_string_iff]

-- The name ends at the first equals sign, so a value may hold others.
theorem splitAtEquals_joined (hname : '=' ∉ name.toList) :
    splitAtEquals (name ++ "=" ++ value) = (name, some value) := by
  have htake : (name ++ "=" ++ value).toList.takeWhile (· != '=') = name.toList := by
    rw [String.toList_append, String.toList_append, List.append_assoc,
      List.takeWhile_append_of_pos]
    · simp
    · intro c hc
      rw [bne_iff_ne]
      exact fun heq => hname (heq ▸ hc)
  rw [splitAtEquals, htake]
  simp

-- Nothing is lost where a word is split.
theorem eq_of_splitAtEquals (word : String) :
    (∀ name, splitAtEquals word = (name, none) → word = name) ∧
      ∀ name value, splitAtEquals word = (name, some value) → word = name ++ "=" ++ value := by
  have hchars := List.takeWhile_append_dropWhile (p := (· != '=')) (l := word.toList)
  rw [splitAtEquals]
  generalize hname : word.toList.takeWhile (· != '=') = name at hchars ⊢
  cases hrest : word.toList.dropWhile (· != '=') with
  | nil =>
      rw [hrest, List.append_nil] at hchars
      simp [hchars]
  | cons c rest =>
      have hc : c = '=' := by
        have hhead := List.head_dropWhile_not (· != '=') (by simp [hrest] :
          word.toList.dropWhile (· != '=') ≠ [])
        simpa [hrest] using hhead
      rw [hrest, hc] at hchars
      have hword : word = String.ofList name ++ "=" ++ String.ofList rest := by
        rw [← String.toList_inj]
        simp [← hchars]
      simp [hword]

theorem isOption_of_long (hlong : word.startsWith "--" = true) : isOption word = true := by
  rw [String.startsWith_string_iff] at hlong
  rw [isOption_eq_true_iff]
  refine ⟨List.IsPrefix.trans ⟨['-'], rfl⟩ hlong, ?_⟩
  intro heq
  subst heq
  exact absurd hlong (by decide)

theorem ofWords_joined {rest : List String} (hlong : word.startsWith "--" = true)
    (hne : word ≠ "--") (hsplit : splitAtEquals word = (name, some value))
    (hset : reading.setOption? name value = some after) :
    ofWords reading (word :: rest) = ofWords after rest := by
  rw [ofWords, if_neg hne]
  simp only [isOption_of_long hlong, hlong, hsplit, hset, Bool.not_true, Bool.false_eq_true,
    if_false]

-- The options without a value are looked for first, hence the condition on the word.
theorem ofWords_separate {rest : List String} (hlong : word.startsWith "--" = true)
    (hne : word ≠ "--") (hsplit : splitAtEquals word = (word, none))
    (hword : word ≠ "--version" ∧ word ≠ "--help" ∧ word ≠ "--fail-fast")
    (hvalue : isOption value = false) (hset : reading.setOption? word value = some after) :
    ofWords reading (word :: value :: rest) = ofWords after rest := by
  rw [ofWords, if_neg hne]
  simp only [isOption_of_long hlong, hlong, hsplit, Bool.not_true, Bool.false_eq_true, if_false]
  split <;> simp_all

/-- An option is read with its value, joined or not. -/
theorem ofWords_optionWords {joined : Bool} {rest : List String}
    (hlong : name.startsWith "--" = true) (hsign : '=' ∉ name.toList)
    (hname : name ∉ ["--", "--version", "--help", "--fail-fast"])
    (hvalue : joined = false → isOption value = false)
    (hset : reading.setOption? name value = some after) :
    ofWords reading (Argument.optionWords name value joined ++ rest) = ofWords after rest := by
  simp only [List.mem_cons, List.not_mem_nil, or_false, not_or] at hname
  cases joined with
  | true =>
      have hjoined : (name ++ "=" ++ value).startsWith "--" = true := by
        rw [String.startsWith_string_iff] at hlong ⊢
        simp only [String.toList_append, List.append_assoc]
        exact hlong.trans (List.prefix_append _ _)
      -- There is an equals sign in the word, and none in two hyphens.
      have hne : name ++ "=" ++ value ≠ "--" := by
        intro heq
        have hmem : '=' ∈ (name ++ "=" ++ value).toList := by simp
        rw [heq] at hmem
        exact absurd hmem (by decide)
      exact ofWords_joined hjoined hne (splitAtEquals_joined hsign) hset
  | false =>
      have hsplit : splitAtEquals name = (name, none) := by
        rcases hsplit : splitAtEquals name with ⟨first, none | second⟩
        · rw [(eq_of_splitAtEquals name).1 first hsplit]
        · exact absurd (by rw [(eq_of_splitAtEquals name).2 first second hsplit]; simp) hsign
      exact ofWords_separate hlong hname.1 hsplit hname.2 (hvalue rfl) hset

/-- What has been read after one more argument; nothing if its option has come
before. -/
def Reading.add? (reading : Reading) : Argument → Option Reading
  | .project _ value =>
    if reading.project.isSome then none else some { reading with project := some value }
  | .strategy _ choice =>
    if reading.strategy.isSome then none else some { reading with strategy := some choice }
  | .failFast => if reading.failFast then none else some { reading with failFast := true }
  | .file path => some { reading with files := path :: reading.files }

theorem strategyNamed?_eq_some_iff {choice : Option Strategy} :
    strategyNamed? value = some choice ↔ value = nameOfChoice choice := by
  constructor
  · unfold strategyNamed?
    split <;> intro h <;> cases h <;> rfl
  · intro h
    subst h
    rcases choice with none | strategy
    · rfl
    · cases strategy <;> rfl

/-- An argument is read from its words. -/
theorem ofWords_append {rest : List String} (hspelled : argument.Spelled)
    (hadd : reading.add? argument = some after) :
    ofWords reading (argument.words ++ rest) = ofWords after rest := by
  cases argument with
  | project joined value =>
      exact ofWords_optionWords (by decide +kernel) (by decide) (by decide) hspelled hadd
  | strategy joined choice =>
      have hvalue : isOption (nameOfChoice choice) = false := by
        rcases choice with none | strategy
        · decide +kernel
        · cases strategy <;> decide +kernel
      refine ofWords_optionWords (by decide +kernel) (by decide) (by decide) (fun _ => hvalue) ?_
      rw [← hadd, Reading.setOption?, strategyNamed?_eq_some_iff.mpr rfl]
      rfl
  | failFast =>
      have hlong : "--fail-fast".startsWith "--" = true := by
        decide +kernel
      have hsplit : splitAtEquals "--fail-fast" = ("--fail-fast", none) := by
        decide +kernel
      simp only [Reading.add?, Option.ite_none_left_eq_some, Option.some.injEq] at hadd
      rw [Argument.words, List.singleton_append, ofWords, if_neg (by decide)]
      simp only [isOption_of_long hlong, hlong, hsplit, Bool.not_true, Bool.false_eq_true, if_false]
      rw [if_neg hadd.1, hadd.2]
  | file path =>
      have hne : path ≠ "--" := by
        intro heq
        rw [heq] at hspelled
        exact absurd hspelled.2 (by decide +kernel)
      have hfile : reading.addFile? path = some after := by
        rw [← hadd, Reading.addFile?, if_neg (by simpa using hspelled.1)]
        rfl
      rw [Argument.words, List.singleton_append, ofWords, if_neg hne]
      simp only [hspelled.2, hfile, Bool.not_false, if_true]

/-- What has been read after arguments. -/
def Reading.ofArguments (arguments : List Argument) : Reading where
  project := arguments.findSome? Argument.project?
  strategy := arguments.findSome? Argument.strategy?
  failFast := arguments.contains .failFast
  files := (arguments.filterMap Argument.file?).reverse

theorem Reading.ofArguments_append (arguments : List Argument) (argument : Argument) :
    Reading.ofArguments (arguments ++ [argument]) =
      { project := (Reading.ofArguments arguments).project.or argument.project?
        strategy := (Reading.ofArguments arguments).strategy.or argument.strategy?
        failFast := (Reading.ofArguments arguments).failFast || decide (argument = .failFast)
        files := argument.file?.toList ++ (Reading.ofArguments arguments).files } := by
  have hfile : ([argument].filterMap Argument.file?).reverse = argument.file?.toList := by
    cases argument <;> rfl
  simp only [Reading.ofArguments, List.findSome?_append, List.findSome?_singleton,
    List.contains_eq_any_beq, List.any_append, List.any_cons, List.any_nil, Bool.or_false,
    List.filterMap_append, List.reverse_append, hfile]
  rw [BEq.comm, beq_eq_decide]

-- The option that an argument gives tells which field it sets.
theorem option?_eq_some_iff (argument : Argument) :
    (argument.option? = some "--project" ↔ argument.project?.isSome = true) ∧
      (argument.option? = some "--strategy" ↔ argument.strategy?.isSome = true) ∧
      (argument.option? = some "--fail-fast" ↔ argument = .failFast) := by
  cases argument <;> simp [Argument.option?, Argument.project?, Argument.strategy?]

theorem mem_filterMap_option?_iff (arguments : List Argument) :
    ("--project" ∈ arguments.filterMap Argument.option? ↔
        (Reading.ofArguments arguments).project.isSome = true) ∧
      ("--strategy" ∈ arguments.filterMap Argument.option? ↔
        (Reading.ofArguments arguments).strategy.isSome = true) ∧
      ("--fail-fast" ∈ arguments.filterMap Argument.option? ↔
        (Reading.ofArguments arguments).failFast = true) := by
  simp only [Reading.ofArguments, List.mem_filterMap, List.findSome?_isSome_iff,
    List.contains_iff_mem, option?_eq_some_iff, exists_eq_right, and_self]

/-- An argument may follow others unless its option is one of theirs. -/
theorem Reading.add?_eq_some_iff {arguments : List Argument} :
    (Reading.ofArguments arguments).add? argument = some after ↔
      (∀ name ∈ argument.option?, name ∉ arguments.filterMap Argument.option?) ∧
        Reading.ofArguments (arguments ++ [argument]) = after := by
  rcases mem_filterMap_option?_iff arguments with ⟨hproject, hstrategy, hfailFast⟩
  -- From here on it only matters which of the fields are set.
  rw [Reading.ofArguments_append]
  generalize Reading.ofArguments arguments = reading at hproject hstrategy hfailFast ⊢
  cases argument with
  | project joined value =>
      simp only [Argument.option?, Option.mem_some_iff, forall_eq', hproject]
      cases hset : reading.project <;>
        simp [Reading.add?, hset, Argument.project?, Argument.strategy?, Argument.file?]
  | strategy joined choice =>
      simp only [Argument.option?, Option.mem_some_iff, forall_eq', hstrategy]
      cases hset : reading.strategy <;>
        simp [Reading.add?, hset, Argument.project?, Argument.strategy?, Argument.file?]
  | failFast =>
      simp only [Argument.option?, Option.mem_some_iff, forall_eq', hfailFast]
      cases hset : reading.failFast <;>
        simp [Reading.add?, hset, Argument.project?, Argument.strategy?, Argument.file?]
  | file path =>
      simp [Reading.add?, Argument.option?, Argument.project?, Argument.strategy?, Argument.file?]

/-- What has been read after arguments of which no option comes twice. -/
theorem foldlM_add?_eq_some_iff {arguments : List Argument} :
    arguments.foldlM Reading.add? {} = some after ↔
      (arguments.filterMap Argument.option?).Nodup ∧ Reading.ofArguments arguments = after := by
  -- The last argument is the one that is added to all others.
  induction arguments using List.reverseRecOn generalizing after with
  | nil => simp [Reading.ofArguments]
  | append_singleton arguments argument ih =>
      have hnodup : ((arguments ++ [argument]).filterMap Argument.option?).Nodup ↔
          (arguments.filterMap Argument.option?).Nodup ∧
            ∀ name ∈ argument.option?, name ∉ arguments.filterMap Argument.option? := by
        rw [List.filterMap_append, List.filterMap_cons, List.filterMap_nil]
        cases argument.option? with
        | none => simp
        | some name =>
            rw [List.perm_append_comm.nodup_iff, List.singleton_append, List.nodup_cons, and_comm]
            simp only [Option.mem_some_iff, forall_eq']
      simp only [List.foldlM_append, List.foldlM_cons, List.foldlM_nil, bind_pure,
        Option.bind_eq_bind, Option.bind_eq_some_iff, ih, hnodup]
      constructor
      · intro hadd
        rcases hadd with ⟨before, ⟨honce, rfl⟩, hadd⟩
        rcases Reading.add?_eq_some_iff.mp hadd with ⟨hnew, hafter⟩
        exact ⟨⟨honce, hnew⟩, hafter⟩
      · intro hlist
        rcases hlist with ⟨⟨honce, hnew⟩, hafter⟩
        exact ⟨_, ⟨honce, rfl⟩, Reading.add?_eq_some_iff.mpr ⟨hnew, hafter⟩⟩

theorem ofWords_flatMap_words {arguments : List Argument} {rest : List String}
    (hspelled : ∀ argument ∈ arguments, argument.Spelled)
    (hadd : arguments.foldlM Reading.add? reading = some after) :
    ofWords reading (arguments.flatMap Argument.words ++ rest) = ofWords after rest := by
  induction arguments generalizing reading with
  | nil =>
      rcases Option.some.inj hadd with rfl
      rfl
  | cons argument arguments ih =>
      rw [List.foldlM_cons, Option.bind_eq_bind, Option.bind_eq_some_iff] at hadd
      rcases hadd with ⟨next, hnext, hadd⟩
      rw [List.flatMap_cons, List.append_assoc,
        ofWords_append (hspelled argument List.mem_cons_self) hnext]
      exact ih (fun other hmem => hspelled other (List.mem_cons_of_mem _ hmem)) hadd

-- The files read so far are kept in reverse, so those that follow come behind.
theorem ofFiles_eq_run_iff {files : List String} {invocation : Invocation} :
    ofFiles reading files = .run invocation ↔
      (∀ file ∈ files, file ≠ "") ∧ reading.files.reverse ++ files ≠ [] ∧
        invocation =
          { project := reading.project.getD ""
            strategy := reading.strategy.join
            failFast := reading.failFast
            files := reading.files.reverse ++ files } := by
  induction files generalizing reading with
  | nil =>
      by_cases hnone : reading.files = []
      · simp [ofFiles, Reading.finish, hnone]
      · simp [ofFiles, Reading.finish, hnone, eq_comm (a := invocation)]
  | cons file files ih =>
      rw [ofFiles, Reading.addFile?]
      by_cases hempty : file = ""
      · simp [hempty]
      · simp [hempty, ih]

-- An option that takes a value makes up an argument with it, whichever of the two it is.
theorem exists_argument_of_setOption? (hset : reading.setOption? name value = some after)
    (joined : Bool) (hvalue : joined = false → isOption value = false) :
    ∃ argument : Argument, argument.words = Argument.optionWords name value joined ∧
      argument.Spelled ∧ reading.add? argument = some after := by
  unfold Reading.setOption? at hset
  split at hset
  · exact ⟨.project joined value, rfl, hvalue, hset⟩
  · rcases hchoice : strategyNamed? value with none | choice
    · simp [hchoice] at hset
    · refine ⟨.strategy joined choice, ?_, trivial, ?_⟩
      · rw [Argument.words, ← strategyNamed?_eq_some_iff.mp hchoice]
      · simpa [hchoice, Reading.add?] using hset
  · cases hset

/-- The words are those of arguments, each of which may follow on what has been
read, and they say what to do. -/
def Reading.Leads (reading : Reading) (words : List String) (invocation : Invocation) : Prop :=
  ∃ list : ArgumentList, list.words = words ∧ (∀ argument ∈ list.arguments, argument.Spelled) ∧
    ∃ after, list.arguments.foldlM Reading.add? reading = some after ∧
      ofFiles after (list.behind.getD []) = .run invocation

theorem Reading.Leads.cons {rest : List String} {invocation : Invocation}
    (hleads : after.Leads rest invocation) (hspelled : argument.Spelled)
    (hadd : reading.add? argument = some after) :
    reading.Leads (argument.words ++ rest) invocation := by
  rcases hleads with ⟨⟨arguments, behind⟩, hwords, hall, last, hlast, hfiles⟩
  refine ⟨⟨argument :: arguments, behind⟩, ?_, ?_, last, ?_, hfiles⟩
  · rw [← hwords]
    simp [ArgumentList.words]
  · exact List.forall_mem_cons.mpr ⟨hspelled, hall⟩
  · rw [List.foldlM_cons, hadd]
    exact hlast

/-- Words that are read to the end are the words of arguments. -/
theorem leads_of_ofWords {words : List String} {invocation : Invocation}
    (h : ofWords reading words = .run invocation) : reading.Leads words invocation := by
  -- Only the cases that go on reading are left; in the others nothing is to be done.
  fun_induction ofWords reading words with
  | case1 reading => exact ⟨⟨[], none⟩, rfl, by simp, reading, rfl, h⟩
  | case2 reading files => exact ⟨⟨[], some files⟩, rfl, by simp, reading, rfl, h⟩
  | case3 reading path rest hne hfile next hnext ih =>
      rw [Reading.addFile?, Option.ite_none_left_eq_some] at hnext
      have hspelled : (Argument.file path).Spelled :=
        ⟨by simpa using hnext.1, by simpa using hfile⟩
      exact (ih h).cons hspelled hnext.2
  | case5 reading word rest hne hoption hlong =>
      unfold ofLetters at h
      split at h <;> cases h
  | case6 reading word rest hne hoption hlong name value hsplit next hset ih =>
      rcases exists_argument_of_setOption? hset true (fun hfalse => by cases hfalse) with
        ⟨argument, hwords, hspelled, hadd⟩
      have hleads := (ih h).cons hspelled hadd
      rw [hwords, Argument.optionWords, if_pos rfl,
        ← (eq_of_splitAtEquals word).2 name value hsplit] at hleads
      exact hleads
  | case11 reading word rest hne hoption hlong hsplit hfirst ih =>
      have hadd : reading.add? .failFast = some { reading with failFast := true } := by
        rw [Reading.add?, if_neg hfirst]
      have hspelled : Argument.failFast.Spelled := trivial
      have hleads := (ih h).cons hspelled hadd
      rw [(eq_of_splitAtEquals word).1 _ hsplit]
      exact hleads
  | case14 reading word hne hoption hlong name hversion hhelp hfail hsplit value rest hvalue next
      hset ih =>
      rcases exists_argument_of_setOption? hset false (fun _ => by simpa using hvalue) with
        ⟨argument, hwords, hspelled, hadd⟩
      have hleads := (ih h).cons hspelled hadd
      rw [hwords] at hleads
      rw [(eq_of_splitAtEquals word).1 _ hsplit]
      exact hleads
  | _ => cases h

theorem ofFiles_ofArguments_eq_run_iff {list : ArgumentList} {invocation : Invocation} :
    ofFiles (Reading.ofArguments list.arguments) (list.behind.getD []) = .run invocation ↔
      (∀ file ∈ list.behind.getD [], file ≠ "") ∧ list.files ≠ [] ∧
        list.invocation = invocation := by
  rw [ofFiles_eq_run_iff, eq_comm (a := invocation)]
  simp only [Reading.ofArguments, List.reverse_reverse]
  rfl

/-- Well-formed words are read as what the arguments say. -/
theorem ofArguments_words {list : ArgumentList} (hformed : list.WellFormed) :
    ofArguments list.words = .run list.invocation := by
  have hfiles := ofFiles_ofArguments_eq_run_iff.mpr ⟨hformed.named, hformed.filed, rfl⟩
  rw [ofArguments, ArgumentList.words, ofWords_flatMap_words hformed.spelled
    (foldlM_add?_eq_some_iff.mpr ⟨hformed.once, rfl⟩), ← hfiles]
  cases list.behind with
  | none => rfl
  | some files => rw [ofWords, if_pos rfl, Option.getD_some]

/-- The words that ask for files to be chunked are the well-formed ones, and they
ask for what their arguments say. -/
theorem ofArguments_eq_run_iff {words : List String} {invocation : Invocation} :
    ofArguments words = .run invocation ↔
      ∃ list : ArgumentList, list.WellFormed ∧ list.words = words ∧
        list.invocation = invocation := by
  constructor
  · intro h
    rcases leads_of_ofWords h with ⟨list, hwords, hspelled, after, hadd, hfiles⟩
    rcases foldlM_add?_eq_some_iff.mp hadd with ⟨honce, rfl⟩
    rcases ofFiles_ofArguments_eq_run_iff.mp hfiles with ⟨hnamed, hfiled, hinvocation⟩
    exact ⟨list, ⟨hspelled, honce, hnamed, hfiled⟩, hwords, hinvocation⟩
  · intro h
    rcases h with ⟨list, hformed, rfl, rfl⟩
    exact ofArguments_words hformed

end Request

end Chunking
