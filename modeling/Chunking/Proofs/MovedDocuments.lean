import Chunking.Proofs.DeclaredNames
import Chunking.Proofs.ReindexPlan
import Mathlib.Data.List.Basic

/-!
# Documents that are moved

What becomes of a document depends on its path through the file name alone. So a
document can be moved to another directory, and everything about it stays the same
but for the path that its records carry. A directory may have the name of a source
file, with a dot and an extension, and it has no say either.

The names of a path are what stands between its slashes, and a path falls into two
at each of them. That is why the names behind the last directory can be looked at on
their own, whatever the directories are. What follows the file name may be slashes
and single dots, which are no names.

Of the file name, in turn, only the extension counts for how the document is split,
and only up to the case of its letters.

## Main definitions

* `IsFileName`: A name that a file can have in a directory.
* `OnlySlashes`: Slashes behind a file name, some with a dot behind.
* `CaseOfExtension`: Two names that differ in the case of their extensions.
* `Document.at`: A document in a directory.
* `PreparedDocument.movedTo`: The records at another path.

## Theorems

* `fileName_at`: The file name of a document in a directory.
* `prepareWith_at`: What is made of a document that is moved.
* `CaseOfExtension.ofFileName?_eq`: The language of a file that is renamed.
* `prepare_congr`: What the language and the content of a document decide.
* `prepare_of_moved`: Documents that are moved and renamed.
-/

namespace Chunking

/-- A file in a directory can have this name. -/
def IsFileName (name : String) : Prop :=
  name ≠ "" ∧ '/' ∉ name.toList ∧ name ≠ "." ∧ name ≠ ".."

/-- Slashes, some of them with a dot behind. -/
inductive OnlySlashes : List Char → Prop
  | nothing : OnlySlashes []
  | slash {rest : List Char} (h : OnlySlashes rest) : OnlySlashes ('/' :: rest)
  | dot {rest : List Char} (h : OnlySlashes rest) : OnlySlashes ('/' :: '.' :: rest)

/-- The names differ at most in the case of the ASCII letters behind the last dot. -/
def CaseOfExtension (name other : String) : Prop :=
  ∃ stem extension extension', name.toList = stem ++ '.' :: extension ∧
    other.toList = stem ++ '.' :: extension' ∧ '.' ∉ extension ∧
      extension.map Char.toLower = extension'.map Char.toLower

/-- A document of a project that has a name in a directory, perhaps with slashes
behind. -/
def Document.at (directory name slashes project content : String) : Document where
  sourcePath := directory ++ "/" ++ name ++ slashes
  project := project
  content := content

/-- The same records for another path, with other identifiers. -/
def PreparedDocument.movedTo (prepared : PreparedDocument) (path : String) (ids : Nat → Uuid) :
    PreparedDocument :=
  { prepared with
    sourcePath := path
    records := prepared.records.mapIdx fun position record =>
      { record with id := ids position, sourcePath := path } }

/-! ## File names -/

/-- The names between the slashes of a text. -/
def namesIn (path : List Char) : List String :=
  ((splitAtSlashes path).map String.ofList).filter fun name => name != "" && name != "."

/-- A path falls into two at a slash. -/
theorem namesIn_append_slash (first second : List Char) :
    namesIn (first ++ '/' :: second) = namesIn first ++ namesIn second := by
  unfold namesIn splitAtSlashes List.splitOn
  rw [List.splitOnP_append_cons _ _ (by decide), List.map_append, List.filter_append]

-- Both kinds of pieces, nothing and a dot, are no names.
theorem namesIn_append_of_onlySlashes {slashes : List Char} (h : OnlySlashes slashes)
    (path : List Char) : namesIn (path ++ slashes) = namesIn path := by
  induction h generalizing path with
  | nothing => rw [List.append_nil]
  | slash _ ih =>
      have hnone := ih []
      rw [List.nil_append] at hnone
      rw [namesIn_append_slash, hnone]
      exact List.append_nil _
  | dot _ ih =>
      have hdot := ih ['.']
      rw [List.singleton_append] at hdot
      rw [namesIn_append_slash, hdot]
      exact List.append_nil _

theorem namesIn_of_isFileName {name : String} (h : IsFileName name) :
    namesIn name.toList = [name] := by
  rcases h with ⟨hempty, hslash, hdot, -⟩
  have hsplit : splitAtSlashes name.toList = [name.toList] := by
    refine List.splitOnP_eq_singleton fun c hc => ?_
    rw [beq_eq_false_iff_ne]
    rintro rfl
    exact hslash hc
  unfold namesIn
  rw [hsplit, List.map_singleton, String.ofList_toList]
  simp [hempty, hdot]

section Place

variable {name slashes : String} (hname : IsFileName name) (hslashes : OnlySlashes slashes.toList)
  (directory project content : String)

include hname hslashes

/-- The file name of a document in a directory is its name there. -/
theorem fileName_at :
    (Document.at directory name slashes project content).fileName = name := by
  -- Whatever names the directory has, that of the file is the last.
  have hpath : pathNames (directory ++ "/" ++ name ++ slashes) =
      namesIn directory.toList ++ [name] := by
    change namesIn (directory ++ "/" ++ name ++ slashes).toList = _
    have htext : (directory ++ "/" ++ name ++ slashes).toList =
        (directory.toList ++ '/' :: name.toList) ++ slashes.toList := by
      simp
    rw [htext, namesIn_append_of_onlySlashes hslashes, namesIn_append_slash,
      namesIn_of_isFileName hname]
  unfold Document.fileName fileNameOfPath Document.at
  rw [hpath, List.getLast?_concat]
  -- A double dot would stand for the whole path, but it is no file name.
  split
  · contradiction
  · rename_i hlast
    exact absurd (Option.some.inj hlast) hname.2.2.2
  · rename_i hlast
    exact (Option.some.inj hlast).symm

end Place

/-! ## Preparing -/

section Prepared

variable {name other slashes slashes' : String} (hname : IsFileName name)
  (hslashes : OnlySlashes slashes.toList) (hslashes' : OnlySlashes slashes'.toList)
  (config : Config) (strategy : Strategy) (ids ids' : Nat → Uuid)
  (directory directory' project content : String)

include hname hslashes hslashes'

/-- A document that is moved has the same records, but for the path. -/
theorem prepareWith_at :
    prepareWith config strategy ids' (Document.at directory' name slashes' project content) =
      (prepareWith config strategy ids
          (Document.at directory name slashes project content)).movedTo
        (Document.at directory' name slashes' project content).sourcePath ids' := by
  have hfile := fileName_at hname hslashes directory project content
  have hfile' := fileName_at hname hslashes' directory' project content
  unfold prepareWith PreparedDocument.movedTo
  rw [hfile, hfile', List.mapIdx_mapIdx]
  rfl

end Prepared

section Fields

variable {config : Config} {strategy : Strategy} {ids : Nat → Uuid} {document : Document}

theorem strategy_prepareWith : (prepareWith config strategy ids document).strategy = strategy := by
  unfold prepareWith
  rfl

theorem metadata_prepareWith : (prepareWith config strategy ids document).metadata =
    metadataOf? document.fileName document.content := by
  unfold prepareWith
  rfl

/-- The metadata of a document bears its file name. -/
theorem fileName_of_mem_metadata {metadata : CodeMetadata}
    (h : metadata ∈ (prepareWith config strategy ids document).metadata) :
    metadata.fileName = document.fileName := by
  rw [metadata_prepareWith] at h
  rcases Option.map_eq_some_iff.mp h with ⟨family, -, rfl⟩
  split <;> rfl

end Fields

/-! ## Extensions -/

/-- The extension is what comes behind the last dot, in small letters. -/
theorem extension?_of_append {name : String} {stem extension : List Char}
    (h : name.toList = stem ++ '.' :: extension) (hdot : '.' ∉ extension) :
    extension? name = some (String.ofList ('.' :: extension.map Char.toLower)) := by
  have hfree : ∀ c ∈ extension.reverse, (c != '.') = true := by
    intro c hc
    rw [bne_iff_ne]
    rintro rfl
    exact hdot (List.mem_reverse.mp hc)
  -- It is looked for from the end.
  have hback : (stem ++ '.' :: extension).reverse.takeWhile (· != '.') = extension.reverse := by
    rw [List.reverse_append, List.reverse_cons, List.append_assoc,
      List.takeWhile_append_of_pos hfree, List.singleton_append,
      List.takeWhile_cons_of_neg (by decide), List.append_nil]
  unfold extension?
  rw [h, if_pos (by simp), hback, List.reverse_reverse]
  rfl

/-- A capital letter in lower case is a small letter. -/
theorem isLower_toLower_of_isCapital {c : Char} (h : isCapital c = true) :
    c.toLower.isLower = true := by
  have hrange := isCapital_iff.mp h
  have hlower : c.toLower.toNat = c.toNat + 32 := by
    unfold Char.toLower
    rw [dif_pos (of_decide_eq_true h)]
    change (c.val + 32).toNat = c.val.toNat + 32
    rw [UInt32.toNat_add]
    change (c.toNat + 32) % 4294967296 = c.toNat + 32
    omega
  rw [isLower_iff, hlower]
  omega

-- What is no small letter in lower case was no letter before.
theorem eq_of_toLower_eq {c d : Char} (hc : c.isLower = false) (h : d.toLower = c) : d = c := by
  by_cases hcapital : isCapital d = true
  · rw [← h, isLower_toLower_of_isCapital hcapital] at hc
    cases hc
  · unfold Char.toLower at h
    rw [dif_neg fun hrange => hcapital (decide_eq_true hrange)] at h
    exact h

-- So a change of case brings in no dot and no slash.
theorem not_mem_of_map_toLower_eq {c : Char} (hsame : c.toLower = c) (hlower : c.isLower = false)
    {chars chars' : List Char} (h : chars.map Char.toLower = chars'.map Char.toLower)
    (hmem : c ∉ chars) : c ∉ chars' := by
  intro hmem'
  have hmap : c ∈ chars'.map Char.toLower := List.mem_map.mpr ⟨c, hmem', hsame⟩
  rw [← h] at hmap
  rcases List.mem_map.mp hmap with ⟨d, hd, hdc⟩
  rw [eq_of_toLower_eq hlower hdc] at hd
  exact hmem hd

namespace CaseOfExtension

variable {name other : String} (h : CaseOfExtension name other)

include h

theorem extension?_eq : extension? other = extension? name := by
  rcases h with ⟨stem, extension, extension', hname, hother, hdot, hlower⟩
  have hdot' := not_mem_of_map_toLower_eq (by decide) (by decide) hlower hdot
  rw [extension?_of_append hname hdot, extension?_of_append hother hdot', hlower]

/-- The language of a file does not depend on the case of its extension. -/
theorem ofFileName?_eq : Language.ofFileName? other = Language.ofFileName? name := by
  unfold Language.ofFileName?
  rw [h.extension?_eq]

-- A name of nothing but dots has nothing behind the last of them.
theorem eq_of_forall_dot (hdots : ∀ c ∈ other.toList, c = '.') : other = name := by
  rcases h with ⟨stem, extension, extension', hname, hother, hdot, hlower⟩
  have hempty : extension' = [] := by
    have hdot' := not_mem_of_map_toLower_eq (by decide) (by decide) hlower hdot
    rw [List.eq_nil_iff_forall_not_mem]
    intro c hc
    have hc' : c = '.' := hdots c (by simp [hother, hc])
    exact hdot' (hc' ▸ hc)
  have hempty' : extension = [] := by
    rw [hempty] at hlower
    exact List.map_eq_nil_iff.mp hlower
  rw [← String.toList_inj, hname, hother, hempty, hempty']

/-- A name stays the name of a file. -/
theorem isFileName (hname : IsFileName name) : IsFileName other := by
  have hdots (dots : String) (h' : ∀ c ∈ dots.toList, c = '.') (hne : name ≠ dots) :
      other ≠ dots := by
    intro hother
    have hsame := h.eq_of_forall_dot (hother ▸ h')
    exact hne (hsame ▸ hother)
  refine ⟨hdots "" (by decide) hname.1, ?_, hdots "." (by decide) hname.2.2.1,
    hdots ".." (by decide) hname.2.2.2⟩
  rcases h with ⟨stem, extension, extension', htext, hother, -, hlower⟩
  have hslash := hname.2.1
  rw [htext, List.mem_append, List.mem_cons, not_or, not_or] at hslash
  rw [hother, List.mem_append, List.mem_cons, not_or, not_or]
  exact ⟨hslash.1, hslash.2.1,
    not_mem_of_map_toLower_eq (by decide) (by decide) hlower hslash.2.2⟩

end CaseOfExtension

/-! ## Files of one language -/

/-- The three sets of names in the metadata of a file. -/
def CodeMetadata.names (metadata : CodeMetadata) : ExtractedNames where
  classes := metadata.classNames
  properties := metadata.propertyNames
  types := metadata.referencedTypes

section Language

variable {fileName fileName' : String}
  (h : Language.ofFileName? fileName' = Language.ofFileName? fileName)

include h

/-! All that depends on a file name, but for the name itself, depends on the language of it. -/

theorem isCodeFile_congr : isCodeFile fileName' = isCodeFile fileName := by
  unfold isCodeFile
  rw [h]

theorem ofFileName_congr : Strategy.ofFileName fileName' = Strategy.ofFileName fileName := by
  unfold Strategy.ofFileName
  rw [isCodeFile_congr h]

theorem chunk_congr (chunker : Chunker) (content : String) :
    chunker.chunk fileName' content = chunker.chunk fileName content := by
  cases chunker with
  | code options =>
      unfold Chunker.chunk chunkCode
      rw [isCodeFile_congr h]
  | text options => rfl

theorem map_names_metadataOf?_congr (content : String) :
    (metadataOf? fileName' content).map CodeMetadata.names =
      (metadataOf? fileName content).map CodeMetadata.names := by
  unfold metadataOf? familyOf?
  rw [h, Option.map_map, Option.map_map]
  congr 1
  funext family
  dsimp only [Function.comp_apply]
  split <;> rfl

end Language

/-! ## Moving and renaming -/

section Congr

variable (config : Config) (ids ids' : Nat → Uuid) {document other : Document}
  (hlanguage : Language.ofFileName? other.fileName = Language.ofFileName? document.fileName)
  (hcontent : other.content = document.content)

include hlanguage hcontent

/-- What is made of a document by its language and its content alone. -/
theorem prepare_congr :
    (prepare config ids' other).strategy = (prepare config ids document).strategy ∧
      (prepare config ids' other).chunks = (prepare config ids document).chunks ∧
      (prepare config ids' other).metadata.map CodeMetadata.names =
        (prepare config ids document).metadata.map CodeMetadata.names := by
  have hstrategy := ofFileName_congr hlanguage
  unfold prepare
  refine ⟨?_, ?_, ?_⟩
  · rw [strategy_prepareWith, strategy_prepareWith, hstrategy]
  · rw [chunks_prepareWith, chunks_prepareWith, hstrategy, hcontent]
    exact chunk_congr hlanguage _ _
  · rw [metadata_prepareWith, metadata_prepareWith, hcontent]
    exact map_names_metadataOf?_congr hlanguage _

/-- Against the texts of the one document nothing of the other is left to embed. -/
theorem isUnchanged_of_congr :
    (planReindex (prepare config ids' other) (prepare config ids document).texts).isUnchanged =
      true := by
  -- The same chunks have the same texts, and a plan looks only at their hashes.
  have htexts : (prepare config ids' other).texts = (prepare config ids document).texts := by
    have hchunks := (prepare_congr config ids ids' hlanguage hcontent).2.1
    simpa [PreparedDocument.chunks, PreparedDocument.texts, Function.comp_def] using
      congrArg (List.map Chunk.text) hchunks
  rw [isUnchanged_iff, ← htexts]
  unfold prepare
  rw [chunkHashes_prepareWith]
  exact List.Subset.refl _

end Congr

/-- A document that is moved to another directory, whatever the two directories are
called, has its file name, and is prepared as before but for the path and the
identifiers of its records. A plan against its former texts leaves nothing to embed.
If the case of its extension is changed as well, its strategy, its chunks and the
names found in it are still the same. -/
theorem prepare_of_moved {name slashes slashes' : String} (hname : IsFileName name)
    (hslashes : OnlySlashes slashes.toList) (hslashes' : OnlySlashes slashes'.toList)
    (config : Config) (ids ids' : Nat → Uuid) (directory directory' project content : String) :
    let document := Document.at directory name slashes project content
    let moved := Document.at directory' name slashes' project content
    let prepared := prepare config ids document
    document.fileName = name ∧
      (∀ metadata ∈ prepared.metadata, metadata.fileName = name) ∧
      prepare config ids' moved = prepared.movedTo moved.sourcePath ids' ∧
      (planReindex (prepare config ids' moved) prepared.texts).isUnchanged = true ∧
      ∀ other, CaseOfExtension name other →
        let renamed := prepare config ids' (Document.at directory' other slashes' project content)
        renamed.strategy = prepared.strategy ∧ renamed.chunks = prepared.chunks ∧
          renamed.metadata.map CodeMetadata.names = prepared.metadata.map CodeMetadata.names ∧
          (planReindex renamed prepared.texts).isUnchanged = true := by
  intro document moved prepared
  have hfile : document.fileName = name := fileName_at hname hslashes directory project content
  have hfile' : moved.fileName = name := fileName_at hname hslashes' directory' project content
  have hmoved : prepare config ids' moved = prepared.movedTo moved.sourcePath ids' := by
    unfold prepared prepare
    rw [hfile, hfile']
    exact prepareWith_at hname hslashes hslashes' config _ ids ids' directory directory' project
      content
  have hlanguage : Language.ofFileName? moved.fileName =
      Language.ofFileName? document.fileName := by
    rw [hfile, hfile']
  refine ⟨hfile, fun metadata hmem => ?_, hmoved,
    isUnchanged_of_congr config ids ids' hlanguage rfl, fun other hcase => ?_⟩
  · rw [fileName_of_mem_metadata hmem, hfile]
  · have hrenamed : Language.ofFileName?
        (Document.at directory' other slashes' project content).fileName =
          Language.ofFileName? document.fileName := by
      rw [fileName_at (hcase.isFileName hname) hslashes', hfile, hcase.ofFileName?_eq]
    rcases prepare_congr config ids ids' hrenamed rfl with ⟨hstrategy, hchunks, hnames⟩
    exact ⟨hstrategy, hchunks, hnames, isUnchanged_of_congr config ids ids' hrenamed rfl⟩

/-- From a directory that is called like a source file to the root, where slashes and
a dot follow, and with an extension in small letters. -/
theorem prepare_of_moved_source_directory :
    let ids : Nat → Uuid := fun position => ⟨position⟩
    let ids' : Nat → Uuid := fun position => ⟨position + 1⟩
    let document := Document.at "lib/Order.cs" "Order.d.TS" "" "shop" "class Order \x7b\x7d"
    let moved := Document.at "" "Order.d.TS" "//." "shop" "class Order \x7b\x7d"
    let renamed := Document.at "" "Order.d.ts" "//." "shop" "class Order \x7b\x7d"
    document.fileName = "Order.d.TS" ∧
      prepare {} ids' moved = (prepare {} ids document).movedTo "/Order.d.TS//." ids' ∧
      CaseOfExtension "Order.d.TS" "Order.d.ts" ∧
      (prepare {} ids' renamed).chunks = (prepare {} ids document).chunks := by
  intro ids ids' document moved renamed
  have hname : IsFileName "Order.d.TS" := by
    unfold IsFileName
    decide
  have hcase : CaseOfExtension "Order.d.TS" "Order.d.ts" :=
    ⟨"Order.d".toList, ['T', 'S'], ['t', 's'], rfl, rfl, by decide, by decide⟩
  rcases @prepare_of_moved "Order.d.TS" "" "//." hname .nothing (.slash (.dot .nothing)) {}
    ids ids' "lib/Order.cs" "" "shop" "class Order \x7b\x7d" with
    ⟨hfile, -, hmoved, -, hrenamed⟩
  exact ⟨hfile, hmoved, hcase, (hrenamed _ hcase).2.1⟩

end Chunking
