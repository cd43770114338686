import Chunking.Metadata
import Chunking.Proofs.Boundaries
import Chunking.Proofs.ConstructorTexts
import Chunking.Proofs.Recovery
import Mathlib.Data.List.ReduceOption

/-!
# No slice is invalid

The splitters cut by positions of characters, so a piece can be missing or short but is
never torn. Where a text can only be cut by offsets in bytes, the positions have to be
looked up first, and the run breaks off if one of them has no offset or if a slice is not
valid. `chunkTextSliced?` and `chunkCodeSliced?` are those runs. Each answers nothing as
soon as something is wrong, so to answer at all every slice has to be valid.

They take nothing for granted about where the pieces lie. In particular source code is cut
at what the selection answers, whatever that is: a split behind the end of the text would
have no offset, and one that does not lie after the start of its chunk would keep the run
from ending. The splitter itself would not show either of them, because it takes both for
the end of the text.

A search for brackets cuts off what lies before its start, and that is a slice as well.
`EcmaScript.constructorSitesSliced?` takes these slices on the way to the parts of a
constructor. The slices of the parts themselves are those of `EcmaScript.extract?`.

A slice is not all that could go wrong there, because the count of open brackets has 32
bits. It wraps around, and the slices are valid nonetheless. With checked arithmetic the run
breaks off instead, and that is the only case in which it does.

## Main definitions

* `slicedChunks?`: The chunks at spans.
* `chunkTextSliced?`: The windows over a text.
* `selectedSpans?`: The spans between selected splits.
* `chunkCodeSliced?`: The chunks of a file.
* `searchFrom?`: A search from an offset on.
* `EcmaScript.constructorSitesSliced?`: The constructors of a source.
* `EcmaScript.ParametersFit`: No parameters take the count out of its range.

## Theorems

* `chunkTextSliced?_eq`, `chunkCodeSliced?_eq`: The chunks are those of the splitters.
* `EcmaScript.constructorSitesSliced?_eq`: So are the constructors.
* `EcmaScript.extractBy?_checkedParts?_of_fit`: Checked arithmetic makes no difference.
* `EcmaScript.extractBy?_checkedParts?_of_not_fit`: It breaks off.
* `slices_valid`: No slice is invalid, and nothing breaks off.
-/

namespace Chunking

open Text

/-! ## Chunks -/

/-- The chunks at spans of a text, cut out by the table of its boundaries; nothing if a
slice is not valid. -/
def slicedChunks? (content : String) (spans : List Span) : Option (List Chunk) :=
  let text := content.toList
  (spans.mapM (Span.slice? (boundaries text) text)).map fun pieces =>
    Chunk.ofTexts (pieces.map String.ofList)

/-- The windows over a text; nothing if a slice is not valid. The length of the text is
told by the table of its boundaries. -/
def chunkTextSliced? (options : TextOptions) (content : String) : Option (List Chunk) :=
  let length := (boundaries content.toList).length - 1
  if length ≤ options.threshold.toNat then some (Chunk.whole content)
  else slicedChunks? content (windowsFrom options.frame length 0)

/-- The spans from an offset to the end of a text of `length` characters. Each one ends
where the selection among all candidates says; nothing if that is not after its start. -/
def selectedSpans? (options : CodeOptions) (candidates : List Nat) (length start : Nat) :
    Option (List Span) :=
  if start < length then
    let stop := selectSplit options candidates start length
    if start < stop then
      (selectedSpans? options candidates length stop).map (⟨start, stop⟩ :: ·)
    else none
  else some []
termination_by length - start

/-- The chunks of a file; nothing if a slice is not valid. -/
def chunkCodeSliced? (options : CodeOptions) (fileName content : String) : Option (List Chunk) :=
  let length := content.toList.length
  let candidates := safeSplits content.toList
  if ¬isCodeFile fileName then chunkTextSliced? options.asText content
  else if length ≤ options.threshold.toNat then some (Chunk.whole content)
  else if candidates.length < 2 then chunkTextSliced? options.asText content
  else (selectedSpans? options candidates length 0).bind (slicedChunks? content)

theorem mapM_congr {α β : Type} {f g : α → Option β} {l : List α} (h : ∀ a ∈ l, f a = g a) :
    l.mapM f = l.mapM g := by
  induction l with
  | nil => rfl
  | cons a l ih =>
      rw [List.mapM_cons, List.mapM_cons, h a List.mem_cons_self,
        ih fun b hb => h b (List.mem_cons_of_mem a hb)]

theorem mapM_eq_some_map {α β : Type} {f : α → Option β} {g : α → β} {l : List α}
    (h : ∀ a ∈ l, f a = some (g a)) : l.mapM f = some (l.map g) := by
  induction l with
  | nil => rfl
  | cons a l ih =>
      rw [List.mapM_cons, h a List.mem_cons_self, ih fun b hb => h b (List.mem_cons_of_mem a hb)]
      rfl

/-- Spans that cover a text are cut out of it. -/
theorem slicedChunks?_of_covers {overlap start : Nat} {content : String} {spans : List Span}
    (h : Covers overlap content.toList.length start spans) :
    slicedChunks? content spans = some (Chunk.ofTexts (Span.cutAll content spans)) := by
  have hslice (span : Span) (hspan : span ∈ spans) :
      span.slice? (boundaries content.toList) content.toList = some (span.cut content.toList) :=
    Span.slice?_boundaries (h.start_le_stop span hspan) (h.stop_le span hspan)
  rw [slicedChunks?, mapM_eq_some_map hslice, Option.map_some, Span.cutAll_eq, List.map_map]
  rfl

theorem ofTexts_cutAll_whole (content : String) :
    Chunk.ofTexts (Span.cutAll content [⟨0, content.toList.length⟩]) = Chunk.whole content := by
  simp [Span.cutAll_eq, Span.cut, Chunk.ofTexts, Chunk.finalize, Chunk.pending, Chunk.whole]

/-- The windows over a text are cut out of it. -/
theorem chunkTextSliced?_eq (options : TextOptions) (content : String) :
    chunkTextSliced? options content = some (chunkText options content) := by
  rw [chunkTextSliced?, length_boundaries, Nat.add_sub_cancel, chunkText, windowSpans,
    ← String.length_toList]
  split_ifs
  · rw [ofTexts_cutAll_whole]
  · exact slicedChunks?_of_covers (covers_windowsFrom _ _ _ (Nat.zero_le _))

/-- Where the selection ends a chunk is where the splitter does, which leaves behind the
candidates it has passed. -/
theorem selectedSpans?_eq (options : CodeOptions) {all : List Nat} {length : Nat}
    (hselect : ∀ start, start < length →
      start < selectSplit options all start length ∧
        selectSplit options all start length ≤ length)
    (candidates : List Nat) (start : Nat) (hlt : start < length)
    (hpassed : ∀ later, start ≤ later →
      selectSplit options candidates later length = selectSplit options all later length) :
    selectedSpans? options all length start =
      some (codeSpansFrom options candidates length start) := by
  fun_induction codeSpansFrom options candidates length start with
  | case1 candidates start stop hstop ih =>
      have hmore := ih hstop.2 fun later hlater => by
        rw [selectSplit_dropWhile _ _ _ _ _ hlater]
        exact hpassed later (by omega)
      have hsame : selectSplit options all start length = stop :=
        (hpassed start (Nat.le_refl _)).symm
      rw [selectedSpans?, if_pos hlt]
      dsimp only
      rw [hsame, if_pos hstop.1, hmore]
      rfl
  | case2 candidates start stop hstop =>
      have hall := hselect start hlt
      -- The splitter stops here, and the selection has nothing to offer but the end.
      have hsame : selectSplit options all start length = length := by
        have hstart := hpassed start (Nat.le_refl _)
        simp only [stop] at hstop
        omega
      rw [selectedSpans?, if_pos hlt]
      dsimp only
      rw [hsame, if_pos hlt, selectedSpans?, if_neg (Nat.lt_irrefl _)]
      rfl

/-- The chunks of a file are cut out of it. -/
theorem chunkCodeSliced?_eq (options : CodeOptions) (fileName content : String) :
    chunkCodeSliced? options fileName content = some (chunkCode options fileName content) := by
  rw [chunkCodeSliced?, chunkCode]
  by_cases hfile : isCodeFile fileName = true
  · rw [if_neg (not_not.mpr hfile), if_pos hfile]
    -- A long text has two candidates at least, so the windows are not used for it.
    by_cases hlong : options.threshold.toNat < content.toList.length
    · have htwo := two_le_length_safeSplits content.toList
        (List.ne_nil_of_length_pos (Nat.lt_of_le_of_lt (Nat.zero_le _) hlong))
      have hbounds (start : Nat) (hstart : start < content.toList.length) :=
        selectSplit_bounds options ((pairwise_safeSplits content.toList).imp Nat.le_of_lt)
          (fun _ => le_length_of_mem_safeSplits) hstart
      have hspans := selectedSpans?_eq options hbounds (safeSplits content.toList) 0 (by omega)
        fun _ _ => rfl
      have hcovers := covers_codeSpans options content.toList
      rw [codeSpans_of_threshold_lt options content.toList hlong] at hcovers ⊢
      rw [if_neg (Nat.not_le_of_lt hlong), if_neg (Nat.not_lt_of_le htwo), hspans,
        Option.bind_some, slicedChunks?_of_covers hcovers]
    · rw [if_pos (Nat.le_of_not_lt hlong), codeSpans, if_pos (Nat.le_of_not_lt hlong),
        ofTexts_cutAll_whole]
  · rw [if_pos hfile, if_neg hfile, chunkTextSliced?_eq]

/-! ## Constructors -/

/-- What a search finds in all of a text from an offset on; nothing if that is no valid
slice. -/
def searchFrom? {α : Type} (text : List Char) (start : Nat) (search : List Char → α) : Option α :=
  (ByteRange.slice? ⟨start, byteLength text⟩ text).map search

/-- From an offset between characters on, the closing delimiter is searched for. -/
theorem searchFrom?_closeFrom? {text : List Char} {start : Nat} (h : start ∈ boundaries text)
    (opening closing : Char) :
    searchFrom? text start (closeFrom? opening closing 0 start) =
      some (matchingClose? text start opening closing) := by
  rcases mem_boundaries_iff.mp h with ⟨before, after, rfl, rfl⟩
  rw [searchFrom?, slice?_append, matchingClose?, dropBytes?_append]
  rfl

/-- From an offset between characters on, a character is searched for. -/
theorem searchFrom?_findChar? {text : List Char} {start : Nat} (h : start ∈ boundaries text)
    (wanted : Char) :
    searchFrom? text start (findChar? wanted start) = some (findFrom? text start wanted) := by
  rcases mem_boundaries_iff.mp h with ⟨before, after, rfl, rfl⟩
  rw [searchFrom?, slice?_append, findFrom?, dropBytes?_append]
  rfl

/-- The delimiter that closes another starts between characters. -/
theorem mem_boundaries_of_matchingClose? {opening closing : Char} {before rest : List Char}
    {close : Nat} (hne : opening ≠ closing)
    (h : matchingClose? (before ++ opening :: rest) (byteLength before) opening closing =
      some close) : close ∈ boundaries (before ++ opening :: rest) := by
  rcases (matchingClose?_eq_some_iff hne).mp h with ⟨inside, after, rfl, -, rfl⟩
  exact mem_boundaries_iff.mpr ⟨before ++ opening :: inside, closing :: after, by simp, rfl⟩

/-- So does a character that is found. -/
theorem mem_boundaries_of_findFrom? {text : List Char} {start place : Nat} {wanted : Char}
    (h : start ∈ boundaries text) (hplace : findFrom? text start wanted = some place) :
    place ∈ boundaries text := by
  rcases mem_boundaries_iff.mp h with ⟨before, rest, rfl, rfl⟩
  rcases findFrom?_eq_some_iff.mp hplace with ⟨gap, after, rfl, -, rfl⟩
  exact mem_boundaries_iff.mpr ⟨before ++ gap, wanted :: after, by simp, rfl⟩

namespace EcmaScript

/-- The body of a constructor whose list ends at an offset, unless there is none; nothing
if the slice for a search is not valid. -/
def bodySliced? (content : List Char) (closing : Nat) : Option (Option ByteRange) := do
  let some brace ← searchFrom? content closing (findChar? '\x7b' closing) | return none
  let close? ← searchFrom? content brace (closeFrom? '\x7b' '\x7d' 0 brace)
  return some ⟨brace, close?.getD (byteLength content)⟩

/-- The parts of the constructor whose head was found, unless its list does not end;
nothing if the slice for a search is not valid, or if the head has no end to step back
from. -/
def siteSliced? (content : List Char) (found : Match) : Option (Option ConstructorSite) :=
  match found.stop.offset with
  | 0 => none
  | opening + 1 => do
    let some closing ← searchFrom? content opening (closeFrom? '(' ')' 0 opening) | return none
    let body ← bodySliced? content closing
    return some ⟨⟨opening + 1, closing⟩, body⟩

/-- The constructors of a text; nothing if the slice for a search is not valid. -/
def constructorSitesSliced? (content : List Char) : Option (List ConstructorSite) :=
  ((constructorHead.findAll content).mapM (siteSliced? content)).map List.reduceOption

variable {content : List Char}

/-- The body of a constructor is found by valid slices. -/
theorem bodySliced?_eq {closing : Nat} (h : closing ∈ boundaries content) :
    bodySliced? content closing = some (bodyFrom? content closing) := by
  rw [bodySliced?, bodyFrom?, searchFrom?_findChar? h]
  cases hbrace : findFrom? content closing '\x7b' with
  | none => rfl
  | some brace =>
      have hstart := mem_boundaries_of_findFrom? h hbrace
      simp [searchFrom?_closeFrom? hstart]

/-- The head of a constructor ends behind a parenthesis. -/
theorem exists_offset_of_mem_constructorHead {found : Match}
    (h : found ∈ constructorHead.findAll content) :
    ∃ before rest, content = before ++ '(' :: rest ∧
      found.stop.offset = byteLength before + 1 := by
  rcases exists_head_of_mem_findAll h with ⟨before, blanks, rest, rfl, -, -, hback⟩
  refine ⟨before ++ ("constructor".toList ++ blanks), rest, by simp, ?_⟩
  -- The word has a length, so there is something to step back over.
  have hword : byteLength "constructor".toList = 11 := by
    decide
  have hlength : 11 ≤ byteLength (before ++ ("constructor".toList ++ blanks)) := by
    rw [byteLength_append, byteLength_append, hword]
    omega
  omega

/-- The parts of a constructor are found by valid slices. -/
theorem siteSliced?_eq {found : Match} (h : found ∈ constructorHead.findAll content) :
    siteSliced? content found = some (siteOf? content found) := by
  rcases exists_offset_of_mem_constructorHead h with ⟨before, rest, rfl, hoffset⟩
  -- The searches start at the parenthesis, and at what the one before has found.
  have hopening : byteLength before ∈ boundaries (before ++ '(' :: rest) :=
    mem_boundaries_iff.mpr ⟨before, '(' :: rest, rfl, rfl⟩
  have hsite : siteOf? (before ++ '(' :: rest) found =
      (matchingClose? (before ++ '(' :: rest) (byteLength before) '(' ')').map fun closing =>
        ⟨⟨byteLength before + 1, closing⟩, bodyFrom? (before ++ '(' :: rest) closing⟩ := by
    rw [siteOf?, hoffset]
    rfl
  rw [siteSliced?, hoffset, hsite]
  dsimp only
  rw [searchFrom?_closeFrom? hopening]
  cases hclose : matchingClose? (before ++ '(' :: rest) (byteLength before) '(' ')' with
  | none => rfl
  | some closing =>
      have hclosing := mem_boundaries_of_matchingClose? (by decide) hclose
      simp [bodySliced?_eq hclosing]

/-- The constructors of a text are found by valid slices. -/
theorem constructorSitesSliced?_eq (content : List Char) :
    constructorSitesSliced? content = some (constructorSites content) := by
  rw [constructorSitesSliced?, mapM_eq_some_map fun found h => siteSliced?_eq h, Option.map_some,
    constructorSites, List.reduceOption, List.filterMap_map]
  rfl

/-! ## Checked arithmetic -/

/-- In no list of parameters do brackets take the count out of its range. -/
def ParametersFit (content : List Char) : Prop :=
  ∀ site ∈ constructorSites content, ∀ inside,
    site.parameters.slice? content = some inside → CountFits 0 inside

/-- Where the count stays in its range it makes no difference whether it is checked. -/
theorem extractBy?_checkedParts?_of_fit (h : ParametersFit content) :
    extractBy? checkedParts? content = extract? content := by
  have hsame (site : ConstructorSite) (hsite : site ∈ constructorSites content) :
      constructorNamesBy? checkedParts? content site = constructorNames? content site := by
    unfold constructorNames? constructorNamesBy?
    cases hslice : site.parameters.slice? content with
    | none => rfl
    | some inside =>
        simp only [Option.bind_eq_bind, Option.bind_some,
          checkedParts?_of_fits (h site hsite inside hslice)]
  have hall : (constructorSites content).mapM (constructorNamesBy? checkedParts? content) =
      (constructorSites content).mapM (constructorNames? content) :=
    mapM_congr hsame
  rw [extract?_eq, ← hall]
  rfl

/-- Where it does not, a checked count breaks off. -/
theorem extractBy?_checkedParts?_of_not_fit (h : ¬ParametersFit content) :
    extractBy? checkedParts? content = none := by
  simp only [ParametersFit, not_forall] at h
  rcases h with ⟨site, hsite, inside, hslice, hfits⟩
  -- One constructor that breaks off is enough, whichever it is.
  have hnone : constructorNamesBy? checkedParts? content site = none := by
    simp [constructorNamesBy?, hslice, checkedParts?_of_not_fits hfits]
  rw [Option.eq_none_iff_forall_ne_some]
  intro names hnames
  rcases Option.bind_eq_some_iff.mp hnames with ⟨constructors, hconstructors, -⟩
  rcases exists_mem_of_mapM hconstructors hsite with ⟨names, -, hnames⟩
  rw [hnone] at hnames
  cases hnames

/-- In a short source the count stays in its range. -/
theorem parametersFit_of_length_lt (h : content.length < 2 ^ 31) : ParametersFit content := by
  intro site hsite inside hslice
  rcases sliceBytes?_eq_some_iff.mp hslice with ⟨first, last, rfl, -⟩
  rw [List.length_append, List.length_append] at h
  exact countFits_of_length_lt (by omega)

end EcmaScript

/-! ## All slices -/

/-- No slice is invalid, whatever the text. The bytes between the offsets for two positions
are the encoding of the characters between them, the offsets are those between characters,
and a range can be cut out exactly if it is valid. With every slice checked, the splitters
answer what they answer without, under all options, and so does the search for
constructors. The parts of a constructor are valid slices as well, whether or not the count
of brackets wraps around, so a source never loses its metadata to a slice. Only if the count
is checked, it loses them where parameters take it out of its range, for which they have to
be at least `2 ^ 31` characters long. -/
theorem slices_valid (content : String) :
    let text := content.toList
    (∀ first last, first ≤ last → last ≤ text.length → ∃ start stop,
      (boundaries text)[first]? = some start ∧ (boundaries text)[last]? = some stop ∧
        content.toByteArray.extract start stop =
          (String.ofList (text.extract first last)).toByteArray) ∧
      (∀ offset, offset ∈ boundaries text ↔ String.Pos.Raw.IsValid content ⟨offset⟩) ∧
      (∀ range : ByteRange, (range.slice? text).isSome = true ↔ range.IsValid text) ∧
      (∀ options, chunkTextSliced? options content = some (chunkText options content)) ∧
      (∀ options fileName,
        chunkCodeSliced? options fileName content = some (chunkCode options fileName content)) ∧
      (∀ range ∈ topLevelParts text, range.IsValid text) ∧
      EcmaScript.constructorSitesSliced? text = some (EcmaScript.constructorSites text) ∧
      (∀ site ∈ EcmaScript.constructorSites text,
        site.parameters.IsValid text ∧ ∀ range ∈ site.body, range.IsValid text) ∧
      (∃ names, EcmaScript.extract? text = some names ∧
        ∀ fileName, familyOf? fileName = some .ecmascript → metadataOf? fileName content = some
          { fileName
            classNames := names.classes
            propertyNames := names.properties
            referencedTypes := names.types }) ∧
      (EcmaScript.ParametersFit text →
        EcmaScript.extractBy? checkedParts? text = EcmaScript.extract? text) ∧
      (¬EcmaScript.ParametersFit text → EcmaScript.extractBy? checkedParts? text = none) ∧
      (text.length < 2 ^ 31 → EcmaScript.ParametersFit text) := by
  intro text
  refine ⟨fun first last hle hlast => ?_, fun _ => mem_boundaries_toList_iff,
    fun _ => ByteRange.isSome_slice?_iff, fun options => chunkTextSliced?_eq options content,
    fun options fileName => chunkCodeSliced?_eq options fileName content,
    fun range hrange => ?_, EcmaScript.constructorSitesSliced?_eq text, fun site hsite => ?_, ?_,
    EcmaScript.extractBy?_checkedParts?_of_fit, EcmaScript.extractBy?_checkedParts?_of_not_fit,
    EcmaScript.parametersFit_of_length_lt⟩
  · have hbytes := @Span.extract_boundaries text ⟨first, last⟩ hle
    rw [String.utf8Encode_toList] at hbytes
    refine ⟨_, _, getElem?_boundaries (Nat.le_trans hle hlast), getElem?_boundaries hlast, ?_⟩
    rw [String.toByteArray_ofList]
    exact hbytes
  · exact ByteRange.isValid_iff_liesIn.mpr (liesIn_of_mem_topLevelParts hrange)
  · rcases EcmaScript.liesIn_of_mem_constructorSites hsite with ⟨hparameters, hbody⟩
    exact ⟨ByteRange.isValid_iff_liesIn.mpr hparameters,
      fun range hrange => ByteRange.isValid_iff_liesIn.mpr (hbody range hrange)⟩
  · rcases EcmaScript.exists_extract? text with ⟨names, hnames⟩
    refine ⟨names, hnames, fun fileName hfamily => ?_⟩
    rw [metadataOf?, hfamily, Option.map_some, LanguageFamily.extract, hnames]

end Chunking
