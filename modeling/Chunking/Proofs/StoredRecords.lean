import Chunking.Proofs.JsonRecords
import Chunking.Proofs.Recovery
import Chunking.Proofs.WholeRun

/-!
# Stored records are read back

All that is stored is read back as it was. The codecs of the stored types are
put together from lawful parts, so what is left to show here is what each type
adds of its own: that the members of a record have different names, that an
identifier is the one its digits spell, and that a set of names is the set of
its own list.

Only sizes have to be asked about. A size that is stored has 64 bits, and the
position of a chunk and the number of chunks are natural numbers here. Whatever
was read has such sizes, and so it can be stored again without a condition.

A payload is a line of the command line. No character of its text is below the
space, so the text is one line and nothing but its payload is read from it.

## Main definitions

* `Chunk.Sized`, `Record.Sized`, `PreparedDocument.Sized`, `Payload.Sized`: The
  sizes have 64 bits.

## Theorems

* `Uuid.parse?_text`: An identifier is the one that its text spells.
* `sized_prepareWith`: What is prepared has sizes of 64 bits.
* `stored_decode_encode`: Every stored type is read back.
-/

namespace Chunking

open Json Json.Codec

/-! ## Identifiers -/

namespace Uuid

theorem hexValue?_digitChar (n : Nat) (hn : n < 16) :
    Text.hexValue? (Nat.digitChar n) = some n := by
  interval_cases n <;> decide

theorem digitChar_ne_hyphen (n : Nat) (hn : n < 16) : Nat.digitChar n ≠ '-' := by
  interval_cases n <;> decide

-- The first digits of an identifier spell its highest bits.
theorem foldlM_digits (id : Uuid) (k : Nat) (hk : k ≤ 32) :
    ((List.range k).map fun i =>
        Nat.digitChar (id.value.toNat >>> (4 * (31 - i)) % 16)).foldlM
      (fun value c => (Text.hexValue? c).map (value * 16 + ·)) 0 =
        some (id.value.toNat >>> (4 * (32 - k))) := by
  induction k with
  | zero =>
      have hzero : id.value.toNat >>> (4 * (32 - 0)) = 0 := by
        rw [Nat.shiftRight_eq_div_pow]
        exact Nat.div_eq_of_lt id.value.isLt
      rw [hzero]
      rfl
  | succ k ih =>
      have hlast : 4 * (32 - k) = 4 * (31 - k) + 4 := by
        omega
      have hshift : 4 * (32 - (k + 1)) = 4 * (31 - k) := by
        omega
      rw [List.range_succ, List.map_append, List.foldlM_append, ih (by omega), hlast, hshift,
        Nat.shiftRight_add]
      simp only [List.map_cons, List.map_nil, List.foldlM_cons, List.foldlM_nil,
        Option.bind_eq_bind, Option.bind_some, hexValue?_digitChar _ (Nat.mod_lt _ (by decide)),
        Option.map_some, Option.pure_def, Option.some.injEq]
      omega

theorem ofDigits?_digits (id : Uuid) : ofDigits? id.digits = some id := by
  have hfold := foldlM_digits id 32 (Nat.le_refl 32)
  rw [ofDigits?, if_pos (by simp [digits]), digits, hfold]
  simp

theorem hyphen_not_mem_digits (id : Uuid) : '-' ∉ id.digits := by
  intro h
  rcases List.mem_map.mp h with ⟨i, _, hi⟩
  exact digitChar_ne_hyphen _ (Nat.mod_lt _ (by decide)) hi

-- The hyphens aside, the groups are the digits.
theorem filter_grouped (digits : List Char) (hlength : digits.length = 32)
    (hhyphen : '-' ∉ digits) : (grouped digits).filter (· != '-') = digits := by
  have hgroup (start stop : Nat) :
      (digits.extract start stop).filter (· != '-') = digits.extract start stop := by
    rw [List.filter_eq_self]
    intro c hc
    rw [List.extract_eq_take_drop] at hc
    have hmem := List.mem_of_mem_drop (List.mem_of_mem_take hc)
    exact bne_iff_ne.mpr fun heq => hhyphen (heq ▸ hmem)
  have htake (start stop : Nat) (h : start ≤ stop) :
      digits.extract start stop ++ digits.drop stop = digits.drop start := by
    obtain ⟨count, rfl⟩ := Nat.exists_eq_add_of_le h
    rw [List.extract_eq_take_drop, Nat.add_sub_cancel_left, ← List.drop_drop,
      List.take_append_drop]
  have hfilter : (grouped digits).filter (· != '-') =
      digits.extract 0 8 ++ (digits.extract 8 12 ++ (digits.extract 12 16 ++
        (digits.extract 16 20 ++ (digits.extract 20 32 ++ digits.drop 32)))) := by
    have hend : digits.drop 32 = [] := List.drop_eq_nil_of_le (Nat.le_of_eq hlength)
    simp only [grouped, List.intercalate, List.intersperse, List.flatten_cons, List.flatten_nil,
      List.filter_append, hgroup, hend]
    simp
  rw [hfilter, htake _ _ (by decide), htake _ _ (by decide), htake _ _ (by decide),
    htake _ _ (by decide), htake _ _ (by decide), List.drop_zero]

theorem length_grouped (digits : List Char) (hlength : digits.length = 32) :
    (grouped digits).length = 36 := by
  simp [grouped, List.intercalate, List.intersperse, hlength]

/-- An identifier is the one that its text spells. -/
theorem parse?_text (id : Uuid) : parse? id.text = some id := by
  have hlength : id.digits.length = 32 := by
    simp [digits]
  rw [parse?, text, String.toList_ofList, length_grouped _ hlength]
  change ofGroups? (grouped id.digits) = some id
  rw [ofGroups?, filter_grouped _ hlength id.hyphen_not_mem_digits, if_pos rfl,
    ofDigits?_digits]

theorem lawful_codec : Uuid.codec.Lawful fun _ => True :=
  Lawful.string.via (fun _ _ => trivial) parse?_text fun _ _ _ _ => trivial

end Uuid

/-! ## Stored types -/

theorem NameSet.lawful_codec : NameSet.codec.Lawful fun _ => True :=
  Lawful.string.list.via (fun _ _ _ _ => trivial) (fun names => congrArg some names.ofList_names)
    fun _ _ _ _ => trivial

theorem SourceType.lawful_codec : SourceType.codec.Lawful fun _ => True :=
  .oneOf fun value => by cases value <;> decide

theorem Strategy.lawful_codec : Strategy.codec.Lawful fun _ => True :=
  .oneOf fun value => by cases value <;> decide

-- A size has 64 bits, so none is too large to be written.
theorem lawful_size : size.Lawful fun _ => True :=
  Lawful.natural.via (fun value _ => Nat.le_of_lt_succ value.toNat_lt) (by simp)
    fun _ _ _ _ => trivial

/-- The sizes of a chunk have 64 bits. -/
def Chunk.Sized (chunk : Chunk) : Prop :=
  chunk.index ≤ maxSize ∧ chunk.total ≤ maxSize

theorem Chunk.lawful_codec : Chunk.codec.Lawful Chunk.Sized := by
  refine .ofShape (.via (.and (.member .string _) <| .and (.member .natural _) <|
    .member .natural _) ?_ (fun _ => rfl) ?_) (by decide)
  · exact fun chunk hsized => ⟨trivial, hsized⟩
  · rintro value chunk ⟨_, hsized⟩ ⟨⟩
    exact hsized

theorem Document.lawful_codec : Document.codec.Lawful fun _ => True :=
  .ofShape (.via (.and (.member .string _) <| .and (.memberOr .string _ trivial _) <|
    .member .string _) (by simp) (fun _ => rfl) (by simp)) (by decide)

theorem CodeMetadata.lawful_codec : CodeMetadata.codec.Lawful fun _ => True :=
  .ofShape (.via (.and (.member .string _) <| .and (.member NameSet.lawful_codec _) <|
    .and (.member NameSet.lawful_codec _) <| .member NameSet.lawful_codec _)
    (by simp) (fun _ => rfl) (by simp)) (by decide)

-- Metadata is an object, which starts with a brace.
theorem lawful_metadata :
    (nullable CodeMetadata.codec).Lawful fun value => ∀ inner, value = some inner → True :=
  .nullable CodeMetadata.lawful_codec fun _ => by simp [CodeMetadata.codec, ofShape, object]

/-- The sizes of a record have 64 bits. -/
def Record.Sized (record : Record) : Prop :=
  record.chunk.Sized

theorem Record.lawful_codec : Record.codec.Lawful Record.Sized := by
  refine .ofShape (.via (.and (.member Uuid.lawful_codec _) <|
    .and (.member Chunk.lawful_codec _) <| .and (.member .string _) <|
    .and (.member .string _) <| .and (.member SourceType.lawful_codec _) <|
    .and (.member .string _) <| .and (.member .string _) <|
    .memberOr lawful_metadata _ (by simp) _) ?_ (fun _ => rfl) ?_) (by decide)
  · intro record hsized
    rw [Record.Sized] at hsized
    simpa using hsized
  · rintro value record ⟨_, hsized, _⟩ ⟨⟩
    exact hsized

/-- The sizes of all records have 64 bits. -/
def PreparedDocument.Sized (prepared : PreparedDocument) : Prop :=
  ∀ record ∈ prepared.records, record.Sized

theorem PreparedDocument.lawful_codec :
    PreparedDocument.codec.Lawful PreparedDocument.Sized := by
  refine .ofShape (.via (.and (.member .string _) <|
    .and (.member (.list Record.lawful_codec) _) <|
    .and (.memberOr lawful_metadata _ (by simp) _) <|
    .member Strategy.lawful_codec _) ?_ (fun _ => rfl) ?_) (by decide)
  · intro prepared hsized
    rw [PreparedDocument.Sized] at hsized
    simpa using hsized
  · rintro value prepared ⟨_, hsized, _⟩ ⟨⟩
    exact hsized

theorem TextOptions.lawful_codec : TextOptions.codec.Lawful fun _ => True :=
  .ofShape (.via (.and (.member lawful_size _) <| .and (.member lawful_size _) <|
    .member lawful_size _) (by simp) (fun _ => rfl) (by simp)) (by decide)

theorem CodeOptions.lawful_codec : CodeOptions.codec.Lawful fun _ => True :=
  .ofShape (.via (.and (.member lawful_size _) <| .and (.member lawful_size _) <|
    .and (.member lawful_size _) <| .member lawful_size _)
    (by simp) (fun _ => rfl) (by simp)) (by decide)

theorem Config.lawful_codec : Config.codec.Lawful fun _ => True :=
  .ofShape (.via (.and (.member TextOptions.lawful_codec _) <|
    .and (.member CodeOptions.lawful_codec _) <| .and (.member lawful_size _) <|
    .member lawful_size _) (by simp) (fun _ => rfl) (by simp)) (by decide)

/-! ## Payloads -/

/-- The sizes of a payload have 64 bits. -/
def Payload.Sized (payload : Payload) : Prop :=
  payload.chunkIndex ≤ maxSize ∧ payload.totalChunks ≤ maxSize

theorem metadataOfMembers?_map (metadata : Option CodeMetadata) :
    metadataOfMembers? (metadata.map CodeMetadata.fileName) (metadata.map CodeMetadata.classNames)
      (metadata.map CodeMetadata.propertyNames) (metadata.map CodeMetadata.referencedTypes) =
        some metadata := by
  cases metadata <;> rfl

theorem Payload.lawful_codec : Payload.codec.Lawful Payload.Sized := by
  refine .ofShape (.via (.and (.member .natural _) <|
    .and (.optional NameSet.lawful_codec _) <| .and (.member .string _) <|
    .and (.member .string _) <| .and (.optional .string _) <| .and (.member .string _) <|
    .and (.optional NameSet.lawful_codec _) <| .and (.optional NameSet.lawful_codec _) <|
    .and (.member .string _) <| .and (.member SourceType.lawful_codec _) <|
    .and (.member .string _) <| .member .natural _) ?_ ?_ ?_) (by decide)
  · intro payload hsized
    rw [Payload.Sized] at hsized
    simpa using hsized
  · exact fun payload => by simp [metadataOfMembers?_map]
  · intro value payload hsized hvalue
    rcases Option.map_eq_some_iff.mp hvalue with ⟨metadata, _, rfl⟩
    exact ⟨hsized.1, by simpa using hsized.2⟩

/-! ## Lines -/

-- A character has at least one byte.
theorem length_le_size_utf8Encode (chars : List Char) : chars.length ≤ chars.utf8Encode.size := by
  induction chars with
  | nil => simp
  | cons c chars ih =>
      have hfirst : 0 < [c].utf8Encode.size := by
        rw [List.utf8Encode_singleton, List.size_toByteArray, String.length_utf8EncodeChar]
        exact Char.utf8Size_pos c
      rw [List.utf8Encode_cons, ByteArray.size_append, List.length_cons]
      omega

theorem length_le_utf8ByteSize (text : String) : text.toList.length ≤ text.utf8ByteSize := by
  rw [← String.size_toByteArray, ← String.utf8Encode_toList]
  exact length_le_size_utf8Encode _

/-- The chunks of a document of at most 64-bit size are counted with 64 bits, for
there is at most one for each character. -/
theorem sized_prepareWith (config : Config) (strategy : Strategy) (ids : Nat → Uuid)
    {document : Document} (h : document.content.utf8ByteSize ≤ maxSize) :
    (prepareWith config strategy ids document).Sized := by
  intro record hrecord
  rcases exists_covers_chunk config strategy document.fileName document.content with
    ⟨spans, hcovers, hchunks⟩
  have hcount : spans.length ≤ maxSize := by
    have hone : 1 ≤ maxSize := by
      decide
    have hlength := length_le_utf8ByteSize document.content
    have := hcovers.length_le
    omega
  have hmem := List.mem_map_of_mem (f := Record.chunk) hrecord
  rw [map_chunk_prepareWith, hchunks] at hmem
  rcases List.mem_iff_getElem.mp hmem with ⟨i, hi, hchunk⟩
  have hnumbered := Chunk.numbered_ofTexts _ i hi
  rw [hchunk] at hnumbered
  rw [Chunk.length_ofTexts, List.length_map] at hi hnumbered
  rw [Record.Sized, Chunk.Sized, hnumbered.1, hnumbered.2]
  exact ⟨by omega, hcount⟩

/-- No batch prepares a document that is larger than 64 bits can tell. -/
theorem sized_of_processBatch {config : Config} {settings : BatchConfig} {ids : Nat → Nat → Uuid}
    {documents : List Document} {prepared : List PreparedDocument} {report : BatchReport}
    (h : processBatch config settings ids documents = .ok (prepared, report)) :
    ∀ document ∈ prepared, document.Sized := by
  intro document hmem
  rw [processBatch_eq] at h
  split at h
  · cases h
    rw [preparedOf_outcomesOf] at hmem
    rcases List.mem_map.mp hmem with ⟨task, htask, rfl⟩
    have hfits := (List.mem_filter.mp htask).2
    have hlimit := settings.maxContentSize.toNat_lt
    have hsize : task.1.content.utf8ByteSize ≤ maxSize := by
      simp only [BatchConfig.tooLarge, Bool.not_eq_true', decide_eq_false_iff_not] at hfits
      rw [maxSize]
      omega
    unfold prepareAs
    split
    · exact sized_prepareWith config _ _ hsize
    · exact sized_prepareWith config _ _ hsize
  · cases h

-- A line of a run is the payload of a record that the run prepared.
theorem exists_record_of_mem_lines {invocation : Invocation} {surroundings : Surroundings}
    {line : String} (h : line ∈ (invocation.run surroundings).lines) :
    ∃ config documents, surroundings.config? = some config ∧
      invocation.prepare surroundings config = .ok documents ∧
      ∃ document ∈ documents, ∃ record ∈ document.records,
        line = Payload.codec.encode record.payload ∧ record.Sized := by
  rcases run_cases invocation surroundings with
    ⟨_, hnone⟩ | ⟨config, documents, hconfig, hprepare, hrun⟩
  · rw [hnone] at h
    cases h
  · rw [hrun] at h
    rcases List.mem_flatMap.mp h with ⟨document, hdocument, hline⟩
    rcases List.mem_map.mp hline with ⟨payload, hpayload, rfl⟩
    rcases List.mem_map.mp hpayload with ⟨record, hrecord, rfl⟩
    refine ⟨config, documents, hconfig, hprepare, document, hdocument, record, hrecord, rfl, ?_⟩
    rcases exists_of_bind_eq_ok hprepare with ⟨loaded, _, hbatch⟩
    rcases exists_of_bind_eq_ok hbatch with ⟨result, hprocess, hresult⟩
    cases hresult
    exact sized_of_processBatch hprocess document hdocument record hrecord

/-- All that is stored is read back. The text of a value of a stored type is read
as that value, as long as its sizes have 64 bits, and whatever text a value was
read from, it can be stored again. A payload is written without a character
below the space, so each line of a run is one line. It belongs to a record that
the run prepared, and the payload of this record is read from it. -/
theorem stored_decode_encode :
    (Chunk.codec.ReadsBack Chunk.Sized ∧
      CodeMetadata.codec.ReadsBack (fun _ => True) ∧
      Document.codec.ReadsBack (fun _ => True) ∧
      Record.codec.ReadsBack Record.Sized ∧
      PreparedDocument.codec.ReadsBack PreparedDocument.Sized ∧
      TextOptions.codec.ReadsBack (fun _ => True) ∧
      CodeOptions.codec.ReadsBack (fun _ => True) ∧
      Config.codec.ReadsBack (fun _ => True) ∧
      SourceType.codec.ReadsBack (fun _ => True) ∧
      Strategy.codec.ReadsBack (fun _ => True)) ∧
    Payload.codec.ReadsBack Payload.Sized ∧
    (∀ payload, Printable (Payload.codec.encode payload).toList) ∧
    ∀ (invocation : Invocation) (surroundings : Surroundings),
      ∀ line ∈ (invocation.run surroundings).lines, Printable line.toList ∧
        ∃ config documents, surroundings.config? = some config ∧
          invocation.prepare surroundings config = .ok documents ∧
          ∃ document ∈ documents, ∃ record ∈ document.records,
            line = Payload.codec.encode record.payload ∧
              Payload.codec.decode line = .ok record.payload := by
  refine ⟨⟨Chunk.lawful_codec.readsBack, CodeMetadata.lawful_codec.readsBack,
    Document.lawful_codec.readsBack, Record.lawful_codec.readsBack,
    PreparedDocument.lawful_codec.readsBack, TextOptions.lawful_codec.readsBack,
    CodeOptions.lawful_codec.readsBack, Config.lawful_codec.readsBack,
    SourceType.lawful_codec.readsBack, Strategy.lawful_codec.readsBack⟩,
    Payload.lawful_codec.readsBack, Payload.lawful_codec.printable_encode, ?_⟩
  intro invocation surroundings line hline
  rcases exists_record_of_mem_lines hline with
    ⟨config, documents, hconfig, hprepare, document, hdocument, record, hrecord, rfl, hsized⟩
  exact ⟨Payload.lawful_codec.printable_encode _, config, documents, hconfig, hprepare, document,
    hdocument, record, hrecord, rfl, Payload.lawful_codec.decode_encode hsized⟩

/-- A chunk that needs every kind of escape and the largest sizes is read back. -/
theorem stored_decode_encode_escapes :
    let chunk : Chunk := ⟨"\u0001\t\"\\/\u007f😀", maxSize, 0⟩
    Chunk.codec.decode (Chunk.codec.encode chunk) = .ok chunk :=
  stored_decode_encode.1.1.1 ⟨"\u0001\t\"\\/\u007f😀", maxSize, 0⟩ ⟨by decide, by decide⟩

end Chunking
