import Chunking.Proofs.Reused
import Mathlib.Data.List.Basic

/-!
# What a plan consists of

A plan goes through the chunks once and puts each of them on one of two lists.
All that it asks about a chunk is whether the digest that comes with it is one
of the digests of the stored texts. So the two lists divide the chunks, and what
else there is to the stored texts, their order and how often one of them is
stored, does not show.

The digest that comes with a chunk was made when the document was prepared, and
those of the stored texts are made for the plan. That both are digests of texts
is what lets a plan speak of texts.

## Theorems

* `mem_embed_iff`: Which chunks a plan embeds.
* `disjoint_reuse_embed`, `mem_reuse_or_mem_embed_iff`: Each chunk is on one list.
* `isUnchanged_iff`: When nothing is left to embed.
* `pairwise_reuse`, `pairwise_embed`: The chunks stay in order.
* `planReindex_congr`: What decides a plan.
* `reuse_sublist`, `embed_sublist`: What more stored texts change.
* `planReindex_divides`: The plan for a prepared document.
-/

namespace Chunking

section Plan

variable (prepared : PreparedDocument) (stored : List String)

/-- A plan embeds the chunks whose digests are not those of stored texts. -/
theorem mem_embed_iff (i : Nat) :
    i ∈ (planReindex prepared stored).embed ↔
      ∃ hash, prepared.chunkHashes[i]? = some hash ∧ hash ∉ stored.map textDigest := by
  simp only [planReindex, List.mem_map, List.mem_filter, List.mem_mapIdx, Bool.not_eq_true',
    List.contains_eq_mem, decide_eq_false_iff_not]
  constructor
  · rintro ⟨_, ⟨⟨place, hplace, rfl⟩, hnew⟩, rfl⟩
    exact ⟨_, List.getElem?_eq_getElem hplace, hnew⟩
  · rintro ⟨hash, hhash, hnew⟩
    rcases List.getElem?_eq_some_iff.mp hhash with ⟨hplace, rfl⟩
    exact ⟨_, ⟨⟨i, hplace, rfl⟩, hnew⟩, rfl⟩

theorem mem_map_fst_reuse_iff (i : Nat) :
    i ∈ (planReindex prepared stored).reuse.map Prod.fst ↔
      ∃ hash, prepared.chunkHashes[i]? = some hash ∧ hash ∈ stored.map textDigest := by
  rw [List.mem_map]
  constructor
  · rintro ⟨⟨i, hash⟩, hmem, rfl⟩
    exact ⟨hash, (mem_reuse_iff prepared stored i hash).mp hmem⟩
  · rintro ⟨hash, hmem⟩
    exact ⟨(i, hash), (mem_reuse_iff prepared stored i hash).mpr hmem, rfl⟩

theorem disjoint_reuse_embed :
    ((planReindex prepared stored).reuse.map Prod.fst).Disjoint
      (planReindex prepared stored).embed := by
  intro i hreuse hembed
  rcases (mem_map_fst_reuse_iff prepared stored i).mp hreuse with ⟨hash, hhash, hknown⟩
  rcases (mem_embed_iff prepared stored i).mp hembed with ⟨hash', hhash', hnew⟩
  -- A chunk has one digest, which cannot be known and new.
  rw [hhash, Option.some.injEq] at hhash'
  exact hnew (hhash' ▸ hknown)

/-- Every chunk is on one of the two lists. -/
theorem mem_reuse_or_mem_embed_iff (i : Nat) :
    i ∈ (planReindex prepared stored).reuse.map Prod.fst ∨
        i ∈ (planReindex prepared stored).embed ↔ i < prepared.chunkHashes.length := by
  rw [mem_map_fst_reuse_iff, mem_embed_iff]
  constructor
  · rintro (⟨hash, hhash, _⟩ | ⟨hash, hhash, _⟩) <;>
      exact (List.getElem?_eq_some_iff.mp hhash).1
  · intro hi
    -- Its digest is that of a stored text or not.
    by_cases hknown : prepared.chunkHashes[i] ∈ stored.map textDigest
    · exact .inl ⟨_, List.getElem?_eq_getElem hi, hknown⟩
    · exact .inr ⟨_, List.getElem?_eq_getElem hi, hknown⟩

/-- Nothing is left to embed exactly if every digest is that of a stored text. -/
theorem isUnchanged_iff :
    (planReindex prepared stored).isUnchanged = true ↔
      prepared.chunkHashes ⊆ stored.map textDigest := by
  unfold ReindexPlan.isUnchanged
  rw [List.isEmpty_iff, List.eq_nil_iff_forall_not_mem]
  constructor
  · intro hnone hash hmem
    rcases List.mem_iff_getElem?.mp hmem with ⟨i, hhash⟩
    by_contra hnew
    exact hnone i ((mem_embed_iff prepared stored i).mpr ⟨hash, hhash, hnew⟩)
  · intro hall i hembed
    rcases (mem_embed_iff prepared stored i).mp hembed with ⟨hash, hhash, hnew⟩
    exact hnew (hall (List.mem_of_getElem? hhash))

-- The numbers of the chunks that a plan picks are some of all numbers, in order.
theorem pairwise_map_fst_filter (hashes : List String) (picked : Nat × String → Bool) :
    (((hashes.mapIdx fun position hash => (position, hash)).filter picked).map Prod.fst).Pairwise
      (· < ·) := by
  have hnumbers : (hashes.mapIdx fun position hash => (position, hash)).map Prod.fst =
      List.range hashes.length := by
    apply List.ext_getElem <;> simp
  have hpicked := (List.filter_sublist (p := picked)
    (l := hashes.mapIdx fun position hash => (position, hash))).map Prod.fst
  rw [hnumbers] at hpicked
  exact List.pairwise_lt_range.sublist hpicked

theorem pairwise_reuse : ((planReindex prepared stored).reuse.map Prod.fst).Pairwise (· < ·) :=
  pairwise_map_fst_filter _ _

theorem pairwise_embed : (planReindex prepared stored).embed.Pairwise (· < ·) :=
  pairwise_map_fst_filter _ _

variable {stored} {other : List String}

/-- A plan is decided by which digests are those of stored texts. -/
theorem planReindex_congr
    (h : ∀ hash, hash ∈ other.map textDigest ↔ hash ∈ stored.map textDigest) :
    planReindex prepared other = planReindex prepared stored := by
  have hknown (hash : String) :
      (other.map textDigest).contains hash = (stored.map textDigest).contains hash := by
    rw [List.contains_eq_mem, List.contains_eq_mem, decide_eq_decide]
    exact h hash
  simp only [planReindex, hknown]

/-- More stored texts let no chunk be embedded that was reused. -/
theorem reuse_sublist (h : stored ⊆ other) :
    (planReindex prepared stored).reuse.Sublist (planReindex prepared other).reuse := by
  apply List.monotone_filter_right
  intro chunk hchunk
  rw [List.contains_iff_mem] at hchunk ⊢
  exact List.map_subset textDigest h hchunk

theorem embed_sublist (h : stored ⊆ other) :
    (planReindex prepared other).embed.Sublist (planReindex prepared stored).embed := by
  refine List.Sublist.map Prod.fst (List.monotone_filter_right _ fun chunk hchunk => ?_)
  rw [Bool.not_eq_true', List.contains_eq_mem, decide_eq_false_iff_not] at hchunk ⊢
  exact fun hmem => hchunk (List.map_subset textDigest h hmem)

end Plan

/-- The plan for a prepared document. Its chunks are divided into those to reuse
and those to embed, and both lists are in order. A chunk is reused, with the
digest of its text, exactly if that is the digest of a stored text. Only the set
of the stored texts matters. When it grows, chunks that were to be embedded may
be reused instead, and nothing else changes. When it holds all the texts of the
document, nothing is left to embed. -/
theorem planReindex_divides (config : Config) (strategy : Strategy) (ids : Nat → Uuid)
    (document : Document) (stored : List String) :
    let prepared := prepareWith config strategy ids document
    let plan := planReindex prepared stored
    let reused := plan.reuse.map Prod.fst
    reused.Pairwise (· < ·) ∧ plan.embed.Pairwise (· < ·) ∧ reused.Disjoint plan.embed ∧
      (∀ i, i ∈ reused ∨ i ∈ plan.embed ↔ i < prepared.texts.length) ∧
      (∀ i hash, (i, hash) ∈ plan.reuse ↔ ∃ text, prepared.texts[i]? = some text ∧
        hash = textDigest text ∧ ∃ previous ∈ stored, textDigest previous = textDigest text) ∧
      (∀ other : List String, (∀ text, text ∈ other ↔ text ∈ stored) →
        planReindex prepared other = plan) ∧
      (∀ other, stored ⊆ other →
        plan.reuse.Sublist (planReindex prepared other).reuse ∧
          (planReindex prepared other).embed.Sublist plan.embed) ∧
      (prepared.texts ⊆ stored → plan.isUnchanged = true) := by
  intro prepared plan reused
  have hhashes : prepared.chunkHashes = prepared.texts.map textDigest :=
    chunkHashes_prepareWith config strategy ids document
  have hlength : prepared.chunkHashes.length = prepared.texts.length := by
    rw [hhashes, List.length_map]
  refine ⟨pairwise_reuse prepared stored, pairwise_embed prepared stored,
    disjoint_reuse_embed prepared stored, fun i => ?_, fun i hash => ?_, fun other hsame => ?_,
    fun other hmore => ⟨reuse_sublist prepared hmore, embed_sublist prepared hmore⟩,
    fun hall => ?_⟩
  · rw [← hlength]
    exact mem_reuse_or_mem_embed_iff prepared stored i
  · rw [mem_reuse_iff, hhashes, List.getElem?_map, Option.map_eq_some_iff, List.mem_map]
    constructor
    · rintro ⟨⟨text, htext, rfl⟩, hknown⟩
      exact ⟨text, htext, rfl, hknown⟩
    · rintro ⟨text, htext, rfl, hknown⟩
      exact ⟨⟨text, htext, rfl⟩, hknown⟩
  -- The same texts have the same digests, in whatever order and however often.
  · refine planReindex_congr prepared fun hash => ?_
    simp only [List.mem_map, hsame]
  · rw [isUnchanged_iff, hhashes]
    exact List.map_subset textDigest hall

end Chunking
