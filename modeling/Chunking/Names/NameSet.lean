/-!
# Sets of names

The names found in a file, without duplicates and in the order of their code
points. The order belongs to the type: a set has exactly one list of names, so
two sets with the same members are equal, in whatever order and how often the
names were found.

## Main definitions

* `NameSet`: An ascending list of names.
* `NameSet.insert`: Add a name.
* `NameSet.ofList`: The set of the names in a list.

## Theorems

* `mem_insert`: What is in a set after adding a name.
* `mem_ofList`: The set of a list has the members of the list.
* `eq_of_mem_iff`: Two sets with the same members are equal.
-/

namespace Chunking

/-- Names in ascending order of their code points, each once. -/
structure NameSet where
  /-- The names. -/
  names : List String
  /-- Every name comes before all that follow it. -/
  ascending : names.Pairwise (· < ·)
  deriving DecidableEq

namespace NameSet

instance : Membership String NameSet where
  mem set name := name ∈ set.names

instance : EmptyCollection NameSet where
  emptyCollection := ⟨[], .nil⟩

instance : Inhabited NameSet where
  default := ∅

/-- Whether the set has no names. -/
def isEmpty (set : NameSet) : Bool :=
  set.names.isEmpty

/-- Add a name to an ascending list at its place, unless it is there. -/
def insertName (name : String) : List String → List String
  | [] => [name]
  | first :: rest =>
    if name < first then name :: first :: rest
    else if name = first then first :: rest
    else first :: insertName name rest

/-- The members after adding a name. -/
theorem mem_insertName {name other : String} {names : List String} :
    other ∈ insertName name names ↔ other = name ∨ other ∈ names := by
  induction names with
  | nil => simp [insertName]
  | cons first rest ih =>
    unfold insertName
    split
    · simp
    · split
      · simp_all
      · simp only [List.mem_cons, ih]
        constructor
        · rintro (h | h | h) <;> simp [h]
        · rintro (h | h | h) <;> simp [h]

/-- Adding a name keeps the order. -/
theorem ascending_insertName {name : String} {names : List String}
    (ascending : names.Pairwise (· < ·)) : (insertName name names).Pairwise (· < ·) := by
  induction names with
  | nil => simp [insertName]
  | cons first rest ih =>
    have ⟨first_lt, rest_ascending⟩ := List.pairwise_cons.mp ascending
    unfold insertName
    split
    · next name_lt =>
      refine List.pairwise_cons.mpr ⟨fun other h => ?_, ascending⟩
      rcases List.mem_cons.mp h with rfl | h
      · exact name_lt
      · exact String.lt_trans name_lt (first_lt other h)
    · split
      · exact ascending
      · next not_lt not_eq =>
        refine List.pairwise_cons.mpr ⟨fun other h => ?_, ih rest_ascending⟩
        rcases mem_insertName.mp h with rfl | h
        · -- Neither smaller nor equal, so greater.
          rcases @Std.Trichotomous.rel_or_eq_or_rel_swap String (· < ·) _ other first with h | h | h
          · exact absurd h not_lt
          · exact absurd h not_eq
          · exact h
        · exact first_lt other h

/-- Add a name. -/
def insert (set : NameSet) (name : String) : NameSet :=
  ⟨insertName name set.names, ascending_insertName set.ascending⟩

/-- The set of the names in a list. -/
def ofList (names : List String) : NameSet :=
  names.foldl insert ∅

/-- The members after adding a name. -/
@[simp]
theorem mem_insert {set : NameSet} {name other : String} :
    other ∈ set.insert name ↔ other = name ∨ other ∈ set :=
  mem_insertName

/-- Nothing is in the empty set. -/
@[simp]
theorem not_mem_empty {name : String} : name ∉ (∅ : NameSet) :=
  List.not_mem_nil

/-- The members after adding the names of a list. -/
theorem mem_foldl_insert {set : NameSet} {names : List String} {name : String} :
    name ∈ names.foldl insert set ↔ name ∈ names ∨ name ∈ set := by
  induction names generalizing set with
  | nil => simp
  | cons first rest ih =>
    rw [List.foldl_cons, ih, mem_insert, List.mem_cons]
    constructor
    · rintro (h | h | h) <;> simp [h]
    · rintro ((h | h) | h) <;> simp [h]

/-- The set of a list has the members of the list. -/
@[simp]
theorem mem_ofList {names : List String} {name : String} : name ∈ ofList names ↔ name ∈ names := by
  simp [ofList, mem_foldl_insert]

/-- Two sets with the same members are equal. -/
theorem eq_of_mem_iff {first second : NameSet}
    (same : ∀ name, name ∈ first ↔ name ∈ second) : first = second := by
  obtain ⟨names, ascending⟩ := first
  obtain ⟨others, ascendingOthers⟩ := second
  have antisymm : ∀ a b : String, a < b → b < a → a = b := fun a b h h' =>
    absurd (String.lt_trans h h') (String.lt_irrefl a)
  -- Lists in ascending order that have the same members are the same.
  have perm : names.Perm others := by
    have nodup {l : List String} (h : l.Pairwise (· < ·)) : l.Nodup :=
      h.imp fun h => fun eq => String.lt_irrefl _ (eq ▸ h)
    exact (List.perm_ext_iff_of_nodup (nodup ascending) (nodup ascendingOthers)).mpr same
  have : names = others :=
    List.Perm.eq_of_pairwise (fun a b _ _ => antisymm a b) ascending ascendingOthers perm
  subst this
  rfl

/-- Collecting the names of a set gives the set back. -/
@[simp]
theorem ofList_names (set : NameSet) : ofList set.names = set :=
  eq_of_mem_iff fun _ => mem_ofList

end NameSet

end Chunking
