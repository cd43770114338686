import Chunking.Proofs.ConstructorParts

/-!
# Cuts between characters

The parts of a constructor are cut out of the source by offsets in bytes, and an
offset inside a character would leave no text to search. It never happens. Every
offset that is computed is the length of some text before it: before a bracket,
behind one, before a comma, behind one, or of the whole source.

That a range lies in a text says more than that its ends are between characters.
They are also in order, and neither is behind the end of the text.

## Main definitions

* `ByteRange.LiesIn`: The range is a part of a text.

## Theorems

* `ByteRange.LiesIn.exists_slice?`: A part can be cut out.
* `liesIn_of_mem_topLevelParts`: What stands between commas.
* `EcmaScript.liesIn_of_mem_constructorSites`: The parts of a constructor.
* `EcmaScript.exists_constructorNames?`: A constructor is never cut inside a
  character.
* `EcmaScript.exists_extract?`: Neither is the source.
-/

namespace Chunking

open Text

/-- The range starts and stops between characters of the text, in this order. -/
def ByteRange.LiesIn (range : ByteRange) (text : List Char) : Prop :=
  ∃ before inside after, text = before ++ inside ++ after ∧
    range = ⟨byteLength before, byteLength (before ++ inside)⟩

theorem ByteRange.LiesIn.exists_slice? {range : ByteRange} {text : List Char}
    (h : range.LiesIn text) : ∃ part, range.slice? text = some part := by
  rcases h with ⟨before, inside, after, rfl, rfl⟩
  exact ⟨inside, slice?_eq_some_iff.mpr rfl⟩

theorem liesIn_of_mem_topLevelParts {range : ByteRange} {text : List Char}
    (h : range ∈ topLevelParts text) : range.LiesIn text := by
  rcases @exists_of_mem_topLevelPartsFrom 0 [] [] text apart_none range h with
    ⟨before, inside, after, htext, hrange, _⟩
  exact ⟨before, inside, after, htext, hrange⟩

/-! ## Constructors -/

namespace EcmaScript

/-- The parameters and the body of a constructor are parts of the source. -/
theorem liesIn_of_mem_constructorSites {content : List Char} {site : ConstructorSite}
    (h : site ∈ constructorSites content) :
    site.parameters.LiesIn content ∧ ∀ range ∈ site.body, range.LiesIn content := by
  rcases List.mem_filterMap.mp h with ⟨found, hfound, hsite⟩
  rcases exists_of_mem_constructorHead hfound with ⟨before, after, hcontent, hopening⟩
  rcases Option.map_eq_some_iff.mp hsite with ⟨closing, hclosing, rfl⟩
  rw [hcontent, hopening] at hclosing
  rcases (matchingClose?_eq_some_iff (by decide)).mp hclosing with ⟨inside, rest, rfl, -, rfl⟩
  constructor
  · refine ⟨before ++ ['('], inside, ')' :: rest, by simp [hcontent], ?_⟩
    rw [hopening, byteLength_append before ['('], List.append_assoc]
    rfl
  · have hbehind : content = (before ++ '(' :: inside) ++ ')' :: rest := by
      simp [hcontent]
    intro range hrange
    rcases Option.map_eq_some_iff.mp hrange with ⟨brace, hbrace, rfl⟩
    rw [hbehind] at hbrace ⊢
    rcases findFrom?_eq_some_iff.mp hbrace with ⟨gap, back, hrest, -, rfl⟩
    rw [hrest, ← List.append_assoc]
    generalize (before ++ '(' :: inside) ++ gap = front
    cases hclose : matchingClose? (front ++ '\x7b' :: back) (byteLength front) '\x7b' '\x7d' with
    | none => exact ⟨front, '\x7b' :: back, [], by rw [List.append_nil], rfl⟩
    | some close =>
        rcases (matchingClose?_eq_some_iff (by decide)).mp hclose with ⟨body, last, rfl, -, rfl⟩
        exact ⟨front, '\x7b' :: body, '\x7d' :: last, by simp, by simp⟩

theorem exists_mapM {α β : Type} {f : α → Option β} {l : List α}
    (h : ∀ a ∈ l, ∃ b, f a = some b) : ∃ l', l.mapM f = some l' := by
  induction l with
  | nil => exact ⟨[], rfl⟩
  | cons a l ih =>
      rcases h a List.mem_cons_self with ⟨b, hb⟩
      rcases ih fun a ha => h a (List.mem_cons_of_mem _ ha) with ⟨l', hl'⟩
      exact ⟨b :: l', by rw [List.mapM_cons, hb, hl']; rfl⟩

/-- A constructor is never cut inside a character. -/
theorem exists_constructorNames? {content : List Char} {site : ConstructorSite}
    (h : site ∈ constructorSites content) :
    ∃ names, constructorNames? content site = some names := by
  rcases liesIn_of_mem_constructorSites h with ⟨hparameters, hbody⟩
  rcases hparameters.exists_slice? with ⟨parameters, hslice⟩
  have hpart (range : ByteRange) (hrange : range ∈ topLevelParts parameters) :
      ∃ part, range.slice? parameters = some part :=
    (liesIn_of_mem_topLevelParts hrange).exists_slice?
  rcases exists_mapM hpart with ⟨parts, hparts⟩
  rw [constructorNames?_eq, hslice, Option.bind_some, hparts, Option.bind_some]
  cases hsite : site.body with
  | none => exact ⟨_, rfl⟩
  | some range =>
      rcases (hbody range hsite).exists_slice? with ⟨body, hrange⟩
      dsimp only
      rw [hrange]
      exact ⟨_, rfl⟩

/-- In no source is anything cut inside a character. -/
theorem exists_extract? (content : List Char) : ∃ names, extract? content = some names := by
  have hsite (site : ConstructorSite) (h : site ∈ constructorSites content) :
      ∃ names, constructorNames? content site = some names :=
    exists_constructorNames? h
  rcases exists_mapM hsite with ⟨constructors, h⟩
  exact ⟨_, by rw [extract?_eq, h]; rfl⟩

end EcmaScript

end Chunking
