import Mathlib.Data.Set.Function
import Mathlib.Data.List.ProdSigma

/-! # Collisions that are exhibited

A digest of fixed size has collisions, so "up to a collision" must not mean
that one exists. Here it means that a search through a given finite list of
inputs, those that the argument at hand has really digested, returns one
(`Exhibits`). A list without such a pair is one on which the digest is
injective (`injOn_or_exhibits`), and that is the form proofs work with.
-/

namespace Collision

variable {α β : Type} [DecidableEq α] [DecidableEq β]

/-- The first two different inputs of the list with one digest. -/
def find (digest : α → β) (inputs : List α) : Option (α × α) :=
  (inputs ×ˢ inputs).find? fun p => p.1 ≠ p.2 && digest p.1 = digest p.2

/-- The search through `inputs` returns a collision. -/
def Exhibits (digest : α → β) (inputs : List α) : Prop :=
  ∃ x y, find digest inputs = some (x, y) ∧ x ≠ y ∧ digest x = digest y

variable {digest : α → β} {inputs inputs' : List α}

theorem exhibits_iff :
    Exhibits digest inputs ↔
      ∃ x ∈ inputs, ∃ y ∈ inputs, x ≠ y ∧ digest x = digest y := by
  constructor
  · rintro ⟨x, y, hfind, hne, heq⟩
    have hmem := List.mem_of_find?_eq_some hfind
    rw [List.mem_product] at hmem
    exact ⟨x, hmem.1, y, hmem.2, hne, heq⟩
  · rintro ⟨x, hx, y, hy, hne, heq⟩
    have hsome : (find digest inputs).isSome = true := by
      rw [find, List.find?_isSome]
      exact ⟨(x, y), List.mem_product.mpr ⟨hx, hy⟩, by simp [hne, heq]⟩
    rcases Option.isSome_iff_exists.mp hsome with ⟨⟨x', y'⟩, hfind⟩
    have hfound := List.find?_some hfind
    simp only [Bool.and_eq_true, decide_eq_true_eq] at hfound
    exact ⟨x', y', hfind, hfound.1, hfound.2⟩

/-- No collision among the inputs, or one that the search returns. -/
theorem injOn_or_exhibits (digest : α → β) (inputs : List α) :
    Set.InjOn digest {x | x ∈ inputs} ∨ Exhibits digest inputs := by
  by_cases h : Exhibits digest inputs
  · exact Or.inr h
  · left
    intro x hx y hy heq
    by_contra hne
    exact h (exhibits_iff.mpr ⟨x, hx, y, hy, hne, heq⟩)

end Collision
