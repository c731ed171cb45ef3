import Mathlib.Tactic
import Mathlib.Data.Finset.Card

/-! # Quorum intersection

The counting behind Byzantine quorums, over an arbitrary type of
participants: a roster `M` of at most `n` participants, a fault bound `f`
with `3 f < n`, and quorums of `n - f`. Two quorums meet in more than `f`
participants (`inter_card`), hence in one that is not faulty
(`exists_correct_inter`); and a quorum meets every set of `n - 2 f`
participants (`exists_inter`).

A roster and a threshold are also determined by the sets they accept as
quorums (`eq_of_same_quorums`).
-/

namespace Quorum

variable {α : Type*} [DecidableEq α] {M A B : Finset α} {n f : Nat}

/-- Two subsets of a roster of at most `n` overlap in what their sizes
exceed `n` by. -/
theorem inter_card_ge (hM : M.card ≤ n) (hA : A ⊆ M) (hB : B ⊆ M) :
    A.card + B.card ≤ n + (A ∩ B).card := by
  have hunion : (A ∪ B).card ≤ M.card := Finset.card_le_card (Finset.union_subset hA hB)
  have hinter := Finset.card_union_add_card_inter A B
  omega

/-- Two quorums of `n - f` share at least `f + 1` participants. -/
theorem inter_card (hf : 3 * f < n) (hM : M.card ≤ n) (hA : A ⊆ M) (hB : B ⊆ M)
    (hqA : n - f ≤ A.card) (hqB : n - f ≤ B.card) : f + 1 ≤ (A ∩ B).card := by
  have h := inter_card_ge hM hA hB
  omega

/-- Two quorums share a participant outside any set of at most `f`. -/
theorem exists_correct_inter {faulty : Finset α} (hf : 3 * f < n) (hM : M.card ≤ n)
    (hA : A ⊆ M) (hB : B ⊆ M) (hqA : n - f ≤ A.card) (hqB : n - f ≤ B.card)
    (hfaulty : faulty.card ≤ f) : ∃ x, x ∈ A ∧ x ∈ B ∧ x ∉ faulty := by
  have hbig := inter_card hf hM hA hB hqA hqB
  have hlt : faulty.card < (A ∩ B).card := by omega
  obtain ⟨x, hx, hxf⟩ := Finset.exists_mem_notMem_of_card_lt_card hlt
  exact ⟨x, (Finset.mem_inter.mp hx).1, (Finset.mem_inter.mp hx).2, hxf⟩

/-- A quorum meets every set of `n - 2 f` participants. -/
theorem exists_inter (hf : 3 * f < n) (hM : M.card ≤ n) (hA : A ⊆ M) (hB : B ⊆ M)
    (hqA : n - f ≤ A.card) (hqB : n - f - f ≤ B.card) : ∃ x, x ∈ A ∧ x ∈ B := by
  have h := inter_card_ge hM hA hB
  have hpos : 0 < (A ∩ B).card := by omega
  obtain ⟨x, hx⟩ := Finset.card_pos.mp hpos
  exact ⟨x, (Finset.mem_inter.mp hx).1, (Finset.mem_inter.mp hx).2⟩

/-! ## Rosters that accept the same quorums -/

section SameQuorums

variable {S G : Finset α} {s g : Nat}

/-- A participant that completes a quorum of `S` is one for `G` too. -/
theorem subset_of_same_quorums (hs : 1 ≤ s) (hle : s ≤ S.card)
    (hsame : ∀ A ⊆ G ∪ S, g ≤ (A ∩ G).card ↔ s ≤ (A ∩ S).card) : S ⊆ G := by
  intro x hx
  by_contra hxG
  have hone : ({x} : Finset α).card ≤ s := by simpa using hs
  obtain ⟨A, hxA, hAS, hcard⟩ :=
    Finset.exists_subsuperset_card_eq (Finset.singleton_subset_iff.mpr hx) hone hle
  have hxA' : x ∈ A := Finset.singleton_subset_iff.mp hxA
  have hsub : A ⊆ G ∪ S := hAS.trans Finset.subset_union_right
  have hquorum : g ≤ (A ∩ G).card := by
    apply (hsame A hsub).mpr
    rw [Finset.inter_eq_left.mpr hAS, hcard]
  -- without `x` the set is as good for `G` and one short for `S`
  have hkept : A.erase x ∩ G = A ∩ G := by
    rw [Finset.erase_inter, Finset.erase_eq_of_notMem]
    exact fun h => hxG (Finset.mem_inter.mp h).2
  have hshort : s ≤ (A.erase x ∩ S).card := by
    apply (hsame _ ((Finset.erase_subset x A).trans hsub)).mp
    rw [hkept]
    exact hquorum
  rw [Finset.inter_eq_left.mpr ((Finset.erase_subset x A).trans hAS),
    Finset.card_erase_of_mem hxA', hcard] at hshort
  omega

theorem threshold_le_of_same_quorums (hle : s ≤ S.card)
    (hsame : ∀ A ⊆ G ∪ S, g ≤ (A ∩ G).card ↔ s ≤ (A ∩ S).card) : g ≤ s := by
  obtain ⟨A, hAS, hcard⟩ := Finset.exists_subset_card_eq hle
  have hquorum : g ≤ (A ∩ G).card := by
    apply (hsame A (hAS.trans Finset.subset_union_right)).mpr
    rw [Finset.inter_eq_left.mpr hAS, hcard]
  have hcut : (A ∩ G).card ≤ A.card := Finset.card_le_card Finset.inter_subset_left
  omega

/-- Two rosters that accept the same sets as quorums are equal, thresholds
included, as soon as one of them accepts some set. -/
theorem eq_of_same_quorums (hs : 1 ≤ s) (hg : 1 ≤ g) (hle : s ≤ S.card)
    (hsame : ∀ A ⊆ G ∪ S, g ≤ (A ∩ G).card ↔ s ≤ (A ∩ S).card) : G = S ∧ g = s := by
  have hall : g ≤ (S ∩ G).card := by
    apply (hsame S Finset.subset_union_right).mpr
    rwa [Finset.inter_self]
  have hle' : g ≤ G.card := hall.trans (Finset.card_le_card Finset.inter_subset_right)
  have hsame' : ∀ A ⊆ S ∪ G, s ≤ (A ∩ S).card ↔ g ≤ (A ∩ G).card := by
    intro A hA
    rw [Finset.union_comm] at hA
    exact (hsame A hA).symm
  constructor
  · exact Finset.Subset.antisymm (subset_of_same_quorums hg hle' hsame')
      (subset_of_same_quorums hs hle hsame)
  · exact le_antisymm (threshold_le_of_same_quorums hle hsame)
      (threshold_le_of_same_quorums hle' hsame')

end SameQuorums

end Quorum
