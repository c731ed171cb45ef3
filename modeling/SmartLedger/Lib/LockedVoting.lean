import SmartLedger.Lib.Quorum

/-! # Two-phase voting with locks

The protocol pattern behind round-based Byzantine agreement, over arbitrary
participants and values. In every round a participant gives at most one
prevote and one precommit. What correct participants keep to is
`Discipline`:

* one prevote per round;
* a precommit only for a value with a quorum of prevotes, a polka, in that
  round;
* after a precommit for one value, a prevote for another only once the other
  had a polka in between.

Nothing is asked of the faulty participants, and nothing about the order in
which votes are given or seen. Then a value that enough correct participants
precommitted is the only one with a polka from that round on
(`Discipline.polka_unique`), and all decisions agree
(`Discipline.decisions_agree`).
-/

namespace LockedVoting

variable {α β : Type*} [DecidableEq α]

/-- Who takes part: a roster of at most `n`, of which at most `f` are faulty,
with `3 f < n`. -/
structure Roster (α : Type*) [DecidableEq α] where
  members : Finset α
  faulty : Finset α
  n : Nat
  f : Nat
  card_members : members.card ≤ n
  card_faulty : faulty.card ≤ f
  bound : 3 * f < n

namespace Roster

variable (R : Roster α)

def Correct (a : α) : Prop := a ∈ R.members ∧ a ∉ R.faulty

/-- A quorum whose correct participants all satisfy `p`. -/
def QuorumOf (p : α → Prop) : Prop :=
  ∃ V ⊆ R.members, R.n - R.f ≤ V.card ∧ ∀ a ∈ V, R.Correct a → p a

variable {R} {p q : α → Prop}

/-- Two quorums share a correct participant. -/
theorem QuorumOf.exists_both (hp : R.QuorumOf p) (hq : R.QuorumOf q) :
    ∃ a, R.Correct a ∧ p a ∧ q a := by
  rcases hp with ⟨V, hV, hcardV, hVp⟩
  rcases hq with ⟨W, hW, hcardW, hWq⟩
  rcases Quorum.exists_correct_inter R.bound R.card_members hV hW hcardV hcardW R.card_faulty with
    ⟨a, haV, haW, hfaulty⟩
  have hcorrect : R.Correct a := ⟨hV haV, hfaulty⟩
  exact ⟨a, hcorrect, hVp a haV hcorrect, hWq a haW hcorrect⟩

/-- A quorum meets every set of `n - 2 f` correct participants. -/
theorem QuorumOf.exists_mem (hp : R.QuorumOf p) {A : Finset α} (hA : ∀ a ∈ A, R.Correct a)
    (hcard : R.n - R.f - R.f ≤ A.card) : ∃ a ∈ A, p a := by
  rcases hp with ⟨V, hV, hcardV, hVp⟩
  rcases Quorum.exists_inter R.bound R.card_members hV (fun a ha => (hA a ha).1) hcardV hcard with
    ⟨a, haV, haA⟩
  exact ⟨a, haA, hVp a haV (hA a haA)⟩

/-- The correct participants of a quorum are at least `n - 2 f`. -/
theorem QuorumOf.exists_correct (hp : R.QuorumOf p) :
    ∃ A : Finset α, R.n - R.f - R.f ≤ A.card ∧ ∀ a ∈ A, R.Correct a ∧ p a := by
  rcases hp with ⟨V, hV, hcardV, hVp⟩
  refine ⟨V \ R.faulty, ?_, ?_⟩
  · have hsdiff := Finset.le_card_sdiff R.faulty V
    have hfaulty := R.card_faulty
    omega
  · intro a ha
    rcases Finset.mem_sdiff.mp ha with ⟨haV, hfaulty⟩
    exact ⟨⟨hV haV, hfaulty⟩, hVp a haV ⟨hV haV, hfaulty⟩⟩

end Roster

/-- What correct participants keep to; `prevoted a r v` and
`precommitted a r v` say that `a` gave that vote for `v` in round `r`. -/
structure Discipline (R : Roster α) (prevoted precommitted : α → Nat → β → Prop) : Prop where
  unique : ∀ {a r v w}, R.Correct a → prevoted a r v → prevoted a r w → v = w
  backed : ∀ {a r v}, R.Correct a → precommitted a r v → R.QuorumOf (prevoted · r v)
  justified : ∀ {a r r' v w}, R.Correct a → precommitted a r v → prevoted a r' w → r < r' →
    w ≠ v → ∃ r'', r ≤ r'' ∧ r'' < r' ∧ R.QuorumOf (prevoted · r'' w)

namespace Discipline

variable {R : Roster α} {prevoted precommitted : α → Nat → β → Prop}

/-- Once `n - 2 f` correct participants precommitted `v` in round `r`, no
other value has a polka in round `r` or later. -/
theorem polka_unique (h : Discipline R prevoted precommitted) {A : Finset α} {r : Nat} {v : β}
    (hA : ∀ a ∈ A, R.Correct a ∧ precommitted a r v) (hcard : R.n - R.f - R.f ≤ A.card)
    {r' : Nat} (hle : r ≤ r') {w : β} (hpolka : R.QuorumOf (prevoted · r' w)) : w = v := by
  -- by induction on the round of the polka; the polka meets `A`
  induction r' using Nat.strong_induction_on generalizing w with
  | _ r' ih =>
      by_contra hne
      rcases hpolka.exists_mem (fun a ha => (hA a ha).1) hcard with ⟨a, haA, hprevote⟩
      rcases hA a haA with ⟨hcorrect, hprecommit⟩
      rcases Nat.eq_or_lt_of_le hle with rfl | hlt
      · -- in round `r` itself both values would have a polka
        rcases hpolka.exists_both (h.backed hcorrect hprecommit) with ⟨b, hb, hw, hv⟩
        exact hne (h.unique hb hw hv)
      · rcases h.justified hcorrect hprecommit hprevote hlt hne with ⟨r'', hle', hlt', hearlier⟩
        exact hne (ih r'' hlt' hle' hearlier)

/-- Decisions agree: a value is decided by a quorum of precommits for it in
one round. -/
theorem decisions_agree (h : Discipline R prevoted precommitted) {r₁ r₂ : Nat} {v₁ v₂ : β}
    (h₁ : R.QuorumOf (precommitted · r₁ v₁)) (h₂ : R.QuorumOf (precommitted · r₂ v₂)) :
    v₁ = v₂ := by
  have hlater : ∀ {r r' : Nat} {v w : β}, R.QuorumOf (precommitted · r v) →
      R.QuorumOf (precommitted · r' w) → r ≤ r' → w = v := by
    intro r r' v w hv hw hle
    rcases hv.exists_correct with ⟨A, hcard, hA⟩
    rcases hw.exists_both hw with ⟨a, hcorrect, hprecommit, _⟩
    exact h.polka_unique hA hcard hle (h.backed hcorrect hprecommit)
  rcases Nat.le_total r₁ r₂ with hle | hle
  · exact (hlater h₁ h₂ hle).symm
  · exact hlater h₂ h₁ hle

end Discipline

end LockedVoting
