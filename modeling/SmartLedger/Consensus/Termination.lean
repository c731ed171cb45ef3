import SmartLedger.Consensus.Arithmetic
import SmartLedger.Consensus.Roster

/-! # The iterations of `advance`

The model of the loop of `advance` counts its passes. Here are the iterations
of the loop itself (`Iterates`): no sequence of them is as long as that count,
and the loop ends where no rule is enabled, or with the panic of a rule
(`loop_ends`). A rule panics only where a sum does not fit a `u64`, or where a
committed block leaves no validator, and `Passable` says of a state that its
next rule does neither. The loop comes to rest exactly when every state it
passes through is passable (`advance_terminates`).
-/

namespace SmartLedger

/-- The computation fails in checked arithmetic or on an empty roster, if at
all. -/
def Exec.Guarded {α : Type} (x : Exec α) : Prop :=
  ∀ p, x = .error p → p = .overflow ∨ p = .zeroThreshold

namespace Exec.Guarded

variable {α β : Type}

theorem ok (a : α) : Exec.Guarded (.ok a) := by
  intro p hp
  cases hp

theorem bind {x : Exec α} {f : α → Exec β} (h : x.Guarded)
    (hf : ∀ a, x = .ok a → (f a).Guarded) : Exec.Guarded (x >>= f) := by
  cases x with
  | ok a => exact hf a rfl
  | error q =>
      intro p hp
      exact h p (congrArg Except.error (Except.error.inj hp))

theorem map {x : Exec α} (h : x.Guarded) (f : α → β) : Exec.Guarded (f <$> x) := by
  cases x with
  | ok a => exact ok _
  | error q =>
      intro p hp
      exact h p (congrArg Except.error (Except.error.inj hp))

theorem checkedAdd (a b : UInt64) : Exec.Guarded (SmartLedger.checkedAdd a b) := by
  unfold SmartLedger.checkedAdd
  split
  · exact ok _
  · intro p hp
    exact Or.inl (Except.error.inj hp).symm

end Exec.Guarded

open Engine

variable {C : Crypto} {ord : IterOrder} {e e' : Engine C} {out : List (Effect C)}

theorem OnChain.rostered {s₀ : ChainState C} {bs : List (Block C)} (h : OnChain s₀ bs e) :
    e.Rostered := by
  unfold Rostered
  rw [h.roster, length_sortById]

/-- A roster that is there has a set. -/
theorem activeSet_guarded (reg : ValidatorRegistry C) (height : UInt64) :
    Exec.Guarded (reg.activeSet height) := by
  unfold ValidatorRegistry.activeSet ValidatorSet.bft ValidatorSet.new
  dsimp only
  split
  · split
    · exact Exec.Guarded.ok _
    · next hle => omega
  · intro p hp
    exact Or.inr (Except.error.inj hp).symm

namespace Engine

/-! ## How a rule can panic -/

theorem startRound_guarded (h : e.Rostered) (r : UInt64) : Exec.Guarded (e.startRound r) := by
  unfold startRound
  dsimp only
  split
  · exact Exec.Guarded.ok _
  · unfold enterPropose isProposer proposer
    refine Exec.Guarded.bind (Exec.Guarded.bind ?_ fun _ _ => Exec.Guarded.ok _) ?_
    · refine (Exec.Guarded.checkedAdd _ _).bind ?_
      intro slot _
      have hslot : slot.toNat % e.n < e.validatorsSorted.length := Nat.mod_lt _ h.n_pos
      dsimp only [n] at hslot ⊢
      rw [List.getElem?_eq_getElem hslot]
      exact Exec.Guarded.ok _
    · intro mine _
      dsimp only
      split
      · exact Exec.Guarded.ok _
      · exact Exec.Guarded.ok _

theorem commit_guarded (ord : IterOrder) (e : Engine C) (r : UInt64) (id : Hash)
    (v : Proposed C) : Exec.Guarded (e.commit ord r id v) := by
  unfold commit
  refine (Exec.Guarded.checkedAdd _ _).bind ?_
  intro height _
  refine Exec.Guarded.bind ((activeSet_guarded _ _).bind fun _ _ => Exec.Guarded.ok _) ?_
  intro e₁ hreload
  rcases reloadSet_eq_ok hreload with ⟨set, _, rfl⟩
  refine Exec.Guarded.bind (startRound_guarded ?_ _) fun _ _ => Exec.Guarded.ok _
  exact length_sortById _

/-- The commit rule looks up the proposals it found in the same map. -/
theorem tryCommitFrom_guarded {l : List (UInt64 × Hash)}
    (hl : ∀ p ∈ l, (e.proposals.lookup p.1).isSome) : Exec.Guarded (e.tryCommitFrom ord l) := by
  induction l with
  | nil => exact Exec.Guarded.ok _
  | cons p rest ih =>
      rcases p with ⟨r, id⟩
      have hrest := ih fun q hq => hl q (List.mem_cons_of_mem _ hq)
      rcases Option.isSome_iff_exists.mp (hl (r, id) List.mem_cons_self) with ⟨pm, hpm⟩
      dsimp only at hpm
      unfold tryCommitFrom
      split
      · rw [hpm]
        dsimp only
        split
        · exact (commit_guarded ord e r id pm.value).map _
        · exact hrest
      · exact hrest

theorem applyRule_guarded (h : e.Rostered) : Exec.Guarded (e.applyRule ord) := by
  unfold applyRule
  refine Exec.Guarded.bind ?_ ?_
  · apply tryCommitFrom_guarded
    intro p hp
    rcases List.mem_map.mp hp with ⟨⟨r, pm⟩, hmem, rfl⟩
    exact Option.isSome_iff_exists.mpr ⟨pm, KeyMap.mem_iter.mp hmem⟩
  · intro committed _
    cases committed with
    | some res => exact Exec.Guarded.ok _
    | none =>
        refine Exec.Guarded.bind ?_ ?_
        · unfold trySkip
          split
          · exact (startRound_guarded h _).map _
          · exact Exec.Guarded.ok _
        · intro skipped _
          cases skipped with
          | some res => exact Exec.Guarded.ok _
          | none => exact Exec.Guarded.ok _

/-! ## Where no rule panics -/

/-- What the commit rule looks for. -/
def commits (e : Engine C) (entry : UInt64 × ProposalMsg C) : Bool :=
  decide (e.quorum ≤ e.countPrecommits entry.1 (.id entry.2.value.id)) &&
    entry.2.value.isValid e.tip e.height e.currentSet

/-- The stored proposal the commit rule would take, with its round: the first
one in the order of the map. -/
def nextCommit (ord : IterOrder) (e : Engine C) : Option (UInt64 × ProposalMsg C) :=
  (KeyMap.iter ord.rounds e.proposals).find? e.commits

/-- The round the skip rule would jump to. -/
def nextSkip (e : Engine C) : Option UInt64 :=
  (ascendingRounds.order e.laterRounds).find? fun r => e.f < (e.votersOf r).card

/-- The next rule does not panic: the block that is to be committed leaves a
validator and the height a successor; and with no block to commit, the slot of
the round that is to be entered can be computed. -/
structure Passable (ord : IterOrder) (e : Engine C) : Prop where
  height : ∀ r pm, e.nextCommit ord = some (r, pm) → e.height.toNat + 1 < 2 ^ 64
  roster : ∀ r pm, e.nextCommit ord = some (r, pm) →
    ∃ k, LeftIn e.registry.genesis (e.registry.changes ++ pm.value.governance.map (·.change))
      (e.height + 1) k
  slot : e.nextCommit ord = none → ∀ r, e.nextSkip = some r →
    e.height.toNat + r.toNat < 2 ^ 64

theorem activeSet_isOk_iff (reg : ValidatorRegistry C) (h : UInt64) :
    (∃ set, reg.activeSet h = .ok set) ↔ ∃ k, LeftIn reg.genesis reg.changes h k := by
  unfold ValidatorRegistry.activeSet
  rw [ValidatorSet.bft_isOk_iff, ValidatorRegistry.activeKeys_ne_nil_iff]

theorem proposer_isOk_iff (h : e.Rostered) (r : UInt64) :
    (∃ key, e.proposer r = .ok key) ↔ e.height.toNat + r.toNat < 2 ^ 64 := by
  unfold proposer
  rw [← checkedAdd_isOk_iff]
  constructor
  · rintro ⟨key, hkey⟩
    rw [Exec.bind_eq_ok] at hkey
    exact hkey.imp fun _ hslot => hslot.1
  · rintro ⟨slot, hslot⟩
    have hlt : slot.toNat % e.n < e.validatorsSorted.length := Nat.mod_lt _ h.n_pos
    refine ⟨e.validatorsSorted[slot.toNat % e.n], ?_⟩
    rw [hslot]
    simp only [bind, Except.bind]
    rw [List.getElem?_eq_getElem hlt]
    rfl

theorem enterPropose_isOk_iff (h : e.Rostered) (r : UInt64) :
    (∃ res, e.enterPropose r = .ok res) ↔ e.height.toNat + r.toNat < 2 ^ 64 := by
  rw [← proposer_isOk_iff h]
  unfold enterPropose isProposer
  constructor
  · rintro ⟨res, hres⟩
    rw [Exec.bind_eq_ok] at hres
    rcases hres with ⟨mine, hmine, _⟩
    rw [Exec.bind_eq_ok] at hmine
    exact hmine.imp fun _ hkey => hkey.1
  · rintro ⟨key, hkey⟩
    rw [hkey]
    simp only [bind, Except.bind, pure, Except.pure]
    split
    · exact ⟨_, rfl⟩
    · exact ⟨_, rfl⟩

theorem startRound_isOk (h : e.Rostered) {r : UInt64} (hr : e.height.toNat + r.toNat < 2 ^ 64) :
    ∃ res, e.startRound r = .ok res := by
  have hrostered : Rostered { e with round := r, step := .propose, parked := false } := h
  unfold startRound
  dsimp only
  split
  · exact ⟨_, rfl⟩
  · exact (enterPropose_isOk_iff hrostered r).mpr hr

/-- A round beyond 0 is never parked. -/
theorem startRound_isOk_iff (h : e.Rostered) {r : UInt64} (hr : r ≠ 0) :
    (∃ res, e.startRound r = .ok res) ↔ e.height.toNat + r.toNat < 2 ^ 64 := by
  have hrostered : Rostered { e with round := r, step := .propose, parked := false } := h
  rw [← enterPropose_isOk_iff hrostered r]
  unfold startRound
  rw [if_neg (by simp [hr])]

theorem commit_isOk_iff (ord : IterOrder) (e : Engine C) (r : UInt64) (v : Proposed C) :
    (∃ res, e.commit ord r v.id v = .ok res) ↔
      e.height.toNat + 1 < 2 ^ 64 ∧
      ∃ k, LeftIn e.registry.genesis (e.registry.changes ++ v.governance.map (·.change))
        (e.height + 1) k := by
  have hleft := activeSet_isOk_iff (e.registry.recordAll v.governance) (e.height + 1)
  rw [ValidatorRegistry.recordAll_genesis, ValidatorRegistry.recordAll_changes] at hleft
  rw [← hleft]
  constructor
  · rintro ⟨⟨e', out⟩, hcommit⟩
    rcases commit_cases hcommit with ⟨height, set, _, hheight, hset, _⟩
    have hroom : e.height.toNat + 1 < 2 ^ 64 := (checkedAdd_isOk_iff (b := 1)).mp ⟨_, hheight⟩
    have hnext : checkedAdd e.height 1 = .ok (e.height + 1) := if_pos hroom
    rw [hnext] at hheight
    obtain rfl := Except.ok.inj hheight
    exact ⟨hroom, set, hset⟩
  · rintro ⟨hroom, set, hset⟩
    have hheight : checkedAdd e.height 1 = .ok (e.height + 1) := if_pos hroom
    -- round 0 of the next height is entered under a set that is there
    have hrostered : (e.rolled v (dropEnacted v.governance e.govMempool) (e.height + 1)
        set).Rostered := length_sortById _
    rcases startRound_isOk (r := 0) hrostered (UInt64.toNat_lt _) with ⟨⟨e', out⟩, hstart⟩
    have hreload : reloadSet { e with
        mempool := dropSealed v.attestations e.mempool
        registry := e.registry.recordAll v.governance
        govMempool := dropEnacted v.governance e.govMempool
        height := e.height + 1
        tip := v.id } = .ok { e with
        mempool := dropSealed v.attestations e.mempool
        registry := e.registry.recordAll v.governance
        govMempool := dropEnacted v.governance e.govMempool
        height := e.height + 1
        tip := v.id
        currentSet := set
        validatorsSorted := sortById set.validators } := by
      unfold reloadSet
      simp only [hset]
      rfl
    refine ⟨(e', .committed (e.assembleBlock ord r v.id v) :: out), ?_⟩
    unfold commit
    simp only [Exec.bind_eq_ok]
    exact ⟨_, hheight, _, hreload, ⟨e', out⟩, hstart, rfl⟩

/-- Whether a state is passable is computed. -/
theorem passable_iff :
    Passable ord e ↔
      (∀ entry ∈ e.nextCommit ord, e.height.toNat + 1 < 2 ^ 64 ∧
        (e.registry.recordAll entry.2.value.governance).activeKeys (e.height + 1) ≠ []) ∧
      (e.nextCommit ord = none → ∀ r ∈ e.nextSkip, e.height.toNat + r.toNat < 2 ^ 64) := by
  simp only [ValidatorRegistry.activeKeys_ne_nil_iff, ValidatorRegistry.recordAll_genesis,
    ValidatorRegistry.recordAll_changes, Option.mem_def]
  constructor
  · intro hpass
    constructor
    · rintro ⟨r, pm⟩ hcommit
      exact ⟨hpass.height r pm hcommit, hpass.roster r pm hcommit⟩
    · exact hpass.slot
  · rintro ⟨hcommit, hslot⟩
    constructor
    · intro r pm hsome
      exact (hcommit (r, pm) hsome).1
    · intro r pm hsome
      exact (hcommit (r, pm) hsome).2
    · exact hslot

instance Passable.decidable (ord : IterOrder) (e : Engine C) : Decidable (Passable ord e) :=
  -- the one round is looked at, not every round there is
  have : Decidable (∀ r ∈ e.nextSkip, e.height.toNat + r.toNat < 2 ^ 64) :=
    Option.decidableForallMem e.nextSkip
  decidable_of_iff' _ passable_iff

/-- The loop of the commit rule takes the first candidate. -/
theorem tryCommitFrom_eq (l : List (UInt64 × ProposalMsg C))
    (hl : ∀ p ∈ l, e.proposals.lookup p.1 = some p.2) :
    (l.find? e.commits = none →
      e.tryCommitFrom ord (l.map fun p => (p.1, p.2.value.id)) = .ok none) ∧
    ∀ r pm, l.find? e.commits = some (r, pm) →
      e.tryCommitFrom ord (l.map fun p => (p.1, p.2.value.id)) =
        some <$> e.commit ord r pm.value.id pm.value := by
  induction l with
  | nil => simp [tryCommitFrom]
  | cons p rest ih =>
      rcases p with ⟨r₁, pm₁⟩
      have hpm₁ : e.proposals.lookup r₁ = some pm₁ := hl (r₁, pm₁) List.mem_cons_self
      have hrest := ih fun q hq => hl q (List.mem_cons_of_mem _ hq)
      rw [List.map_cons]
      unfold tryCommitFrom
      simp only [hpm₁]
      -- the head is the candidate, or is passed over
      by_cases hcommits : e.commits (r₁, pm₁) = true
      · have hboth := hcommits
        unfold commits at hboth
        rw [Bool.and_eq_true, decide_eq_true_eq] at hboth
        rw [if_pos hboth.1, if_pos hboth.2, List.find?_cons_of_pos hcommits]
        constructor
        · intro hnone
          cases hnone
        · intro r pm hsome
          rw [Option.some.injEq, Prod.mk.injEq] at hsome
          rcases hsome with ⟨rfl, rfl⟩
          rfl
      · have hneither := hcommits
        unfold commits at hneither
        rw [Bool.and_eq_true, decide_eq_true_eq, not_and] at hneither
        rw [List.find?_cons_of_neg hcommits]
        by_cases hquorum : e.quorum ≤ e.countPrecommits r₁ (.id pm₁.value.id)
        · rw [if_pos hquorum, if_neg (hneither hquorum)]
          exact hrest
        · rw [if_neg hquorum]
          exact hrest

theorem lookup_of_mem_iter {p : UInt64 × ProposalMsg C}
    (hp : p ∈ KeyMap.iter ord.rounds e.proposals) : e.proposals.lookup p.1 = some p.2 :=
  KeyMap.mem_iter.mp hp

theorem tryCommit_of_none (h : e.nextCommit ord = none) : e.tryCommit ord = .ok none :=
  (tryCommitFrom_eq _ fun _ hp => lookup_of_mem_iter hp).1 h

theorem tryCommit_of_some {r : UInt64} {pm : ProposalMsg C} (h : e.nextCommit ord = some (r, pm)) :
    e.tryCommit ord = some <$> e.commit ord r pm.value.id pm.value :=
  (tryCommitFrom_eq _ fun _ hp => lookup_of_mem_iter hp).2 r pm h

theorem nextSkip_ne_zero {r : UInt64} (h : e.nextSkip = some r) : r ≠ 0 := by
  have hmem := List.mem_of_find?_eq_some h
  rw [KeyOrder.mem_order] at hmem
  have hlt : e.round < r := (Finset.mem_filter.mp hmem).2
  rw [UInt64.lt_iff_toNat_lt] at hlt
  rintro rfl
  exact absurd hlt (Nat.not_lt_zero _)

/-- The next rule returns exactly in a passable state. -/
theorem applyRule_isOk_iff (h : e.Rostered) :
    (∃ res, e.applyRule ord = .ok res) ↔ Passable ord e := by
  cases hcommit : e.nextCommit ord with
  | some entry =>
      rcases entry with ⟨r, pm⟩
      -- a commit comes before every other rule
      have hrule : (∃ res, e.applyRule ord = .ok res) ↔
          ∃ res, e.commit ord r pm.value.id pm.value = .ok res := by
        unfold applyRule
        rw [tryCommit_of_some hcommit]
        cases e.commit ord r pm.value.id pm.value with
        | ok res => exact ⟨fun _ => ⟨_, rfl⟩, fun _ => ⟨some res, rfl⟩⟩
        | error p => simp [bind, Except.bind, Functor.map, Except.map]
      rw [hrule, commit_isOk_iff]
      constructor
      · rintro ⟨hheight, hleft⟩
        constructor
        · intro _ _ _
          exact hheight
        · intro r' pm' hsome
          rw [hcommit, Option.some.injEq, Prod.mk.injEq] at hsome
          rcases hsome with ⟨rfl, rfl⟩
          exact hleft
        · intro hnone
          rw [hcommit] at hnone
          cases hnone
      · intro hpass
        exact ⟨hpass.height r pm hcommit, hpass.roster r pm hcommit⟩
  | none =>
      -- without one, only a skip can panic
      have hpassable : Passable ord e ↔
          ∀ r, e.nextSkip = some r → e.height.toNat + r.toNat < 2 ^ 64 := by
        constructor
        · intro hpass
          exact hpass.slot hcommit
        · intro hslot
          constructor
          · intro _ _ hsome
            rw [hcommit] at hsome
            cases hsome
          · intro _ _ hsome
            rw [hcommit] at hsome
            cases hsome
          · intro _
            exact hslot
      rw [hpassable]
      unfold applyRule
      rw [tryCommit_of_none hcommit]
      cases hskip : e.nextSkip with
      | none =>
          have htry : e.trySkip = .ok none := by
            unfold trySkip
            rw [show List.find? _ _ = none from hskip]
          rw [htry]
          simp [bind, Except.bind, pure, Except.pure]
      | some r =>
          have htry : e.trySkip = some <$> e.startRound r := by
            unfold trySkip
            rw [show List.find? _ _ = some r from hskip]
          rw [htry]
          have hiff := startRound_isOk_iff h (nextSkip_ne_zero hskip)
          simp only [Option.some.injEq, forall_eq', ← hiff]
          cases e.startRound r with
          | ok res => simp [bind, Except.bind, pure, Except.pure, Functor.map, Except.map]
          | error p => simp [bind, Except.bind, Functor.map, Except.map]

/-! ## The iterations -/

/-- `n` iterations of the loop. -/
inductive Iterates (ord : IterOrder) :
    Engine C → Nat → List (Effect C) → Engine C → Prop where
  | refl (e : Engine C) : Iterates ord e 0 [] e
  | rule {e e₁ e' : Engine C} {n : Nat} {out out' : List (Effect C)}
      (hrule : e.applyRule ord = .ok (some (e₁, out))) (rest : Iterates ord e₁ n out' e') :
      Iterates ord e (n + 1) (out ++ out') e'

/-- The states of the first iterations are passable. -/
def passesThrough (ord : IterOrder) : Nat → Engine C → Bool
  | 0, _ => false
  | fuel + 1, e => decide (Passable ord e) &&
      match e.applyRule ord with
      | .ok (some (e', _)) => passesThrough ord fuel e'
      | _ => true

/-- Passes that are enough from here on. -/
def Fueled (fuel : Nat) (e : Engine C) : Prop :=
  e.rank + 6 < fuel ∨ e.SelfFed ∧ e.rank < fuel

theorem fueled_advanceFuel (e : Engine C) : Fueled e.advanceFuel e := by
  have hround := e.roundLeft_le
  left
  unfold rank advanceFuel poolSize
  omega

theorem Fueled.pos {fuel : Nat} (h : Fueled fuel e) : 0 < fuel := by
  rcases h with h | ⟨_, h⟩
  · omega
  · omega

/-- Every rule uses up a pass. -/
theorem Fueled.rule {fuel : Nat} (h : Fueled (fuel + 1) e)
    (hrule : e.applyRule ord = .ok (some (e', out))) : Fueled fuel e' := by
  -- the first commit may come from outside and costs one height
  rcases (applyRule_fires hrule).rank_lt with ⟨hlt, hkeeps⟩ | ⟨hfed, hlt, hshrinks⟩
  · rcases h with hany | ⟨hself, hrank⟩
    · exact Or.inl (by omega)
    · exact Or.inr ⟨hkeeps hself, by omega⟩
  · rcases h with hany | ⟨hself, hrank⟩
    · exact Or.inr ⟨hfed, by omega⟩
    · have hless := hshrinks hself
      exact Or.inr ⟨hfed, by omega⟩

namespace Iterates

variable {n fuel : Nat}

theorem lt_fuel (h : Iterates ord e n out e') (hfuel : Fueled fuel e) : n < fuel := by
  induction h generalizing fuel with
  | refl e => exact hfuel.pos
  | rule hrule _ ih =>
      obtain ⟨fuel, rfl⟩ : ∃ k, fuel = k + 1 := ⟨fuel - 1, by have := hfuel.pos; omega⟩
      have hlt := ih (hfuel.rule hrule)
      omega

theorem trace {guard : Engine C → Event C → Prop} {e₀ : Engine C} {evs : List (Event C)}
    {log : List (Output C)} (h : Iterates ord e n out e') (ht : Trace guard e₀ evs log e) :
    Trace guard e₀ evs (log ++ effects out) e' := by
  induction h generalizing log with
  | refl e => simpa using ht
  | rule hrule _ ih =>
      rw [effects_append, ← List.append_assoc]
      exact ih (Trace.internal ht (applyRule_fires hrule).internal)

/-- The rules of every state the loop passes through on its way to the end
return. -/
theorem isOk {n' : Nat} {out' : List (Effect C)} {e₁ : Engine C} (h : Iterates ord e n out e₁)
    (hall : Iterates ord e n' out' e') (hend : e'.applyRule ord = .ok none) :
    ∃ res, e₁.applyRule ord = .ok res := by
  induction h generalizing n' out' with
  | refl e =>
      cases hall with
      | refl => exact ⟨none, hend⟩
      | rule hrule _ => exact ⟨_, hrule⟩
  | rule hrule _ ih =>
      cases hall with
      | refl =>
          rw [hend] at hrule
          cases hrule
      | rule hrule' rest =>
          rw [hrule] at hrule'
          have heq := Option.some.inj (Except.ok.inj hrule')
          rw [Prod.mk.injEq] at heq
          rcases heq with ⟨rfl, rfl⟩
          exact ih rest

theorem passable (h : Iterates ord e n out e') (hall : passesThrough ord fuel e = true) :
    Passable ord e' := by
  induction h generalizing fuel with
  | refl e =>
      cases fuel with
      | zero => cases hall
      | succ fuel =>
          unfold passesThrough at hall
          rw [Bool.and_eq_true] at hall
          exact of_decide_eq_true hall.1
  | rule hrule _ ih =>
      cases fuel with
      | zero => cases hall
      | succ fuel =>
          unfold passesThrough at hall
          rw [Bool.and_eq_true, hrule] at hall
          exact ih hall.2

/-- The loop returns where its iterations end. -/
theorem advanceLoop_eq (h : Iterates ord e n out e') (hend : e'.applyRule ord = .ok none)
    (hlt : n < fuel) : advanceLoop ord fuel e = .ok (e', out) := by
  induction h generalizing fuel with
  | refl e =>
      obtain ⟨fuel, rfl⟩ : ∃ k, fuel = k + 1 := ⟨fuel - 1, by omega⟩
      unfold advanceLoop
      rw [hend]
      rfl
  | rule hrule _ ih =>
      obtain ⟨fuel, rfl⟩ : ∃ k, fuel = k + 1 := ⟨fuel - 1, by omega⟩
      unfold advanceLoop
      rw [hrule]
      have hrest : advanceLoop ord fuel _ = .ok _ := ih hend (by omega)
      simp only [bind, Except.bind, hrest]
      rfl

end Iterates

/-- With enough passes the loop is followed to its end. -/
theorem exists_iterates_end (ord : IterOrder) {fuel : Nat} (hfuel : Fueled fuel e) :
    ∃ n out e', Iterates ord e n out e' ∧
      ((e'.applyRule ord = .ok none ∧ advanceLoop ord fuel e = .ok (e', out)) ∨
        ∃ p, e'.applyRule ord = .error p ∧ advanceLoop ord fuel e = .error p) := by
  induction fuel generalizing e with
  | zero => exact absurd hfuel.pos (lt_irrefl 0)
  | succ fuel ih =>
      cases hrule : e.applyRule ord with
      | error p =>
          refine ⟨0, [], e, Iterates.refl e, Or.inr ⟨p, hrule, ?_⟩⟩
          unfold advanceLoop
          rw [hrule]
          rfl
      | ok rule =>
          cases rule with
          | none =>
              refine ⟨0, [], e, Iterates.refl e, Or.inl ⟨hrule, ?_⟩⟩
              exact (Iterates.refl e).advanceLoop_eq hrule (Nat.succ_pos fuel)
          | some res =>
              rcases res with ⟨e₁, o₁⟩
              rcases ih (hfuel.rule hrule) with ⟨n, out, e', hiter, hend⟩
              refine ⟨n + 1, o₁ ++ out, e', Iterates.rule hrule hiter, ?_⟩
              -- one pass, then the rest with the fuel that is left
              have hloop : advanceLoop ord (fuel + 1) e = do
                  let rest ← advanceLoop ord fuel e₁
                  return (rest.1, o₁ ++ rest.2) := by
                conv_lhs => unfold advanceLoop
                rw [hrule]
                rfl
              rw [hloop]
              rcases hend with ⟨hnone, heq⟩ | ⟨p, hpanic, heq⟩
              · refine Or.inl ⟨hnone, ?_⟩
                rw [heq]
                rfl
              · refine Or.inr ⟨p, hpanic, ?_⟩
                rw [heq]
                rfl

end Engine

/-- In every state an engine can reach, in the middle of a handler too, the
loop ends, at rest or with a panic. It panics because a sum does not fit, or
because no validator is left. -/
theorem loop_ends {registry : ValidatorRegistry C} {meSk : C.SigningKey}
    {mePk : C.VerifyingKey} {tip₀ : Hash} {h₀ : UInt64} {e₀ : Engine C}
    {evs : List (Event C)} {log : List (Output C)}
    (hnew : withRegistry registry meSk mePk tip₀ h₀ = .ok e₀)
    (h : Trace anyEvent e₀ evs log e) (ord : IterOrder) :
    ∃ n out e', Iterates ord e n out e' ∧ e'.Rostered ∧
      ((e'.applyRule ord = .ok none ∧ e.advance ord = .ok (e', out)) ∨
        ∃ p, (p = .overflow ∨ p = .zeroThreshold) ∧ e'.applyRule ord = .error p ∧
          e.advance ord = .error p) := by
  rcases exists_iterates_end ord e.fueled_advanceFuel with ⟨n, out, e', hiter, hend⟩
  have hrostered := ((OnChain.withRegistry hnew).trace (hiter.trace h)).rostered
  refine ⟨n, out, e', hiter, hrostered, ?_⟩
  rcases hend with hrest | ⟨p, hpanic, hadv⟩
  · exact Or.inl hrest
  · exact Or.inr ⟨p, applyRule_guarded hrostered p hpanic, hpanic, hadv⟩

/-- The loop of `advance` terminates. In every state an engine can reach, in
the middle of a handler too, no sequence of iterations is as long as
`advanceFuel`. The loop returns from a state in which no rule is enabled
exactly when the states it passes through are all passable: no block it commits
leaves the next height without a validator, and no sum overflows. -/
theorem advance_terminates {registry : ValidatorRegistry C} {meSk : C.SigningKey}
    {mePk : C.VerifyingKey} {tip₀ : Hash} {h₀ : UInt64} {e₀ : Engine C}
    {evs : List (Event C)} {log : List (Output C)}
    (hnew : withRegistry registry meSk mePk tip₀ h₀ = .ok e₀)
    (h : Trace anyEvent e₀ evs log e) (ord : IterOrder) :
    (∀ n out e', Iterates ord e n out e' → n < e.advanceFuel) ∧
    ((∃ n out e', Iterates ord e n out e' ∧ e'.applyRule ord = .ok none ∧
        e.advance ord = .ok (e', out)) ↔
      ∀ n out e', Iterates ord e n out e' → Passable ord e') := by
  constructor
  · intro n out e' hiter
    exact hiter.lt_fuel e.fueled_advanceFuel
  constructor
  · rintro ⟨n, out, e', hiter, hend, _⟩ n₁ out₁ e₁ hpart
    have hrostered := ((OnChain.withRegistry hnew).trace (hpart.trace h)).rostered
    -- what the loop passed through on the way to its end did not panic
    exact (applyRule_isOk_iff hrostered).mp (hpart.isOk hiter hend)
  · intro hpass
    rcases loop_ends hnew h ord with ⟨n, out, e', hiter, hrostered, hrest | ⟨p, _, hpanic, _⟩⟩
    · exact ⟨n, out, e', hiter, hrest⟩
    · rcases (applyRule_isOk_iff hrostered).mpr (hpass n out e' hiter) with ⟨res, hok⟩
      rw [hpanic] at hok
      cases hok

/-- The lone validator 1 where it enters the loop, woken up by a change. -/
def wokenBy (change : SignedValidatorChange sample) : Exec (Engine sample) := do
  let (e, _) ← sampleRun [1] 1 [.start]
  if e.acceptsGovernance change then
    let (e, _) ← unpark { e with govMempool := e.govMempool ++ [change] }
    return e
  else throw .expectedPresent

theorem trace_wokenBy {change : SignedValidatorChange sample} {e : Engine sample}
    (h : wokenBy change = .ok e) :
    ∃ e₀ evs log, sampleEngine [1] 1 = .ok e₀ ∧ Trace anyEvent e₀ evs log e := by
  unfold wokenBy at h
  rw [Exec.bind_eq_ok] at h
  rcases h with ⟨⟨e₁, log⟩, hrun, hwake⟩
  rcases Exec.bind_eq_ok.mp hrun with ⟨e₀, hnew, hall⟩
  have hone : Run anyEvent e₀ [.start] log e₁ := Run.of_handleAll (fun _ _ _ => trivial) hall
  dsimp only at hwake
  split at hwake
  · next hacc =>
      rw [Exec.bind_eq_ok] at hwake
      rcases hwake with ⟨⟨e₂, o₂⟩, hunpark, hwake⟩
      obtain rfl : e₂ = e := Except.ok.inj hwake
      have hints : Internals sampleOrder _ o₂ e₂ := unpark_internals hunpark
      exact ⟨e₀, _, _, hnew,
        (hone.trace.enter trivial (Enter.governance hacc)).internals hints⟩
  · cases hwake

/-- Woken up by the addition of a validator, it passes through passable states
only, the commit of the change among them, and rests. -/
theorem advance_terminates_lone :
    ∃ (e e' : Engine sample) (n : Nat) (out : List (Effect sample)),
      wokenBy (sampleChange [2] [] 5 [1]) = .ok e ∧
      (∀ n out e', Iterates sampleOrder e n out e' → Passable sampleOrder e') ∧
      n < e.advanceFuel ∧ Iterates sampleOrder e n out e' ∧
      e'.applyRule sampleOrder = .ok none ∧ (finalized (effects out)).length = 1 := by
  have hholds : Exec.holds (do
      let e ← wokenBy (sampleChange [2] [] 5 [1])
      let res ← e.advance sampleOrder
      return (e, res)) (fun r => passesThrough sampleOrder r.1.advanceFuel r.1 &&
        decide ((finalized (effects r.2.2)).length = 1)) = true := by
    decide +kernel
  rcases Exec.holds_iff.mp hholds with ⟨⟨e, e₁, o₁⟩, hrun, hboth⟩
  rw [Bool.and_eq_true, decide_eq_true_eq] at hboth
  simp only [Exec.bind_eq_ok] at hrun
  rcases hrun with ⟨e₂, hwoken, res, hadv, hret⟩
  rcases Exec.ok_pair hret with ⟨rfl, rfl⟩
  rcases trace_wokenBy hwoken with ⟨e₀, evs, log, hnew, htrace⟩
  have hpass : ∀ n out e', Iterates sampleOrder e n out e' → Passable sampleOrder e' := by
    intro n out e' hiter
    exact hiter.passable hboth.1
  rcases advance_terminates hnew htrace sampleOrder with ⟨hbound, hrests⟩
  rcases hrests.mpr hpass with ⟨n, out, e', hiter, hrest, heq⟩
  rw [hadv] at heq
  rcases Exec.ok_pair heq with ⟨rfl, rfl⟩
  exact ⟨e, _, n, _, hwoken, hpass, hbound n _ _ hiter, hiter, hrest, hboth.2⟩

/-- Woken up by its own removal, which nobody follows, it commits the change
and panics on the empty roster: its loop has no end. -/
theorem advance_panics :
    ¬ ∀ (e₀ e : Engine sample) (evs : List (Event sample)) (log : List (Output sample)),
      sampleEngine [1] 1 = .ok e₀ → Trace anyEvent e₀ evs log e →
      ∃ n out e', Iterates sampleOrder e n out e' ∧ e'.applyRule sampleOrder = .ok none := by
  intro hall
  have hholds : (wokenBy (sampleChange [] [1] 2 [1])).holds
      (fun e => !(e.advance sampleOrder).holds fun _ => true) = true := by decide +kernel
  rcases Exec.holds_iff.mp hholds with ⟨e, hwoken, hpanics⟩
  rcases trace_wokenBy hwoken with ⟨e₀, evs, log, hnew, htrace⟩
  rcases hall e₀ e evs log hnew htrace with ⟨n, out, e', hiter, hrest⟩
  have hadv : e.advance sampleOrder = .ok (e', out) :=
    hiter.advanceLoop_eq hrest (hiter.lt_fuel e.fueled_advanceFuel)
  rw [hadv] at hpanics
  cases hpanics

end SmartLedger
