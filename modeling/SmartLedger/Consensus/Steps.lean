import SmartLedger.Consensus.Chain
import SmartLedger.Consensus.Engine

/-! # What a step of the engine can do

Every handler of the engine is a change of its inputs followed by internal
steps. `Internal` lists them, each with its guard and its effect on the
state; the rest of the development argues over these cases and never unfolds
a handler again.

* `applyRule_fires`: what `advance` applies is one of its rules (`Fires`), and
  so an internal step.
* `start_steps`, `onMessage_steps`, `onTimeout_steps`, `addAttestation_steps`,
  `addGovernance_steps`, `applySyncedBlock_cases`: the handlers.
-/

namespace SmartLedger

variable {C : Crypto} {ord : IterOrder} {e e' : Engine C} {out : List (Effect C)}

namespace Engine

/-! ## The pieces of a step -/

/-- The vote this engine casts now. -/
def ownVote (e : Engine C) (voteType : VoteType) (id : Option Hash) : VoteMsg C :=
  VoteMsg.create e.meSk e.mePk e.height e.round voteType id

/-- The proposal this engine makes for `round` now. -/
def ownProposal (e : Engine C) (round : UInt64) : ProposalMsg C :=
  ProposalMsg.create e.meSk e.mePk e.height round e.proposalValue.2 e.proposalValue.1

/-- After a prevote. -/
def castPrevote (e : Engine C) (id : Option Hash) : Engine C :=
  { e with prevotes := e.prevotes.put e.round e.mePk.id (e.ownVote .prevote id), step := .prevote }

/-- After a precommit. -/
def castPrecommit (e : Engine C) (id : Option Hash) : Engine C :=
  { e with
    precommits := e.precommits.put e.round e.mePk.id (e.ownVote .precommit id)
    step := .precommit }

/-- After the polka for `v` is recorded as the valid value. -/
def recordValid (e : Engine C) (v : Proposed C) : Engine C :=
  { e with
    polkaApplied := insert e.round e.polkaApplied
    validValue := some v
    validRound := some e.round }

/-- After locking `v` in the current round. -/
def lock (e : Engine C) (v : Proposed C) : Engine C :=
  { e with lockedValue := some v, lockedRound := some e.round }

/-- At the fresh next height, with a governance pool still to be chosen. -/
def rolled (e : Engine C) (value : Proposed C) (govMempool : List (SignedValidatorChange C))
    (height : UInt64) (set : ValidatorSet C) : Engine C :=
  clearHeight { e with
    registry := e.registry.recordAll value.governance
    mempool := dropSealed value.attestations e.mempool
    govMempool
    height
    tip := value.id
    currentSet := set
    validatorsSorted := sortById set.validators }

/-- When the engine may prevote `id`: nil always, a fresh proposal when not
locked elsewhere, a re-proposal when its polka is at least as recent as the
lock. -/
inductive PrevoteGuard (e : Engine C) : Option Hash → Prop where
  | nil : PrevoteGuard e none
  | fresh (pm : ProposalMsg C) (hpm : e.proposals.lookup e.round = some pm)
      (hvr : pm.validRound = none) (hvalid : pm.value.isValid e.tip e.height e.currentSet = true)
      (hlock : e.lockedRound = none ∨ e.lockedId = some pm.value.id) :
      PrevoteGuard e (some pm.value.id)
  | reproposal (pm : ProposalMsg C) (vr : UInt64) (hpm : e.proposals.lookup e.round = some pm)
      (hvr : pm.validRound = some vr) (hlt : vr < e.round)
      (hpolka : e.quorum ≤ e.countPrevotes vr (.id pm.value.id))
      (hvalid : pm.value.isValid e.tip e.height e.currentSet = true)
      (hlock : (∀ lr, e.lockedRound = some lr → lr ≤ vr) ∨ e.lockedId = some pm.value.id) :
      PrevoteGuard e (some pm.value.id)

/-- One internal step of the engine, with the effects it emits. -/
inductive Internal (ord : IterOrder) : Engine C → List (Effect C) → Engine C → Prop where
  | prevote {e : Engine C} {id : Option Hash} (hstep : e.step = .propose)
      (hguard : PrevoteGuard e id) :
      Internal ord e [.broadcast (.vote (e.ownVote .prevote id))] (e.castPrevote id)
  | schedulePrevote {e : Engine C} (hstep : e.step = .prevote)
      (hnew : e.round ∉ e.prevoteTimeoutStarted)
      (hquorum : e.quorum ≤ e.countPrevotes e.round .any) :
      Internal ord e [.scheduleTimeout e.height e.round .prevote]
        { e with prevoteTimeoutStarted := insert e.round e.prevoteTimeoutStarted }
  | polka {e : Engine C} {pm : ProposalMsg C} (hstep : e.step = .prevote)
      (hnew : e.round ∉ e.polkaApplied) (hpm : e.proposals.lookup e.round = some pm)
      (hpolka : e.quorum ≤ e.countPrevotes e.round (.id pm.value.id))
      (hvalid : pm.value.isValid e.tip e.height e.currentSet = true) :
      Internal ord e [.broadcast (.vote (e.ownVote .precommit (some pm.value.id)))]
        (((e.lock pm.value).castPrecommit (some pm.value.id)).recordValid pm.value)
  | latePolka {e : Engine C} {pm : ProposalMsg C} (hstep : e.step = .precommit)
      (hnew : e.round ∉ e.polkaApplied) (hpm : e.proposals.lookup e.round = some pm)
      (hpolka : e.quorum ≤ e.countPrevotes e.round (.id pm.value.id))
      (hvalid : pm.value.isValid e.tip e.height e.currentSet = true) :
      Internal ord e [] (e.recordValid pm.value)
  | precommitNil {e : Engine C} (hstep : e.step = .prevote) :
      Internal ord e [.broadcast (.vote (e.ownVote .precommit none))] (e.castPrecommit none)
  | schedulePrecommit {e : Engine C} (hnew : e.round ∉ e.precommitTimeoutStarted)
      (hquorum : e.quorum ≤ e.countPrecommits e.round .any) :
      Internal ord e [.scheduleTimeout e.height e.round .precommit]
        { e with precommitTimeoutStarted := insert e.round e.precommitTimeoutStarted }
  | jump {e e' : Engine C} {r : UInt64} {out : List (Effect C)} (hlt : e.round < r)
      (h : e.startRound r = .ok (e', out)) : Internal ord e out e'
  | wake {e e' : Engine C} {out : List (Effect C)} (hparked : e.parked = true)
      (h : enterPropose { e with parked := false } e.round = .ok (e', out)) : Internal ord e out e'
  | commit {e e' : Engine C} {r : UInt64} {pm : ProposalMsg C} {out : List (Effect C)}
      (hpm : e.proposals.lookup r = some pm)
      (hquorum : e.quorum ≤ e.countPrecommits r (.id pm.value.id))
      (hvalid : pm.value.isValid e.tip e.height e.currentSet = true)
      (h : e.commit ord r pm.value.id pm.value = .ok (e', out)) : Internal ord e out e'

/-- The internal steps that are rules of `advance`: no timer, nothing that
wakes the engine, and a jump only to a round that has votes. -/
inductive Fires (ord : IterOrder) : Engine C → List (Effect C) → Engine C → Prop where
  | prevote {e : Engine C} {id : Option Hash} (hstep : e.step = .propose)
      (hguard : PrevoteGuard e id) :
      Fires ord e [.broadcast (.vote (e.ownVote .prevote id))] (e.castPrevote id)
  | schedulePrevote {e : Engine C} (hstep : e.step = .prevote)
      (hnew : e.round ∉ e.prevoteTimeoutStarted)
      (hquorum : e.quorum ≤ e.countPrevotes e.round .any) :
      Fires ord e [.scheduleTimeout e.height e.round .prevote]
        { e with prevoteTimeoutStarted := insert e.round e.prevoteTimeoutStarted }
  | polka {e : Engine C} {pm : ProposalMsg C} (hstep : e.step = .prevote)
      (hnew : e.round ∉ e.polkaApplied) (hpm : e.proposals.lookup e.round = some pm)
      (hpolka : e.quorum ≤ e.countPrevotes e.round (.id pm.value.id))
      (hvalid : pm.value.isValid e.tip e.height e.currentSet = true) :
      Fires ord e [.broadcast (.vote (e.ownVote .precommit (some pm.value.id)))]
        (((e.lock pm.value).castPrecommit (some pm.value.id)).recordValid pm.value)
  | latePolka {e : Engine C} {pm : ProposalMsg C} (hstep : e.step = .precommit)
      (hnew : e.round ∉ e.polkaApplied) (hpm : e.proposals.lookup e.round = some pm)
      (hpolka : e.quorum ≤ e.countPrevotes e.round (.id pm.value.id))
      (hvalid : pm.value.isValid e.tip e.height e.currentSet = true) :
      Fires ord e [] (e.recordValid pm.value)
  | precommitNil {e : Engine C} (hstep : e.step = .prevote)
      (hquorum : e.quorum ≤ e.countPrevotes e.round .nil) :
      Fires ord e [.broadcast (.vote (e.ownVote .precommit none))] (e.castPrecommit none)
  | schedulePrecommit {e : Engine C} (hnew : e.round ∉ e.precommitTimeoutStarted)
      (hquorum : e.quorum ≤ e.countPrecommits e.round .any) :
      Fires ord e [.scheduleTimeout e.height e.round .precommit]
        { e with precommitTimeoutStarted := insert e.round e.precommitTimeoutStarted }
  | skip {e e' : Engine C} {r : UInt64} {out : List (Effect C)} (hr : r ∈ e.laterRounds)
      (hvoters : e.f < (e.votersOf r).card) (h : e.startRound r = .ok (e', out)) :
      Fires ord e out e'
  | commit {e e' : Engine C} {r : UInt64} {pm : ProposalMsg C} {out : List (Effect C)}
      (hpm : e.proposals.lookup r = some pm)
      (hquorum : e.quorum ≤ e.countPrecommits r (.id pm.value.id))
      (hvalid : pm.value.isValid e.tip e.height e.currentSet = true)
      (h : e.commit ord r pm.value.id pm.value = .ok (e', out)) : Fires ord e out e'

theorem Fires.internal (h : Fires ord e out e') : Internal ord e out e' := by
  cases h with
  | prevote hstep hguard => exact Internal.prevote hstep hguard
  | schedulePrevote hstep hnew hquorum => exact Internal.schedulePrevote hstep hnew hquorum
  | polka hstep hnew hpm hpolka hvalid => exact Internal.polka hstep hnew hpm hpolka hvalid
  | latePolka hstep hnew hpm hpolka hvalid =>
      exact Internal.latePolka hstep hnew hpm hpolka hvalid
  | precommitNil hstep => exact Internal.precommitNil hstep
  | schedulePrecommit hnew hquorum => exact Internal.schedulePrecommit hnew hquorum
  | skip hr _ h => exact Internal.jump (Finset.mem_filter.mp hr).2 h
  | commit hpm hquorum hvalid h => exact Internal.commit hpm hquorum hvalid h

/-- A run of internal steps. -/
inductive Internals (ord : IterOrder) : Engine C → List (Effect C) → Engine C → Prop where
  | refl (e : Engine C) : Internals ord e [] e
  | step {e₁ e₂ e₃ : Engine C} {o₁ o₂ : List (Effect C)} (h : Internal ord e₁ o₁ e₂)
      (rest : Internals ord e₂ o₂ e₃) : Internals ord e₁ (o₁ ++ o₂) e₃

theorem Internals.single (h : Internal ord e out e') : Internals ord e out e' := by
  have hone := Internals.step h (Internals.refl e')
  rwa [List.append_nil] at hone

theorem Internals.trans {e₁ e₂ e₃ : Engine C} {o₁ o₂ : List (Effect C)}
    (h₁ : Internals ord e₁ o₁ e₂) (h₂ : Internals ord e₂ o₂ e₃) :
    Internals ord e₁ (o₁ ++ o₂) e₃ := by
  induction h₁ with
  | refl e => exact h₂
  | step h rest ih =>
      rw [List.append_assoc]
      exact Internals.step h (ih h₂)

/-! ## Building an engine -/

/-- A new engine is at its height with nothing stored, locked or pending. -/
theorem withRegistry_eq_ok {registry : ValidatorRegistry C} {meSk : C.SigningKey}
    {mePk : C.VerifyingKey} {tip : Hash} {startHeight : UInt64}
    (h : withRegistry registry meSk mePk tip startHeight = .ok e) :
    ∃ set, registry.activeSet startHeight = .ok set ∧
      e = { registry, meSk, mePk, tip
            currentSet := set
            validatorsSorted := sortById set.validators
            height := startHeight
            round := 0
            step := .propose
            now := 0
            lockedValue := none
            lockedRound := none
            validValue := none
            validRound := none
            mempool := []
            govMempool := []
            proposals := ∅
            prevotes := ∅
            precommits := ∅
            prevoteTimeoutStarted := ∅
            precommitTimeoutStarted := ∅
            polkaApplied := ∅
            parked := false } := by
  unfold withRegistry at h
  rw [Exec.bind_eq_ok] at h
  rcases h with ⟨set, hset, h⟩
  exact ⟨set, hset, (Except.ok.inj h).symm⟩

/-! ## Entering a round -/

theorem isProposer_eq_ok {r : UInt64} {b : Bool} (h : e.isProposer r = .ok b) :
    ∃ key, e.proposer r = .ok key ∧ b = decide (key = e.mePk) := by
  unfold isProposer at h
  rw [Exec.bind_eq_ok] at h
  rcases h with ⟨key, hkey, hb⟩
  exact ⟨key, hkey, (Except.ok.inj hb).symm⟩

/-- Entering the propose step: our own proposal, or a timeout. -/
theorem enterPropose_cases {r : UInt64} (h : e.enterPropose r = .ok (e', out)) :
    (e.proposer r = .ok e.mePk ∧
      (e.proposalValue.1.attestations ≠ [] ∨ e.proposalValue.1.governance ≠ []) ∧
      e' = { e with proposals := KeyMap.orInsert e.proposals r (e.ownProposal r) } ∧
      out = [.broadcast (.proposal (e.ownProposal r))]) ∨
    (e' = e ∧ out = [.scheduleTimeout e.height r .propose]) := by
  unfold enterPropose at h
  rw [Exec.bind_eq_ok] at h
  rcases h with ⟨mine, hmine, h⟩
  rcases isProposer_eq_ok hmine with ⟨key, hkey, hdec⟩
  dsimp only at h
  split at h
  · next hcond =>
      left
      rw [Bool.and_eq_true, Bool.or_eq_true] at hcond
      rcases hcond with ⟨hme, hne⟩
      -- it is our turn, so the proposer is our key
      have hkey' : key = e.mePk := by
        rw [hdec] at hme
        exact of_decide_eq_true hme
      have heq := Except.ok.inj h
      rw [Prod.mk.injEq] at heq
      refine ⟨hkey' ▸ hkey, ?_, heq.1.symm, heq.2.symm⟩
      simpa using hne
  · right
    have heq := Except.ok.inj h
    rw [Prod.mk.injEq] at heq
    exact ⟨heq.1.symm, heq.2.symm⟩

/-- Entering a round: parked in round 0, or in its propose step. -/
theorem startRound_cases {r : UInt64} (h : e.startRound r = .ok (e', out)) :
    (r = 0 ∧ e.validValue = none ∧ e.mempool = [] ∧ e.govMempool = [] ∧
      e' = { e with round := r, step := .propose, parked := true } ∧ out = []) ∨
    enterPropose { e with round := r, step := .propose, parked := false } r = .ok (e', out) := by
  unfold startRound at h
  dsimp only at h
  split at h
  · next hcond =>
      left
      simp only [Bool.and_eq_true, decide_eq_true_eq, Option.isNone_iff_eq_none,
        List.isEmpty_iff] at hcond
      have heq := Except.ok.inj h
      rw [Prod.mk.injEq] at heq
      exact ⟨hcond.1.1.1, hcond.1.1.2, hcond.1.2, hcond.2, heq.1.symm, heq.2.symm⟩
  · exact Or.inr h

/-- What entering a round changes: the round, the step, whether we are
parked, and possibly our own proposal. -/
theorem startRound_frame {r : UInt64} (h : e.startRound r = .ok (e', out)) :
    ∃ parked proposals,
      e' = { e with round := r, step := .propose, parked, proposals } ∧
      ((proposals = e.proposals ∧
          (out = [] ∨ out = [.scheduleTimeout e.height r .propose])) ∨
        (e.proposer r = .ok e.mePk ∧
          (e.proposalValue.1.attestations ≠ [] ∨ e.proposalValue.1.governance ≠ []) ∧
          proposals = KeyMap.orInsert e.proposals r (e.ownProposal r) ∧
          out = [.broadcast (.proposal (e.ownProposal r))])) := by
  rcases startRound_cases h with ⟨_, _, _, _, he', hout⟩ | henter
  · exact ⟨true, e.proposals, he', Or.inl ⟨rfl, Or.inl hout⟩⟩
  · rcases enterPropose_cases henter with ⟨hprop, hne, he', hout⟩ | ⟨he', hout⟩
    · exact ⟨false, _, he', Or.inr ⟨hprop, hne, rfl, hout⟩⟩
    · exact ⟨false, e.proposals, he', Or.inl ⟨rfl, Or.inr hout⟩⟩

/-- The same for a parked engine that wakes up in its current round. -/
theorem wake_frame (h : enterPropose { e with parked := false } e.round = .ok (e', out)) :
    ∃ proposals,
      e' = { e with parked := false, proposals } ∧
      ((proposals = e.proposals ∧ out = [.scheduleTimeout e.height e.round .propose]) ∨
        (e.proposer e.round = .ok e.mePk ∧
          (e.proposalValue.1.attestations ≠ [] ∨ e.proposalValue.1.governance ≠ []) ∧
          proposals = KeyMap.orInsert e.proposals e.round (e.ownProposal e.round) ∧
          out = [.broadcast (.proposal (e.ownProposal e.round))])) := by
  rcases enterPropose_cases h with ⟨hprop, hne, he', hout⟩ | ⟨he', hout⟩
  · exact ⟨_, he', Or.inr ⟨hprop, hne, rfl, hout⟩⟩
  · exact ⟨e.proposals, he', Or.inl ⟨rfl, hout⟩⟩

/-- The proposer of a round is a member of the current roster. -/
theorem proposer_mem {r : UInt64} {key : C.VerifyingKey} (h : e.proposer r = .ok key) :
    key ∈ e.validatorsSorted := by
  unfold proposer at h
  rw [Exec.bind_eq_ok] at h
  rcases h with ⟨slot, _, h⟩
  split at h
  · next k hk =>
      obtain rfl := Except.ok.inj h
      exact List.mem_of_getElem? hk
  · cases h

/-! ## Committing and catching up -/

theorem reloadSet_eq_ok (h : e.reloadSet = .ok e') :
    ∃ set, e.registry.activeSet e.height = .ok set ∧
      e' = { e with currentSet := set, validatorsSorted := sortById set.validators } := by
  unfold reloadSet at h
  rw [Exec.bind_eq_ok] at h
  rcases h with ⟨set, hset, h⟩
  exact ⟨set, hset, (Except.ok.inj h).symm⟩

/-- A commit rolls to the next height, whose set it loads, and enters round 0
there. -/
theorem commit_cases {r : UInt64} {v : Proposed C}
    (h : e.commit ord r v.id v = .ok (e', out)) :
    ∃ height set out',
      checkedAdd e.height 1 = .ok height ∧
      (e.registry.recordAll v.governance).activeSet height = .ok set ∧
      (e.rolled v (dropEnacted v.governance e.govMempool) height set).startRound 0 =
        .ok (e', out') ∧
      out = .committed (e.assembleBlock ord r v.id v) :: out' := by
  unfold commit at h
  simp only [Exec.bind_eq_ok] at h
  rcases h with ⟨height, hheight, e₁, hreload, ⟨e₂, out'⟩, hstart, h⟩
  rcases reloadSet_eq_ok hreload with ⟨set, hset, rfl⟩
  rcases Exec.ok_pair h with ⟨rfl, rfl⟩
  exact ⟨height, set, out', hheight, hset, hstart, rfl⟩

/-- What an accepted catch-up block passed, and where it leads. -/
theorem applySyncedBlock_cases {b : Block C} (h : e.applySyncedBlock b = .ok (.ok e')) :
    b.value.isValid e.tip e.height e.currentSet = true ∧
    b.qc.verify b.header e.currentSet = .ok () ∧
    ∃ height set,
      checkedAdd e.height 1 = .ok height ∧
      (e.registry.recordAll b.governance).activeSet height = .ok set ∧
      e' = { e.rolled b.value e.govMempool height set with parked := false } := by
  unfold applySyncedBlock at h
  split at h
  · cases h
  split at h
  · cases h
  dsimp only at h
  split at h
  · cases h
  -- height and parent are checked once more in the value
  next hvalid =>
  split at h
  · cases h
  next hqc =>
  simp only [Exec.bind_eq_ok] at h
  rcases h with ⟨height, hheight, e₁, hreload, h⟩
  rcases reloadSet_eq_ok hreload with ⟨set, hset, rfl⟩
  have heq := Except.ok.inj (Except.ok.inj h)
  exact ⟨by simpa [Block.value] using hvalid, hqc, height, set, hheight, hset, heq.symm⟩

/-- Any block that passes the checks is applied, unless the roll panics. -/
theorem applySyncedBlock_eq {b : Block C}
    (hvalid : b.value.isValid e.tip e.height e.currentSet = true)
    (hqc : b.qc.verify b.header e.currentSet = .ok ()) {height : UInt64} {set : ValidatorSet C}
    (hheight : checkedAdd e.height 1 = .ok height)
    (hset : (e.registry.recordAll b.governance).activeSet height = .ok set) :
    e.applySyncedBlock b =
      .ok (.ok { e.rolled b.value e.govMempool height set with parked := false }) := by
  have hwf := (Proposed.isValid_iff _ _ _ _).mp hvalid
  have hh : b.header.height = e.height := hwf.height_eq
  have hp : b.header.prevHash = e.tip := hwf.prevHash_eq
  unfold applySyncedBlock
  -- height and predecessor are checked again by `isValid`
  rw [if_neg (not_not.mpr hh), if_neg (not_not.mpr hp)]
  dsimp only
  rw [if_neg (by simpa [Block.value] using hvalid), hqc]
  simp only [hheight, bind, Except.bind, reloadSet, hset, pure, Except.pure]
  rfl

/-! ## The rules -/

theorem tryCommitFrom_cases {l : List (UInt64 × Hash)}
    (hl : ∀ p ∈ l, ∃ pm, e.proposals.lookup p.1 = some pm ∧ pm.value.id = p.2)
    (h : e.tryCommitFrom ord l = .ok (some (e', out))) :
    ∃ r pm, e.proposals.lookup r = some pm ∧ e.quorum ≤ e.countPrecommits r (.id pm.value.id) ∧
      pm.value.isValid e.tip e.height e.currentSet = true ∧
      e.commit ord r pm.value.id pm.value = .ok (e', out) := by
  induction l with
  | nil => cases h
  | cons p rest ih =>
      rcases p with ⟨r, id⟩
      have hrest : ∀ q ∈ rest, ∃ pm, e.proposals.lookup q.1 = some pm ∧ pm.value.id = q.2 :=
        fun q hq => hl q (List.mem_cons_of_mem _ hq)
      -- the listed id is that of the proposal stored for the round
      rcases hl (r, id) List.mem_cons_self with ⟨pm, hpm, hid⟩
      dsimp only at hpm hid
      unfold tryCommitFrom at h
      split at h
      · next hquorum =>
          rw [hpm] at h
          dsimp only at h
          split at h
          · next hvalid =>
              rw [← hid] at h hquorum
              cases hc : e.commit ord r pm.value.id pm.value with
              | error p => rw [hc] at h; cases h
              | ok res =>
                  rw [hc] at h
                  have heq : res = (e', out) := Option.some.inj (Except.ok.inj h)
                  exact ⟨r, pm, hpm, hquorum, hvalid, heq ▸ hc⟩
          · exact ih hrest h
      · exact ih hrest h

theorem tryCommit_cases (h : e.tryCommit ord = .ok (some (e', out))) :
    ∃ r pm, e.proposals.lookup r = some pm ∧ e.quorum ≤ e.countPrecommits r (.id pm.value.id) ∧
      pm.value.isValid e.tip e.height e.currentSet = true ∧
      e.commit ord r pm.value.id pm.value = .ok (e', out) := by
  apply tryCommitFrom_cases _ h
  intro p hp
  rcases List.mem_map.mp hp with ⟨⟨r, pm⟩, hmem, rfl⟩
  exact ⟨pm, KeyMap.mem_iter.mp hmem, rfl⟩

theorem tryCommit_fires (h : e.tryCommit ord = .ok (some (e', out))) :
    Fires ord e out e' := by
  rcases tryCommit_cases h with ⟨r, pm, hpm, hquorum, hvalid, hcommit⟩
  exact Fires.commit hpm hquorum hvalid hcommit

theorem trySkip_cases (h : e.trySkip = .ok (some (e', out))) :
    ∃ r ∈ e.laterRounds, e.f < (e.votersOf r).card ∧ e.startRound r = .ok (e', out) := by
  unfold trySkip at h
  split at h
  · next r hfind =>
      have hmem := List.mem_of_find?_eq_some hfind
      rw [KeyOrder.mem_order] at hmem
      have hvoters : e.f < (e.votersOf r).card := by
        simpa using List.find?_some hfind
      refine ⟨r, hmem, hvoters, ?_⟩
      cases hs : e.startRound r with
      | error p => rw [hs] at h; cases h
      | ok res =>
          rw [hs] at h
          exact congrArg Except.ok (Option.some.inj (Except.ok.inj h))
  · cases h

theorem trySkip_fires (h : e.trySkip = .ok (some (e', out))) : Fires ord e out e' := by
  rcases trySkip_cases h with ⟨r, hr, hvoters, hstart⟩
  exact Fires.skip hr hvoters hstart

theorem tryPrevoteOnProposal_fires (h : e.tryPrevoteOnProposal = some (e', out)) :
    Fires ord e out e' := by
  unfold tryPrevoteOnProposal at h
  split at h
  · cases h
  next hstep =>
  split at h
  · cases h
  next pm hpm =>
  split at h
  · cases h
  next hvr =>
  have heq := Option.some.inj h
  rw [Prod.mk.injEq] at heq
  rcases heq with ⟨rfl, rfl⟩
  apply Fires.prevote (not_not.mp hstep)
  split
  · next hcond =>
      simp only [Bool.and_eq_true, Bool.or_eq_true, Option.isNone_iff_eq_none, beq_iff_eq] at hcond
      exact PrevoteGuard.fresh pm hpm (by simpa using hvr) hcond.1 hcond.2
  · exact PrevoteGuard.nil

theorem tryPrevoteOnReproposal_fires (h : e.tryPrevoteOnReproposal = some (e', out)) :
    Fires ord e out e' := by
  unfold tryPrevoteOnReproposal at h
  split at h
  · cases h
  next hstep =>
  split at h
  · cases h
  next pm hpm =>
  split at h
  · cases h
  next vr hvr =>
  split at h
  · cases h
  next hlt =>
  split at h
  · cases h
  next hpolka =>
  have heq := Option.some.inj h
  rw [Prod.mk.injEq] at heq
  rcases heq with ⟨rfl, rfl⟩
  -- all five conditions hold, only the vote is open
  apply Fires.prevote (not_not.mp hstep)
  split
  · next hcond =>
      simp only [Bool.and_eq_true, Bool.or_eq_true, beq_iff_eq, Option.all_eq_true,
        decide_eq_true_eq] at hcond
      exact PrevoteGuard.reproposal pm vr hpm hvr (not_not.mp hlt) (not_lt.mp hpolka) hcond.1
        hcond.2
  · exact PrevoteGuard.nil

theorem trySchedulePrevoteTimeout_fires (h : e.trySchedulePrevoteTimeout = some (e', out)) :
    Fires ord e out e' := by
  unfold trySchedulePrevoteTimeout at h
  split at h
  · next hcond =>
      have heq := Option.some.inj h
      rw [Prod.mk.injEq] at heq
      rcases heq with ⟨rfl, rfl⟩
      exact Fires.schedulePrevote hcond.1 hcond.2.1 hcond.2.2
  · cases h

theorem tryPrecommitOnPolka_fires (h : e.tryPrecommitOnPolka = some (e', out)) :
    Fires ord e out e' := by
  unfold tryPrecommitOnPolka at h
  split at h
  · cases h
  next hcond =>
  rw [not_or] at hcond
  split at h
  · cases h
  next pm hpm =>
  dsimp only at h
  split at h
  · cases h
  next hguard =>
  simp only [Bool.or_eq_true, decide_eq_true_eq, Bool.not_eq_true', not_or, not_lt,
    Bool.not_eq_false] at hguard
  split at h
  · next hstep =>
      have heq := Option.some.inj h
      rw [Prod.mk.injEq] at heq
      rcases heq with ⟨rfl, rfl⟩
      exact Fires.polka hstep hcond.2 hpm hguard.1 hguard.2
  · next hstep =>
      have heq := Option.some.inj h
      rw [Prod.mk.injEq] at heq
      rcases heq with ⟨rfl, rfl⟩
      -- past the propose step and not in the prevote step
      have hpre : e.step = .precommit := by
        cases hs : e.step with
        | propose => exact absurd hs hcond.1
        | prevote => exact absurd hs hstep
        | precommit => rfl
      exact Fires.latePolka hpre hcond.2 hpm hguard.1 hguard.2

theorem tryPrecommitNil_fires (h : e.tryPrecommitNil = some (e', out)) :
    Fires ord e out e' := by
  unfold tryPrecommitNil at h
  split at h
  · next hcond =>
      have heq := Option.some.inj h
      rw [Prod.mk.injEq] at heq
      rcases heq with ⟨rfl, rfl⟩
      exact Fires.precommitNil hcond.1 hcond.2
  · cases h

theorem trySchedulePrecommitTimeout_fires
    (h : e.trySchedulePrecommitTimeout = some (e', out)) : Fires ord e out e' := by
  unfold trySchedulePrecommitTimeout at h
  split at h
  · next hcond =>
      have heq := Option.some.inj h
      rw [Prod.mk.injEq] at heq
      rcases heq with ⟨rfl, rfl⟩
      exact Fires.schedulePrecommit hcond.1 hcond.2
  · cases h

/-- The enabled rule is one of the eight. -/
theorem applyRule_cases (h : e.applyRule ord = .ok (some (e', out))) :
    e.tryCommit ord = .ok (some (e', out)) ∨ e.trySkip = .ok (some (e', out)) ∨
    e.tryPrevoteOnProposal = some (e', out) ∨ e.tryPrevoteOnReproposal = some (e', out) ∨
    e.trySchedulePrevoteTimeout = some (e', out) ∨ e.tryPrecommitOnPolka = some (e', out) ∨
    e.tryPrecommitNil = some (e', out) ∨ e.trySchedulePrecommitTimeout = some (e', out) := by
  unfold applyRule at h
  rw [Exec.bind_eq_ok] at h
  rcases h with ⟨c, hc, h⟩
  cases c with
  | some r => exact Or.inl (hc.trans h)
  | none =>
      rw [Exec.bind_eq_ok] at h
      rcases h with ⟨s, hs, h⟩
      cases s with
      | some r => exact Or.inr (Or.inl (hs.trans h))
      | none =>
          have h' := Except.ok.inj h
          simp only [Option.orElse_eq_orElse, Option.orElse_eq_or, Option.or_eq_some_iff] at h'
          tauto

/-- Whatever `advance` applies is one of its rules. -/
theorem applyRule_fires (h : e.applyRule ord = .ok (some (e', out))) : Fires ord e out e' := by
  rcases applyRule_cases h with h | h | h | h | h | h | h | h
  · exact tryCommit_fires h
  · exact trySkip_fires h
  · exact tryPrevoteOnProposal_fires h
  · exact tryPrevoteOnReproposal_fires h
  · exact trySchedulePrevoteTimeout_fires h
  · exact tryPrecommitOnPolka_fires h
  · exact tryPrecommitNil_fires h
  · exact trySchedulePrecommitTimeout_fires h

theorem advanceLoop_internals {fuel : Nat} (h : advanceLoop ord fuel e = .ok (e', out)) :
    Internals ord e out e' := by
  induction fuel generalizing e out with
  | zero =>
      rcases Exec.ok_pair h with ⟨rfl, rfl⟩
      exact Internals.refl _
  | succ fuel ih =>
      unfold advanceLoop at h
      rw [Exec.bind_eq_ok] at h
      rcases h with ⟨rule, hrule, h⟩
      cases rule with
      | none =>
          rcases Exec.ok_pair h with ⟨rfl, rfl⟩
          exact Internals.refl _
      | some res =>
          rcases res with ⟨e₁, o₁⟩
          dsimp only at h
          rw [Exec.bind_eq_ok] at h
          rcases h with ⟨⟨e₂, o₂⟩, hloop, h⟩
          rcases Exec.ok_pair h with ⟨rfl, rfl⟩
          exact Internals.step (applyRule_fires hrule).internal (ih hloop)

theorem thenAdvance_internals {e₀ : Engine C} {o₀ : List (Effect C)}
    (h : thenAdvance ord (e₀, o₀) = .ok (e', out)) :
    ∃ o, Internals ord e₀ o e' ∧ out = o₀ ++ o := by
  unfold thenAdvance at h
  rw [Exec.bind_eq_ok] at h
  rcases h with ⟨⟨e₁, o⟩, hadv, h⟩
  rcases Exec.ok_pair h with ⟨rfl, rfl⟩
  exact ⟨o, advanceLoop_internals hadv, rfl⟩

/-! ## Reading a message -/

/-- A proposal the engine stores: for its height, by the designated proposer,
properly signed. -/
def AcceptsProposal (e : Engine C) (pm : ProposalMsg C) : Prop :=
  pm.height = e.height ∧ e.proposer pm.round = .ok pm.proposer ∧ pm.verifySig = true

/-- A vote the engine stores: for its height, by a member, properly signed. -/
def AcceptsVote (e : Engine C) (vm : VoteMsg C) : Prop :=
  vm.height = e.height ∧ vm.voter ∈ e.currentSet.validators ∧ vm.verifySig = true

/-- A message is ignored, or offered to the store it belongs to. -/
inductive Ingests (e : Engine C) : ConsensusMsg C → Engine C → Prop where
  | ignored {msg : ConsensusMsg C} : Ingests e msg e
  | proposal {pm : ProposalMsg C} (h : e.AcceptsProposal pm) :
      Ingests e (.proposal pm) { e with proposals := KeyMap.orInsert e.proposals pm.round pm }
  | prevote {vm : VoteMsg C} (h : e.AcceptsVote vm) (htype : vm.voteType = .prevote) :
      Ingests e (.vote vm) { e with prevotes := e.prevotes.offer vm.round vm.voter.id vm }
  | precommit {vm : VoteMsg C} (h : e.AcceptsVote vm) (htype : vm.voteType = .precommit) :
      Ingests e (.vote vm) { e with precommits := e.precommits.offer vm.round vm.voter.id vm }

theorem ingest_cases {msg : ConsensusMsg C} (h : e.ingest msg = .ok e') : e.Ingests msg e' := by
  cases msg with
  | proposal pm =>
      simp only [ingest, ingestProposal] at h
      split at h
      · obtain rfl := Except.ok.inj h
        exact Ingests.ignored
      next hheight =>
      rw [Exec.bind_eq_ok] at h
      rcases h with ⟨key, hkey, h⟩
      split at h
      · obtain rfl := Except.ok.inj h
        exact Ingests.ignored
      next hcond =>
      simp only [Bool.or_eq_true, decide_eq_true_eq, Bool.not_eq_true', not_or, not_not,
        Bool.not_eq_false] at hcond
      obtain rfl := Except.ok.inj h
      exact Ingests.proposal ⟨not_not.mp hheight, hcond.1 ▸ hkey, hcond.2⟩
  | vote vm =>
      obtain rfl := Except.ok.inj h
      unfold ingestVote
      split
      · exact Ingests.ignored
      next hcond =>
      simp only [Bool.or_eq_true, decide_eq_true_eq, Bool.not_eq_true', not_or, not_not,
        Bool.not_eq_false, ValidatorSet.contains_iff] at hcond
      -- at our height, from a member, and its signature verifies
      have haccepts : e.AcceptsVote vm := ⟨hcond.1.1, hcond.1.2, hcond.2⟩
      split
      · next htype => exact Ingests.prevote haccepts htype
      · next htype => exact Ingests.precommit haccepts htype

/-! ## The handlers -/

theorem start_steps (h : e.start ord = .ok (e', out)) :
    ∃ e₁ o₁ o₂, e.startRound 0 = .ok (e₁, o₁) ∧ Internals ord e₁ o₂ e' ∧ out = o₁ ++ o₂ := by
  unfold start at h
  rw [Exec.bind_eq_ok] at h
  rcases h with ⟨⟨e₁, o₁⟩, hstart, h⟩
  rcases thenAdvance_internals h with ⟨o₂, hint, rfl⟩
  exact ⟨e₁, o₁, o₂, hstart, hint, rfl⟩

theorem resume_eq_start (ord : IterOrder) (e : Engine C) : e.resume ord = e.start ord := rfl

theorem unpark_internals (h : e.unpark = .ok (e', out)) : Internals ord e out e' := by
  unfold unpark at h
  split at h
  · next hparked => exact Internals.single (Internal.wake hparked h)
  · rcases Exec.ok_pair h with ⟨rfl, rfl⟩
    exact Internals.refl _

theorem addAttestation_steps {att : Attestation C}
    (h : e.addAttestation ord att = .ok (e', out)) :
    Internals ord { e with mempool := e.mempool ++ [att] } out e' := by
  unfold addAttestation at h
  dsimp only at h
  split at h
  · rw [Exec.bind_eq_ok] at h
    rcases h with ⟨⟨e₁, o₁⟩, hunpark, h⟩
    rcases thenAdvance_internals h with ⟨o₂, hint, rfl⟩
    exact (unpark_internals hunpark).trans hint
  · rcases Exec.ok_pair h with ⟨rfl, rfl⟩
    exact Internals.refl _

theorem addGovernance_steps {change : SignedValidatorChange C} {accepted : Bool}
    (h : e.addGovernance ord change = .ok (accepted, e', out)) :
    (accepted = false ∧ e.acceptsGovernance change = false ∧ e' = e ∧ out = []) ∨
    (accepted = true ∧ e.acceptsGovernance change = true ∧
      Internals ord { e with govMempool := e.govMempool ++ [change] } out e') := by
  unfold addGovernance at h
  split at h
  · next hacc =>
      right
      dsimp only at h
      split at h
      · simp only [Exec.bind_eq_ok] at h
        rcases h with ⟨⟨e₁, o₁⟩, hunpark, ⟨e₂, o₂⟩, hadv, h⟩
        rcases Exec.ok_triple h with ⟨rfl, rfl, rfl⟩
        rcases thenAdvance_internals hadv with ⟨o, hint, rfl⟩
        exact ⟨rfl, hacc, (unpark_internals hunpark).trans hint⟩
      · rcases Exec.ok_triple h with ⟨rfl, rfl, rfl⟩
        exact ⟨rfl, hacc, Internals.refl _⟩
  · next hacc =>
      left
      rcases Exec.ok_triple h with ⟨rfl, rfl, rfl⟩
      exact ⟨rfl, by simpa using hacc, rfl, rfl⟩

theorem wakeFor_internals {wake : Bool} (h : e.wakeFor wake = .ok (e', out)) :
    Internals ord e out e' := by
  unfold wakeFor at h
  split at h
  · exact unpark_internals h
  · rcases Exec.ok_pair h with ⟨rfl, rfl⟩
    exact Internals.refl _

theorem onMessage_steps {msg : ConsensusMsg C} (h : e.onMessage ord msg = .ok (e', out)) :
    ∃ e₁, e.ingest msg = .ok e₁ ∧ Internals ord e₁ out e' := by
  unfold onMessage at h
  simp only [Exec.bind_eq_ok] at h
  rcases h with ⟨e₁, hingest, ⟨e₂, o₂⟩, hwake, h⟩
  rcases thenAdvance_internals h with ⟨o, hint, rfl⟩
  exact ⟨e₁, hingest, (wakeFor_internals hwake).trans hint⟩

theorem fireTimeout_internals {kind : TimeoutKind} (h : e.fireTimeout kind = .ok (e', out)) :
    Internals ord e out e' := by
  cases kind with
  | propose =>
      dsimp only [fireTimeout, emitPrevote, emitPrecommit] at h
      split at h
      · next hstep =>
          rcases Exec.ok_pair h with ⟨rfl, rfl⟩
          exact Internals.single (Internal.prevote hstep PrevoteGuard.nil)
      · rcases Exec.ok_pair h with ⟨rfl, rfl⟩
        exact Internals.refl _
  | prevote =>
      dsimp only [fireTimeout, emitPrevote, emitPrecommit] at h
      split at h
      · next hstep =>
          rcases Exec.ok_pair h with ⟨rfl, rfl⟩
          exact Internals.single (Internal.precommitNil hstep)
      · rcases Exec.ok_pair h with ⟨rfl, rfl⟩
        exact Internals.refl _
  | precommit =>
      unfold fireTimeout at h
      rw [Exec.bind_eq_ok] at h
      rcases h with ⟨next, hnext, hstart⟩
      -- the timer of the last round would overflow, so this is a later one
      have hlt : e.round < next := by
        rw [UInt64.lt_iff_toNat_lt, checkedAdd_eq_ok hnext]
        simp
      exact Internals.single (Internal.jump hlt hstart)

theorem onTimeout_steps {height round : UInt64} {kind : TimeoutKind}
    (h : e.onTimeout ord height round kind = .ok (e', out)) : Internals ord e out e' := by
  unfold onTimeout at h
  split at h
  · rw [Exec.bind_eq_ok] at h
    rcases h with ⟨⟨e₁, o₁⟩, hfire, h⟩
    rcases thenAdvance_internals h with ⟨o, hint, rfl⟩
    exact (fireTimeout_internals hfire).trans hint
  · rcases thenAdvance_internals h with ⟨o, hint, rfl⟩
    simpa using hint

end Engine

end SmartLedger
