import SmartLedger.Consensus.Store

/-! # How an engine votes

Within a height an engine only moves forward: through the three steps of a
round, then to a later round. `progress` numbers these positions and
`votePos` the position a vote is cast at. Every vote is cast on reaching its
position, so there is at most one per height, round and kind
(`VoteInv.unique`), and a lock never moves back below a round whose precommit
was given to a block (`VoteInv.locked`).

Entering round 0 is the exception to moving forward. A driver does it when it
starts the engine and after it caught up, both times on a fresh height; that
is what `driven` asks of the events of a run.
-/

namespace SmartLedger

open Engine

variable {C : Crypto} {e e' : Engine C} {log : List (Output C)}

/-- `start` and `resume` come only in the propose step of round 0. -/
def driven (e : Engine C) (ev : Event C) : Prop :=
  ev = .start ∨ ev = .resume → e.round = 0 ∧ e.step = .propose

theorem driven_of_ne {ev : Event C} (hstart : ev ≠ .start) (hresume : ev ≠ .resume) :
    driven e ev := by
  rintro (hbad | hbad)
  · exact absurd hbad hstart
  · exact absurd hbad hresume

/-- The engine signed and broadcast this vote. -/
def Cast (log : List (Output C)) (vm : VoteMsg C) : Prop :=
  .effect (.broadcast (.vote vm)) ∈ log

/-- The position of a step within its round. -/
def Step.toNat : Step → Nat
  | .propose => 0
  | .prevote => 1
  | .precommit => 2

/-- How far an engine is within its height. -/
def progress (e : Engine C) : Nat := 3 * e.round.toNat + e.step.toNat

def VoteType.toNat : VoteType → Nat
  | .prevote => 1
  | .precommit => 2

/-- The position a vote is cast at. -/
def votePos (vm : VoteMsg C) : Nat := 3 * vm.round.toNat + vm.voteType.toNat

theorem votePos_congr {vm₁ vm₂ : VoteMsg C} (hround : vm₁.round = vm₂.round)
    (htype : vm₁.voteType = vm₂.voteType) : votePos vm₁ = votePos vm₂ := by
  unfold votePos
  rw [hround, htype]

theorem cast_append {out : List (Output C)} {vm : VoteMsg C} :
    Cast (log ++ out) vm ↔ Cast log vm ∨ Cast out vm := List.mem_append

theorem cast_effects {out : List (Effect C)} {vm : VoteMsg C} :
    Cast (effects out) vm ↔ .broadcast (.vote vm) ∈ out := mem_effects

/-- No vote among the outputs. -/
def NoVote (out : List (Output C)) : Prop := ∀ vm, ¬ Cast out vm

theorem NoVote.cast_iff {out : List (Output C)} (h : NoVote out) {vm : VoteMsg C} :
    Cast (log ++ out) vm ↔ Cast log vm := by
  rw [cast_append]
  constructor
  · rintro (hold | hnew)
    · exact hold
    · exact absurd hnew (h vm)
  · exact Or.inl

/-! ## What a step does to votes and locks -/

/-- What a step can do: move forward silently, cast one vote, or roll to the
next height. -/
inductive VoteStep (e : Engine C) : List (Output C) → Engine C → Prop where
  | silent {out : List (Output C)} {e' : Engine C} (hsame : SameHeight e e') (hout : NoVote out)
      (hprogress : progress e ≤ progress e') (hround : e'.lockedRound = e.lockedRound)
      (hvalue : e'.lockedValue = e.lockedValue) : VoteStep e out e'
  | prevote {id : Option Hash} (hstep : e.step = .propose) (hguard : PrevoteGuard e id) :
      VoteStep e (effects [.broadcast (.vote (e.ownVote .prevote id))]) (e.castPrevote id)
  | polka {pm : ProposalMsg C} (hstep : e.step = .prevote)
      (hpolka : e.quorum ≤ e.countPrevotes e.round (.id pm.value.id)) :
      VoteStep e (effects [.broadcast (.vote (e.ownVote .precommit (some pm.value.id)))])
        (((e.lock pm.value).castPrecommit (some pm.value.id)).recordValid pm.value)
  | precommitNil (hstep : e.step = .prevote) :
      VoteStep e (effects [.broadcast (.vote (e.ownVote .precommit none))])
        (e.castPrecommit none)
  | roll {out : List (Output C)} {e' : Engine C} (hkey : e'.mePk = e.mePk) (hout : NoVote out)
      (hheight : e.height < e'.height) (hround : e'.lockedRound = none) : VoteStep e out e'

theorem noVote_startRound {r : UInt64} {out : List (Effect C)}
    (h : e.startRound r = .ok (e', out)) : NoVote (effects out) := by
  intro vm hcast
  exact startRound_no_vote h vm (cast_effects.mp hcast)

theorem lt_of_checkedAdd_one {a b : UInt64} (h : checkedAdd a 1 = .ok b) : a < b := by
  rw [UInt64.lt_iff_toNat_lt, checkedAdd_eq_ok h]
  exact Nat.lt_succ_self _

theorem Engine.Internal.voteStep {ord : IterOrder} {out : List (Effect C)} (h : Internal ord e out e') :
    VoteStep e (effects out) e' := by
  cases h with
  | prevote hstep hguard => exact VoteStep.prevote hstep hguard
  | schedulePrevote =>
      exact VoteStep.silent rfl (by intro vm h; simp [Cast, effects] at h) le_rfl rfl rfl
  | polka hstep hnew hpm hpolka => exact VoteStep.polka hstep hpolka
  | latePolka => exact VoteStep.silent rfl (by intro vm h; cases h) le_rfl rfl rfl
  | precommitNil hstep => exact VoteStep.precommitNil hstep
  | schedulePrecommit =>
      exact VoteStep.silent rfl (by intro vm h; simp [Cast, effects] at h) le_rfl rfl rfl
  | @jump _ r _ hlt hstart =>
      have hsame := (startRound_sameHeight hstart).1
      have hout := noVote_startRound hstart
      rcases startRound_frame hstart with ⟨parked, proposals, rfl, _⟩
      refine VoteStep.silent hsame hout ?_ rfl rfl
      -- a later round is ahead of every step of this one
      have hsteps : e.step.toNat ≤ 2 := by cases e.step <;> decide
      rw [UInt64.lt_iff_toNat_lt] at hlt
      show 3 * e.round.toNat + e.step.toNat ≤ 3 * r.toNat + 0
      omega
  | wake hparked hwake =>
      rcases wake_frame hwake with ⟨proposals, rfl, hout⟩
      refine VoteStep.silent rfl ?_ le_rfl rfl rfl
      intro vm hcast
      rcases hout with ⟨_, rfl⟩ | ⟨_, _, _, rfl⟩
      · simp [Cast, effects] at hcast
      · simp [Cast, effects] at hcast
  | commit hpm hquorum hvalid hcommit =>
      rcases commit_cases hcommit with ⟨height, set, out', hheight, _, hstart, rfl⟩
      have hno := noVote_startRound hstart
      rcases startRound_frame hstart with ⟨parked, proposals, rfl, _⟩
      refine VoteStep.roll rfl ?_ (lt_of_checkedAdd_one hheight) rfl
      intro vm hcast
      rcases List.mem_cons.mp hcast with heq | hmem
      · cases heq
      · exact hno vm hmem

/-- A vote for a block is a prevote the guard allows, or a precommit on a
polka for the stored proposal of the round. -/
theorem Engine.Internal.vote_cases {ord : IterOrder} {out : List (Effect C)}
    (h : Internal ord e out e') {vm : VoteMsg C} {id : Hash}
    (hvm : .broadcast (.vote vm) ∈ out) (hid : vm.blockId = some id) :
    (e.step = .propose ∧ PrevoteGuard e (some id) ∧ vm = e.ownVote .prevote (some id)) ∨
    ∃ pm, e.proposals.lookup e.round = some pm ∧ pm.value.id = id ∧
      e.quorum ≤ e.countPrevotes e.round (.id id) ∧
      pm.value.isValid e.tip e.height e.currentSet = true ∧
      vm = e.ownVote .precommit (some id) := by
  cases h with
  | @prevote id' hstep hguard =>
      obtain rfl : vm = e.ownVote .prevote id' := by simpa using hvm
      obtain rfl : id' = some id := hid
      exact Or.inl ⟨hstep, hguard, rfl⟩
  | schedulePrevote => simp at hvm
  | @polka pm hstep hnew hpm hpolka hvalid =>
      obtain rfl : vm = e.ownVote .precommit (some pm.value.id) := by simpa using hvm
      obtain rfl : pm.value.id = id := Option.some.inj hid
      exact Or.inr ⟨pm, hpm, rfl, hpolka, hvalid, rfl⟩
  | latePolka => simp at hvm
  -- a nil vote is for no block
  | precommitNil =>
      obtain rfl : vm = e.ownVote .precommit none := by simpa using hvm
      cases hid
  | schedulePrecommit => simp at hvm
  | jump hlt hstart => exact absurd hvm (startRound_no_vote hstart vm)
  | wake hparked hwake =>
      rcases wake_frame hwake with ⟨_, _, ⟨_, rfl⟩ | ⟨_, _, _, rfl⟩⟩
      · simp at hvm
      · simp at hvm
  | commit hpm hquorum hvalid hcommit =>
      rcases commit_cases hcommit with ⟨_, _, out', _, _, hstart, rfl⟩
      rcases List.mem_cons.mp hvm with heq | hmem
      · cases heq
      · exact absurd hmem (startRound_no_vote hstart vm)

/-- A change of the inputs casts no vote. -/
theorem Engine.Enter.noVote {ev : Event C} {out : List (Output C)} (h : Enter ev e out e') :
    NoVote out := by
  intro vm hcast
  cases h with
  | start hstart => exact noVote_startRound hstart vm hcast
  | resume hstart => exact noVote_startRound hstart vm hcast
  | synced => cases List.mem_singleton.mp hcast
  | message => cases hcast
  | timeout => cases hcast
  | attestation => cases hcast
  | governance => cases hcast
  | refused => cases hcast
  | rejected => cases hcast
  | setTime => cases hcast

/-- A value becomes valid with a polka for the stored proposal of the round,
when it passes validation, and is forgotten at the end of the height. -/
theorem Engine.Internal.validValue_cases {ord : IterOrder} {out : List (Effect C)}
    (h : Internal ord e out e') {v : Proposed C} (hv : e'.validValue = some v) :
    (SameHeight e e' ∧ e.validValue = some v) ∨
    ∃ pm, e.proposals.lookup e.round = some pm ∧ pm.value = v ∧
      e.quorum ≤ e.countPrevotes e.round (.id v.id) ∧
      v.isValid e.tip e.height e.currentSet = true := by
  cases h with
  | prevote => exact Or.inl ⟨rfl, hv⟩
  | schedulePrevote => exact Or.inl ⟨rfl, hv⟩
  -- a polka sets it, on time or late
  | @polka pm hstep hnew hpm hpolka hvalid =>
      obtain rfl : pm.value = v := Option.some.inj hv
      exact Or.inr ⟨pm, hpm, rfl, hpolka, hvalid⟩
  | @latePolka pm hstep hnew hpm hpolka hvalid =>
      obtain rfl : pm.value = v := Option.some.inj hv
      exact Or.inr ⟨pm, hpm, rfl, hpolka, hvalid⟩
  | precommitNil => exact Or.inl ⟨rfl, hv⟩
  | schedulePrecommit => exact Or.inl ⟨rfl, hv⟩
  | jump hlt hstart =>
      have hsame := (startRound_sameHeight hstart).1
      rcases startRound_frame hstart with ⟨_, _, rfl, _⟩
      exact Or.inl ⟨hsame, hv⟩
  | wake hparked hwake =>
      rcases wake_frame hwake with ⟨_, rfl, _⟩
      exact Or.inl ⟨rfl, hv⟩
  | commit hpm hquorum hvalid hcommit =>
      rcases commit_cases hcommit with ⟨_, _, _, _, _, hstart, rfl⟩
      rcases startRound_frame hstart with ⟨_, _, rfl, _⟩
      cases hv

/-- A change of the inputs keeps the valid value, or forgets it. -/
theorem Engine.Enter.validValue_cases {ev : Event C} {out : List (Output C)}
    (h : Enter ev e out e') {v : Proposed C} (hv : e'.validValue = some v) :
    e.validValue = some v := by
  cases h with
  | start hstart =>
      rcases startRound_frame hstart with ⟨_, _, rfl, _⟩
      exact hv
  | message hi =>
      rcases ingest_frame hi with ⟨_, _, _, rfl⟩
      exact hv
  | timeout => exact hv
  | attestation => exact hv
  | governance => exact hv
  | refused => exact hv
  | synced hsync =>
      rcases applySyncedBlock_cases hsync with ⟨_, _, _, _, _, _, rfl⟩
      cases hv
  | rejected => exact hv
  | resume hstart =>
      rcases startRound_frame hstart with ⟨_, _, rfl, _⟩
      exact hv
  | setTime => exact hv

/-- Entering round 0 from its propose step changes nothing here. -/
theorem VoteStep.of_restart {out : List (Effect C)} (hat : e.round = 0 ∧ e.step = .propose)
    (hstart : e.startRound 0 = .ok (e', out)) : VoteStep e (effects out) e' := by
  have hsame := (startRound_sameHeight hstart).1
  have hout := noVote_startRound hstart
  rcases startRound_frame hstart with ⟨parked, proposals, rfl, _⟩
  refine VoteStep.silent hsame hout ?_ rfl rfl
  unfold progress
  rw [hat.1, hat.2]

theorem Engine.Enter.voteStep {ev : Event C} {out : List (Output C)} (h : Enter ev e out e')
    (hdriven : driven e ev) : VoteStep e out e' := by
  cases h with
  | start hstart => exact VoteStep.of_restart (hdriven (Or.inl rfl)) hstart
  | message hi =>
      rcases ingest_frame hi with ⟨_, _, _, rfl⟩
      exact VoteStep.silent rfl (by intro vm h; cases h) le_rfl rfl rfl
  | timeout => exact VoteStep.silent rfl (by intro vm h; cases h) le_rfl rfl rfl
  | attestation => exact VoteStep.silent rfl (by intro vm h; cases h) le_rfl rfl rfl
  | governance => exact VoteStep.silent rfl (by intro vm h; cases h) le_rfl rfl rfl
  | refused => exact VoteStep.silent rfl (by intro vm h; cases h) le_rfl rfl rfl
  | synced hsync =>
      rcases applySyncedBlock_cases hsync with ⟨_, _, height, set, hheight, _, rfl⟩
      refine VoteStep.roll rfl ?_ (lt_of_checkedAdd_one hheight) rfl
      intro vm hcast
      cases List.mem_singleton.mp hcast
  | rejected => exact VoteStep.silent rfl (by intro vm h; cases h) le_rfl rfl rfl
  | resume hstart => exact VoteStep.of_restart (hdriven (Or.inr rfl)) hstart
  | setTime => exact VoteStep.silent rfl (by intro vm h; cases h) le_rfl rfl rfl

/-! ## The invariant -/

/-- What an engine's votes and lock have in common with where it stands. -/
structure VoteInv (log : List (Output C)) (e : Engine C) : Prop where
  own : ∀ {vm}, Cast log vm → vm.voter = e.mePk
  height_le : ∀ {vm}, Cast log vm → vm.height.toNat ≤ e.height.toNat
  placed : ∀ {vm}, Cast log vm → vm.height = e.height → votePos vm ≤ progress e
  unique : ∀ {vm₁ vm₂}, Cast log vm₁ → Cast log vm₂ → vm₁.height = vm₂.height →
    votePos vm₁ = votePos vm₂ → vm₁ = vm₂
  lock_placed : ∀ {lr}, e.lockedRound = some lr → 3 * lr.toNat + 2 ≤ progress e
  locked : ∀ {vm v}, Cast log vm → vm.height = e.height → vm.voteType = .precommit →
    vm.blockId = some v → ∃ lr, e.lockedRound = some lr ∧ vm.round.toNat ≤ lr.toNat ∧
      (lr = vm.round → e.lockedId = some v)

namespace VoteInv

theorem init (hlock : e.lockedRound = none) : VoteInv [] e where
  own h := by cases h
  height_le h := by cases h
  placed h := by cases h
  unique h := by cases h
  lock_placed h := by rw [hlock] at h; cases h
  locked h := by cases h

theorem silent {out : List (Output C)} (h : VoteInv log e) (hsame : SameHeight e e')
    (hout : NoVote out) (hprogress : progress e ≤ progress e')
    (hround : e'.lockedRound = e.lockedRound) (hvalue : e'.lockedValue = e.lockedValue) :
    VoteInv (log ++ out) e' := by
  -- without a new vote only the bounds move, and they grow
  have hid : e'.lockedId = e.lockedId := by
    unfold lockedId
    rw [hvalue]
  constructor
  · intro vm hvm
    rw [hsame.mePk]
    exact h.own (hout.cast_iff.mp hvm)
  · intro vm hvm
    rw [hsame.height]
    exact h.height_le (hout.cast_iff.mp hvm)
  · intro vm hvm heq
    rw [hsame.height] at heq
    exact (h.placed (hout.cast_iff.mp hvm) heq).trans hprogress
  · intro vm₁ vm₂ h₁ h₂
    exact h.unique (hout.cast_iff.mp h₁) (hout.cast_iff.mp h₂)
  · intro lr hlr
    rw [hround] at hlr
    exact (h.lock_placed hlr).trans hprogress
  · intro vm v hvm heq
    rw [hsame.height] at heq
    rw [hround, hid]
    exact h.locked (hout.cast_iff.mp hvm) heq

/-- At a new height nothing is cast yet. -/
theorem roll {out : List (Output C)} (h : VoteInv log e) (hkey : e'.mePk = e.mePk)
    (hout : NoVote out) (hheight : e.height < e'.height) (hround : e'.lockedRound = none) :
    VoteInv (log ++ out) e' := by
  rw [UInt64.lt_iff_toNat_lt] at hheight
  -- every vote so far is of an earlier height
  have hnone : ∀ {vm}, Cast (log ++ out) vm → vm.height ≠ e'.height := by
    intro vm hvm heq
    have hle := h.height_le (hout.cast_iff.mp hvm)
    rw [heq] at hle
    omega
  constructor
  · intro vm hvm
    rw [hkey]
    exact h.own (hout.cast_iff.mp hvm)
  · intro vm hvm
    exact (h.height_le (hout.cast_iff.mp hvm)).trans hheight.le
  · intro vm hvm heq
    exact absurd heq (hnone hvm)
  · intro vm₁ vm₂ h₁ h₂
    exact h.unique (hout.cast_iff.mp h₁) (hout.cast_iff.mp h₂)
  · intro lr hlr
    rw [hround] at hlr
    cases hlr
  · intro vm v hvm heq
    exact absurd heq (hnone hvm)

/-- The parts about votes alone, when a vote is cast at a new position. -/
theorem cast_new (h : VoteInv log e) (vm : VoteMsg C) (hvoter : vm.voter = e.mePk)
    (hheight : vm.height = e.height) (hahead : progress e < votePos vm) :
    (∀ {vm'}, Cast (log ++ effects [.broadcast (.vote vm)]) vm' → Cast log vm' ∨ vm' = vm) ∧
    (∀ {vm'}, Cast (log ++ effects [.broadcast (.vote vm)]) vm' → vm'.voter = e.mePk) ∧
    (∀ {vm'}, Cast (log ++ effects [.broadcast (.vote vm)]) vm' →
      vm'.height.toNat ≤ e.height.toNat) ∧
    (∀ {vm'}, Cast (log ++ effects [.broadcast (.vote vm)]) vm' → vm'.height = e.height →
      votePos vm' ≤ votePos vm) ∧
    ∀ {vm₁ vm₂}, Cast (log ++ effects [.broadcast (.vote vm)]) vm₁ →
      Cast (log ++ effects [.broadcast (.vote vm)]) vm₂ → vm₁.height = vm₂.height →
      votePos vm₁ = votePos vm₂ → vm₁ = vm₂ := by
  have hcases : ∀ {vm'}, Cast (log ++ effects [.broadcast (.vote vm)]) vm' →
      Cast log vm' ∨ vm' = vm := by
    intro vm' hvm'
    rcases cast_append.mp hvm' with hold | hnew
    · exact Or.inl hold
    · right
      simpa [cast_effects] using hnew
  -- an earlier vote of this height is strictly before the new one
  have hbefore : ∀ {vm'}, Cast log vm' → vm'.height = e.height → votePos vm' < votePos vm :=
    fun hvm' heq => lt_of_le_of_lt (h.placed hvm' heq) hahead
  refine ⟨hcases, ?_, ?_, ?_, ?_⟩
  · intro vm' hvm'
    rcases hcases hvm' with hold | rfl
    · exact h.own hold
    · exact hvoter
  · intro vm' hvm'
    rcases hcases hvm' with hold | rfl
    · exact h.height_le hold
    · rw [hheight]
  · intro vm' hvm' heq
    rcases hcases hvm' with hold | rfl
    · exact (hbefore hold heq).le
    · exact le_rfl
  · intro vm₁ vm₂ h₁ h₂ heq hpos
    rcases hcases h₁ with hold₁ | rfl
    · rcases hcases h₂ with hold₂ | rfl
      · exact h.unique hold₁ hold₂ heq hpos
      · have hlt := hbefore hold₁ (heq.trans hheight)
        omega
    · rcases hcases h₂ with hold₂ | rfl
      · have hlt := hbefore hold₂ (heq.symm.trans hheight)
        omega
      · rfl

theorem step {out : List (Output C)} (h : VoteInv log e) (hstep : VoteStep e out e') :
    VoteInv (log ++ out) e' := by
  cases hstep with
  | silent hsame hout hprogress hround hvalue => exact h.silent hsame hout hprogress hround hvalue
  | roll hkey hout hheight hround => exact h.roll hkey hout hheight hround
  | @prevote id hs hguard =>
      have hpos : votePos (e.ownVote .prevote id) = 3 * e.round.toNat + 1 := rfl
      have hprog : progress e = 3 * e.round.toNat + 0 := by unfold progress; rw [hs]; rfl
      -- a prevote moves from the propose position to the next one
      rcases h.cast_new (e.ownVote .prevote id) rfl rfl (by omega) with
        ⟨hcases, hown, hheight, hplaced, hunique⟩
      refine ⟨hown, hheight, hplaced, hunique, ?_, ?_⟩
      · intro lr hlr
        have hle := h.lock_placed hlr
        show 3 * lr.toNat + 2 ≤ 3 * e.round.toNat + 1
        omega
      · intro vm v hvm heq htype hid
        rcases hcases hvm with hold | rfl
        · exact h.locked hold heq htype hid
        · cases htype
  | @polka pm hs hpolka =>
      have hpos : votePos (e.ownVote .precommit (some pm.value.id)) = 3 * e.round.toNat + 2 := rfl
      have hprog : progress e = 3 * e.round.toNat + 1 := by unfold progress; rw [hs]; rfl
      rcases h.cast_new (e.ownVote .precommit (some pm.value.id)) rfl rfl (by omega) with
        ⟨hcases, hown, hheight, hplaced, hunique⟩
      refine ⟨hown, hheight, hplaced, hunique, ?_, ?_⟩
      · intro lr hlr
        obtain rfl : e.round = lr := Option.some.inj hlr
        exact le_rfl
      · intro vm v hvm heq htype hid
        -- the lock is of this round now, and no precommit is of a later one
        refine ⟨e.round, rfl, ?_, ?_⟩
        · rcases hcases hvm with hold | rfl
          · have hle := h.placed hold heq
            unfold votePos at hle
            rw [htype] at hle
            have htwo : VoteType.precommit.toNat = 2 := rfl
            omega
          · exact le_rfl
        · intro hround
          rcases hcases hvm with hold | rfl
          · -- the precommit position of this round was not reached before
            have hle := h.placed hold heq
            have hvpos : votePos vm = 3 * e.round.toNat + 2 := by
              unfold votePos
              rw [← hround, htype]
              rfl
            omega
          · exact hid
  | precommitNil hs =>
      have hpos : votePos (e.ownVote .precommit none) = 3 * e.round.toNat + 2 := rfl
      have hprog : progress e = 3 * e.round.toNat + 1 := by unfold progress; rw [hs]; rfl
      rcases h.cast_new (e.ownVote .precommit none) rfl rfl (by omega) with
        ⟨hcases, hown, hheight, hplaced, hunique⟩
      refine ⟨hown, hheight, hplaced, hunique, ?_, ?_⟩
      · intro lr hlr
        have hle := h.lock_placed hlr
        show 3 * lr.toNat + 2 ≤ 3 * e.round.toNat + 2
        omega
      · intro vm v hvm heq htype hid
        rcases hcases hvm with hold | rfl
        · exact h.locked hold heq htype hid
        · cases hid

/-- Along every driven trace of a new engine. -/
theorem trace {e₀ : Engine C} {evs : List (Event C)} (hlock : e₀.lockedRound = none)
    (h : Trace driven e₀ evs log e) : VoteInv log e := by
  induction h with
  | init => exact VoteInv.init hlock
  | enter _ hdriven hent ih => exact ih.step (hent.voteStep hdriven)
  | internal _ hi ih => exact ih.step hi.voteStep

end VoteInv

end SmartLedger
