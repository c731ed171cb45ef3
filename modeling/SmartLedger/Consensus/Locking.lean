import SmartLedger.Consensus.Integrity
import SmartLedger.Consensus.Voting

/-! # Polkas, locks and precommits

A polka for a value is a quorum of prevotes for it in one round. Whatever an
engine precommits, locks or holds as valid had one in that very round, made
of votes the engine knows: delivered to it or its own (`LockInv`). A lock
does move: a later polka takes it to another value, by design of the
protocol, so one engine can sign two blocks at one height in different rounds
(`lock_moves`). What holds is one block per round, and a polka behind every
precommit (`one_precommit_per_round`).

`LockInv.prevotes` is the local half of lock safety: an engine that
precommitted `v` and later prevotes another value saw a polka for that value
in between.
-/

namespace SmartLedger

open Engine

variable {C : Crypto} {e e' : Engine C} {evs evs' : List (Event C)} {log log' : List (Output C)}

/-- The votes an engine has to go by: verified votes of members that were
delivered to it, and its own. -/
def Known (evs : List (Event C)) (log : List (Output C)) (set : ValidatorSet C)
    (vm : VoteMsg C) : Prop :=
  (.message (.vote vm) ∈ evs ∧ vm.voter ∈ set.validators ∧ vm.verifySig = true) ∨ Cast log vm

theorem Known.mono {set : ValidatorSet C} {vm : VoteMsg C} (h : Known evs log set vm)
    (hevs : evs ⊆ evs') (hlog : log ⊆ log') : Known evs' log' set vm := by
  rcases h with ⟨hmem, hrest⟩ | hcast
  · exact Or.inl ⟨hevs hmem, hrest⟩
  · exact Or.inr (hlog hcast)

/-- A quorum of distinct voters with a vote for `v` at height `h` and round
`r`, each satisfying `K`. -/
def Tally (voteType : VoteType) (K : VoteMsg C → Prop) (set : ValidatorSet C) (h r : UInt64)
    (v : Hash) : Prop :=
  ∃ voters : Finset Hash, set.threshold ≤ voters.card ∧ ∀ k ∈ voters, ∃ vm : VoteMsg C,
    vm.voter.id = k ∧ vm.height = h ∧ vm.round = r ∧ vm.voteType = voteType ∧
    vm.blockId = some v ∧ K vm

/-- A polka: a quorum of prevotes. -/
def Polka (K : VoteMsg C → Prop) (set : ValidatorSet C) (h r : UInt64) (v : Hash) : Prop :=
  Tally .prevote K set h r v

theorem Tally.mono {voteType : VoteType} {K K' : VoteMsg C → Prop} {set : ValidatorSet C}
    {h r : UInt64} {v : Hash} (ht : Tally voteType K set h r v) (hK : ∀ vm, K vm → K' vm) :
    Tally voteType K' set h r v := by
  rcases ht with ⟨voters, hcard, hvoters⟩
  refine ⟨voters, hcard, ?_⟩
  intro k hk
  rcases hvoters k hk with ⟨vm, hid, hh, hr, htype, hb, hKvm⟩
  exact ⟨vm, hid, hh, hr, htype, hb, hK vm hKvm⟩

theorem Polka.mono {K K' : VoteMsg C → Prop} {set : ValidatorSet C} {h r : UInt64} {v : Hash}
    (hp : Polka K set h r v) (hK : ∀ vm, K vm → K' vm) : Polka K' set h r v :=
  Tally.mono hp hK

/-- A count of a store that reaches the quorum is a tally. -/
theorem VoteStore.Holds.tally {K : VoteMsg C → Prop} {voteType : VoteType} {h r : UInt64}
    {s : VoteStore C} {set : ValidatorSet C} {v : Hash} (hs : s.Holds K h voteType)
    (hcount : set.threshold ≤ s.count r (.id v)) : Tally voteType K set h r v := by
  rw [VoteStore.count_eq_card] at hcount
  refine ⟨_, hcount, ?_⟩
  intro k hk
  rcases KeyMap.mem_keysWith.mp hk with ⟨vm, hvm, hid⟩
  rcases hs r k vm hvm with ⟨hk, hh, hr, ht, hK⟩
  exact ⟨vm, hk, hh, hr, ht, beq_iff_eq.mp hid, hK⟩

theorem polka_of_count {K : VoteMsg C → Prop} {r : UInt64} {v : Hash} (hs : e.StoresHold K)
    (h : e.quorum ≤ e.countPrevotes r (.id v)) : Polka K e.currentSet e.height r v :=
  hs.1.tally h

/-! ## The stores hold known votes -/

theorem known_enter {ev : Event C} {out : List (Output C)}
    (h : e.StoresHold (Known evs log e.currentSet)) (hent : Enter ev e out e') :
    e'.StoresHold (Known (evs ++ [ev]) (log ++ out) e'.currentSet) := by
  have hgrow : ∀ vm, Known evs log e.currentSet vm →
      Known (evs ++ [ev]) (log ++ out) e.currentSet vm :=
    fun vm hvm => hvm.mono (List.subset_append_left _ _) (List.subset_append_left _ _)
  rcases hent.height_cases with ⟨hsame, _⟩ | ⟨_, _, _, _, _, _, _, _, rfl, _⟩
  · rw [hsame.currentSet]
    apply (h.congr rfl rfl rfl hgrow).enter hent
    rintro vm rfl hacc
    exact Or.inl ⟨List.mem_append_right _ List.mem_cons_self, hacc.2⟩
  · exact StoresHold.of_empty rfl rfl

theorem known_internal {ord : IterOrder} {out : List (Effect C)}
    (h : e.StoresHold (Known evs log e.currentSet)) (hi : Internal ord e out e') :
    e'.StoresHold (Known evs (log ++ effects out) e'.currentSet) := by
  apply h.internal hi
  · intro hsame vm hvm
    rw [hsame.currentSet]
    exact hvm.mono (List.Subset.refl _) (List.subset_append_left _ _)
  · intro _ vm hvm
    exact Or.inr (List.mem_append_right _ (cast_effects.mpr hvm))

/-! ## What backs a lock, a precommit and a later prevote -/

/-- The polkas behind what an engine locked and signed. -/
structure LockInv (evs : List (Event C)) (log : List (Output C)) (e : Engine C) : Prop where
  lock : ∀ {lr}, e.lockedRound = some lr → ∃ v, e.lockedId = some v ∧
    Polka (Known evs log e.currentSet) e.currentSet e.height lr v
  precommits : ∀ {vm v}, Cast log vm → vm.voteType = .precommit → vm.blockId = some v →
    ∃ set, e.registry.activeSet vm.height = .ok set ∧
      Polka (Known evs log set) set vm.height vm.round v
  prevotes : ∀ {pc pv v w}, Cast log pc → pc.voteType = .precommit → pc.blockId = some v →
    Cast log pv → pv.voteType = .prevote → pv.blockId = some w → pc.height = pv.height →
    pc.round < pv.round → w ≠ v →
    ∃ set r, e.registry.activeSet pv.height = .ok set ∧ pc.round ≤ r ∧ r < pv.round ∧
      Polka (Known evs log set) set pv.height r w

namespace LockInv

theorem init (hlock : e.lockedRound = none) : LockInv [] [] e where
  lock h := by rw [hlock] at h; cases h
  precommits h := by cases h
  prevotes h := by cases h

/-- What was backed stays backed. -/
theorem mono_precommits (h : LockInv evs log e) (hvotes : VoteInv log e) (hevs : evs ⊆ evs')
    (hlog : log ⊆ log')
    (hactive : ∀ h ≤ e.height, e'.registry.activeSet h = e.registry.activeSet h)
    {vm : VoteMsg C} {v : Hash} (hcast : Cast log vm) (htype : vm.voteType = .precommit)
    (hid : vm.blockId = some v) :
    ∃ set, e'.registry.activeSet vm.height = .ok set ∧
      Polka (Known evs' log' set) set vm.height vm.round v := by
  rcases h.precommits hcast htype hid with ⟨set, hset, hpolka⟩
  refine ⟨set, ?_, hpolka.mono fun vm hvm => hvm.mono hevs hlog⟩
  rw [hactive _ (UInt64.le_iff_toNat_le.mpr (hvotes.height_le hcast))]
  exact hset

theorem mono_prevotes (h : LockInv evs log e) (hvotes : VoteInv log e) (hevs : evs ⊆ evs')
    (hlog : log ⊆ log')
    (hactive : ∀ h ≤ e.height, e'.registry.activeSet h = e.registry.activeSet h)
    {pc pv : VoteMsg C} {v w : Hash} (hpc : Cast log pc) (hpct : pc.voteType = .precommit)
    (hpcid : pc.blockId = some v) (hpv : Cast log pv) (hpvt : pv.voteType = .prevote)
    (hpvid : pv.blockId = some w) (hheight : pc.height = pv.height) (hlt : pc.round < pv.round)
    (hne : w ≠ v) :
    ∃ set r, e'.registry.activeSet pv.height = .ok set ∧ pc.round ≤ r ∧ r < pv.round ∧
      Polka (Known evs' log' set) set pv.height r w := by
  rcases h.prevotes hpc hpct hpcid hpv hpvt hpvid hheight hlt hne with
    ⟨set, r, hset, hle, hr, hpolka⟩
  refine ⟨set, r, ?_, hle, hr, hpolka.mono fun vm hvm => hvm.mono hevs hlog⟩
  rw [hactive _ (UInt64.le_iff_toNat_le.mpr (hvotes.height_le hpv))]
  exact hset

/-- Why an engine may prevote `w` after it precommitted another value: its
lock is on `w` by now, or the re-proposal shows a polka at least as recent as
the lock. -/
theorem polka_of_guard (h : LockInv evs log e) (hvotes : VoteInv log e)
    (hstores : e.StoresHold (Known evs log e.currentSet)) (hstep : e.step = .propose)
    {v w : Hash} (hguard : PrevoteGuard e (some w)) {pc : VoteMsg C} (hpc : Cast log pc)
    (hpct : pc.voteType = .precommit) (hpcid : pc.blockId = some v)
    (hheight : pc.height = e.height) (hne : w ≠ v) :
    ∃ r, pc.round ≤ r ∧ r < e.round ∧
      Polka (Known evs log e.currentSet) e.currentSet e.height r w := by
  rcases hvotes.locked hpc hheight hpct hpcid with ⟨lr, hlr, hle, hsame⟩
  have hplaced := hvotes.lock_placed hlr
  -- in the propose step the lock is of an earlier round
  have hlt : lr.toNat < e.round.toNat := by
    unfold progress at hplaced
    rw [hstep] at hplaced
    have hzero : Step.propose.toNat = 0 := rfl
    omega
  have hlocked : e.lockedId = some w → ∃ r, pc.round ≤ r ∧ r < e.round ∧
      Polka (Known evs log e.currentSet) e.currentSet e.height r w := by
    intro hid
    rcases h.lock hlr with ⟨u, hu, hpolka⟩
    obtain rfl : u = w := Option.some.inj (hu.symm.trans hid)
    exact ⟨lr, UInt64.le_iff_toNat_le.mpr hle, UInt64.lt_iff_toNat_lt.mpr hlt, hpolka⟩
  -- the guard of the prevote, by the rule it was cast under
  generalize hid : some w = id at hguard
  cases hguard with
  | nil => cases hid
  | fresh pm hpm hvr hvalid hlock =>
      rw [Option.some.injEq] at hid
      rcases hlock with hnone | heq
      · rw [hnone] at hlr
        cases hlr
      · exact hlocked (hid ▸ heq)
  | reproposal pm vr hpm hvr hvrlt hpolka hvalid hlock =>
      rw [Option.some.injEq] at hid
      rcases hlock with hold | heq
      · have hlv := UInt64.le_iff_toNat_le.mp (hold lr hlr)
        refine ⟨vr, UInt64.le_iff_toNat_le.mpr (by omega), hvrlt, ?_⟩
        rw [hid]
        exact polka_of_count hstores hpolka
      · exact hlocked (hid ▸ heq)

/-- The new vote among the votes after a cast. -/
theorem cast_cases {vm vm' : VoteMsg C}
    (h : Cast (log ++ effects [.broadcast (.vote vm)]) vm') : Cast log vm' ∨ vm' = vm := by
  rcases cast_append.mp h with hold | hnew
  · exact Or.inl hold
  · right
    simpa [cast_effects] using hnew

theorem not_later_prevote (hvotes : VoteInv log e) {pv : VoteMsg C} (hpv : Cast log pv)
    (hpvt : pv.voteType = .prevote) (hheight : pv.height = e.height) (hstep : e.step = .prevote) :
    ¬ e.round < pv.round := by
  intro hlt
  have hle := hvotes.placed hpv hheight
  rw [UInt64.lt_iff_toNat_lt] at hlt
  unfold votePos progress at hle
  rw [hpvt, hstep] at hle
  have hone : VoteType.prevote.toNat = 1 ∧ Step.prevote.toNat = 1 := ⟨rfl, rfl⟩
  omega

/-- After one more vote, it is enough that this vote is backed: a precommit for
a block by a polka, a prevote after an earlier precommit by a polka in
between. -/
theorem cast (h : LockInv evs log e) (hvotes : VoteInv log e) (hevs : evs ⊆ evs')
    (hactive : ∀ h ≤ e.height, e'.registry.activeSet h = e.registry.activeSet h)
    {vm : VoteMsg C}
    (hlock : ∀ {lr}, e'.lockedRound = some lr → ∃ v, e'.lockedId = some v ∧
      Polka (Known evs' (log ++ effects [.broadcast (.vote vm)]) e'.currentSet) e'.currentSet
        e'.height lr v)
    (hbacked : ∀ {v}, vm.voteType = .precommit → vm.blockId = some v →
      ∃ set, e'.registry.activeSet vm.height = .ok set ∧
        Polka (Known evs' (log ++ effects [.broadcast (.vote vm)]) set) set vm.height vm.round v)
    (hlast : ∀ {pv}, vm.voteType = .precommit → vm.blockId ≠ none → Cast log pv →
      pv.voteType = .prevote → vm.height = pv.height → ¬ vm.round < pv.round)
    (hjustified : ∀ {pc v w}, vm.voteType = .prevote → vm.blockId = some w → Cast log pc →
      pc.voteType = .precommit → pc.blockId = some v → pc.height = vm.height → w ≠ v →
      ∃ set r, e'.registry.activeSet vm.height = .ok set ∧ pc.round ≤ r ∧ r < vm.round ∧
        Polka (Known evs' (log ++ effects [.broadcast (.vote vm)]) set) set vm.height r w) :
    LockInv evs' (log ++ effects [.broadcast (.vote vm)]) e' := by
  have hlog : log ⊆ log ++ effects [.broadcast (.vote vm)] := List.subset_append_left _ _
  refine ⟨hlock, ?_, ?_⟩
  · intro vm' v hcast htype hid
    rcases cast_cases hcast with hold | rfl
    · exact h.mono_precommits hvotes hevs hlog hactive hold htype hid
    · exact hbacked htype hid
  · intro pc pv v w hpc hpct hpcid hpv hpvt hpvid hheight hlt hne
    -- the new vote is one of the two, or neither
    rcases cast_cases hpc with hpcold | rfl
    · rcases cast_cases hpv with hpvold | rfl
      · exact h.mono_prevotes hvotes hevs hlog hactive hpcold hpct hpcid hpvold hpvt hpvid
          hheight hlt hne
      · exact hjustified hpvt hpvid hpcold hpct hpcid hheight hne
    · rcases cast_cases hpv with hpvold | rfl
      · have hsome : pc.blockId ≠ none := by
          rw [hpcid]
          exact Option.some_ne_none v
        exact absurd hlt (hlast hpct hsome hpvold hpvt hheight)
      · rw [hpct] at hpvt
        cases hpvt

theorem step {out : List (Output C)} (h : LockInv evs log e) (hvotes : VoteInv log e)
    (hstores : e.StoresHold (Known evs log e.currentSet))
    (hset : e.registry.activeSet e.height = .ok e.currentSet) (hstep : VoteStep e out e')
    (hevs : evs ⊆ evs')
    (hactive : ∀ h ≤ e.height, e'.registry.activeSet h = e.registry.activeSet h) :
    LockInv evs' (log ++ out) e' := by
  have hlog : log ⊆ log ++ out := List.subset_append_left _ _
  have hmono : ∀ {r v}, Polka (Known evs log e.currentSet) e.currentSet e.height r v →
      Polka (Known evs' (log ++ out) e.currentSet) e.currentSet e.height r v :=
    fun hp => hp.mono fun vm hvm => hvm.mono hevs hlog
  cases hstep with
  | silent hsame hout hprogress hround hvalue =>
      refine ⟨?_, ?_, ?_⟩
      · intro lr hlr
        rw [hround] at hlr
        -- the lock is as it was
        rcases h.lock hlr with ⟨v, hv, hpolka⟩
        refine ⟨v, ?_, ?_⟩
        · unfold lockedId at hv ⊢
          rw [hvalue]
          exact hv
        · rw [hsame.currentSet, hsame.height]
          exact hmono hpolka
      · intro vm v hcast
        exact h.mono_precommits hvotes hevs hlog hactive (hout.cast_iff.mp hcast)
      · intro pc pv v w hpc hpct hpcid hpv
        exact h.mono_prevotes hvotes hevs hlog hactive (hout.cast_iff.mp hpc) hpct hpcid
          (hout.cast_iff.mp hpv)
  | roll hkey hout hheight hround =>
      refine ⟨?_, ?_, ?_⟩
      · intro lr hlr
        rw [hround] at hlr
        cases hlr
      · intro vm v hcast
        exact h.mono_precommits hvotes hevs hlog hactive (hout.cast_iff.mp hcast)
      · intro pc pv v w hpc hpct hpcid hpv
        exact h.mono_prevotes hvotes hevs hlog hactive (hout.cast_iff.mp hpc) hpct hpcid
          (hout.cast_iff.mp hpv)
  | @prevote id hs hguard =>
      apply h.cast hvotes hevs hactive
      · intro lr hlr
        rcases h.lock hlr with ⟨v, hv, hpolka⟩
        exact ⟨v, hv, hmono hpolka⟩
      · intro v htype
        cases htype
      · intro pv htype
        cases htype
      · -- the guard of the prevote names the polka
        intro pc v w _ hid hpc hpct hpcid hheight hne
        obtain rfl : id = some w := hid
        rcases h.polka_of_guard hvotes hstores hs hguard hpc hpct hpcid hheight hne with
          ⟨r, hle, hr, hpolka⟩
        exact ⟨e.currentSet, r, hset, hle, hr, hmono hpolka⟩
  | @polka pm hs hpolka =>
      have hnew := hmono (polka_of_count hstores hpolka)
      apply h.cast hvotes hevs hactive
      · intro lr hlr
        obtain rfl : e.round = lr := Option.some.inj hlr
        exact ⟨pm.value.id, rfl, hnew⟩
      · intro v _ hid
        obtain rfl : pm.value.id = v := Option.some.inj hid
        exact ⟨e.currentSet, hset, hnew⟩
      · -- no prevote of a later round was cast yet
        intro pv _ _ hpv hpvt hheight
        exact not_later_prevote hvotes hpv hpvt hheight.symm hs
      · intro pc v w htype
        cases htype
  | precommitNil hs =>
      apply h.cast hvotes hevs hactive
      · intro lr hlr
        rcases h.lock hlr with ⟨v, hv, hpolka⟩
        exact ⟨v, hv, hmono hpolka⟩
      · intro v _ hid
        cases hid
      · intro pv _ hid
        exact absurd rfl hid
      · intro pc v w htype
        cases htype

end LockInv

/-- Everything the later arguments use about one engine, along its trace. -/
structure Disciplined (evs : List (Event C)) (log : List (Output C)) (e : Engine C) : Prop where
  votes : VoteInv log e
  locks : LockInv evs log e
  stores : e.StoresHold (Known evs log e.currentSet)
  valid : ∀ {vr}, e.validRound = some vr → ∃ v, e.validValue = some v ∧
    Polka (Known evs log e.currentSet) e.currentSet e.height vr v.id

/-- An engine that has just entered its height: in round 0, with nothing
stored, locked or voted; pools, clock and the parked flag are arbitrary. -/
structure Fresh (e : Engine C) : Prop where
  round : e.round = 0
  step : e.step = .propose
  lockedValue : e.lockedValue = none
  lockedRound : e.lockedRound = none
  validValue : e.validValue = none
  validRound : e.validRound = none
  proposals : e.proposals = ∅
  prevotes : e.prevotes = ∅
  precommits : e.precommits = ∅
  prevoteTimeoutStarted : e.prevoteTimeoutStarted = ∅
  precommitTimeoutStarted : e.precommitTimeoutStarted = ∅
  polkaApplied : e.polkaApplied = ∅
  set : e.registry.activeSet e.height = .ok e.currentSet
  roster : e.validatorsSorted = sortById e.currentSet.validators

/-- A new engine is fresh. -/
theorem Fresh.of_withRegistry {registry : ValidatorRegistry C} {meSk : C.SigningKey}
    {mePk : C.VerifyingKey} {tip : Hash} {startHeight : UInt64}
    (h : withRegistry registry meSk mePk tip startHeight = .ok e) : Fresh e := by
  rcases withRegistry_eq_ok h with ⟨set, hset, rfl⟩
  exact ⟨rfl, rfl, rfl, rfl, rfl, rfl, rfl, rfl, rfl, rfl, rfl, rfl, hset, rfl⟩

/-- So is one that rolled to its height, by a commit or by catching up. -/
theorem Fresh.of_rolled {v : Proposed C} {pool : List (SignedValidatorChange C)}
    {height : UInt64} {set : ValidatorSet C}
    (hset : (e.registry.recordAll v.governance).activeSet height = .ok set) :
    Fresh (e.rolled v pool height set) :=
  ⟨rfl, rfl, rfl, rfl, rfl, rfl, rfl, rfl, rfl, rfl, rfl, rfl, hset, rfl⟩

/-- It stands on the empty chain from its own state. -/
theorem Fresh.onChain (h : Fresh e) : OnChain e.chainState [] e :=
  ⟨trivial, rfl, h.set, h.roster⟩

namespace Disciplined

theorem init (h : Fresh e) : Disciplined [] [] e where
  votes := VoteInv.init h.lockedRound
  locks := LockInv.init h.lockedRound
  stores := StoresHold.of_empty h.prevotes h.precommits
  valid := by
    intro vr hvr
    rw [h.validRound] at hvr
    cases hvr

theorem valid_mono (h : Disciplined evs log e) (hsame : SameHeight e e')
    (hround : e'.validRound = e.validRound) (hvalue : e'.validValue = e.validValue)
    (hevs : evs ⊆ evs') (hlog : log ⊆ log') {vr : UInt64} (hvr : e'.validRound = some vr) :
    ∃ v, e'.validValue = some v ∧
      Polka (Known evs' log' e'.currentSet) e'.currentSet e'.height vr v.id := by
  rw [hround] at hvr
  rcases h.valid hvr with ⟨v, hv, hpolka⟩
  rw [hvalue, hsame.currentSet, hsame.height]
  exact ⟨v, hv, hpolka.mono fun vm hvm => hvm.mono hevs hlog⟩

theorem enter {ev : Event C} {out : List (Output C)} (h : Disciplined evs log e)
    (hset : e.registry.activeSet e.height = .ok e.currentSet) (hdriven : driven e ev)
    (hent : Enter ev e out e') : Disciplined (evs ++ [ev]) (log ++ out) e' := by
  have hevs : evs ⊆ evs ++ [ev] := List.subset_append_left _ _
  have hlog : log ⊆ log ++ out := List.subset_append_left _ _
  have hstep : VoteStep e out e' := hent.voteStep hdriven
  refine ⟨h.votes.step hstep, ?_, known_enter h.stores hent, ?_⟩
  · exact h.locks.step h.votes h.stores hset hstep hevs fun _ hle => hent.activeSet_eq hle
  · intro vr hvr
    rcases hent.height_cases with ⟨hsame, _⟩ | ⟨_, _, _, _, _, _, _, _, rfl, _⟩
    -- no input at the height sets the valid value
    · have hframe : e'.validRound = e.validRound ∧ e'.validValue = e.validValue := by
        cases hent with
        | start hstart =>
            rcases startRound_frame hstart with ⟨_, _, rfl, _⟩
            exact ⟨rfl, rfl⟩
        | message hi =>
            rcases ingest_frame hi with ⟨_, _, _, rfl⟩
            exact ⟨rfl, rfl⟩
        | timeout => exact ⟨rfl, rfl⟩
        | attestation => exact ⟨rfl, rfl⟩
        | governance => exact ⟨rfl, rfl⟩
        | refused => exact ⟨rfl, rfl⟩
        | synced hsync =>
            rcases applySyncedBlock_cases hsync with ⟨_, _, _, _, _, _, rfl⟩
            cases hvr
        | rejected => exact ⟨rfl, rfl⟩
        | resume hstart =>
            rcases startRound_frame hstart with ⟨_, _, rfl, _⟩
            exact ⟨rfl, rfl⟩
        | setTime => exact ⟨rfl, rfl⟩
      exact h.valid_mono hsame hframe.1 hframe.2 hevs hlog hvr
    · cases hvr

theorem internal {ord : IterOrder} {out : List (Effect C)} (h : Disciplined evs log e)
    (hset : e.registry.activeSet e.height = .ok e.currentSet) (hi : Internal ord e out e') :
    Disciplined evs (log ++ effects out) e' := by
  have hevs : evs ⊆ evs := List.Subset.refl _
  have hlog : log ⊆ log ++ effects out := List.subset_append_left _ _
  refine ⟨h.votes.step hi.voteStep, ?_, known_internal h.stores hi, ?_⟩
  · exact h.locks.step h.votes h.stores hset hi.voteStep hevs fun _ hle => hi.activeSet_eq hle
  · intro vr hvr
    -- a value becomes valid with the polka that was just counted
    have hnew : ∀ {v : Proposed C}, e.quorum ≤ e.countPrevotes e.round (.id v.id) →
        Polka (Known evs (log ++ effects out) e.currentSet) e.currentSet e.height e.round v.id :=
      fun hcount => (polka_of_count h.stores hcount).mono fun vm hvm => hvm.mono hevs hlog
    cases hi with
    | prevote => exact h.valid_mono rfl rfl rfl hevs hlog hvr
    | schedulePrevote => exact h.valid_mono rfl rfl rfl hevs hlog hvr
    | polka hstep hfirst hpm hpolka =>
        obtain rfl : e.round = vr := Option.some.inj hvr
        exact ⟨_, rfl, hnew hpolka⟩
    | latePolka hstep hfirst hpm hpolka =>
        obtain rfl : e.round = vr := Option.some.inj hvr
        exact ⟨_, rfl, hnew hpolka⟩
    | precommitNil => exact h.valid_mono rfl rfl rfl hevs hlog hvr
    | schedulePrecommit => exact h.valid_mono rfl rfl rfl hevs hlog hvr
    | jump hlt hstart =>
        have hsame := (startRound_sameHeight hstart).1
        rcases startRound_frame hstart with ⟨_, _, rfl, _⟩
        exact h.valid_mono hsame rfl rfl hevs hlog hvr
    | wake hparked hwake =>
        rcases wake_frame hwake with ⟨_, rfl, _⟩
        exact h.valid_mono rfl rfl rfl hevs hlog hvr
    | commit hpm hquorum hvalid hcommit =>
        rcases commit_cases hcommit with ⟨_, _, _, _, _, hstart, rfl⟩
        rcases startRound_frame hstart with ⟨_, _, rfl, _⟩
        cases hvr

/-- Along every driven trace of an engine that entered its height. -/
theorem trace {e₀ : Engine C} (hfresh : Fresh e₀) (h : Trace driven e₀ evs log e) :
    Disciplined evs log e := by
  induction h with
  | init => exact Disciplined.init hfresh
  | enter htrace hdriven hent ih => exact ih.enter (hfresh.onChain.trace htrace).set hdriven hent
  | internal htrace hi ih => exact ih.internal (hfresh.onChain.trace htrace).set hi

end Disciplined

/-! ## What backs a committed block -/

/-- Behind every committed block is a quorum of precommits for its id, at its
height and in one round, made of votes the engine knows. -/
def Decided (evs : List (Event C)) (log : List (Output C)) (e : Engine C) : Prop :=
  ∀ b, .effect (.committed b) ∈ log → b.header.height ≤ e.height ∧
    ∃ set r, e.registry.activeSet b.header.height = .ok set ∧
      Tally .precommit (Known evs log set) set b.header.height r (b.header.id C)

namespace Decided

theorem mono (h : Decided evs log e) (hevs : evs ⊆ evs') (hlog : log ⊆ log')
    (hheight : e.height ≤ e'.height)
    (hactive : ∀ h ≤ e.height, e'.registry.activeSet h = e.registry.activeSet h) {b : Block C}
    (hb : .effect (.committed b) ∈ log) :
    b.header.height ≤ e'.height ∧ ∃ set r, e'.registry.activeSet b.header.height = .ok set ∧
      Tally .precommit (Known evs' log' set) set b.header.height r (b.header.id C) := by
  rcases h b hb with ⟨hle, set, r, hset, htally⟩
  refine ⟨UInt64.le_trans hle hheight, set, r, ?_, htally.mono fun vm hvm => hvm.mono hevs hlog⟩
  rw [hactive _ hle]
  exact hset

theorem enter {ev : Event C} {out : List (Output C)} (h : Decided evs log e)
    (hent : Enter ev e out e') : Decided (evs ++ [ev]) (log ++ out) e' := by
  intro b hb
  have hnew : .effect (.committed b) ∉ out := by
    intro hmem
    rcases hent.height_cases with ⟨_, hnone⟩ | ⟨_, _, _, _, _, _, _, _, _, rfl⟩
    · have hfin := committed_mem_finalized hmem
      rw [hnone] at hfin
      cases hfin
    · cases List.mem_singleton.mp hmem
  rcases List.mem_append.mp hb with hold | hmem
  · exact h.mono (List.subset_append_left _ _) (List.subset_append_left _ _) hent.height_le
      (fun _ hle => hent.activeSet_eq hle) hold
  · exact absurd hmem hnew

theorem internal {ord : IterOrder} {out : List (Effect C)} (h : Decided evs log e)
    (hstores : e.StoresHold (Known evs log e.currentSet))
    (hset : e.registry.activeSet e.height = .ok e.currentSet) (hi : Internal ord e out e') :
    Decided evs (log ++ effects out) e' := by
  intro b hb
  have hlog : log ⊆ log ++ effects out := List.subset_append_left _ _
  rcases List.mem_append.mp hb with hold | hmem
  · exact h.mono (List.Subset.refl _) hlog hi.height_le (fun _ hle => hi.activeSet_eq hle) hold
  have hfin := committed_mem_finalized hmem
  rcases hi.height_cases with ⟨_, hnone⟩ | ⟨r, pm, _, _, _, hquorum, hvalid, _, _, _, hone⟩
  · rw [hnone] at hfin
    cases hfin
  · -- the block just committed, from the precommits of round `r`
    rw [hone] at hfin
    obtain rfl := List.mem_singleton.mp hfin
    have hheight : pm.value.header.height = e.height :=
      ((Proposed.isValid_iff _ _ _ _).mp hvalid).height_eq
    have htally : Tally .precommit (Known evs log e.currentSet) e.currentSet e.height r
        pm.value.id := hstores.2.tally hquorum
    have hactive : e'.registry.activeSet e.height = .ok e.currentSet :=
      (hi.activeSet_eq (UInt64.le_refl _)).trans hset
    rw [← hheight] at htally hactive
    refine ⟨?_, e.currentSet, r, hactive, htally.mono fun vm hvm => hvm.mono (List.Subset.refl _) hlog⟩
    exact UInt64.le_trans (UInt64.le_of_eq hheight) hi.height_le

/-- Along every driven trace of an engine that entered its height. -/
theorem trace {e₀ : Engine C} (hfresh : Fresh e₀) (h : Trace driven e₀ evs log e) :
    Decided evs log e := by
  induction h with
  | init => intro b hb; cases hb
  | enter _ _ hent ih => exact ih.enter hent
  | internal htrace hi ih =>
      exact ih.internal (Disciplined.trace hfresh htrace).stores
        (hfresh.onChain.trace htrace).set hi

end Decided

/-! ## One precommit per round -/

/-- In every driven run of an engine: at one height and round all its non-nil
precommits are for one block id; and a non-nil precommit is for a value with a
quorum of prevotes, in that very height and round, among the votes delivered
to the engine and its own. So two precommits for different ids at one height
are of different rounds, each with its own polka. -/
theorem one_precommit_per_round {registry : ValidatorRegistry C} {meSk : C.SigningKey}
    {mePk : C.VerifyingKey} {tip₀ : Hash} {h₀ : UInt64} {e₀ : Engine C}
    (hnew : withRegistry registry meSk mePk tip₀ h₀ = .ok e₀)
    (hrun : Run driven e₀ evs log e) :
    (∀ vm₁ vm₂ v₁ v₂, Cast log vm₁ → Cast log vm₂ →
      vm₁.voteType = .precommit → vm₂.voteType = .precommit →
      vm₁.blockId = some v₁ → vm₂.blockId = some v₂ →
      vm₁.height = vm₂.height → vm₁.round = vm₂.round → v₁ = v₂) ∧
    ∀ vm v, Cast log vm → vm.voteType = .precommit → vm.blockId = some v →
      ∃ set, e.registry.activeSet vm.height = .ok set ∧
        Polka (Known evs log set) set vm.height vm.round v := by
  have hdis := Disciplined.trace (Fresh.of_withRegistry hnew) hrun.trace
  constructor
  · intro vm₁ vm₂ v₁ v₂ h₁ h₂ ht₁ ht₂ hid₁ hid₂ hheight hround
    have hpos := votePos_congr hround (ht₁.trans ht₂.symm)
    obtain rfl := hdis.votes.unique h₁ h₂ hheight hpos
    exact Option.some.inj (hid₁.symm.trans hid₂)
  · intro vm v hcast htype hid
    exact hdis.locks.precommits hcast htype hid

/-- A start of a new engine and later messages and submissions are driven. -/
theorem Run.of_started {genesis : List UInt8} {me : UInt8} {evs : List (Event sample)}
    {p : Engine sample × List (Output sample) → Bool}
    (hevs : ∀ ev ∈ evs, ev ≠ .start ∧ ev ≠ .resume)
    (h : (sampleRun genesis me (.start :: evs)).holds p = true) :
    ∃ e₀ e log, sampleEngine genesis me = .ok e₀ ∧ Run driven e₀ (.start :: evs) log e ∧
      p (e, log) = true := by
  rcases Exec.holds_iff.mp h with ⟨⟨e, log⟩, hrun, hp⟩
  rcases Exec.bind_eq_ok.mp hrun with ⟨e₀, hnew, hall⟩
  have hfresh := Fresh.of_withRegistry hnew
  simp only [handleAll, Exec.bind_eq_ok] at hall
  rcases hall with ⟨⟨e₁, o₁⟩, hstart, ⟨e₂, o₂⟩, hrest, hall⟩
  rcases Exec.ok_pair hall with ⟨rfl, rfl⟩
  have hone : Run driven e₀ ([] ++ [.start]) ([] ++ o₁) e₁ :=
    Run.step Run.init (fun _ => ⟨hfresh.round, hfresh.step⟩) hstart
  have hdriven : ∀ ev ∈ evs, ∀ e, driven e ev := by
    intro ev hev e
    exact driven_of_ne (hevs ev hev).1 (hevs ev hev).2
  exact ⟨e₀, _, _, hnew, hone.trans (Run.of_handleAll hdriven hrest), hp⟩

/-- Two values of the sample chain. -/
def valueA : Proposed sample := sampleValue [sampleAttestation 1 7]

def valueB : Proposed sample := sampleValue [sampleAttestation 1 8]

/-- Validator 1 of four sees a polka for one value in round 0 and a polka for
another in round 1. -/
def lockInput : List (Event sample) :=
  [.message (sampleProposal 2 0 none valueA),
    .message (sampleVote 2 0 .prevote (some valueA.id)),
    .message (sampleVote 3 0 .prevote (some valueA.id)),
    .message (sampleVote 2 1 .prevote (some valueB.id)),
    .message (sampleVote 3 1 .prevote (some valueB.id)),
    .message (sampleProposal 3 1 none valueB),
    .message (sampleVote 4 1 .prevote (some valueB.id))]

/-- The precommit of validator 1 at height 1. -/
def samplePrecommit (round : UInt64) (id : Hash) : VoteMsg sample :=
  VoteMsg.create (C := sample) (1 : UInt8) (1 : UInt8) 1 round .precommit (some id)

/-- The first precommit of that run, with the quorum of prevotes behind it. -/
theorem one_precommit_per_round_four :
    ∃ (e : Engine sample) (log : List (Output sample)),
      Cast log (samplePrecommit 0 valueA.id) ∧
      ∃ set, e.registry.activeSet 1 = .ok set ∧
        Polka (Known (.start :: lockInput) log set) set 1 0 valueA.id := by
  have hholds : (sampleRun [1, 2, 3, 4] 1 (.start :: lockInput)).holds (fun r =>
      decide (.effect (.broadcast (.vote (samplePrecommit 0 valueA.id))) ∈ r.2)) = true := by
    decide +kernel
  rcases Run.of_started (by decide +kernel) hholds with ⟨e₀, e, log, hnew, hrun, hcast⟩
  have hcast := of_decide_eq_true hcast
  have hbacked := (one_precommit_per_round hnew hrun).2 (samplePrecommit 0 valueA.id) valueA.id
    hcast rfl rfl
  exact ⟨e, log, hcast, hbacked⟩

/-- In that run validator 1 signs both blocks at height 1: the polka of round
1 takes its lock from the first to the second. -/
theorem lock_moves :
    ¬ ∀ (genesis : List UInt8) (me : UInt8) (evs : List (Event sample)) (e₀ e : Engine sample)
      (log : List (Output sample)), sampleEngine genesis me = .ok e₀ →
      Run driven e₀ evs log e → ∀ vm₁ vm₂ v₁ v₂, Cast log vm₁ → Cast log vm₂ →
        vm₁.voteType = .precommit → vm₂.voteType = .precommit →
        vm₁.blockId = some v₁ → vm₂.blockId = some v₂ → vm₁.height = vm₂.height → v₁ = v₂ := by
  intro hall
  have hholds : (sampleRun [1, 2, 3, 4] 1 (.start :: lockInput)).holds (fun r =>
      decide (.effect (.broadcast (.vote (samplePrecommit 0 valueA.id))) ∈ r.2 ∧
        .effect (.broadcast (.vote (samplePrecommit 1 valueB.id))) ∈ r.2)) = true := by
    decide +kernel
  rcases Run.of_started (by decide +kernel) hholds with ⟨e₀, e, log, hnew, hrun, hboth⟩
  rcases of_decide_eq_true hboth with ⟨h₁, h₂⟩
  have hsame := hall _ _ _ e₀ e log hnew hrun _ _ _ _ h₁ h₂ rfl rfl rfl rfl rfl
  exact absurd hsame (by decide +kernel)

end SmartLedger
