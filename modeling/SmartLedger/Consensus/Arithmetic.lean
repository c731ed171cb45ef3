import SmartLedger.Consensus.Progress
import SmartLedger.Consensus.Redelivery

/-! # The arithmetic of the engine

The engine adds to its height and its round in a few places, and takes a
remainder by the size of the roster to find a proposer. `Exec.Calm` says that
a computation does not fail in one of these. A handler is calm if the engine
is in a round that can be left behind (`Sturdy`), the event does not ask for a
round out of range (`Tame`), and the height has room for the blocks that may
be committed (`handle_calm`); and then the engine is as before.

The rounds whose timers fit are a parameter: the timers are the node's.
-/

namespace SmartLedger

/-- No overflow and no index out of range. -/
def Exec.Calm {α : Type} (x : Exec α) : Prop :=
  x ≠ .error .overflow ∧ x ≠ .error .indexOutOfBounds

namespace Exec.Calm

variable {α β : Type}

theorem ok (a : α) : Exec.Calm (.ok a) := ⟨nofun, nofun⟩

theorem bind {x : Exec α} {f : α → Exec β} (h : x.Calm) (hf : ∀ a, x = .ok a → (f a).Calm) :
    Exec.Calm (x >>= f) := by
  cases x with
  | ok a => exact hf a rfl
  | error p =>
      constructor
      · intro heq
        exact h.1 (congrArg Except.error (Except.error.inj heq))
      · intro heq
        exact h.2 (congrArg Except.error (Except.error.inj heq))

theorem map {x : Exec α} (h : x.Calm) (f : α → β) : Exec.Calm (f <$> x) := by
  cases x with
  | ok a => exact ok _
  | error p =>
      constructor
      · intro heq
        exact h.1 (congrArg Except.error (Except.error.inj heq))
      · intro heq
        exact h.2 (congrArg Except.error (Except.error.inj heq))

/-- A computation that goes on calmly was calm. -/
theorem of_bind {x : Exec α} {f : α → Exec β} (h : Exec.Calm (x >>= f)) : x.Calm := by
  constructor
  · rintro rfl
    exact h.1 rfl
  · rintro rfl
    exact h.2 rfl

theorem checkedAdd {a b : UInt64} (h : a.toNat + b.toNat < 2 ^ 64) :
    Exec.Calm (SmartLedger.checkedAdd a b) := by
  unfold SmartLedger.checkedAdd
  rw [if_pos h]
  exact ok _

end Exec.Calm

open Engine

variable {C : Crypto} {ord : IterOrder} {e e' : Engine C}

/-- How much an event adds to the pools at most. -/
def Event.adds : Event C → Nat
  | .attestation _ | .governance _ => 1
  | .start | .message _ | .timeout _ _ _ | .synced _ | .resume | .setTime _ => 0

/-- Building a set may fail, but not in the arithmetic. -/
theorem activeSet_calm (reg : ValidatorRegistry C) (height : UInt64) :
    Exec.Calm (reg.activeSet height) := by
  unfold ValidatorRegistry.activeSet ValidatorSet.bft ValidatorSet.new
  dsimp only
  split
  · split
    · exact Exec.Calm.ok _
    · constructor
      · intro h
        cases h
      · intro h
        cases h
  · constructor
    · intro h
      cases h
    · intro h
      cases h

namespace Engine

theorem reloadSet_calm (e : Engine C) : Exec.Calm e.reloadSet :=
  (activeSet_calm _ _).bind fun _ _ => Exec.Calm.ok _

/-- The sorted roster has a key for every validator of the set. -/
def Rostered (e : Engine C) : Prop :=
  e.validatorsSorted.length = e.currentSet.validators.length

/-- The roster is not empty, so the slot is taken modulo something. -/
theorem Rostered.n_pos (h : e.Rostered) : 0 < e.n := by
  unfold n
  rw [show e.validatorsSorted.length = _ from h]
  exact e.currentSet.threshold_pos.trans e.currentSet.threshold_le

/-- The one addition of the slot. -/
theorem proposer_calm {r : UInt64} (h : e.Rostered) (hr : e.height.toNat + r.toNat < 2 ^ 64) :
    Exec.Calm (e.proposer r) := by
  unfold proposer
  refine (Exec.Calm.checkedAdd hr).bind ?_
  intro slot _
  have hslot : slot.toNat % e.n < e.validatorsSorted.length := Nat.mod_lt _ h.n_pos
  rw [List.getElem?_eq_getElem hslot]
  exact Exec.Calm.ok _

theorem enterPropose_calm {r : UInt64} (h : e.Rostered)
    (hr : e.height.toNat + r.toNat < 2 ^ 64) : Exec.Calm (e.enterPropose r) := by
  unfold enterPropose isProposer
  refine ((proposer_calm h hr).bind fun _ _ => Exec.Calm.ok _).bind ?_
  intro mine _
  dsimp only
  split
  · exact Exec.Calm.ok _
  · exact Exec.Calm.ok _

theorem startRound_calm {r : UInt64} (h : e.Rostered) (hr : e.height.toNat + r.toNat < 2 ^ 64) :
    Exec.Calm (e.startRound r) := by
  unfold startRound
  dsimp only
  split
  · exact Exec.Calm.ok _
  · refine enterPropose_calm (?_ : Rostered _) hr
    exact h

theorem unpark_calm (h : e.Rostered) (hr : e.height.toNat + e.round.toNat < 2 ^ 64) :
    Exec.Calm e.unpark := by
  unfold unpark
  split
  · refine enterPropose_calm (?_ : Rostered _) hr
    exact h
  · exact Exec.Calm.ok _

/-- The one addition of a commit. -/
theorem commit_calm (ord : IterOrder) (e : Engine C) (r : UInt64) (id : Hash) (v : Proposed C)
    (h : e.height.toNat + 1 < 2 ^ 64) : Exec.Calm (e.commit ord r id v) := by
  unfold commit
  refine (Exec.Calm.checkedAdd h).bind ?_
  intro height _
  refine (reloadSet_calm _).bind ?_
  intro e₁ hreload
  rcases reloadSet_eq_ok hreload with ⟨set, _, rfl⟩
  refine Exec.Calm.bind ?_ fun _ _ => Exec.Calm.ok _
  refine startRound_calm (?_ : Rostered _) ?_
  · exact length_sortById _
  · exact height.toNat_lt

/-! ## Where the engine is and where it can go -/

section

variable (fits : UInt64 → Prop)

/-- A round that can be entered at a height, with its timers. -/
def Enterable (h r : UInt64) : Prop := h.toNat + r.toNat < 2 ^ 64 ∧ fits r

/-- The round of the engine can be entered, and so can those that the voters
stored for them would make it skip to. -/
structure Sturdy (e : Engine C) : Prop where
  rostered : e.Rostered
  round : Enterable fits e.height e.round
  skips : ∀ r ∈ e.laterRounds, e.f < (e.votersOf r).card → Enterable fits e.height r

/-- The timers asked for fit. -/
def TimersFit (out : List (Effect C)) : Prop :=
  ∀ h r kind, .scheduleTimeout h r kind ∈ out → fits r

end

variable {fits : UInt64 → Prop} {out : List (Effect C)}

theorem TimersFit.nil : TimersFit fits ([] : List (Effect C)) := by
  intro h r kind hmem
  cases hmem

theorem TimersFit.append {a b : List (Effect C)} (ha : TimersFit fits a)
    (hb : TimersFit fits b) : TimersFit fits (a ++ b) := by
  intro h r kind hmem
  rcases List.mem_append.mp hmem with hmem | hmem
  · exact ha h r kind hmem
  · exact hb h r kind hmem

theorem TimersFit.message (msg : ConsensusMsg C) : TimersFit fits [.broadcast msg] := by
  intro h r kind hmem
  simp at hmem

theorem TimersFit.timer {h r : UInt64} {kind : TimeoutKind} (hr : fits r) :
    TimersFit fits [(.scheduleTimeout h r kind : Effect C)] := by
  intro h' r' kind' hmem
  rw [List.mem_singleton, Effect.scheduleTimeout.injEq] at hmem
  rw [hmem.2.1]
  exact hr

namespace Sturdy

/-- A fresh height. -/
theorem of_empty (hrostered : e.Rostered) (hround : e.round = 0) (hzero : fits 0)
    (hprevotes : e.prevotes = ∅) (hprecommits : e.precommits = ∅) : Sturdy fits e := by
  refine ⟨hrostered, ?_, ?_⟩
  · rw [hround]
    exact ⟨e.height.toNat_lt, hzero⟩
  · intro r hr
    unfold laterRounds at hr
    rw [hprevotes, hprecommits] at hr
    simp at hr

/-- The same height, and no new votes for later rounds. -/
theorem of_same (h : Sturdy fits e) (hsame : SameHeight e e')
    (hround : Enterable fits e.height e'.round)
    (hvotes : ∀ r, e'.round < r → e'.prevotes.ofRound r = e.prevotes.ofRound r ∧
      e'.precommits.ofRound r = e.precommits.ofRound r)
    (hlater : e'.laterRounds ⊆ e.laterRounds) : Sturdy fits e' := by
  refine ⟨?_, ?_, ?_⟩
  · unfold Rostered
    rw [hsame.validatorsSorted, hsame.currentSet]
    exact h.rostered
  · rw [hsame.height]
    exact hround
  · intro r hr hvoters
    have hlt : e'.round < r := (Finset.mem_filter.mp hr).2
    rw [hsame.height]
    apply h.skips r (hlater hr)
    have hf : e'.f = e.f := by
      unfold Engine.f n quorum
      rw [hsame.validatorsSorted, hsame.currentSet]
    unfold votersOf at hvoters ⊢
    rwa [hf, (hvotes r hlt).1, (hvotes r hlt).2] at hvoters

/-- Entering a round: a proposal, or its propose timer. -/
theorem startRound {r : UInt64} (h : Sturdy fits e) (hr : Enterable fits e.height r)
    (hle : e.round ≤ r) (hstart : e.startRound r = .ok (e', out)) :
    Sturdy fits e' ∧ TimersFit fits out := by
  have hsame := (startRound_sameHeight hstart).1
  rcases startRound_frame hstart with ⟨_, _, rfl, hout⟩
  constructor
  · refine h.of_same hsame hr (fun _ _ => ⟨rfl, rfl⟩) ?_
    intro r' hr'
    rcases Finset.mem_filter.mp hr' with ⟨hkeys, hlt⟩
    exact Finset.mem_filter.mpr ⟨hkeys, UInt64.lt_of_le_of_lt hle hlt⟩
  · rcases hout with ⟨_, rfl | rfl⟩ | ⟨_, _, _, rfl⟩
    · exact TimersFit.nil
    · exact TimersFit.timer hr.2
    · exact TimersFit.message _

theorem unpark (h : Sturdy fits e) (hunpark : e.unpark = .ok (e', out)) :
    Sturdy fits e' ∧ TimersFit fits out := by
  unfold Engine.unpark at hunpark
  split at hunpark
  · rcases wake_frame hunpark with ⟨_, rfl, hout⟩
    refine ⟨h.of_same rfl h.round (fun _ _ => ⟨rfl, rfl⟩)
      (Finset.Subset.refl _), ?_⟩
    rcases hout with ⟨_, rfl⟩ | ⟨_, _, _, rfl⟩
    · exact TimersFit.timer h.round.2
    · exact TimersFit.message _
  · rcases Exec.ok_pair hunpark with ⟨rfl, rfl⟩
    exact ⟨h, TimersFit.nil⟩

/-- Our own votes do not lead to later rounds. -/
theorem castPrevote (h : Sturdy fits e) (id : Option Hash) : Sturdy fits (e.castPrevote id) := by
  refine h.of_same rfl h.round ?_ (laterRounds_castPrevote e id).subset
  intro r hlt
  have hne : r ≠ e.round := fun heq => UInt64.lt_irrefl _ (heq ▸ hlt)
  refine ⟨?_, rfl⟩
  show (e.prevotes.put e.round e.mePk.id _).ofRound r = _
  rw [VoteStore.ofRound_put, if_neg hne]

theorem castPrecommit (h : Sturdy fits e) (id : Option Hash) :
    Sturdy fits (e.castPrecommit id) := by
  refine h.of_same rfl h.round ?_ (laterRounds_castPrecommit e id).subset
  intro r hlt
  have hne : r ≠ e.round := fun heq => UInt64.lt_irrefl _ (heq ▸ hlt)
  refine ⟨rfl, ?_⟩
  show (e.precommits.put e.round e.mePk.id _).ofRound r = _
  rw [VoteStore.ofRound_put, if_neg hne]

/-- The rules lead from a sturdy engine to a sturdy one. -/
theorem fires (h : Sturdy fits e) (hzero : fits 0) (hf : Fires ord e out e') :
    Sturdy fits e' ∧ TimersFit fits out := by
  -- only a skip and a commit change the round
  have hstays : ∀ {e₁ : Engine C}, SameHeight e e₁ → e₁.round = e.round →
      e₁.prevotes = e.prevotes → e₁.precommits = e.precommits → Sturdy fits e₁ := by
    intro e₁ hsame hround hprevotes hprecommits
    refine h.of_same hsame (hround ▸ h.round) ?_ ?_
    · intro r _
      rw [hprevotes, hprecommits]
      exact ⟨rfl, rfl⟩
    · unfold laterRounds
      rw [hround, hprevotes, hprecommits]
  cases hf with
  | prevote => exact ⟨h.castPrevote _, TimersFit.message _⟩
  | schedulePrevote => exact ⟨hstays rfl rfl rfl rfl, TimersFit.timer h.round.2⟩
  | @polka pm =>
      have hcast := h.castPrecommit (some pm.value.id)
      exact ⟨⟨hcast.rostered, hcast.round, hcast.skips⟩, TimersFit.message _⟩
  | latePolka => exact ⟨hstays rfl rfl rfl rfl, TimersFit.nil⟩
  | precommitNil => exact ⟨h.castPrecommit _, TimersFit.message _⟩
  | schedulePrecommit => exact ⟨hstays rfl rfl rfl rfl, TimersFit.timer h.round.2⟩
  | skip hr hvoters hstart =>
      exact h.startRound (h.skips _ hr hvoters) (UInt64.le_of_lt (Finset.mem_filter.mp hr).2) hstart
  | @commit _ r pm _ _ _ _ hcommit =>
      rcases commit_cases hcommit with ⟨height, set, out', _, _, hstart, rfl⟩
      -- the next height starts with empty stores
      have hrolled : Sturdy fits (e.rolled pm.value
          (dropEnacted pm.value.governance e.govMempool) height set) :=
        of_empty (length_sortById set.validators) rfl hzero rfl rfl
      rcases hrolled.startRound hrolled.round (UInt64.le_refl _) hstart with
        ⟨hsturdy, hout⟩
      refine ⟨hsturdy, ?_⟩
      intro h r kind hmem
      rcases List.mem_cons.mp hmem with hmem | hmem
      · cases hmem
      · exact hout h r kind hmem

end Sturdy

/-! ## Room for more blocks -/

/-- The height can still be raised once for everything pending, and once more
for a block that is not ours. -/
def Room (e : Engine C) : Prop :=
  e.height.toNat + e.poolSize + 1 < 2 ^ 64 ∨ e.SelfFed ∧ e.height.toNat + e.poolSize < 2 ^ 64

theorem Room.commit {r : UInt64} {pm : ProposalMsg C} (h : e.Room)
    (hpm : e.proposals.lookup r = some pm) : e.height.toNat + 1 < 2 ^ 64 := by
  rcases h with hroom | ⟨hfed, hroom⟩
  · omega
  · -- what we propose ourselves comes out of the pools
    have hlt : 0 < e.poolSize := Nat.zero_lt_of_lt (hfed.proposals hpm)
    omega

/-- A commit raises the height, and takes what it sealed out of the pools. -/
theorem Room.fires (h : e.Room) (hf : Fires ord e out e') : e'.Room := by
  -- an engine that fed itself goes on doing so
  have hfed : e.SelfFed → e'.SelfFed := by
    intro hself
    rcases hf.rank_lt with ⟨_, hkeeps⟩ | ⟨hself', _, _⟩
    · exact hkeeps hself
    · exact hself'
  have hstays : e'.height = e.height → e'.poolSize = e.poolSize → e'.Room := by
    intro hheight hpools
    unfold Room
    rw [hheight, hpools]
    exact h.imp_right fun hroom => ⟨hfed hroom.1, hroom.2⟩
  cases hf with
  | prevote => exact hstays rfl rfl
  | schedulePrevote => exact hstays rfl rfl
  | polka => exact hstays rfl rfl
  | latePolka => exact hstays rfl rfl
  | precommitNil => exact hstays rfl rfl
  | schedulePrecommit => exact hstays rfl rfl
  | skip _ _ hstart =>
      rcases startRound_frame hstart with ⟨_, _, rfl, _⟩
      exact hstays rfl rfl
  | @commit _ r pm _ hpm _ _ hcommit =>
      have hself := (commit_rank hcommit).1
      rcases commit_cases hcommit with ⟨height, set, out', hheight, _, hstart, _⟩
      have hnext : height.toNat = e.height.toNat + 1 := checkedAdd_eq_ok hheight
      have hheight' : e'.height = height := (startRound_sameHeight hstart).1.height
      have hpools : e'.poolSize = (dropSealed pm.value.attestations e.mempool).length +
          (dropEnacted pm.value.governance e.govMempool).length := by
        rcases startRound_frame hstart with ⟨_, _, rfl, _⟩
        rfl
      right
      refine ⟨hself, ?_⟩
      rw [hheight', hnext]
      rcases h with hroom | ⟨hfed₀, hroom⟩
      · have hle₁ : (dropSealed pm.value.attestations e.mempool).length ≤ e.mempool.length :=
          List.length_filter_le _ _
        have hle₂ : (dropEnacted pm.value.governance e.govMempool).length ≤ e.govMempool.length :=
          List.length_filter_le _ _
        unfold poolSize at hroom hpools ⊢
        omega
      -- a commit of its own proposal takes something out of the pools
      · have hless : e'.poolSize < e.poolSize := hpools ▸ hfed₀.proposals hpm
        omega

/-! ## The rules -/

theorem tryCommitFrom_calm {l : List (UInt64 × Hash)} (hroom : e.Room) :
    Exec.Calm (e.tryCommitFrom ord l) := by
  induction l with
  | nil => exact Exec.Calm.ok _
  | cons p rest ih =>
      rcases p with ⟨r, id⟩
      unfold tryCommitFrom
      split
      · split
        · exact ⟨nofun, nofun⟩
        next pm hpm =>
        split
        · exact (commit_calm ord e r id pm.value (hroom.commit hpm)).map _
        · exact ih
      · exact ih

theorem trySkip_calm (h : Sturdy fits e) : Exec.Calm e.trySkip := by
  unfold trySkip
  split
  · next r hfind =>
      have hmem := List.mem_of_find?_eq_some hfind
      rw [KeyOrder.mem_order] at hmem
      have hvoters : e.f < (e.votersOf r).card := by
        simpa using List.find?_some hfind
      exact (startRound_calm h.rostered (h.skips r hmem hvoters).1).map _
  · exact Exec.Calm.ok _

/-- One pass of the loop. -/
theorem applyRule_calm (h : Sturdy fits e) (hroom : e.Room) : Exec.Calm (e.applyRule ord) := by
  unfold applyRule
  refine (tryCommitFrom_calm hroom).bind ?_
  intro committed _
  cases committed with
  | some res => exact Exec.Calm.ok _
  | none =>
      refine (trySkip_calm h).bind ?_
      intro skipped _
      cases skipped with
      | some res => exact Exec.Calm.ok _
      | none => exact Exec.Calm.ok _

/-- And all of them. -/
theorem advanceLoop_calm {fuel : Nat} (h : Sturdy fits e) (hzero : fits 0) (hroom : e.Room) :
    Exec.Calm (advanceLoop ord fuel e) := by
  induction fuel generalizing e with
  | zero => exact Exec.Calm.ok _
  | succ fuel ih =>
      unfold advanceLoop
      refine (applyRule_calm h hroom).bind ?_
      intro rule hrule
      cases rule with
      | none => exact Exec.Calm.ok _
      | some res =>
          have hf := applyRule_fires hrule
          exact (ih (h.fires hzero hf).1 (hroom.fires hf)).bind fun _ _ => Exec.Calm.ok _

/-! ## The handlers -/

/-- The events that ask for nothing out of range: a proposal for the height
names a round that can be added to it; a vote does not complete a skip to a
round that cannot be entered; and the round after the current one can be
entered when the precommit timer fires. Starts are in round 0. -/
def Tame (fits : UInt64 → Prop) (e : Engine C) : Event C → Prop
  | .message (.proposal pm) =>
      pm.height = e.height → e.height.toNat + pm.round.toNat < 2 ^ 64
  | .message (.vote vm) => e.round < vm.round →
      (e.ingestVote vm).f < ((e.ingestVote vm).votersOf vm.round).card →
      Enterable fits e.height vm.round
  | .timeout height round .precommit => height = e.height → round = e.round →
      e.height.toNat + e.round.toNat + 1 < 2 ^ 64 ∧ fits (e.round + 1)
  | .start | .resume => e.round = 0
  | _ => True

/-- The clock plays no part in it. -/
theorem Tame.setTime {ev : Event C} (now : UInt64) (h : Tame fits e ev) :
    Tame fits (e.setTime now) ev := by
  cases ev with
  | message msg =>
      cases msg with
      | proposal pm => exact h
      | vote vm =>
          -- filing a vote does not look at the clock
          have hcomm : (e.setTime now).ingestVote vm = (e.ingestVote vm).setTime now := by
            unfold ingestVote
            rw [apply_ite fun e : Engine C => e.setTime now]
            refine ite_congr rfl (fun _ => rfl) ?_
            intro _
            cases vm.voteType with
            | prevote => rfl
            | precommit => rfl
          intro hlt hvoters
          rw [hcomm] at hvoters
          exact h hlt hvoters
  | timeout height round kind =>
      cases kind with
      | propose => exact trivial
      | prevote => exact trivial
      | precommit => exact h
  | start => exact h
  | resume => exact h
  | attestation att => exact trivial
  | governance change => exact trivial
  | synced block => exact trivial
  | setTime t => exact trivial

theorem Sturdy.setTime (h : Sturdy fits e) (now : UInt64) : Sturdy fits (e.setTime now) :=
  ⟨h.rostered, h.round, h.skips⟩

/-- The height has room for everything pending, for what the event adds, and
for one block that is not ours. -/
def Roomy (e : Engine C) (ev : Event C) : Prop :=
  e.height.toNat + e.poolSize + ev.adds + 1 < 2 ^ 64

theorem mem_keys_of_offer {s : VoteStore C} {r r' : UInt64} {id : Hash} {vm : VoteMsg C}
    (hne : r' ≠ r) (h : r' ∈ (s.offer r id vm).keys) : r' ∈ s.keys := by
  rw [VoteStore.offer, Finmap.mem_keys, Finmap.mem_insert] at h
  exact Finmap.mem_keys.mpr (h.resolve_left hne)

/-- A vote for a later round matters for that round only. -/
theorem Sturdy.ingestVote {vm : VoteMsg C} (h : Sturdy fits e)
    (htame : Tame fits e (.message (.vote vm))) : Sturdy fits (e.ingestVote vm) := by
  have hsame : SameHeight e (e.ingestVote vm) ∧ (e.ingestVote vm).round = e.round := by
    rcases ingestVote_cases e vm with ⟨_, heq⟩ | ⟨_, _, heq⟩ | ⟨_, _, heq⟩ <;> rw [heq]
    · exact ⟨rfl, rfl⟩
    · exact ⟨rfl, rfl⟩
    · exact ⟨rfl, rfl⟩
  -- the other later rounds keep their voters
  have hother : ∀ {r}, r ≠ vm.round → r ∈ (e.ingestVote vm).laterRounds →
      r ∈ e.laterRounds ∧ (e.ingestVote vm).votersOf r = e.votersOf r := by
    intro r hne hr
    rcases ingestVote_cases e vm with ⟨_, heq⟩ | ⟨_, _, heq⟩ | ⟨_, _, heq⟩
    · rw [heq] at hr ⊢
      exact ⟨hr, rfl⟩
    · rw [heq] at hr ⊢
      rcases Finset.mem_filter.mp hr with ⟨hkeys, hlt⟩
      refine ⟨Finset.mem_filter.mpr ⟨?_, hlt⟩, ?_⟩
      · rcases Finset.mem_union.mp hkeys with hkey | hkey
        · exact Finset.mem_union_left _ (mem_keys_of_offer hne hkey)
        · exact Finset.mem_union_right _ hkey
      · unfold votersOf
        dsimp only
        rw [VoteStore.ofRound_offer, if_neg hne]
    · rw [heq] at hr ⊢
      rcases Finset.mem_filter.mp hr with ⟨hkeys, hlt⟩
      refine ⟨Finset.mem_filter.mpr ⟨?_, hlt⟩, ?_⟩
      · rcases Finset.mem_union.mp hkeys with hkey | hkey
        · exact Finset.mem_union_left _ hkey
        · exact Finset.mem_union_right _ (mem_keys_of_offer hne hkey)
      · unfold votersOf
        dsimp only
        rw [VoteStore.ofRound_offer, if_neg hne]
  refine ⟨?_, ?_, ?_⟩
  · unfold Rostered
    rw [hsame.1.validatorsSorted, hsame.1.currentSet]
    exact h.rostered
  · rw [hsame.1.height, hsame.2]
    exact h.round
  · intro r hr hvoters
    rw [hsame.1.height]
    by_cases heq : r = vm.round
    · subst heq
      have hlt := (Finset.mem_filter.mp hr).2
      rw [hsame.2] at hlt
      exact htame hlt hvoters
    · rcases hother heq hr with ⟨hold, hvotes⟩
      have hf : (e.ingestVote vm).f = e.f := by
        unfold Engine.f n quorum
        rw [hsame.1.validatorsSorted, hsame.1.currentSet]
      rw [hf, hvotes] at hvoters
      exact h.skips r hold hvoters

/-- A tame message leaves the engine sturdy. -/
theorem Sturdy.ingest {msg : ConsensusMsg C} (h : Sturdy fits e)
    (htame : Tame fits e (.message msg)) (hingest : e.ingest msg = .ok e') : Sturdy fits e' := by
  cases msg with
  | vote vm =>
      obtain rfl : e.ingestVote vm = e' := Except.ok.inj hingest
      exact h.ingestVote htame
  | proposal pm =>
      cases ingest_cases hingest with
      | ignored => exact h
      | proposal => exact ⟨h.rostered, h.round, h.skips⟩

theorem applySyncedBlock_calm {b : Block C} (h : e.height.toNat + 1 < 2 ^ 64) :
    Exec.Calm (e.applySyncedBlock b) := by
  unfold applySyncedBlock
  split
  · exact Exec.Calm.ok _
  split
  · exact Exec.Calm.ok _
  dsimp only
  split
  · exact Exec.Calm.ok _
  split
  · exact Exec.Calm.ok _
  · refine (Exec.Calm.checkedAdd h).bind ?_
    intro height _
    exact (reloadSet_calm _).bind fun _ _ => Exec.Calm.ok _

/-- Reading a tame message is calm. -/
theorem ingest_calm {msg : ConsensusMsg C} (h : e.Rostered) (htame : Tame fits e (.message msg)) :
    Exec.Calm (e.ingest msg) := by
  cases msg with
  | vote vm => exact Exec.Calm.ok _
  | proposal pm =>
      unfold ingest ingestProposal
      dsimp only
      split
      · exact Exec.Calm.ok _
      · next hheight =>
          refine (proposer_calm h (htame (not_not.mp hheight))).bind ?_
          intro key _
          split
          · exact Exec.Calm.ok _
          · exact Exec.Calm.ok _

theorem wakeFor_calm {wake : Bool} (h : Sturdy fits e) : Exec.Calm (e.wakeFor wake) := by
  unfold wakeFor
  split
  · exact unpark_calm h.rostered h.round.1
  · exact Exec.Calm.ok _

theorem fireTimeout_calm {kind : TimeoutKind} (h : Sturdy fits e)
    (htame : Tame fits e (.timeout e.height e.round kind)) : Exec.Calm (e.fireTimeout kind) := by
  cases kind with
  | propose =>
      dsimp only [fireTimeout, emitPrevote]
      split
      · exact Exec.Calm.ok _
      · exact Exec.Calm.ok _
  | prevote =>
      dsimp only [fireTimeout, emitPrecommit]
      split
      · exact Exec.Calm.ok _
      · exact Exec.Calm.ok _
  | precommit =>
      have hroom := (htame rfl rfl).1
      dsimp only [fireTimeout]
      refine (Exec.Calm.checkedAdd ?_).bind ?_
      · show e.round.toNat + 1 < 2 ^ 64
        omega
      · intro next hnext
        have hnext' : next.toNat = e.round.toNat + 1 := checkedAdd_eq_ok hnext
        refine startRound_calm h.rostered ?_
        omega

/-- What a handler does first is calm. -/
theorem entry_calm {ev : Event C} (h : Sturdy fits e) (htame : Tame fits e ev)
    (hroomy : e.Roomy ev) : Exec.Calm (e.entry ev) := by
  -- whatever is queued, a parked engine is woken in the same way
  have hpool : ∀ {pool gov}, Exec.Calm (if e.parked then do
      let woken ← Engine.unpark { e with mempool := pool, govMempool := gov }
      return (woken.1, effects woken.2, true)
    else .ok ({ e with mempool := pool, govMempool := gov }, [], false)) := by
    intro pool gov
    split
    · refine Exec.Calm.bind ?_ fun _ _ => Exec.Calm.ok _
      refine unpark_calm (?_ : Rostered _) h.round.1
      exact h.rostered
    · exact Exec.Calm.ok _
  have hzero : Exec.Calm (e.startRound 0) := startRound_calm h.rostered e.height.toNat_lt
  cases ev with
  | start => exact hzero.bind fun _ _ => Exec.Calm.ok _
  | resume => exact hzero.bind fun _ _ => Exec.Calm.ok _
  | message msg =>
      unfold entry
      refine (ingest_calm h.rostered htame).bind ?_
      intro e₁ hingest
      exact (wakeFor_calm (h.ingest htame hingest)).bind fun _ _ => Exec.Calm.ok _
  | timeout height round kind =>
      unfold entry
      dsimp only
      split
      · next hcur =>
          rw [hcur.1, hcur.2] at htame
          exact (fireTimeout_calm h htame).bind fun _ _ => Exec.Calm.ok _
      · exact Exec.Calm.ok _
  | attestation att => exact hpool
  | governance change =>
      unfold entry
      dsimp only
      split
      · exact hpool
      · exact Exec.Calm.ok _
  | synced block =>
      have hheight : e.height.toNat + 1 < 2 ^ 64 := by
        unfold Roomy at hroomy
        omega
      unfold entry
      refine (applySyncedBlock_calm hheight).bind ?_
      intro res _
      cases res with
      | ok e₁ => exact Exec.Calm.ok _
      | error err => exact Exec.Calm.ok _
  | setTime now => exact Exec.Calm.ok _

/-- The timers among the outputs of a handler fit. -/
def OutputsFit (fits : UInt64 → Prop) (out : List (Output C)) : Prop :=
  ∀ h r kind, .effect (.scheduleTimeout h r kind) ∈ out → fits r

theorem outputsFit_effects : OutputsFit fits (effects out) ↔ TimersFit fits out := by
  unfold OutputsFit TimersFit effects
  simp

theorem OutputsFit.nil : OutputsFit fits ([] : List (Output C)) := by
  intro h r kind hmem
  cases hmem

/-- And it keeps the engine sturdy, with the room it needs. -/
theorem Opens.sturdy {ev : Event C} {out : List (Output C)} {go : Bool} (h : Sturdy fits e)
    (hzero : fits 0) (htame : Tame fits e ev) (ho : e.Opens ev e' out go) :
    Sturdy fits e' ∧ OutputsFit fits out := by
  cases ho with
  | round hev hstart =>
      -- start and resume are only tame in round 0
      have hround : e.round = 0 := by
        rcases hev with rfl | rfl
        · exact htame
        · exact htame
      have henter : Enterable fits e.height 0 := ⟨e.height.toNat_lt, hzero⟩
      rcases h.startRound henter (UInt64.le_of_eq hround) hstart with ⟨hsturdy, hout⟩
      exact ⟨hsturdy, outputsFit_effects.mpr hout⟩
  | message hingest hwake =>
      have hsturdy := h.ingest htame hingest
      unfold wakeFor at hwake
      split at hwake
      · rcases hsturdy.unpark hwake with ⟨hsturdy', hout⟩
        exact ⟨hsturdy', outputsFit_effects.mpr hout⟩
      · rcases Exec.ok_pair hwake with ⟨rfl, rfl⟩
        exact ⟨hsturdy, OutputsFit.nil⟩
  | @timer kind _ out hfire =>
      rw [outputsFit_effects]
      cases kind with
      | propose =>
          dsimp only [fireTimeout, emitPrevote] at hfire
          split at hfire
          · rcases Exec.ok_pair hfire with ⟨rfl, rfl⟩
            exact ⟨h.castPrevote none, TimersFit.message _⟩
          · rcases Exec.ok_pair hfire with ⟨rfl, rfl⟩
            exact ⟨h, TimersFit.nil⟩
      | prevote =>
          dsimp only [fireTimeout, emitPrecommit] at hfire
          split at hfire
          · rcases Exec.ok_pair hfire with ⟨rfl, rfl⟩
            exact ⟨h.castPrecommit none, TimersFit.message _⟩
          · rcases Exec.ok_pair hfire with ⟨rfl, rfl⟩
            exact ⟨h, TimersFit.nil⟩
      | precommit =>
          -- here the round is added to, and tameness says that this fits
          rcases htame rfl rfl with ⟨hroom, hfits⟩
          dsimp only [fireTimeout] at hfire
          rw [Exec.bind_eq_ok] at hfire
          rcases hfire with ⟨next, hnext, hstart⟩
          have hnext' : next.toNat = e.round.toNat + 1 := checkedAdd_eq_ok hnext
          have hsucc : next = e.round + 1 := by
            apply UInt64.toNat_inj.mp
            rw [hnext', UInt64.toNat_add, Nat.mod_eq_of_lt]
            · rfl
            · show e.round.toNat + 1 < 2 ^ 64
              omega
          have hle : e.round ≤ next := UInt64.le_iff_toNat_le.mpr (by omega)
          exact h.startRound ⟨by omega, hsucc ▸ hfits⟩ hle hstart
  | lateTimer => exact ⟨h, OutputsFit.nil⟩
  | @woken _ pool gov _ _ _ _ hunpark =>
      have hqueued : Sturdy fits { e with mempool := pool, govMempool := gov } :=
        ⟨h.rostered, h.round, h.skips⟩
      rcases hqueued.unpark hunpark with ⟨hsturdy, hout⟩
      exact ⟨hsturdy, outputsFit_effects.mpr hout⟩
  | queued => exact ⟨⟨h.rostered, h.round, h.skips⟩, OutputsFit.nil⟩
  | refused => exact ⟨h, OutputsFit.nil⟩
  | synced hsync =>
      rcases applySyncedBlock_cases hsync with ⟨_, _, height, set, _, _, rfl⟩
      refine ⟨Sturdy.of_empty (length_sortById set.validators) rfl hzero rfl rfl, ?_⟩
      intro h r kind hmem
      simp at hmem
  | setTime => exact ⟨⟨h.rostered, h.round, h.skips⟩, OutputsFit.nil⟩

/-- A timer changes neither the height nor the pools. -/
theorem fireTimeout_pools {kind : TimeoutKind} (h : e.fireTimeout kind = .ok (e', out)) :
    e'.height = e.height ∧ e'.poolSize = e.poolSize := by
  cases kind with
  | propose =>
      dsimp only [fireTimeout, emitPrevote] at h
      split at h
      · rcases Exec.ok_pair h with ⟨rfl, _⟩
        exact ⟨rfl, rfl⟩
      · rcases Exec.ok_pair h with ⟨rfl, _⟩
        exact ⟨rfl, rfl⟩
  | prevote =>
      dsimp only [fireTimeout, emitPrecommit] at h
      split at h
      · rcases Exec.ok_pair h with ⟨rfl, _⟩
        exact ⟨rfl, rfl⟩
      · rcases Exec.ok_pair h with ⟨rfl, _⟩
        exact ⟨rfl, rfl⟩
  | precommit =>
      dsimp only [fireTimeout] at h
      rw [Exec.bind_eq_ok] at h
      rcases h with ⟨next, _, hstart⟩
      rcases startRound_frame hstart with ⟨_, _, rfl, _⟩
      exact ⟨rfl, rfl⟩

theorem Opens.room {ev : Event C} {out : List (Output C)} (hroomy : e.Roomy ev)
    (ho : e.Opens ev e' out true) : e'.Room := by
  -- an event queues one entry at most
  have hbound : e'.height = e.height → e'.poolSize ≤ e.poolSize + ev.adds → e'.Room := by
    intro hheight hpools
    left
    unfold Roomy at hroomy
    rw [hheight]
    omega
  cases ho with
  | round _ hstart =>
      rcases startRound_frame hstart with ⟨_, _, rfl, _⟩
      exact hbound rfl (Nat.le_add_right _ _)
  | message hingest hwake =>
      rcases ingest_frame hingest with ⟨_, _, _, rfl⟩
      rcases wakeFor_frame hwake with ⟨_, rfl, _⟩
      exact hbound rfl (Nat.le_add_right _ _)
  | timer hfire =>
      rcases fireTimeout_pools hfire with ⟨hheight, hpools⟩
      exact hbound hheight (hpools ▸ Nat.le_add_right _ _)
  | lateTimer => exact hbound rfl (Nat.le_add_right _ _)
  | woken hqueues hparked hunpark =>
      unfold Engine.unpark at hunpark
      rw [if_pos hparked] at hunpark
      rcases wake_frame hunpark with ⟨_, rfl, _⟩
      cases hqueues with
      | attestation =>
          refine hbound rfl ?_
          show (e.mempool ++ [_]).length + e.govMempool.length ≤ e.poolSize + 1
          rw [List.length_append, List.length_singleton]
          unfold poolSize
          omega
      | governance =>
          refine hbound rfl ?_
          show e.mempool.length + (e.govMempool ++ [_]).length ≤ e.poolSize + 1
          rw [List.length_append, List.length_singleton]
          unfold poolSize
          omega

/-- A tame event with room is handled calmly, and leaves a sturdy engine. -/
theorem handle_calm {ev : Event C} (h : Sturdy fits e) (hzero : fits 0) (htame : Tame fits e ev)
    (hroomy : e.Roomy ev) :
    Exec.Calm (e.handle ord ev) ∧ ∀ e' out, e.handle ord ev = .ok (e', out) →
      Sturdy fits e' ∧ OutputsFit fits out := by
  constructor
  · rw [handle_eq_entry]
    refine (entry_calm h htame hroomy).bind ?_
    rintro ⟨e₁, o₁, go⟩ hentry
    have ho := entry_opens hentry
    cases go with
    | false => exact Exec.Calm.ok _
    | true =>
        exact (advanceLoop_calm (ho.sturdy h hzero htame).1 hzero (ho.room hroomy)).bind
          fun _ _ => Exec.Calm.ok _
  · intro e' out hhandle
    refine handle_entry_induction (P := fun o e => Sturdy fits e ∧ OutputsFit fits o) hhandle ?_ ?_
    · intro o e₁ go ho
      exact ho.sturdy h hzero htame
    · rintro o e₁ o' e₂ ⟨hsturdy, hfit⟩ hf
      rcases hsturdy.fires hzero hf with ⟨hsturdy', hfit'⟩
      refine ⟨hsturdy', ?_⟩
      intro h r kind hmem
      rcases List.mem_append.mp hmem with hmem | hmem
      · exact hfit h r kind hmem
      · exact outputsFit_effects.mpr hfit' h r kind hmem

end Engine

end SmartLedger
