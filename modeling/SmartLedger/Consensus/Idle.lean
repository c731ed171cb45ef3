import SmartLedger.Consensus.Timers

/-! # The idle chain

With nothing to notarize or to enact, an engine that enters round 0 parks: it
sends nothing and starts no timer. `EntersZero` are the three ways into round
0, with what was done before, and `Disturbs` what may end the silence: a
submission, a proposal for the height, or votes that make a rule fire. Without
them the engine stays parked (`idle_chain_is_silent`), across catch-ups too.

The rules do not ask whether the engine is parked: a quorum of precommits for
round 0 starts the precommit timer of a parked engine, as of any other
(`idle_chain_not_silent`).
-/

namespace SmartLedger

open Engine

variable {C : Crypto} {ord : IterOrder} {e e' : Engine C} {log : List (Output C)}

/-! ## Into round 0 -/

/-- A timer fires only if it was scheduled. -/
def fired (log : List (Output C)) (_ : Engine C) (ev : Event C) : Prop :=
  ∀ h r kind, ev = .timeout h r kind → Scheduled log h r kind

/-- The states of a boot in which the loop of `advance` runs. -/
inductive InLoop (guard : List (Output C) → Engine C → Event C → Prop) (e₀ : Engine C) :
    List (Output C) → Engine C → Prop where
  | start {now : UInt64} {out : List (Effect C)} {e : Engine C}
      (h : (e₀.setTime now).startRound 0 = .ok (e, out)) : InLoop guard e₀ (effects out) e
  | resume {log : List (Output C)} {bs : List (Block C)} {out : List (Effect C)}
      {e e₁ e' : Engine C} (hrun : BootRun guard e₀ log e) (hbs : bs ≠ [])
      (happlies : Applies e bs e₁) (h : e₁.startRound 0 = .ok (e', out)) :
      InLoop guard e₀ (log ++ bs.map .applied ++ effects out) e'
  | event {log out : List (Output C)} {e e' : Engine C} {ev : Event C}
      (hrun : BootRun guard e₀ log e) (hplain : ev.plain = true) (hguard : guard log e ev)
      (h : e.entry ev = .ok (e', out, true)) : InLoop guard e₀ (log ++ out) e'
  | rule {ord : IterOrder} {log : List (Output C)} {out : List (Effect C)} {e e' : Engine C}
      (h : InLoop guard e₀ log e) (hrule : e.applyRule ord = .ok (some (e', out))) :
      InLoop guard e₀ (log ++ effects out) e'

/-- The engine enters round 0 of a height: `log` is what came before, `out`
what entering the round emits. -/
inductive EntersZero (guard : List (Output C) → Engine C → Event C → Prop) (e₀ : Engine C) :
    List (Output C) → List (Effect C) → Engine C → Prop where
  | start {now : UInt64} {out : List (Effect C)} {e : Engine C}
      (h : (e₀.setTime now).startRound 0 = .ok (e, out)) : EntersZero guard e₀ [] out e
  | resume {log : List (Output C)} {bs : List (Block C)} {out : List (Effect C)}
      {e e₁ e' : Engine C} (hrun : BootRun guard e₀ log e) (hbs : bs ≠ [])
      (happlies : Applies e bs e₁) (h : e₁.startRound 0 = .ok (e', out)) :
      EntersZero guard e₀ (log ++ bs.map .applied) out e'
  | commit {ord : IterOrder} {log : List (Output C)} {b : Block C} {out : List (Effect C)}
      {e e' : Engine C} (hloop : InLoop guard e₀ log e)
      (hrule : e.applyRule ord = .ok (some (e', .committed b :: out))) :
      EntersZero guard e₀ (log ++ [.effect (.committed b)]) out e'

/-- What may end the silence of a parked engine. -/
inductive Disturbs (e : Engine C) : Event C → Prop where
  | attestation (att : Attestation C) : Disturbs e (.attestation att)
  | governance {change : SignedValidatorChange C} (h : e.acceptsGovernance change = true) :
      Disturbs e (.governance change)
  | proposal {pm : ProposalMsg C} (h : pm.height = e.height) : Disturbs e (.message (.proposal pm))
  | skip {vm : VoteMsg C} {e₁ : Engine C} {r : UInt64} (hingest : e.ingest (.vote vm) = .ok e₁)
      (hr : r ∈ e₁.laterRounds) (hvoters : e₁.f < (e₁.votersOf r).card) :
      Disturbs e (.message (.vote vm))
  | commit {vm : VoteMsg C} {e₁ : Engine C} {r : UInt64} {pm : ProposalMsg C}
      (hingest : e.ingest (.vote vm) = .ok e₁) (hcan : CanCommit e₁ r pm) :
      Disturbs e (.message (.vote vm))
  | precommits {vm : VoteMsg C} {e₁ : Engine C} (hingest : e.ingest (.vote vm) = .ok e₁)
      (hquorum : e₁.quorum ≤ e₁.countPrecommits e₁.round .any) : Disturbs e (.message (.vote vm))

/-- Timers that were scheduled, and nothing that disturbs. -/
def undisturbed (log : List (Output C)) (e : Engine C) (ev : Event C) : Prop :=
  fired log e ev ∧ ¬ Disturbs e ev

/-- Neither a message nor a timer. -/
def Silent (log : List (Output C)) : Prop :=
  (∀ msg, .effect (.broadcast msg) ∉ log) ∧ ∀ h r kind, ¬ Scheduled log h r kind

theorem Silent.append {a b : List (Output C)} (ha : Silent a) (hb : Silent b) :
    Silent (a ++ b) := by
  constructor
  · intro msg hmem
    rcases List.mem_append.mp hmem with h | h
    · exact ha.1 msg h
    · exact hb.1 msg h
  · intro h r kind hmem
    rcases List.mem_append.mp hmem with h' | h'
    · exact ha.2 h r kind h'
    · exact hb.2 h r kind h'

theorem silent_nil : Silent ([] : List (Output C)) := by
  constructor
  · intro msg hmem
    cases hmem
  · intro h r kind hmem
    cases hmem

theorem silent_applied (bs : List (Block C)) : Silent (bs.map Output.applied) := by
  constructor
  · intro msg hmem
    simp at hmem
  · intro h r kind hmem
    simp [Scheduled] at hmem

/-! ## Parked and at rest -/

/-- A parked engine that has heard nothing but votes, too few for any rule. -/
structure Idle (e : Engine C) : Prop where
  parked : e.parked = true
  round : e.round = 0
  step : e.step = .propose
  mempool : e.mempool = []
  govMempool : e.govMempool = []
  proposals : e.proposals = ∅
  prevoteTimers : e.prevoteTimeoutStarted = ∅
  precommitTimers : e.precommitTimeoutStarted = ∅
  atRest : e.AtRest

/-- Entering round 0 of a fresh height with empty pools. -/
theorem startRound_idle {out : List (Effect C)} (hfresh : FreshAt e) (hpool : e'.mempool = [])
    (hgov : e'.govMempool = []) (h : e.startRound 0 = .ok (e', out)) : Idle e' ∧ out = [] := by
  have hframe : e'.mempool = e.mempool ∧ e'.govMempool = e.govMempool := by
    rcases startRound_frame h with ⟨_, _, rfl, _⟩
    exact ⟨rfl, rfl⟩
  rw [hframe.1] at hpool
  rw [hframe.2] at hgov
  unfold startRound at h
  simp only [hfresh.validValue, hpool, hgov, List.isEmpty_nil, Option.isNone_none, decide_true,
    Bool.and_true, if_true] at h
  rcases Exec.ok_pair h with ⟨rfl, rfl⟩
  exact ⟨⟨rfl, rfl, rfl, rfl, rfl, hfresh.proposals, hfresh.prevoteTimers, hfresh.precommitTimers,
    AtRest.of_empty hfresh.proposals hfresh.prevotes hfresh.precommits⟩, rfl⟩

section

variable {guard : List (Output C) → Engine C → Event C → Prop} {e₀ : Engine C}

theorem InLoop.passes (h : InLoop guard e₀ log e) : Passes guard e₀ (log, e) := by
  induction h with
  | start h => exact Passes.start h
  | resume hrun hbs happlies h =>
      rw [List.append_assoc]
      exact hrun.passes.step (Passage.catchUp hbs happlies h)
  | @event log out e e' ev hrun hplain hguard h =>
      have hsteps : ∃ e₁ o₁ o₂, Enter ev e o₁ e₁ ∧ Internals sampleOrder e₁ o₂ e' ∧
          out = o₁ ++ effects o₂ := (entry_opens h).steps
      rcases hsteps with ⟨e₁, o₁, o₂, hent, hints, rfl⟩
      rw [← List.append_assoc]
      exact (hrun.passes.step (Passage.enter hplain hguard hent)).internals hints
  | rule _ hrule ih => exact ih.step (Passage.internal (applyRule_fires hrule).internal)

theorem EntersZero.passes {out : List (Effect C)} (h : EntersZero guard e₀ log out e) :
    Passes guard e₀ (log ++ effects out, e) := by
  cases h with
  | start h => exact Passes.start h
  | resume hrun hbs happlies h => exact (InLoop.resume hrun hbs happlies h).passes
  | commit hloop hrule =>
      have hpass := (hloop.rule hrule).passes
      simpa [effects] using hpass

/-- Only a commit emits a block. -/
theorem applyRule_committed {b : Block C} {out : List (Effect C)}
    (h : e.applyRule ord = .ok (some (e', .committed b :: out))) :
    ∃ e₁, FreshAt e₁ ∧ e₁.startRound 0 = .ok (e', out) := by
  generalize hall : Effect.committed b :: out = all at h
  cases applyRule_fires h with
  | prevote => cases hall
  | schedulePrevote => cases hall
  | polka => cases hall
  | latePolka => cases hall
  | precommitNil => cases hall
  | schedulePrecommit => cases hall
  | skip _ _ hstart =>
      rcases startRound_frame hstart with ⟨_, _, _, ⟨_, rfl | rfl⟩ | ⟨_, _, _, rfl⟩⟩ <;> cases hall
  | @commit _ r pm _ _ _ _ hcommit =>
      rcases commit_cases hcommit with ⟨height, set, out', _, _, hstart, rfl⟩
      obtain rfl : out = out' := (List.cons.inj hall).2
      rw [← startRound_parked _ false] at hstart
      exact ⟨_, TimerInv.freshAt_rolled e pm.value _ height set, hstart⟩

theorem EntersZero.idle {out : List (Effect C)} (h : EntersZero guard e₀ log out e)
    (hfresh : FreshAt e₀) (hpool : e.mempool = []) (hgov : e.govMempool = []) :
    Idle e ∧ out = [] := by
  cases h with
  | start h => exact startRound_idle (hfresh.setTime _) hpool hgov h
  | resume _ hbs happlies h => exact startRound_idle (happlies.fresh hbs).1 hpool hgov h
  | commit _ hrule =>
      rcases applyRule_committed hrule with ⟨e₁, hfresh₁, hstart⟩
      exact startRound_idle hfresh₁ hpool hgov hstart

end

theorem ingest_vote_proposals {vm : VoteMsg C} (h : e.ingest (.vote vm) = .ok e') :
    e'.proposals = e.proposals := by
  cases ingest_cases h with
  | ignored => rfl
  | prevote => rfl
  | precommit => rfl

namespace Idle

/-- No timer of the current round was started. -/
theorem not_scheduled (h : Idle e) (hmarked : Marked log e) (kind : TimeoutKind) :
    ¬ Scheduled log e.height e.round kind := by
  intro hs
  have hdone : Done e e.round kind.mark := hmarked.done (List.mem_filterMap.mpr ⟨_, hs, rfl⟩)
  cases kind with
  | propose =>
      rcases hdone with hlt | ⟨_, hawake⟩
      · exact UInt64.lt_irrefl _ hlt
      · rw [h.parked] at hawake
        cases hawake
  | prevote =>
      have hmem : e.round ∈ e.prevoteTimeoutStarted := hdone
      rw [h.prevoteTimers] at hmem
      simp at hmem
  | precommit =>
      have hmem : e.round ∈ e.precommitTimeoutStarted := hdone
      rw [h.precommitTimers] at hmem
      simp at hmem

/-- Votes that disturb nothing leave the engine at rest. -/
theorem vote {vm : VoteMsg C} {e₁ : Engine C} (h : Idle e)
    (hnot : ¬ Disturbs e (.message (.vote vm))) (hingest : e.ingest (.vote vm) = .ok e₁) :
    Idle e₁ := by
  -- what the vote makes possible is what would have disturbed the engine
  have hrest : ∀ {e₂ : Engine C}, e.ingest (.vote vm) = .ok e₂ → e₂.step = .propose →
      e₂.proposals = ∅ → e₂.AtRest := by
    intro e₂ hingest hstep hproposals
    have hnone : ∀ r, e₂.proposals.lookup r = none := by simp [hproposals]
    refine ⟨fun r pm hcan => hnot (Disturbs.commit hingest hcan), ?_, ?_, ?_, ?_, ?_, ?_⟩
    · intro r hr
      by_contra hvoters
      exact hnot (Disturbs.skip hingest hr (not_le.mp hvoters))
    · intro _ pm hpm
      rw [hnone] at hpm
      cases hpm
    · intro hprevote
      rw [hstep] at hprevote
      cases hprevote
    · intro hne
      exact absurd hstep hne
    · intro hprevote
      rw [hstep] at hprevote
      cases hprevote
    · intro hquorum
      exact absurd (Disturbs.precommits hingest hquorum) hnot
  cases ingest_cases hingest with
  | ignored => exact h
  | prevote =>
      exact ⟨h.parked, h.round, h.step, h.mempool, h.govMempool, h.proposals, h.prevoteTimers,
        h.precommitTimers, hrest hingest h.step h.proposals⟩
  | precommit =>
      exact ⟨h.parked, h.round, h.step, h.mempool, h.govMempool, h.proposals, h.prevoteTimers,
        h.precommitTimers, hrest hingest h.step h.proposals⟩

/-- What an undisturbing event does before the rules run: nothing to speak
of. -/
theorem opens {ev : Event C} {out : List (Output C)} {go : Bool} (h : Idle e)
    (hmarked : Marked log e) (hplain : ev.plain = true) (hguard : undisturbed log e ev)
    (ho : e.Opens ev e' out go) : Idle e' ∧ out = [] := by
  rcases hguard with ⟨hfired, hnot⟩
  have hdisturbs : ∀ {pool gov}, Queues e ev pool gov → Disturbs e ev := by
    intro pool gov hqueues
    cases hqueues with
    | attestation att => exact Disturbs.attestation att
    | governance hacc => exact Disturbs.governance hacc
  cases ho with
  | round hev => rcases hev with rfl | rfl <;> cases hplain
  | @message msg e₁ _ out hingest hwake =>
      -- neither a vote nor a proposal for another height wakes the engine
      have hidle : Idle e₁ ∧ e.mayWake msg = false := by
        cases msg with
        | vote vm => exact ⟨h.vote hnot hingest, rfl⟩
        | proposal pm =>
            have hheight : pm.height ≠ e.height := fun heq => hnot (Disturbs.proposal heq)
            refine ⟨?_, decide_eq_false hheight⟩
            cases ingest_cases hingest with
            | ignored => exact h
            | proposal hacc => exact absurd hacc.1 hheight
      rw [hidle.2] at hwake
      unfold wakeFor at hwake
      rw [if_neg (by simp)] at hwake
      rcases Exec.ok_pair hwake with ⟨rfl, rfl⟩
      exact ⟨hidle.1, rfl⟩
  | timer => exact absurd (hfired _ _ _ rfl) (h.not_scheduled hmarked _)
  | lateTimer => exact ⟨h, rfl⟩
  | woken hqueues => exact absurd (hdisturbs hqueues) hnot
  | queued hqueues => exact absurd (hdisturbs hqueues) hnot
  | refused => exact ⟨h, rfl⟩
  | synced => cases hplain
  | setTime now =>
      exact ⟨⟨h.parked, h.round, h.step, h.mempool, h.govMempool, h.proposals, h.prevoteTimers,
        h.precommitTimers, h.atRest.congr rfl⟩, rfl⟩

/-- The rules have nothing to add. -/
theorem settle (h : Idle e) (out : List (Output C)) (go : Bool) :
    Engine.settle ord (e, out, go) = .ok (e, out) := by
  cases go with
  | false => rfl
  | true =>
      simp only [Engine.settle, h.atRest.advance_eq ord, bind, Except.bind]
      simp [effects, pure, Except.pure]

theorem event {ev : Event C} {out : List (Output C)} (h : Idle e) (hmarked : Marked log e)
    (hplain : ev.plain = true) (hguard : undisturbed log e ev)
    (hhandle : e.handle ord ev = .ok (e', out)) : Idle e' ∧ out = [] := by
  rw [handle_eq_entry, Exec.bind_eq_ok] at hhandle
  rcases hhandle with ⟨⟨e₁, o₁, go⟩, hentry, hsettle⟩
  rcases h.opens hmarked hplain hguard (entry_opens hentry) with ⟨hidle, rfl⟩
  rw [hidle.settle] at hsettle
  rcases Exec.ok_pair hsettle with ⟨rfl, rfl⟩
  exact ⟨hidle, rfl⟩

/-- Blocks of a peer leave empty pools empty. -/
theorem pools {bs : List (Block C)} (happlies : Applies e bs e') (hpool : e.mempool = [])
    (hgov : e.govMempool = []) : e'.mempool = [] ∧ e'.govMempool = [] := by
  induction happlies with
  | nil => exact ⟨hpool, hgov⟩
  | @cons e e₁ e' b bs hsync _ ih =>
      rcases applySyncedBlock_cases hsync with ⟨_, _, height, set, _, _, rfl⟩
      refine ih ?_ hgov
      show dropSealed b.attestations e.mempool = []
      rw [hpool]
      rfl

theorem catchUp {bs : List (Block C)} {e₁ : Engine C} {out : List (Output C)} (h : Idle e)
    (hbs : bs ≠ []) (happlies : Applies e bs e₁) (hresume : e₁.handle ord .resume = .ok (e', out)) :
    Idle e' ∧ out = [] := by
  rw [handle_eq_entry, Exec.bind_eq_ok] at hresume
  rcases hresume with ⟨⟨e₂, o₂, go⟩, hentry, hsettle⟩
  simp only [entry, Exec.bind_eq_ok] at hentry
  rcases hentry with ⟨⟨e₂, o⟩, hstart, hret⟩
  rcases Exec.ok_triple hret with ⟨rfl, rfl, rfl⟩
  have hpools : e₂.mempool = [] ∧ e₂.govMempool = [] := by
    have hbefore := pools happlies h.mempool h.govMempool
    rcases startRound_frame hstart with ⟨_, _, rfl, _⟩
    exact hbefore
  rcases startRound_idle (happlies.fresh hbs).1 hpools.1 hpools.2 hstart with ⟨hidle, rfl⟩
  rw [hidle.settle] at hsettle
  rcases Exec.ok_pair hsettle with ⟨rfl, rfl⟩
  exact ⟨hidle, rfl⟩

/-- Undisturbed, the engine stays parked and silent. -/
theorem steps {e₀ : Engine C} {news : List (Output C)} (h : Idle e)
    (hpasses : Passes fired e₀ (log, e)) (hsteps : BootSteps undisturbed log e news e') :
    Idle e' ∧ Silent news ∧ Passes fired e₀ (log ++ news, e') := by
  induction hsteps with
  | refl => exact ⟨h, silent_nil, by simpa using hpasses⟩
  | step _ hstep ih =>
      rcases ih with ⟨hidle, hsilent, hreached⟩
      rw [← List.append_assoc]
      cases hstep with
      | event hplain hguard hhandle =>
          rcases hidle.event (Marked.passes hreached) hplain hguard hhandle with ⟨hidle', rfl⟩
          exact ⟨hidle', by simpa using hsilent,
            hreached.bootStep (BootStep.event hplain hguard.1 hhandle)⟩
      | catchUp hbs happlies hresume =>
          rcases hidle.catchUp hbs happlies hresume with ⟨hidle', rfl⟩
          refine ⟨hidle', hsilent.append ?_,
            hreached.bootStep (BootStep.catchUp hbs happlies hresume)⟩
          rw [List.append_nil]
          exact silent_applied _

end Idle

/-- An idle chain is silent. Whenever an engine, in whatever state its node
brought it to, enters round 0 through a start, a resume or a commit with both
pools empty, it parks, entering the round emits nothing, and so does the rest
of the call. It then sends nothing and starts no timer, through catch-ups as
well, until a submission is accepted, a proposal for its height arrives or
votes complete a skip, a commit or a quorum of precommits for the round. -/
theorem idle_chain_is_silent {registry : ValidatorRegistry C} {meSk : C.SigningKey}
    {mePk : C.VerifyingKey} {tip : Hash} {startHeight : UInt64} {e₀ e : Engine C}
    {log : List (Output C)} {out : List (Effect C)}
    (hnew : withRegistry registry meSk mePk tip startHeight = .ok e₀)
    (h : EntersZero fired e₀ log out e) (hpool : e.mempool = []) (hgov : e.govMempool = []) :
    e.parked = true ∧ out = [] ∧ (∀ ord, e.advance ord = .ok (e, [])) ∧
    ∀ news e', BootSteps undisturbed log e news e' → e'.parked = true ∧ Silent news := by
  have hpasses := h.passes
  rcases h.idle (FreshAt.of_new hnew) hpool hgov with ⟨hidle, rfl⟩
  refine ⟨hidle.parked, rfl, hidle.atRest.advance_eq, ?_⟩
  intro news e' hsteps
  rw [effects_nil, List.append_nil] at hpasses
  rcases hidle.steps hpasses hsteps with ⟨hidle', hsilent, _⟩
  exact ⟨hidle'.parked, hsilent⟩

/-- One of four validators enters its first round and hears a prevote. -/
def parkedHears (vm : ConsensusMsg sample) :
    Exec (Engine sample × Engine sample × Engine sample) := do
  let e₀ ← sampleEngine [1, 2, 3, 4] 1
  let (e, _) ← (e₀.setTime 5).startRound 0
  let e₁ ← e.ingest vm
  let (e', _) ← e.handle sampleOrder (.message vm)
  return (e, e₁, e')

/-- It stays parked. -/
theorem idle_chain_is_silent_four :
    ∃ e₀ e log out news e', sampleEngine [1, 2, 3, 4] 1 = .ok e₀ ∧
      EntersZero fired e₀ log out e ∧ BootSteps undisturbed log e news e' ∧
      e'.countPrevotes 0 .any = 1 ∧ e'.parked = true ∧ Silent news := by
  have hholds : (parkedHears (sampleVote 2 0 .prevote none)).holds (fun (e, e₁, e') =>
      decide (e.mempool = [] ∧ e.govMempool = [] ∧ e₁.laterRounds = ∅ ∧
        e₁.countPrecommits e₁.round .any < e₁.quorum ∧ e'.countPrevotes 0 .any = 1)) = true := by
    decide +kernel
  rcases Exec.holds_iff.mp hholds with ⟨⟨e, e₁, e'⟩, hrun, hp⟩
  rw [decide_eq_true_eq] at hp
  rcases hp with ⟨hpool, hgov, hlater, hfew, hheard⟩
  simp only [parkedHears, Exec.bind_eq_ok] at hrun
  rcases hrun with ⟨e₀, hnew, ⟨e₂, out⟩, hstart, e₃, hingest, ⟨e₄, news⟩, hhandle, hret⟩
  rcases Exec.ok_triple hret with ⟨rfl, rfl, rfl⟩
  have henters : EntersZero fired e₀ [] out e := EntersZero.start hstart
  have hidle := (henters.idle (FreshAt.of_new hnew) hpool hgov).1
  -- one prevote gives no round a quorum and reaches no later round
  have hnot : ¬ Disturbs e (.message (sampleVote 2 0 .prevote none)) := by
    intro hd
    cases hd with
    | skip hingest' hr _ =>
        obtain rfl := Except.ok.inj (hingest.symm.trans hingest')
        rw [hlater] at hr
        simp at hr
    | @commit _ _ r pm hingest' hcan =>
        have hstored : e.proposals.lookup r = some pm := by
          rw [← ingest_vote_proposals hingest']
          exact hcan.stored
        rw [hidle.proposals] at hstored
        simp at hstored
    | precommits hingest' hquorum =>
        obtain rfl := Except.ok.inj (hingest.symm.trans hingest')
        exact absurd hquorum (not_le.mpr hfew)
  have hsteps : BootSteps undisturbed [] e ([] ++ news) e' := by
    refine BootSteps.refl.step (BootStep.event rfl ⟨?_, hnot⟩ hhandle)
    intro h r kind hev
    cases hev
  rcases (idle_chain_is_silent hnew henters hpool hgov).2.2.2 _ _ hsteps with ⟨hparked, hsilent⟩
  exact ⟨e₀, e, [], out, _, e', hnew, henters, hsteps, hheard, hparked, hsilent⟩

/-- The other three precommit nil in its round 0. -/
def parkedCounts : Exec (Engine sample × Engine sample × List (Output sample)) := do
  let e₀ ← sampleEngine [1, 2, 3, 4] 1
  let (e, _) ← (e₀.setTime 5).startRound 0
  let (e', news) ← e.handleAll sampleOrder [.message (sampleVote 2 0 .precommit none),
    .message (sampleVote 3 0 .precommit none), .message (sampleVote 4 0 .precommit none)]
  return (e, e', news)

/-- A block of height 1 that three of four validators sealed. -/
def quorumBlock : Block sample where
  header := (sampleValue [sampleAttestation 1 7]).header
  attestations := [sampleAttestation 1 7]
  governance := []
  qc := {
    blockId := (sampleValue [sampleAttestation 1 7]).id
    signatures := [1, 2, 3].map fun k =>
      ⟨k, sampleSign k (sampleValue [sampleAttestation 1 7]).id.asBytes Context.block⟩ }

/-- A change is queued at height 1, to take effect at height 2, and then comes
a block of height 1 without it. -/
def staleChange : Exec (Engine sample × Except String (Engine sample) × List (Effect sample)) := do
  let e₀ ← sampleEngine [1, 2, 3, 4] 1
  let (e₁, _) ← (e₀.setTime 5).handle sampleOrder .start
  let (e₂, _) ← e₁.handle sampleOrder (.governance (sampleChange [5] [] 2 [1, 2, 3]))
  let res ← e₂.applySyncedBlock quorumBlock
  match res with
  | .ok e₃ => do
      let (e, out) ← e₃.startRound 0
      return (e, res, out)
  | .error _ => throw .expectedPresent

/-- Two ways out of the silence that no submission, no proposal, no skip and no
commit explains: precommits of three validators start the precommit timer of
an engine that stays parked; and a pending change that can no longer be
proposed keeps an engine from parking. -/
theorem idle_chain_not_silent :
    (∃ e₀ e log out news e', sampleEngine [1, 2, 3, 4] 1 = .ok e₀ ∧
      EntersZero fired e₀ log out e ∧ e.mempool = [] ∧ e.govMempool = [] ∧
      BootSteps (fun log e ev => fired log e ev ∧ ∃ vm, ev = .message (.vote vm)) log e news e' ∧
      e'.height = e.height ∧ e'.round = e.round ∧
      timeoutsScheduled news = [(1, 0, .precommit)]) ∧
    (∃ e₀ e log out, sampleEngine [1, 2, 3, 4] 1 = .ok e₀ ∧ EntersZero fired e₀ log out e ∧
      e.mempool = [] ∧ e.getValue.governance = [] ∧ e.parked = false ∧
      timeoutsScheduled (effects out) = [(2, 0, .propose)]) := by
  constructor
  · have hholds : parkedCounts.holds (fun (e, e', news) =>
        decide (e.mempool = [] ∧ e.govMempool = [] ∧ e'.height = e.height ∧ e'.round = e.round ∧
          timeoutsScheduled news = [(1, 0, .precommit)])) = true := by
      decide +kernel
    rcases Exec.holds_iff.mp hholds with ⟨⟨e, e', news⟩, hrun, hp⟩
    rw [decide_eq_true_eq] at hp
    rcases hp with ⟨hpool, hgov, hheight, hround, hnews⟩
    simp only [parkedCounts, Exec.bind_eq_ok] at hrun
    rcases hrun with ⟨e₀, hnew, ⟨e₂, out⟩, hstart, ⟨e₃, o₃⟩, hall, hret⟩
    rcases Exec.ok_triple hret with ⟨rfl, rfl, rfl⟩
    refine ⟨e₀, e, [], out, [] ++ news, e', hnew, EntersZero.start hstart, hpool, hgov, ?_, hheight,
      hround, hnews⟩
    -- three precommits for nil are handed over, nothing else
    refine BootSteps.refl.handleAll ?_ hall
    have hvote : ∀ vm : VoteMsg sample, (Event.message (.vote vm)).plain = true ∧
        ∀ log e, fired log e (.message (.vote vm)) ∧
          ∃ vm', Event.message (.vote vm) = .message (.vote vm') := by
      intro vm
      refine ⟨rfl, ?_⟩
      intro log e
      refine ⟨?_, vm, rfl⟩
      intro h r kind hev
      cases hev
    intro ev hev
    simp only [List.mem_cons, List.not_mem_nil, or_false] at hev
    rcases hev with rfl | rfl | rfl
    all_goals exact hvote _
  · have hholds : staleChange.holds (fun (e, _, out) =>
        decide (e.mempool = [] ∧ e.parked = false ∧
          timeoutsScheduled (effects out) = [(2, 0, .propose)]) &&
        e.getValue.governance.isEmpty) = true := by
      decide +kernel
    rcases Exec.holds_iff.mp hholds with ⟨⟨e, res, out⟩, hrun, hp⟩
    rw [Bool.and_eq_true, decide_eq_true_eq, List.isEmpty_iff] at hp
    rcases hp with ⟨⟨hpool, hparked, hout⟩, hgov⟩
    simp only [staleChange, Exec.bind_eq_ok] at hrun
    rcases hrun with ⟨e₀, hnew, ⟨e₁, o₁⟩, hstart, ⟨e₂, o₂⟩, hchange, res', hsync, hrun⟩
    -- the block that is applied leaves the pending change where it is
    cases res' with
    | error err => cases hrun
    | ok e₃ =>
        rw [Exec.bind_eq_ok] at hrun
        rcases hrun with ⟨⟨e₄, o₄⟩, hround, hret⟩
        rcases Exec.ok_triple hret with ⟨rfl, rfl, rfl⟩
        have hrun₂ : BootRun fired e₀ (o₁ ++ o₂) e₂ := by
          refine (BootRun.start hstart).step (BootStep.event rfl ?_ hchange)
          intro h r kind hev
          cases hev
        exact ⟨e₀, e, _, out, hnew, EntersZero.resume hrun₂ (List.cons_ne_nil quorumBlock [])
          (Applies.cons hsync (Applies.nil _)) hround, hpool, hgov, hparked, hout⟩

end SmartLedger
