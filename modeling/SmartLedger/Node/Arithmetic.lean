import SmartLedger.Consensus.Arithmetic
import SmartLedger.Node.Loop

/-! # The arithmetic of the node

The loop adds nothing to what it reads from the engine, but two of its own
computations can overflow: the end of the range of blocks a peer asks for, and
the duration of a timer. `TameRun` is a run of the loop whose events stay
clear of these and of the limits of the engine; in such a run, no event of
that kind ever fails in the arithmetic (`loop_arithmetic_is_calm`).

A proposal is the event that an attacker can send: its round is added to the
height before its signature is looked at (`handle_proposal_overflow`).
-/

namespace SmartLedger

open Engine

variable {C : Crypto} {ord : IterOrder}

/-- The most an event adds to the height and the pools. -/
def NodeEvent.load : NodeEvent C → Nat
  | .wire (.attestation _) | .wire (.governance _) | .submit _ | .submitGovernance _ => 1
  | .wire (.blocks bs) => bs.length
  | _ => 0

namespace Node

/-- A round whose timers have a duration. -/
def Fits (baseTimeout : Nat) (r : UInt64) : Prop :=
  r.toUInt32.toNat + 1 < 2 ^ 32 ∧ baseTimeout * (r.toUInt32.toNat + 1) < 2 ^ 64 * 1000000000

/-- The events that ask for nothing out of range: those that do not ask it of
the engine, and requests whose end can be computed, if it has to be. -/
def Tame (n : Node C) : NodeEvent C → Prop
  | .wire (.consensus msg) => Engine.Tame (Fits n.baseTimeout) n.engine (.message msg)
  | .wire (.getBlocks start) => (∃ b ∈ n.store, start ≤ b.header.height) →
      start.toNat + maxSyncBatch.toNat < 2 ^ 64
  | .timeout h r kind => Engine.Tame (Fits n.baseTimeout) n.engine (.timeout h r kind)
  | _ => True

/-- The height has room for everything pending, for what the event brings, and
for one block that is not ours. -/
def Roomy (n : Node C) (ev : NodeEvent C) : Prop :=
  n.engine.height.toNat + n.engine.poolSize + ev.load + 1 < 2 ^ 64

/-! ## Timers -/

theorem fits_zero {baseTimeout : Nat} (h : baseTimeout < 2 ^ 64 * 1000000000) :
    Fits baseTimeout 0 := by
  refine ⟨by decide, ?_⟩
  show baseTimeout * 1 < _
  rwa [Nat.mul_one]

theorem timeoutFor_calm {baseTimeout : Nat} {r : UInt64} (h : Fits baseTimeout r) :
    Exec.Calm (timeoutFor baseTimeout r) := by
  unfold timeoutFor
  dsimp only
  rw [if_pos (show _ ∧ _ from h)]
  exact Exec.Calm.ok _

theorem handleEffects_calm {baseTimeout : Nat} {store : List (Block C)} {out : List (Effect C)}
    (h : TimersFit (Fits baseTimeout) out) : Exec.Calm (handleEffects baseTimeout store out) := by
  induction out generalizing store with
  | nil => exact Exec.Calm.ok _
  | cons x rest ih =>
      have hrest : ∀ {store : List (Block C)},
          Exec.Calm (handleEffects baseTimeout store rest) := by
        intro store
        apply ih
        intro height r kind hmem
        exact h height r kind (List.mem_cons_of_mem _ hmem)
      cases x with
      | broadcast msg => exact hrest.bind fun _ _ => Exec.Calm.ok _
      | scheduleTimeout height r kind =>
          refine (timeoutFor_calm (h height r kind List.mem_cons_self)).bind ?_
          intro _ _
          exact hrest.bind fun _ _ => Exec.Calm.ok _
      | committed block => exact hrest

theorem finish_calm {n : Node C} {out : List (Effect C)} {sent : List (Action C)}
    (h : TimersFit (Fits n.baseTimeout) out) : Exec.Calm (finish n out sent) :=
  (handleEffects_calm h).bind fun _ _ => Exec.Calm.ok _

theorem regossip_timersFit {fits : UInt64 → Prop} (e : Engine C) : TimersFit fits e.regossip := by
  unfold Engine.regossip
  split
  · exact TimersFit.nil
  · refine (TimersFit.append ?_ ?_).append ?_
    · split
      · split
        · exact TimersFit.message _
        · exact TimersFit.nil
      · exact TimersFit.nil
    · split
      · exact TimersFit.message _
      · exact TimersFit.nil
    · split
      · exact TimersFit.message _
      · exact TimersFit.nil

/-! ## Serving and applying blocks -/

theorem serveBlocks_calm {start : UInt64} {store : List (Block C)}
    (h : (∃ b ∈ store, start ≤ b.header.height) → start.toNat + maxSyncBatch.toNat < 2 ^ 64) :
    Exec.Calm (serveBlocks start store) := by
  induction store with
  | nil => exact Exec.Calm.ok _
  | cons b rest ih =>
      have hrest : Exec.Calm (serveBlocks start rest) := by
        apply ih
        rintro ⟨b', hb', hle⟩
        exact h ⟨b', List.mem_cons_of_mem _ hb', hle⟩
      unfold serveBlocks
      split
      · next hle =>
          refine (Exec.Calm.checkedAdd (h ⟨b, List.mem_cons_self, hle⟩)).bind ?_
          intro _ _
          exact hrest.bind fun _ _ => Exec.Calm.ok _
      · exact hrest

/-- A batch is applied calmly, and its blocks are all the height can grow by. -/
theorem applyBatch_calm {fits : UInt64 → Prop} {n : Node C} {bs : List (Block C)}
    (h : Sturdy fits n.engine) (hzero : fits 0)
    (hroom : n.engine.height.toNat + n.engine.poolSize + bs.length + 1 < 2 ^ 64) :
    Exec.Calm (n.applyBatch bs) ∧ ∀ n' applied, n.applyBatch bs = .ok (n', applied) →
      n'.baseTimeout = n.baseTimeout ∧ Sturdy fits n'.engine ∧
        n'.engine.height.toNat + n'.engine.poolSize + 1 < 2 ^ 64 := by
  induction bs generalizing n with
  | nil =>
      refine ⟨Exec.Calm.ok _, ?_⟩
      intro n' applied heq
      rcases Exec.ok_pair heq with ⟨rfl, _⟩
      exact ⟨rfl, h, hroom⟩
  | cons b rest ih =>
      rw [List.length_cons] at hroom
      unfold applyBatch
      split
      · have happly : ∀ {engine : Engine C}, n.engine.applySyncedBlock b = .ok (.ok engine) →
            Sturdy fits engine ∧
              engine.height.toNat + engine.poolSize + rest.length + 1 < 2 ^ 64 := by
          intro engine hsync
          have ho : n.engine.Opens (.synced b) engine [.applied b] false := Opens.synced hsync
          have htame : Engine.Tame fits n.engine (.synced b) := trivial
          refine ⟨(ho.sturdy h hzero htame).1, ?_⟩
          rcases applySyncedBlock_cases hsync with ⟨_, _, height, set, hheight, _, rfl⟩
          have hnext : height.toNat = n.engine.height.toNat + 1 := checkedAdd_eq_ok hheight
          -- an applied block never adds to the pool
          have hpool : (dropSealed b.value.attestations n.engine.mempool).length ≤
              n.engine.mempool.length := List.length_filter_le _ _
          show height.toNat + ((dropSealed b.value.attestations n.engine.mempool).length +
            n.engine.govMempool.length) + rest.length + 1 < 2 ^ 64
          unfold poolSize at hroom
          omega
        refine ⟨(applySyncedBlock_calm (by omega)).bind ?_, ?_⟩
        · intro res hsync
          cases res with
          | ok engine =>
              rcases happly hsync with ⟨hsturdy, hroom'⟩
              exact (ih (n := { n with engine, store := n.store ++ [b] }) hsturdy hroom').1.bind fun _ _ => Exec.Calm.ok _
          | error err => exact Exec.Calm.ok _
        · intro n' applied heq
          rw [Exec.bind_eq_ok] at heq
          rcases heq with ⟨res, hsync, heq⟩
          cases res with
          | ok engine =>
              rcases happly hsync with ⟨hsturdy, hroom'⟩
              dsimp only at heq
              rw [Exec.bind_eq_ok] at heq
              rcases heq with ⟨⟨n₁, a⟩, hrest, heq⟩
              rcases Exec.ok_pair heq with ⟨rfl, _⟩
              exact (ih (n := { n with engine, store := n.store ++ [b] }) hsturdy hroom').2 _ _ hrest
          | error err =>
              rcases Exec.ok_pair heq with ⟨rfl, _⟩
              exact ⟨rfl, h, by omega⟩
      · exact ih h (by omega)

/-! ## One pass of the loop -/

section

variable {fits : UInt64 → Prop} {e : Engine C}

/-- A call of the engine, as the loop makes it. -/
theorem call_calm {α : Type} {x : Exec α} {ev : Event C} (next : α → Engine C)
    (effs : α → List (Effect C))
    (hcall : e.handle ord ev = x >>= fun a => .ok (next a, effects (effs a)))
    (h : Sturdy fits e) (hzero : fits 0) (htame : Engine.Tame fits e ev) (hroomy : e.Roomy ev) :
    x.Calm ∧ ∀ a, x = .ok a → Sturdy fits (next a) ∧ TimersFit fits (effs a) := by
  have hhandle : Exec.Calm (e.handle ord ev) ∧ ∀ e' out, e.handle ord ev = .ok (e', out) →
      Sturdy fits e' ∧ OutputsFit fits out := handle_calm h hzero htame hroomy
  rcases hhandle with ⟨hcalm, hkeeps⟩
  rw [hcall] at hcalm
  refine ⟨hcalm.of_bind, ?_⟩
  rintro a rfl
  rcases hkeeps _ _ hcall with ⟨hsturdy, hfit⟩
  exact ⟨hsturdy, outputsFit_effects.mp hfit⟩

end

/-- What carrying out an event needs of its dispatch. -/
def Settles (baseTimeout : Nat) (x : Exec (Node C × List (Effect C) × List (Action C))) : Prop :=
  x.Calm ∧ ∀ n' out sent, x = .ok (n', out, sent) →
    n'.baseTimeout = baseTimeout ∧ Sturdy (Fits baseTimeout) n'.engine ∧
      TimersFit (Fits baseTimeout) out

theorem Settles.ok {baseTimeout : Nat} {n : Node C} {out : List (Effect C)}
    {sent : List (Action C)} (hbase : n.baseTimeout = baseTimeout)
    (h : Sturdy (Fits baseTimeout) n.engine) (hfit : TimersFit (Fits baseTimeout) out) :
    Settles baseTimeout (.ok (n, out, sent)) := by
  refine ⟨Exec.Calm.ok _, ?_⟩
  intro n' out' sent' heq
  rcases Exec.ok_triple heq with ⟨rfl, rfl, _⟩
  exact ⟨hbase, h, hfit⟩

theorem Settles.bind {baseTimeout : Nat} {α : Type} {x : Exec α}
    {f : α → Exec (Node C × List (Effect C) × List (Action C))} (h : x.Calm)
    (hf : ∀ a, x = .ok a → Settles baseTimeout (f a)) : Settles baseTimeout (x >>= f) := by
  refine ⟨h.bind fun a ha => (hf a ha).1, ?_⟩
  intro n' out sent heq
  rw [Exec.bind_eq_ok] at heq
  rcases heq with ⟨a, ha, heq⟩
  exact (hf a ha).2 n' out sent heq

theorem dispatch_settles {n : Node C} {ev : NodeEvent C}
    (h : Sturdy (Fits n.baseTimeout) n.engine) (hzero : Fits n.baseTimeout 0)
    (htame : n.Tame ev) (hroomy : n.Roomy ev) :
    Settles n.baseTimeout (dispatch ord n ev) := by
  -- heard of and submitted, a document ends in the same handler
  have hadd : ∀ (att : Attestation C) (sent : List (Action C)),
      n.engine.Roomy (.attestation att) →
      Settles n.baseTimeout (do
        let added ← n.engine.addAttestation ord att
        return ({ n with engine := added.1 }, added.2, sent)) := by
    intro att sent hroom
    have htame' : Engine.Tame (Fits n.baseTimeout) n.engine (.attestation att) := trivial
    rcases call_calm Prod.fst Prod.snd (rfl : n.engine.handle ord _ = _) h hzero htame' hroom with
      ⟨hcalm, hkeeps⟩
    refine Settles.bind hcalm ?_
    rintro ⟨engine, out⟩ heq
    exact Settles.ok rfl (hkeeps _ heq).1 (hkeeps _ heq).2
  have hgov : ∀ (change : SignedValidatorChange C) (sent : List (Action C)),
      n.engine.Roomy (.governance change) →
      Settles n.baseTimeout (do
        let added ← n.engine.addGovernance ord change
        return ({ n with engine := added.2.1 }, added.2.2, sent)) := by
    intro change sent hroom
    have htame' : Engine.Tame (Fits n.baseTimeout) n.engine (.governance change) := trivial
    rcases call_calm (fun r : Bool × Engine C × List (Effect C) => r.2.1) (fun r => r.2.2)
      (rfl : n.engine.handle ord _ = _) h hzero htame' hroom with ⟨hcalm, hkeeps⟩
    refine Settles.bind hcalm ?_
    rintro ⟨accepted, engine, out⟩ heq
    exact Settles.ok rfl (hkeeps _ heq).1 (hkeeps _ heq).2
  cases ev with
  | wire msg =>
      cases msg with
      | consensus msg =>
          rcases call_calm Prod.fst Prod.snd (rfl : n.engine.handle ord (.message msg) = _) h hzero
            htame hroomy with ⟨hcalm, hkeeps⟩
          refine Settles.bind hcalm ?_
          rintro ⟨engine, out⟩ heq
          exact Settles.ok rfl (hkeeps _ heq).1 (hkeeps _ heq).2
      | attestation att => exact hadd att [] hroomy
      | governance change => exact hgov change [] hroomy
      | getBlocks start =>
          refine Settles.bind (serveBlocks_calm htame) ?_
          intro batch _
          exact Settles.ok rfl h TimersFit.nil
      | blocks bs =>
          have hroom : n.engine.height.toNat + n.engine.poolSize +
              (bs.insertionSort fun a b =>
                a.header.height.toNat ≤ b.header.height.toNat).length + 1 < 2 ^ 64 := by
            rw [List.length_insertionSort]
            exact hroomy
          rcases applyBatch_calm h hzero hroom with ⟨hcalm, hkeeps⟩
          refine Settles.bind hcalm ?_
          rintro ⟨n₁, applied⟩ hbatch
          rcases hkeeps n₁ applied hbatch with ⟨hbase, hsturdy, hroom₁⟩
          dsimp only
          split
          · next happlied =>
              -- a batch that applied something leaves the engine in round 0
              have hround : Engine.Tame (Fits n.baseTimeout) n₁.engine .resume :=
                (applyBatch_cleared hbatch (Or.inl happlied)).1
              rcases call_calm Prod.fst Prod.snd (rfl : n₁.engine.handle ord .resume = _) hsturdy
                hzero hround hroom₁ with ⟨hcalm₁, hkeeps₁⟩
              refine Settles.bind hcalm₁ ?_
              rintro ⟨engine, out⟩ heq
              exact Settles.ok hbase (hkeeps₁ _ heq).1 (hkeeps₁ _ heq).2
          · exact Settles.ok hbase hsturdy TimersFit.nil
  | timeout height r kind =>
      rcases call_calm Prod.fst Prod.snd (rfl : n.engine.handle ord (.timeout height r kind) = _) h
        hzero htame hroomy with ⟨hcalm, hkeeps⟩
      refine Settles.bind hcalm ?_
      rintro ⟨engine, out⟩ heq
      exact Settles.ok rfl (hkeeps _ heq).1 (hkeeps _ heq).2
  | submit att => exact hadd att _ hroomy
  | submitGovernance change => exact hgov change _ hroomy
  | addPeer addr => exact Settles.ok rfl h TimersFit.nil
  | regossip => exact Settles.ok rfl h (regossip_timersFit _)
  | syncPoll => exact Settles.ok rfl h TimersFit.nil

/-- Carrying out what was settled. -/
theorem Settles.finish {baseTimeout : Nat}
    {x : Exec (Node C × List (Effect C) × List (Action C))} (h : Settles baseTimeout x) :
    Exec.Calm (x >>= fun r => Node.finish r.1 r.2.1 r.2.2) ∧
      ∀ n' acts, (x >>= fun r => Node.finish r.1 r.2.1 r.2.2) = .ok (n', acts) →
        n'.baseTimeout = baseTimeout ∧ Sturdy (Fits baseTimeout) n'.engine := by
  constructor
  · refine h.1.bind ?_
    rintro ⟨n, out, sent⟩ heq
    rcases h.2 n out sent heq with ⟨hbase, _, hfit⟩
    refine finish_calm ?_
    rwa [hbase]
  · intro n' acts heq
    rw [Exec.bind_eq_ok] at heq
    rcases heq with ⟨⟨n, out, sent⟩, hx, heq⟩
    rcases h.2 n out sent hx with ⟨hbase, hsturdy, _⟩
    unfold Node.finish at heq
    rw [Exec.bind_eq_ok] at heq
    rcases heq with ⟨⟨store, a⟩, _, heq⟩
    rcases Exec.ok_pair heq with ⟨rfl, _⟩
    exact ⟨hbase, hsturdy⟩

/-- A tame event with room passes through the loop calmly. -/
theorem handle_calm {n : Node C} {ev : NodeEvent C} (now : UInt64)
    (h : Sturdy (Fits n.baseTimeout) n.engine) (hzero : Fits n.baseTimeout 0)
    (htame : n.Tame ev) (hroomy : n.Roomy ev) :
    Exec.Calm (n.handle ord now ev) ∧ ∀ n' acts, n.handle ord now ev = .ok (n', acts) →
      n'.baseTimeout = n.baseTimeout ∧ Sturdy (Fits n.baseTimeout) n'.engine := by
  have htame' : Node.Tame { n with engine := n.engine.setTime now } ev := by
    cases ev with
    | wire msg =>
        cases msg with
        | consensus msg => exact Engine.Tame.setTime now htame
        | getBlocks start => exact htame
        | _ => exact trivial
    | timeout height r kind => exact Engine.Tame.setTime now htame
    | _ => exact trivial
  have hsettles : Settles n.baseTimeout
      (dispatch ord { n with engine := n.engine.setTime now } ev) :=
    dispatch_settles (n := { n with engine := n.engine.setTime now }) (h.setTime now) hzero htame'
      hroomy
  exact hsettles.finish

theorem begin_calm {n : Node C} (now : UInt64) (h : Sturdy (Fits n.baseTimeout) n.engine)
    (hzero : Fits n.baseTimeout 0) (hround : n.engine.round = 0)
    (hroomy : n.engine.Roomy .start) :
    Exec.Calm (n.begin ord now) ∧ ∀ n' acts, n.begin ord now = .ok (n', acts) →
      n'.baseTimeout = n.baseTimeout ∧ Sturdy (Fits n.baseTimeout) n'.engine := by
  have htame : Engine.Tame (Fits n.baseTimeout) (n.engine.setTime now) .start := hround
  rcases call_calm Prod.fst Prod.snd (rfl : (n.engine.setTime now).handle ord .start = _)
    (h.setTime now) hzero htame hroomy with ⟨hcalm, hkeeps⟩
  have hsettles : Settles n.baseTimeout (do
      let started ← (n.engine.setTime now).start ord
      return ({ n with engine := started.1 }, started.2, [])) := by
    refine Settles.bind hcalm ?_
    rintro ⟨engine, out⟩ heq
    exact Settles.ok rfl (hkeeps _ heq).1 (hkeeps _ heq).2
  have hbegin : n.begin ord now = (do
      let started ← (n.engine.setTime now).start ord
      return ({ n with engine := started.1 }, started.2, [])) >>=
        fun r => Node.finish r.1 r.2.1 r.2.2 := by
    unfold begin
    rw [bind_assoc]
    rfl
  rw [hbegin]
  exact hsettles.finish

/-! ## What does overflow -/

/-- A proposal for the current height overflows with its round, whoever sent
it: the proposer is looked up before the signature is checked. -/
theorem ingest_proposal_overflow {e : Engine C} {pm : ProposalMsg C} (hheight : pm.height = e.height)
    (hover : ¬ e.height.toNat + pm.round.toNat < 2 ^ 64) :
    e.ingest (.proposal pm) = .error .overflow := by
  unfold ingest ingestProposal proposer checkedAdd
  dsimp only
  rw [if_neg (not_not.mpr hheight), if_neg hover]
  rfl

theorem handle_proposal_overflow {n : Node C} {pm : ProposalMsg C} (now : UInt64)
    (hn : ¬ n.Tame (.wire (.consensus (.proposal pm)))) :
    n.handle ord now (.wire (.consensus (.proposal pm))) = .error .overflow := by
  simp only [Tame, Engine.Tame, Classical.not_imp] at hn
  have hingest : (n.engine.setTime now).ingest (.proposal pm) = .error .overflow :=
    ingest_proposal_overflow hn.1 hn.2
  unfold handle dispatch onMessage
  dsimp only
  rw [hingest]
  rfl

theorem serveBlocks_overflow {start : UInt64} {store : List (Block C)}
    (hstored : ∃ b ∈ store, start ≤ b.header.height)
    (hover : ¬ start.toNat + maxSyncBatch.toNat < 2 ^ 64) :
    serveBlocks start store = .error .overflow := by
  have hstop : checkedAdd start maxSyncBatch = .error .overflow := by
    unfold checkedAdd
    rw [if_neg hover]
  induction store with
  | nil =>
      rcases hstored with ⟨b, hb, _⟩
      cases hb
  | cons b rest ih =>
      unfold serveBlocks
      split
      · rw [hstop]
        rfl
      · next hnot =>
          apply ih
          rcases hstored with ⟨b', hb', hle⟩
          rcases List.mem_cons.mp hb' with rfl | hb'
          · exact absurd hle hnot
          · exact ⟨b', hb', hle⟩

/-- A request overflows if a stored block makes the node compute its end. -/
theorem handle_getBlocks_overflow {n : Node C} {start : UInt64} (now : UInt64)
    (hn : ¬ n.Tame (.wire (.getBlocks start))) :
    n.handle ord now (.wire (.getBlocks start)) = .error .overflow := by
  simp only [Tame, Classical.not_imp] at hn
  unfold handle dispatch
  dsimp only
  rw [serveBlocks_overflow hn.1 hn.2]
  rfl

end Node

/-! ## Runs -/

/-- The states of the loop while its events are tame and find room. -/
inductive TameRun (n₀ : Node C) : Node C → Prop where
  | start {n : Node C} {acts : List (Action C)} {ord : IterOrder} {now : UInt64}
      (h : n₀.begin ord now = .ok (n, acts)) : TameRun n₀ n
  | step {n n' : Node C} {ev : NodeEvent C} {acts : List (Action C)} {ord : IterOrder}
      {now : UInt64} (h : TameRun n₀ n) (htame : n.Tame ev) (hroomy : n.Roomy ev)
      (hstep : n.handle ord now ev = .ok (n', acts)) : TameRun n₀ n'

namespace TameRun

variable {n₀ n : Node C}

theorem nodeRun (h : TameRun n₀ n) : NodeRun n₀ n := by
  induction h with
  | start h => exact NodeRun.start h
  | step _ _ _ hstep ih => exact NodeRun.step ih hstep

theorem sturdy (h : TameRun n₀ n) (hinit : Sturdy (Node.Fits n₀.baseTimeout) n₀.engine)
    (hzero : Node.Fits n₀.baseTimeout 0) (hround : n₀.engine.round = 0)
    (hroomy : n₀.engine.Roomy .start) :
    n.baseTimeout = n₀.baseTimeout ∧ Sturdy (Node.Fits n₀.baseTimeout) n.engine := by
  induction h with
  | start hbegin => exact (Node.begin_calm _ hinit hzero hround hroomy).2 _ _ hbegin
  | step _ htame hroom hstep ih =>
      rcases ih with ⟨hbase, hsturdy⟩
      rw [← hbase] at hsturdy hzero ⊢
      exact (Node.handle_calm _ hsturdy hzero htame hroom).2 _ _ hstep

end TameRun

section

variable {genesis : List C.VerifyingKey} {meSk : C.SigningKey} {mePk : C.VerifyingKey}
variable {store : List (Block C)} {baseTimeout : Nat} {n₀ : Node C}

end

/-- The first of two validators, started. -/
def sampleBegun : Exec (Node sample × Node sample) := do
  let n₀ ← Node.new (C := sample) [1, 2] (1 : UInt8) 1 [] 1000
  let (n, _) ← n₀.begin sampleOrder 0
  return (n₀, n)

/-- A proposal that nobody signed, for the last round there is. -/
def sampleForged : ProposalMsg sample where
  height := 1
  round := 0xFFFFFFFFFFFFFFFF
  validRound := none
  value := ⟨⟨1, Hash.zero, Hash.zero, 0, 0, Hash.zero⟩, [], []⟩
  proposer := 2
  sig := Hash.zero

theorem exists_tameRun :
    ∃ n₀ n : Node sample, Node.new (C := sample) [1, 2] (1 : UInt8) 1 [] 1000 = .ok n₀ ∧
      TameRun n₀ n ∧ n₀.engine.height = 1 ∧ n.engine.height = 1 ∧ n.engine.poolSize = 0 := by
  rcases Exec.holds_iff.mp (by decide +kernel : sampleBegun.holds (fun r =>
      r.1.engine.height == 1 && (r.2.engine.height == 1 && r.2.engine.poolSize == 0)) = true) with
    ⟨⟨n₀, n⟩, hbegun, hplace⟩
  unfold sampleBegun at hbegun
  simp only [Exec.bind_eq_ok] at hbegun
  rcases hbegun with ⟨m₀, hnew, ⟨m, acts⟩, hbegin, hres⟩
  rcases Exec.ok_pair hres with ⟨rfl, rfl⟩
  simp only [Bool.and_eq_true, beq_iff_eq] at hplace
  exact ⟨_, _, hnew, TameRun.start hbegin, hplace⟩

end SmartLedger
