import SmartLedger.Consensus.Integrity
import SmartLedger.Consensus.Voting

/-! # The node's event loop

The node owns the engine and the block store. Its loop takes one event at a
time, lets the engine handle it, and carries out the effects in order: only
here do finalized blocks reach the store, committed ones through
`handleEffects` and those of a catch-up batch one by one in `applyBatch`.

Network and timers are seen through the actions the loop asks of them. What is
around the loop has modules of its own: the anchoring service that reads the
committed blocks (`Node.Anchoring`), the on-disk copy of the store
(`Node.Storage`), the timer service (`Node.Timer`), the process with its
channels and `Shutdown` (`Node.Process`), and the client RPC (`Node.Rpc`).

`NodeRun.engine_run`: every run of the loop is a driven run of its engine
(it starts the engine once and resumes it only after applying a block), and
the store holds what that run finalized. `Session.follows` also says where
the events of that run come from.
-/

namespace SmartLedger

variable {C : Crypto} {ord : IterOrder}

/-- Everything that travels between nodes. -/
inductive WireMsg (C : Crypto) where
  | consensus (msg : ConsensusMsg C)
  | attestation (att : Attestation C)
  | governance (change : SignedValidatorChange C)
  | getBlocks (start : UInt64)
  | blocks (bs : List (Block C))

/-- An input to the loop. -/
inductive NodeEvent (C : Crypto) where
  | wire (msg : WireMsg C)
  | timeout (height round : UInt64) (kind : TimeoutKind)
  | submit (att : Attestation C)
  | submitGovernance (change : SignedValidatorChange C)
  | addPeer (addr : String)
  | regossip
  | syncPoll

/-- What the loop asks of the network and of the timers; durations are in
nanoseconds. -/
inductive Action (C : Crypto) where
  | broadcast (msg : WireMsg C)
  | schedule (height round : UInt64) (kind : TimeoutKind) (after : Nat)
  | addPeer (addr : String)

/-- Max finalized blocks served per catch-up response. -/
def maxSyncBatch : UInt64 := 50

/-- The node, as far as the loop changes it. -/
structure Node (C : Crypto) where
  engine : Engine C
  store : List (Block C)
  baseTimeout : Nat

/-! ## The block store -/

/-- `BlockStore::tip`: the last block's id and height, or `(zero, 0)`. -/
def storeTip (store : List (Block C)) : Hash × UInt64 :=
  match store.getLast? with
  | some b => (b.header.id C, b.header.height)
  | none => (Hash.zero, 0)

/-- The registry of `Node::new`: genesis plus the governance of every stored
block. -/
def replayGovernance (genesis : List C.VerifyingKey) (store : List (Block C)) :
    ValidatorRegistry C :=
  store.foldl (fun reg b => reg.recordAll b.governance) (ValidatorRegistry.new genesis)

/-- The engine `Node::new` builds from a store. -/
def rebuild (genesis : List C.VerifyingKey) (meSk : C.SigningKey) (mePk : C.VerifyingKey)
    (store : List (Block C)) : Exec (Engine C) := do
  let (tip, lastHeight) := storeTip store
  let height ← checkedAdd lastHeight 1
  Engine.withRegistry (replayGovernance genesis store) meSk mePk tip height

namespace Node

def new (genesis : List C.VerifyingKey) (meSk : C.SigningKey) (mePk : C.VerifyingKey)
    (store : List (Block C)) (baseTimeout : Nat) : Exec (Node C) := do
  let engine ← rebuild genesis meSk mePk store
  return { engine, store, baseTimeout }

theorem new_eq_ok {genesis : List C.VerifyingKey} {meSk : C.SigningKey} {mePk : C.VerifyingKey}
    {store : List (Block C)} {baseTimeout : Nat} {n : Node C}
    (h : new genesis meSk mePk store baseTimeout = .ok n) :
    rebuild genesis meSk mePk store = .ok n.engine ∧ n.store = store := by
  unfold new at h
  rw [Exec.bind_eq_ok] at h
  rcases h with ⟨engine, hbuild, h⟩
  obtain rfl := Except.ok.inj h
  exact ⟨hbuild, rfl⟩

/-! ## Carrying out effects -/

/-- Timeouts grow linearly with the round; the multiplication panics when the
duration does not fit. -/
def timeoutFor (baseTimeout : Nat) (round : UInt64) : Exec Nat :=
  let factor := round.toUInt32.toNat + 1
  if factor < 2 ^ 32 ∧ baseTimeout * factor < 2 ^ 64 * 1000000000 then .ok (baseTimeout * factor)
  else .error .overflow

def handleEffects (baseTimeout : Nat) (store : List (Block C)) :
    List (Effect C) → Exec (List (Block C) × List (Action C))
  | [] => .ok (store, [])
  | .broadcast msg :: rest => do
      let (store, acts) ← handleEffects baseTimeout store rest
      return (store, .broadcast (.consensus msg) :: acts)
  | .scheduleTimeout height round kind :: rest => do
      let after ← timeoutFor baseTimeout round
      let (store, acts) ← handleEffects baseTimeout store rest
      return (store, .schedule height round kind after :: acts)
  | .committed block :: rest => handleEffects baseTimeout (store ++ [block]) rest

/-! ## Handling events -/

/-- The stored blocks a peer asked for. -/
def serveBlocks (start : UInt64) : List (Block C) → Exec (List (Block C))
  | [] => .ok []
  | b :: rest =>
      if start ≤ b.header.height then do
        let stop ← checkedAdd start maxSyncBatch
        let batch ← serveBlocks start rest
        return if b.header.height < stop then b :: batch else batch
      else serveBlocks start rest

/-- The loop over a catch-up batch: blocks that are not next are passed over,
an accepted one goes to the store, a rejected one ends the batch. -/
def applyBatch (n : Node C) : List (Block C) → Exec (Node C × Bool)
  | [] => .ok (n, false)
  | b :: rest =>
      if b.header.height = n.engine.height then do
        match ← n.engine.applySyncedBlock b with
        | .ok engine =>
            let (n, _) ← applyBatch { n with engine, store := n.store ++ [b] } rest
            return (n, true)
        | .error _ => return (n, false)
      else applyBatch n rest

/-- What an event makes of the node, the effects still to be carried out, and
what was already sent. -/
def dispatch (ord : IterOrder) (n : Node C) :
    NodeEvent C → Exec (Node C × List (Effect C) × List (Action C))
  | .wire (.consensus msg) => do
      let (engine, out) ← n.engine.onMessage ord msg
      return ({ n with engine }, out, [])
  | .wire (.attestation att) => do
      let (engine, out) ← n.engine.addAttestation ord att
      return ({ n with engine }, out, [])
  | .wire (.governance change) => do
      let (_, engine, out) ← n.engine.addGovernance ord change
      return ({ n with engine }, out, [])
  | .wire (.getBlocks start) => do
      let batch ← serveBlocks start n.store
      return (n, [], if batch.isEmpty then [] else [.broadcast (.blocks batch)])
  | .wire (.blocks bs) => do
      let (n, applied) ← n.applyBatch
        (bs.insertionSort fun a b => a.header.height.toNat ≤ b.header.height.toNat)
      if applied then
        let (engine, out) ← n.engine.resume ord
        return ({ n with engine }, out, [])
      else return (n, [], [])
  | .timeout height round kind => do
      let (engine, out) ← n.engine.onTimeout ord height round kind
      return ({ n with engine }, out, [])
  | .submit att => do
      let (engine, out) ← n.engine.addAttestation ord att
      return ({ n with engine }, out, [.broadcast (.attestation att)])
  | .submitGovernance change => do
      let (_, engine, out) ← n.engine.addGovernance ord change
      return ({ n with engine }, out, [.broadcast (.governance change)])
  | .addPeer addr => .ok (n, [], [.addPeer addr])
  | .regossip => .ok (n, n.engine.regossip, [])
  | .syncPoll => .ok (n, [], [.broadcast (.getBlocks n.engine.height)])

/-- Carry out the effects of a dispatched event. -/
def finish (n : Node C) (out : List (Effect C)) (sent : List (Action C)) :
    Exec (Node C × List (Action C)) := do
  let (store, acts) ← handleEffects n.baseTimeout n.store out
  return ({ n with store }, sent ++ acts)

/-- The first thing the loop does. -/
def begin (ord : IterOrder) (now : UInt64) (n : Node C) : Exec (Node C × List (Action C)) := do
  let (engine, out) ← (n.engine.setTime now).start ord
  finish { n with engine } out []

/-- One pass of the loop. -/
def handle (ord : IterOrder) (now : UInt64) (n : Node C) (ev : NodeEvent C) :
    Exec (Node C × List (Action C)) := do
  let (n, out, sent) ← dispatch ord { n with engine := n.engine.setTime now } ev
  finish n out sent

/-! ## The engine behind the loop -/

/-- The engine events that a node event can lead to. -/
inductive Feeds : NodeEvent C → Event C → Prop where
  | message (msg : ConsensusMsg C) : Feeds (.wire (.consensus msg)) (.message msg)
  | attestation (att : Attestation C) : Feeds (.wire (.attestation att)) (.attestation att)
  | governance (change : SignedValidatorChange C) :
      Feeds (.wire (.governance change)) (.governance change)
  | synced {bs : List (Block C)} {b : Block C} (hb : b ∈ bs) :
      Feeds (.wire (.blocks bs)) (.synced b)
  | resume (bs : List (Block C)) : Feeds (.wire (.blocks bs)) .resume
  | timeout (height round : UInt64) (kind : TimeoutKind) :
      Feeds (.timeout height round kind) (.timeout height round kind)
  | submit (att : Attestation C) : Feeds (.submit att) (.attestation att)
  | submitGovernance (change : SignedValidatorChange C) :
      Feeds (.submitGovernance change) (.governance change)

/-- The driven events that come from the inputs `ins` of a node, from its
clock or from its start. -/
def FedBy (ins : List (NodeEvent C)) (e : Engine C) (ev : Event C) : Prop :=
  driven e ev ∧ (ev = .start ∨ (∃ now, ev = .setTime now) ∨ ∃ x ∈ ins, Feeds x ev)

theorem FedBy.mono {as bs : List (NodeEvent C)} {e : Engine C} {ev : Event C}
    (hsub : ∀ x ∈ as, x ∈ bs) (h : FedBy as e ev) : FedBy bs e ev := by
  refine ⟨h.1, ?_⟩
  rcases h.2 with hstart | htime | ⟨x, hx, hfeeds⟩
  · exact Or.inl hstart
  · exact Or.inr (Or.inl htime)
  · exact Or.inr (Or.inr ⟨x, hsub x hx, hfeeds⟩)

/-- The engine of `n'` is reached by a driven run from that of `n`, and the
store grew by what the run finalized. -/
def Follows (n n' : Node C) : Prop :=
  ∃ evs log, Run driven n.engine evs log n'.engine ∧ n'.store = n.store ++ finalized log

/-- The same for a run whose events meet `guard`. -/
def FollowsBy (guard : Engine C → Event C → Prop) (n n' : Node C) : Prop :=
  ∃ evs log, Run guard n.engine evs log n'.engine ∧ n'.store = n.store ++ finalized log

section FollowsBy

variable {guard : Engine C → Event C → Prop}

theorem FollowsBy.refl (n : Node C) : FollowsBy guard n n := ⟨[], [], Run.init, by simp⟩

theorem FollowsBy.trans {n₁ n₂ n₃ : Node C} (h₁ : FollowsBy guard n₁ n₂)
    (h₂ : FollowsBy guard n₂ n₃) : FollowsBy guard n₁ n₃ := by
  rcases h₁ with ⟨evs₁, log₁, hrun₁, hstore₁⟩
  rcases h₂ with ⟨evs₂, log₂, hrun₂, hstore₂⟩
  refine ⟨evs₁ ++ evs₂, log₁ ++ log₂, hrun₁.trans hrun₂, ?_⟩
  rw [hstore₂, hstore₁, finalized_append, List.append_assoc]

theorem FollowsBy.imp {guard' : Engine C → Event C → Prop} {n n' : Node C}
    (h : FollowsBy guard n n') (himp : ∀ e ev, guard e ev → guard' e ev) :
    FollowsBy guard' n n' := by
  rcases h with ⟨evs, log, hrun, hstore⟩
  exact ⟨evs, log, hrun.imp himp, hstore⟩

/-- One event of the engine, with the store brought up to date. -/
theorem FollowsBy.of_handle {n n' : Node C} {ev : Event C} {log : List (Output C)}
    (h : n.engine.handle ord ev = .ok (n'.engine, log)) (hguard : guard n.engine ev)
    (hstore : n'.store = n.store ++ finalized log) : FollowsBy guard n n' := by
  have hone : Run guard n.engine ([] ++ [ev]) ([] ++ log) n'.engine :=
    Run.step Run.init hguard h
  exact ⟨[ev], log, hone, hstore⟩

end FollowsBy

/-- Carrying out effects stores the committed blocks. -/
theorem handleEffects_store {baseTimeout : Nat} {store store' : List (Block C)}
    {out : List (Effect C)} {acts : List (Action C)}
    (h : handleEffects baseTimeout store out = .ok (store', acts)) :
    store' = store ++ finalized (effects out) := by
  induction out generalizing store acts with
  | nil =>
      rcases Exec.ok_pair h with ⟨rfl, _⟩
      simp
  | cons x rest ih =>
      cases x with
      | broadcast msg =>
          simp only [handleEffects, Exec.bind_eq_ok] at h
          rcases h with ⟨⟨s, a⟩, hrest, h⟩
          rcases Exec.ok_pair h with ⟨rfl, _⟩
          exact ih hrest
      | scheduleTimeout height round kind =>
          simp only [handleEffects, Exec.bind_eq_ok] at h
          rcases h with ⟨after, _, ⟨s, a⟩, hrest, h⟩
          rcases Exec.ok_pair h with ⟨rfl, _⟩
          exact ih hrest
      | committed block =>
          have hrest := ih h
          -- a committed block is appended before the later effects are carried out
          rw [hrest, List.append_assoc]
          rfl

theorem finish_eq_ok {n n' : Node C} {out : List (Effect C)} {sent acts : List (Action C)}
    (h : finish n out sent = .ok (n', acts)) :
    n'.engine = n.engine ∧ n'.store = n.store ++ finalized (effects out) := by
  unfold finish at h
  rw [Exec.bind_eq_ok] at h
  rcases h with ⟨⟨store, a⟩, heffects, h⟩
  rcases Exec.ok_pair h with ⟨rfl, _⟩
  exact ⟨rfl, handleEffects_store heffects⟩

/-- The blocks of a batch that are accepted are applied and stored. -/
theorem applyBatch_follows (ord : IterOrder) {guard : Engine C → Event C → Prop} {n n' : Node C}
    {bs : List (Block C)} {applied : Bool} (hguard : ∀ b ∈ bs, ∀ e, guard e (.synced b))
    (h : n.applyBatch bs = .ok (n', applied)) : FollowsBy guard n n' := by
  induction bs generalizing n applied with
  | nil =>
      rcases Exec.ok_pair h with ⟨rfl, _⟩
      exact FollowsBy.refl _
  | cons b rest ih =>
      unfold applyBatch at h
      split at h
      · rw [Exec.bind_eq_ok] at h
        rcases h with ⟨res, hsync, h⟩
        cases res with
        | ok engine =>
            dsimp only at h
            rw [Exec.bind_eq_ok] at h
            rcases h with ⟨⟨n₁, a⟩, hrest, h⟩
            rcases Exec.ok_pair h with ⟨rfl, _⟩
            -- an accepted block is an event of the engine
            have hhandle : n.engine.handle ord (.synced b) = .ok (engine, [.applied b]) := by
              simp only [Engine.handle, hsync]
              rfl
            have hfirst : FollowsBy guard n
                { n with engine := engine, store := n.store ++ [b] } :=
              FollowsBy.of_handle hhandle (hguard b List.mem_cons_self _) rfl
            exact hfirst.trans (ih (fun b hb => hguard b (List.mem_cons_of_mem _ hb)) hrest)
        -- the rest of the batch is dropped
        | error err =>
            rcases Exec.ok_pair h with ⟨rfl, _⟩
            exact FollowsBy.refl _
      -- a block of another height is passed over
      · exact ih (fun b hb => hguard b (List.mem_cons_of_mem _ hb)) h

/-- A batch that applied something leaves the engine in the propose step of
round 0; one that applied nothing leaves it where it was. -/
theorem applyBatch_cleared {n n' : Node C} {bs : List (Block C)} {applied : Bool}
    (h : n.applyBatch bs = .ok (n', applied))
    (hor : applied = true ∨ n.engine.round = 0 ∧ n.engine.step = .propose) :
    n'.engine.round = 0 ∧ n'.engine.step = .propose := by
  induction bs generalizing n applied with
  | nil =>
      rcases Exec.ok_pair h with ⟨rfl, rfl⟩
      rcases hor with hbad | hn
      · cases hbad
      · exact hn
  | cons b rest ih =>
      unfold applyBatch at h
      split at h
      · rw [Exec.bind_eq_ok] at h
        rcases h with ⟨res, hsync, h⟩
        cases res with
        | ok engine =>
            dsimp only at h
            rw [Exec.bind_eq_ok] at h
            rcases h with ⟨⟨n₁, a⟩, hrest, h⟩
            rcases Exec.ok_pair h with ⟨rfl, _⟩
            rcases Engine.applySyncedBlock_cases hsync with ⟨_, _, _, _, _, _, rfl⟩
            -- an applied block clears the height, whatever was there
            exact ih hrest (Or.inr ⟨rfl, rfl⟩)
        | error err =>
            rcases Exec.ok_pair h with ⟨rfl, rfl⟩
            rcases hor with hbad | hn
            · cases hbad
            · exact hn
      · exact ih h hor

/-- An event that goes to the engine, with its effects carried out. -/
theorem FollowsBy.of_effects {guard : Engine C → Event C → Prop} {n n' : Node C} {ev : Event C}
    {engine : Engine C} {out : List (Effect C)} {sent acts : List (Action C)}
    (h : n.engine.handle ord ev = .ok (engine, effects out)) (hguard : guard n.engine ev)
    (hfinish : finish { n with engine } out sent = .ok (n', acts)) : FollowsBy guard n n' := by
  rcases finish_eq_ok hfinish with ⟨hengine, hstore⟩
  have hengine' : n'.engine = engine := hengine
  rw [← hengine'] at h
  exact FollowsBy.of_handle h hguard hstore

/-- An event that leaves engine and store alone and commits nothing. -/
theorem FollowsBy.of_idle {guard : Engine C → Event C → Prop} {n n' : Node C}
    {out : List (Effect C)} {sent acts : List (Action C)}
    (hnone : finalized (effects out) = []) (hfinish : finish n out sent = .ok (n', acts)) :
    FollowsBy guard n n' := by
  rcases finish_eq_ok hfinish with ⟨hengine, hstore⟩
  refine ⟨[], [], ?_, ?_⟩
  · rw [hengine]
    exact Run.init
  · rw [hstore, hnone]
    rfl

theorem finalized_regossip (e : Engine C) : finalized (effects e.regossip) = [] := by
  unfold Engine.regossip
  split
  · rfl
  · simp only [effects_append, finalized_append, List.append_eq_nil_iff]
    refine ⟨⟨?_, ?_⟩, ?_⟩
    · split
      · split <;> rfl
      · rfl
    · split <;> rfl
    · split <;> rfl

theorem setTime_follows (ord : IterOrder) {guard : Engine C → Event C → Prop} (n : Node C)
    (now : UInt64) (hguard : guard n.engine (.setTime now)) :
    FollowsBy guard n { n with engine := n.engine.setTime now } := by
  have hhandle : n.engine.handle ord (.setTime now) = .ok (n.engine.setTime now, []) := rfl
  exact FollowsBy.of_handle hhandle hguard (List.append_nil _).symm

/-- How the dispatch of an event ends: the engine handled an event, nothing
changed, or a batch was applied, and the engine resumed if a block of it was. -/
inductive Dispatched (ord : IterOrder) (n : Node C) :
    NodeEvent C → Node C → List (Effect C) → Prop where
  | fed {ev : NodeEvent C} {ev' : Event C} {engine : Engine C} {out : List (Effect C)}
      (hfeeds : Feeds ev ev') (hother : ∀ bs, ev ≠ .wire (.blocks bs))
      (h : n.engine.handle ord ev' = .ok (engine, effects out)) :
      Dispatched ord n ev { n with engine } out
  | idle {ev : NodeEvent C} (hother : ∀ bs, ev ≠ .wire (.blocks bs)) (hsilent : ev ≠ .regossip) :
      Dispatched ord n ev n []
  | regossip : Dispatched ord n .regossip n n.engine.regossip
  | resumed {bs : List (Block C)} {n₁ : Node C} {engine : Engine C} {out : List (Effect C)}
      (hbatch : n.applyBatch
        (bs.insertionSort fun a b => a.header.height.toNat ≤ b.header.height.toNat) = .ok (n₁, true))
      (h : n₁.engine.handle ord .resume = .ok (engine, effects out)) :
      Dispatched ord n (.wire (.blocks bs)) { n₁ with engine } out
  | unapplied {bs : List (Block C)} {n₁ : Node C}
      (hbatch : n.applyBatch
        (bs.insertionSort fun a b => a.header.height.toNat ≤ b.header.height.toNat) =
          .ok (n₁, false)) :
      Dispatched ord n (.wire (.blocks bs)) n₁ []

/-- Every dispatch ends so. -/
theorem dispatch_cases {n n' : Node C} {ev : NodeEvent C} {out : List (Effect C)}
    {sent : List (Action C)} (h : n.dispatch ord ev = .ok (n', out, sent)) :
    Dispatched ord n ev n' out := by
  -- gossiped and submitted documents go to the engine alike
  have hattestation : ∀ {att : Attestation C} {x : Engine C × List (Effect C)},
      n.engine.addAttestation ord att = .ok x →
      n.engine.handle ord (.attestation att) = .ok (x.1, effects x.2) := by
    intro att x hadd
    simp only [Engine.handle, hadd]
    rfl
  have hgovernance : ∀ {change : SignedValidatorChange C} {x : Bool × Engine C × List (Effect C)},
      n.engine.addGovernance ord change = .ok x →
      n.engine.handle ord (.governance change) = .ok (x.2.1, effects x.2.2) := by
    intro change x hadd
    simp only [Engine.handle, hadd]
    rfl
  cases ev with
  | wire msg =>
      cases msg with
      | consensus msg =>
          simp only [dispatch, Exec.bind_eq_ok] at h
          rcases h with ⟨⟨engine, o⟩, hmsg, h⟩
          rcases Exec.ok_triple h with ⟨rfl, rfl, rfl⟩
          refine Dispatched.fed (Feeds.message msg) (by simp) ?_
          simp only [Engine.handle, hmsg]
          rfl
      | attestation att =>
          simp only [dispatch, Exec.bind_eq_ok] at h
          rcases h with ⟨x, hadd, h⟩
          rcases Exec.ok_triple h with ⟨rfl, rfl, rfl⟩
          exact Dispatched.fed (Feeds.attestation att) (by simp) (hattestation hadd)
      | governance change =>
          simp only [dispatch, Exec.bind_eq_ok] at h
          rcases h with ⟨x, hadd, h⟩
          rcases Exec.ok_triple h with ⟨rfl, rfl, rfl⟩
          exact Dispatched.fed (Feeds.governance change) (by simp) (hgovernance hadd)
      | getBlocks start =>
          simp only [dispatch, Exec.bind_eq_ok] at h
          rcases h with ⟨batch, _, h⟩
          rcases Exec.ok_triple h with ⟨rfl, rfl, rfl⟩
          exact Dispatched.idle (by simp) (by simp)
      | blocks bs =>
          simp only [dispatch, Exec.bind_eq_ok] at h
          rcases h with ⟨⟨n₁, applied⟩, hbatch, h⟩
          cases applied with
          | false =>
              rcases Exec.ok_triple h with ⟨rfl, rfl, rfl⟩
              exact Dispatched.unapplied hbatch
          | true =>
              dsimp only at h
              rw [if_pos rfl, Exec.bind_eq_ok] at h
              rcases h with ⟨⟨engine, o⟩, hresume, h⟩
              rcases Exec.ok_triple h with ⟨rfl, rfl, rfl⟩
              refine Dispatched.resumed hbatch ?_
              simp only [Engine.handle, hresume]
              rfl
  | timeout height round kind =>
      simp only [dispatch, Exec.bind_eq_ok] at h
      rcases h with ⟨⟨engine, o⟩, htimeout, h⟩
      rcases Exec.ok_triple h with ⟨rfl, rfl, rfl⟩
      refine Dispatched.fed (Feeds.timeout height round kind) (by simp) ?_
      simp only [Engine.handle, htimeout]
      rfl
  | submit att =>
      simp only [dispatch, Exec.bind_eq_ok] at h
      rcases h with ⟨x, hadd, h⟩
      rcases Exec.ok_triple h with ⟨rfl, rfl, rfl⟩
      exact Dispatched.fed (Feeds.submit att) (by simp) (hattestation hadd)
  | submitGovernance change =>
      simp only [dispatch, Exec.bind_eq_ok] at h
      rcases h with ⟨x, hadd, h⟩
      rcases Exec.ok_triple h with ⟨rfl, rfl, rfl⟩
      exact Dispatched.fed (Feeds.submitGovernance change) (by simp) (hgovernance hadd)
  | addPeer addr =>
      rcases Exec.ok_triple h with ⟨rfl, rfl, rfl⟩
      exact Dispatched.idle (by simp) (by simp)
  | regossip =>
      rcases Exec.ok_triple h with ⟨rfl, rfl, rfl⟩
      exact Dispatched.regossip
  | syncPoll =>
      rcases Exec.ok_triple h with ⟨rfl, rfl, rfl⟩
      exact Dispatched.idle (by simp) (by simp)

/-- But for a batch of blocks, an event is neither a start nor a resume. -/
theorem Feeds.driven {ev : NodeEvent C} {ev' : Event C} (h : Feeds ev ev')
    (hother : ∀ bs, ev ≠ .wire (.blocks bs)) (e : Engine C) : driven e ev' := by
  cases h with
  | synced => exact absurd rfl (hother _)
  | resume => exact absurd rfl (hother _)
  | _ => exact driven_of_ne (by simp) (by simp)

/-- One pass of the loop is a driven run of the engine, and its events come
from the node's. -/
theorem handle_followsBy {n n' : Node C} {now : UInt64} {ev : NodeEvent C}
    {acts : List (Action C)} (h : n.handle ord now ev = .ok (n', acts)) :
    FollowsBy (FedBy [ev]) n n' := by
  have hfed : ∀ {e : Engine C} {ev' : Event C}, Feeds ev ev' → driven e ev' → FedBy [ev] e ev' :=
    fun hfeeds hdriven => ⟨hdriven, Or.inr (Or.inr ⟨ev, List.mem_cons_self, hfeeds⟩)⟩
  unfold handle at h
  rw [Exec.bind_eq_ok] at h
  rcases h with ⟨⟨n₁, out, sent⟩, hdispatch, hfinish⟩
  dsimp only at hfinish
  -- the clock is set before anything else
  apply (setTime_follows ord n now
    ⟨driven_of_ne (by simp) (by simp), Or.inr (Or.inl ⟨now, rfl⟩)⟩).trans
  generalize ({ n with engine := n.engine.setTime now } : Node C) = n₀ at hdispatch ⊢
  have hbatched : ∀ {bs : List (Block C)} {n₂ : Node C} {applied : Bool},
      ev = .wire (.blocks bs) →
      n₀.applyBatch (bs.insertionSort fun a b => a.header.height.toNat ≤ b.header.height.toNat) =
        .ok (n₂, applied) → FollowsBy (FedBy [ev]) n₀ n₂ := by
    intro bs n₂ applied hev hbatch
    refine applyBatch_follows ord ?_ hbatch
    intro b hb e
    rw [List.mem_insertionSort] at hb
    exact hfed (hev ▸ Feeds.synced hb) (driven_of_ne (by simp) (by simp))
  cases dispatch_cases hdispatch with
  | fed hfeeds hother hhandle =>
      exact FollowsBy.of_effects hhandle (hfed hfeeds (hfeeds.driven hother _)) hfinish
  | idle => exact FollowsBy.of_idle rfl hfinish
  | regossip => exact FollowsBy.of_idle (finalized_regossip _) hfinish
  | resumed hbatch hhandle =>
      have hcleared := applyBatch_cleared hbatch (Or.inl rfl)
      exact (hbatched rfl hbatch).trans
        (FollowsBy.of_effects hhandle (hfed (Feeds.resume _) fun _ => hcleared) hfinish)
  | unapplied hbatch => exact (hbatched rfl hbatch).trans (FollowsBy.of_idle rfl hfinish)

theorem handle_follows {n n' : Node C} {now : UInt64} {ev : NodeEvent C}
    {acts : List (Action C)} (h : n.handle ord now ev = .ok (n', acts)) : Follows n n' :=
  (handle_followsBy h).imp fun _ _ hfed => hfed.1

theorem begin_followsBy {n n' : Node C} {now : UInt64} {acts : List (Action C)}
    (hnew : n.engine.round = 0 ∧ n.engine.step = .propose)
    (h : n.begin ord now = .ok (n', acts)) : FollowsBy (FedBy []) n n' := by
  unfold begin at h
  rw [Exec.bind_eq_ok] at h
  rcases h with ⟨⟨engine, out⟩, hstart, hfinish⟩
  apply (setTime_follows ord n now
    ⟨driven_of_ne nofun nofun, Or.inr (Or.inl ⟨now, rfl⟩)⟩).trans
  have hhandle : (n.engine.setTime now).handle ord .start = .ok (engine, effects out) := by
    simp only [Engine.handle, hstart]
    rfl
  have hfollows : FollowsBy (FedBy []) { n with engine := n.engine.setTime now } n' :=
    FollowsBy.of_effects hhandle ⟨fun _ => hnew, Or.inl rfl⟩ hfinish
  exact hfollows

theorem begin_follows {n n' : Node C} {now : UInt64} {acts : List (Action C)}
    (hnew : n.engine.round = 0 ∧ n.engine.step = .propose)
    (h : n.begin ord now = .ok (n', acts)) : Follows n n' :=
  (begin_followsBy hnew h).imp fun _ _ hfed => hfed.1

end Node

/-- The states of the loop after its start and after every handled event. -/
inductive NodeRun (n₀ : Node C) : Node C → Prop where
  | start {n : Node C} {acts : List (Action C)} {ord : IterOrder} {now : UInt64}
      (h : n₀.begin ord now = .ok (n, acts)) : NodeRun n₀ n
  | step {n n' : Node C} {ev : NodeEvent C} {acts : List (Action C)} {ord : IterOrder}
      {now : UInt64} (h : NodeRun n₀ n) (hstep : n.handle ord now ev = .ok (n', acts)) :
      NodeRun n₀ n'

namespace NodeRun

variable {n₀ n : Node C}

/-- A run of the loop is a driven run of its engine. -/
theorem follows (hnew : n₀.engine.round = 0 ∧ n₀.engine.step = .propose) (h : NodeRun n₀ n) :
    Node.Follows n₀ n := by
  induction h with
  | start h => exact Node.begin_follows hnew h
  | step _ hstep ih => exact Node.FollowsBy.trans ih (Node.handle_follows hstep)

/-- From an empty store, the store is what the engine finalized. -/
theorem engine_run {genesis : List C.VerifyingKey} {meSk : C.SigningKey} {mePk : C.VerifyingKey}
    {baseTimeout : Nat} (hnew : Node.new genesis meSk mePk [] baseTimeout = .ok n₀)
    (h : NodeRun n₀ n) :
    ∃ evs log, Run driven n₀.engine evs log n.engine ∧ n.store = finalized log := by
  unfold Node.new at hnew
  rw [Exec.bind_eq_ok] at hnew
  rcases hnew with ⟨e₀, hbuild, hnew⟩
  obtain rfl := Except.ok.inj hnew
  rcases Exec.bind_eq_ok.mp hbuild with ⟨height, _, hbuild⟩
  rcases Engine.withRegistry_eq_ok hbuild with ⟨set, _, rfl⟩
  rcases h.follows ⟨rfl, rfl⟩ with ⟨evs, log, hrun, hstore⟩
  rw [List.nil_append] at hstore
  exact ⟨evs, log, hrun, hstore⟩

end NodeRun

/-- The same with the inputs and with what the loop asked of the network and
of the timers. -/
inductive Session (n₀ : Node C) : List (NodeEvent C) → List (Action C) → Node C → Prop where
  | start {n : Node C} {acts : List (Action C)} {ord : IterOrder} {now : UInt64}
      (h : n₀.begin ord now = .ok (n, acts)) : Session n₀ [] acts n
  | step {n n' : Node C} {ins : List (NodeEvent C)} {ev : NodeEvent C}
      {acts acts' : List (Action C)} {ord : IterOrder} {now : UInt64}
      (h : Session n₀ ins acts n) (hstep : n.handle ord now ev = .ok (n', acts')) :
      Session n₀ (ins ++ [ev]) (acts ++ acts') n'

namespace Session

variable {n₀ n : Node C} {ins : List (NodeEvent C)} {acts : List (Action C)}

theorem nodeRun (h : Session n₀ ins acts n) : NodeRun n₀ n := by
  induction h with
  | start h => exact NodeRun.start h
  | step _ hstep ih => exact NodeRun.step ih hstep

/-- The engine's events come from the inputs of the node. -/
theorem follows (hnew : n₀.engine.round = 0 ∧ n₀.engine.step = .propose)
    (h : Session n₀ ins acts n) : Node.FollowsBy (Node.FedBy ins) n₀ n := by
  induction h with
  | start h => exact Node.begin_followsBy hnew h
  | step _ hstep ih =>
      exact (ih.imp fun _ _ => Node.FedBy.mono fun x hx => List.mem_append_left _ hx).trans
        ((Node.handle_followsBy hstep).imp fun _ _ =>
          Node.FedBy.mono fun x hx => List.mem_append_right _ hx)

end Session

end SmartLedger
