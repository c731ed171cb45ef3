import SmartLedger.Consensus.Pool
import SmartLedger.Node.Loop

/-! # What gossip does to a proposer

Peers hand a node attestations without any check, and a fresh proposal takes
whatever is in the pool. `fresh_proposals_acceptable_iff` says when the result
is a value that honest validators accept.
-/

namespace SmartLedger

open Engine

variable {C : Crypto} {ord : IterOrder} {e e' : Engine C}

/-- While the node starts, or handles the last of its inputs, its engine
sends a proposal of its own; `e` is where the step that sends it leads. -/
inductive NodeSends (n₀ : Node C) : List (NodeEvent C) → ProposalMsg C → Engine C → Prop where
  | start {evs : List (Event C)} {pm : ProposalMsg C} {e : Engine C}
      (hsends : Sends (Node.FedBy []) n₀.engine evs pm e) : NodeSends n₀ [] pm e
  | pass {ins : List (NodeEvent C)} {acts : List (Action C)} {n : Node C} {ev : NodeEvent C}
      {evs : List (Event C)} {pm : ProposalMsg C} {e : Engine C} (h : Session n₀ ins acts n)
      (hsends : Sends (Node.FedBy [ev]) n.engine evs pm e) : NodeSends n₀ (ins ++ [ev]) pm e

namespace NodeSends

variable {n₀ : Node C} {ins : List (NodeEvent C)} {pm : ProposalMsg C}

/-- It is a proposal of the engine's own run. -/
theorem sends (hnew : n₀.engine.round = 0 ∧ n₀.engine.step = .propose)
    (h : NodeSends n₀ ins pm e) : ∃ evs, Sends (Node.FedBy ins) n₀.engine evs pm e := by
  cases h with
  | start hsends => exact ⟨_, hsends⟩
  | @pass ins _ n ev evs _ _ hsession hsends =>
      rcases hsession.follows hnew with ⟨evs', log, hrun, _⟩
      have hrun' : Run (Node.FedBy (ins ++ [ev])) n₀.engine evs' log n.engine :=
        hrun.imp fun _ _ => Node.FedBy.mono fun x hx => List.mem_append_left _ hx
      have hsends' : Sends (Node.FedBy (ins ++ [ev])) n.engine evs pm e :=
        hsends.imp fun _ _ => Node.FedBy.mono fun x hx => List.mem_append_right _ hx
      exact ⟨_, hsends'.after hrun'⟩

end NodeSends

/-- The attestation a node event carries. -/
def NodeEvent.carries : NodeEvent C → List (Attestation C)
  | .wire (.attestation att) => [att]
  | .submit att => [att]
  | _ => []

theorem Node.Feeds.handed {x : NodeEvent C} {ev : Event C} (h : Node.Feeds x ev) :
    ev.handed = x.carries := by
  cases h <;> rfl

/-- A fresh proposal of a node passes validation at every engine at the same
point of the chain exactly when the entries at the front of its pool verify;
and so it does in every run in which all the attestations that reach the node
verify. -/
theorem fresh_proposals_acceptable_iff {genesis : List C.VerifyingKey} {meSk : C.SigningKey}
    {mePk : C.VerifyingKey} {store : List (Block C)} {baseTimeout : Nat} {n₀ : Node C}
    (hnew : Node.new genesis meSk mePk store baseTimeout = .ok n₀) :
    ∀ ins pm e, NodeSends n₀ ins pm e → e.validValue = none →
      ((∀ f, e.SamePlace f → pm.value.isValid f.tip f.height f.currentSet = true) ↔
        ∀ a ∈ e.mempool.take maxTxs, a.verify = true) ∧
      ((∀ x ∈ ins, ∀ a ∈ x.carries, a.verify = true) →
        ∀ f, e.SamePlace f → pm.value.isValid f.tip f.height f.currentSet = true) := by
  intro ins pm e hnode hfresh
  unfold Node.new at hnew
  rw [Exec.bind_eq_ok] at hnew
  rcases hnew with ⟨e₀, hbuild, hnew⟩
  obtain rfl := Except.ok.inj hnew
  rcases Exec.bind_eq_ok.mp hbuild with ⟨height, _, hbuild⟩
  have hon := OnChain.withRegistry hbuild
  rcases Engine.withRegistry_eq_ok hbuild with ⟨set, _, rfl⟩
  rcases hnode.sends ⟨rfl, rfl⟩ with ⟨evs, hsends⟩
  rcases hsends.trace with ⟨log, htrace⟩
  have hset := (hon.trace htrace).set
  rcases hsends.proposes.fresh hfresh with ⟨hvalue, hne⟩
  rw [hvalue]
  have hiff := getValue_isValid_iff hset hne
  refine ⟨hiff, ?_⟩
  intro hcarried
  apply hiff.mpr
  -- the pool holds only what was handed over
  have hpool : ∀ a ∈ e.mempool, a.verify = true := by
    refine htrace.mempool_of_handed rfl ?_
    intro ev hev a ha
    rcases htrace.guard_of_mem hev with ⟨e₁, hfed⟩
    -- starting and the clock hand nothing over
    rcases hfed.2 with rfl | ⟨now, rfl⟩ | ⟨x, hx, hfeeds⟩
    · cases ha
    · cases ha
    · rw [hfeeds.handed] at ha
      exact hcarried x hx a ha
  intro a ha
  exact hpool a (List.mem_of_mem_take ha)

/-- A node is started, and a peer hands it an attestation: the node, and what
its engine does on waking up. -/
def wakeUpWith (genesis : List C.VerifyingKey) (meSk : C.SigningKey) (mePk : C.VerifyingKey)
    (att : Attestation C) : Exec (Node C × Node C × Engine C × List (Effect C)) := do
  let n₀ ← Node.new genesis meSk mePk [] 1000
  let (n, _) ← n₀.begin sampleOrder 0
  let e := { n.engine.setTime 0 with mempool := n.engine.mempool ++ [att] }
  let (e', out) ← enterPropose { e with parked := false } e.round
  return (n₀, n, e', out)

theorem NodeSends.of_wakeUpWith {genesis : List C.VerifyingKey} {meSk : C.SigningKey}
    {mePk : C.VerifyingKey} {att : Attestation C} {n₀ n : Node C} {e' : Engine C}
    {out : List (Effect C)} (h : wakeUpWith genesis meSk mePk att = .ok (n₀, n, e', out))
    (hparked : n.engine.parked = true) {pm : ProposalMsg C}
    (hpm : .broadcast (.proposal pm) ∈ out) :
    Node.new genesis meSk mePk [] 1000 = .ok n₀ ∧
      NodeSends n₀ [.wire (.attestation att)] pm e' := by
  unfold wakeUpWith at h
  simp only [Exec.bind_eq_ok] at h
  rcases h with ⟨m₀, hnew, ⟨m, acts⟩, hbegin, ⟨e₁, out₁⟩, henter, hres⟩
  have heq := Except.ok.inj hres
  simp only [Prod.mk.injEq] at heq
  rcases heq with ⟨rfl, rfl, rfl, rfl⟩
  -- the clock is set, the attestation is queued, and the engine wakes up
  have hclock : Node.FedBy [.wire (.attestation att)] m.engine (.setTime 0) :=
    ⟨driven_of_ne nofun nofun, Or.inr (Or.inl ⟨0, rfl⟩)⟩
  have hfed : Node.FedBy [.wire (.attestation att)] (m.engine.setTime 0) (.attestation att) :=
    ⟨driven_of_ne nofun nofun, Or.inr (Or.inr ⟨_, List.mem_cons_self, Node.Feeds.attestation att⟩)⟩
  have hqueued := Trace.enter (Trace.enter Trace.init hclock Enter.setTime) hfed Enter.attestation
  have hsends := Sends.internal hqueued (@Internal.wake _ sampleOrder _ _ _ hparked henter) hpm
  exact ⟨hnew, NodeSends.pass (Session.start hbegin) hsends⟩

/-- Does the wake-up send a fresh proposal whose validity is `ok`? -/
def wakesWith (ok : Bool) (r : Node C × Node C × Engine C × List (Effect C)) : Bool :=
  r.2.1.engine.parked && r.2.2.1.validValue.isNone &&
    match r.2.2.2 with
    | [.broadcast (.proposal pm)] =>
        pm.value.isValid r.2.2.1.tip r.2.2.1.height r.2.2.1.currentSet == ok
    | _ => false

theorem exists_nodeSends {genesis : List C.VerifyingKey} {meSk : C.SigningKey}
    {mePk : C.VerifyingKey} {att : Attestation C} {ok : Bool}
    {p : Engine C → Bool}
    (h : (wakeUpWith genesis meSk mePk att).holds (fun r => wakesWith ok r && p r.2.2.1) = true) :
    ∃ n₀ pm e', Node.new genesis meSk mePk [] 1000 = .ok n₀ ∧
      NodeSends n₀ [.wire (.attestation att)] pm e' ∧ e'.validValue = none ∧
      pm.value.isValid e'.tip e'.height e'.currentSet = ok ∧ p e' = true := by
  rcases Exec.holds_iff.mp h with ⟨⟨n₀, n, e', out⟩, hwake, hcond⟩
  unfold wakesWith at hcond
  rw [Bool.and_eq_true, Bool.and_eq_true, Bool.and_eq_true] at hcond
  rcases hcond with ⟨⟨⟨hparked, hfresh⟩, hout⟩, hp⟩
  dsimp only at hparked hfresh hout hp
  split at hout
  · next pm =>
      rcases NodeSends.of_wakeUpWith hwake hparked List.mem_cons_self with ⟨hnew, hsends⟩
      exact ⟨n₀, pm, e', hnew, hsends, Option.isNone_iff_eq_none.mp hfresh, by simpa using hout,
        hp⟩
  · cases hout

/-- A well-signed attestation makes an acceptable proposal. -/
theorem fresh_proposals_acceptable_lone :
    ∃ n₀ pm e, NodeSends n₀ [.wire (.attestation (sampleAttestation 1 7))] pm e ∧
      ∀ f, e.SamePlace f → pm.value.isValid f.tip f.height f.currentSet = true := by
  have hwakes : (wakeUpWith (C := sample) [1] (1 : UInt8) 1 (sampleAttestation 1 7)).holds
      (fun r => wakesWith true r && true) = true := by decide +kernel
  rcases exists_nodeSends (p := fun _ => true) hwakes with ⟨n₀, pm, e, hnew, hsends, hfresh, _⟩
  refine ⟨n₀, pm, e, hsends, (fresh_proposals_acceptable_iff hnew _ _ _ hsends hfresh).2 ?_⟩
  intro x hx a ha
  rw [List.mem_singleton.mp hx] at ha
  rw [List.mem_singleton.mp ha]
  decide +kernel

/-- A gossiped attestation with a wrong signature goes straight into the next
proposal, and the proposer itself would not accept it. -/
theorem gossip_poisons_proposal :
    ∃ n₀ pm e, Node.new (C := sample) [1] (1 : UInt8) 1 [] 1000 = .ok n₀ ∧
      NodeSends n₀ [.wire (.attestation { sampleAttestation 1 7 with signature := Hash.zero })]
        pm e ∧ e.validValue = none ∧
      pm.value.isValid e.tip e.height e.currentSet = false := by
  have hwakes : (wakeUpWith (C := sample) [1] (1 : UInt8) 1
      { sampleAttestation 1 7 with signature := Hash.zero }).holds
      (fun r => wakesWith false r && true) = true := by decide +kernel
  rcases exists_nodeSends (p := fun _ => true) hwakes with
    ⟨n₀, pm, e, hnew, hsends, hfresh, hinvalid, _⟩
  exact ⟨n₀, pm, e, hnew, hsends, hfresh, hinvalid⟩

end SmartLedger
