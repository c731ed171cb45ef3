import SmartLedger.Consensus.Binding
import SmartLedger.Consensus.Certified
import SmartLedger.Consensus.Network

/-! # Honest engines over many heights

The network of one height says nothing about clocks, nor about what an engine
brings along from the heights before. Here the honest engines start from one
genesis and run on for as long as they like (`WorldStep`): a step is a whole
call of a handler of one of them, at the time its driver has just set. Each
peer keeps what it was handed and what it did, with the clock it did it at
(`Peer.trail`).

The adversary delivers what it likes and holds all the other keys, but it
cannot forge (`Genuine`). The validator sets come out of the run itself, so
how many of their members are honest is asked of the sets in force in the
world a run ends in (`InForce`); it then held all along (`InForce.antitone`).
-/

namespace SmartLedger

open Engine

variable {C : Crypto}

/-! ## Peers and worlds -/

/-- An engine with the events it handled and what it did, each output with
the clock of the call that made it. -/
structure Peer (C : Crypto) where
  engine : Engine C
  evs : List (Event C)
  trail : List (UInt64 × Output C)

namespace Peer

/-- What the peer did, without the clocks. -/
def log (p : Peer C) : List (Output C) := p.trail.map Prod.snd

/-- The peer after a call at time `t`. -/
def handled (p : Peer C) (t : UInt64) (ev : Event C) (out : List (Output C)) (e : Engine C) :
    Peer C where
  engine := e
  evs := p.evs ++ [.setTime t, ev]
  trail := p.trail ++ out.map fun o => (t, o)

@[simp] theorem handled_log (p : Peer C) (t : UInt64) (ev : Event C) (out : List (Output C))
    (e : Engine C) : (p.handled t ev out e).log = p.log ++ out := by
  simp [log, handled, Function.comp_def]

end Peer

/-- The peers by their keys; only the honest ones count. -/
abbrev World (C : Crypto) := C.VerifyingKey → Peer C

section

variable (honest : Finset C.VerifyingKey)

/-- What can be handed to an engine: nothing that verifies under an honest
key but what its owner signed, neither as a message nor as a share of a
certificate. -/
def Genuine (w : World C) : Event C → Prop
  | .message msg => msg.signer ∈ honest → msg.verifySig = true →
      msg.payload ∈ signedPayloads (w msg.signer).log
  | .synced b => ∀ vs ∈ b.qc.signatures, vs.validator ∈ honest →
      C.verify vs.validator b.qc.blockId.asBytes vs.signature Context.block = true →
      (b.qc.blockId.asBytes, Context.block) ∈ signedPayloads (w vs.validator).log
  | _ => True

instance (w : World C) : (ev : Event C) → Decidable (Genuine honest w ev)
  | .message msg => inferInstanceAs (Decidable (msg.signer ∈ honest → msg.verifySig = true →
      msg.payload ∈ signedPayloads (w msg.signer).log))
  | .synced b => inferInstanceAs (Decidable (∀ vs ∈ b.qc.signatures, vs.validator ∈ honest →
      C.verify vs.validator b.qc.blockId.asBytes vs.signature Context.block = true →
      (b.qc.blockId.asBytes, Context.block) ∈ signedPayloads (w vs.validator).log))
  | .start | .timeout _ _ _ | .attestation _ | .governance _ | .resume | .setTime _ =>
      inferInstanceAs (Decidable True)

/-- Every honest peer runs a new engine of its own on the same genesis. -/
def Launched (genesis : List C.VerifyingKey) (w : World C) : Prop :=
  ∀ k ∈ honest, (w k).evs = [] ∧ (w k).trail = [] ∧
    ∃ sk, withRegistry (ValidatorRegistry.new genesis) sk k Hash.zero 1 = .ok (w k).engine

/-- A step of the world: an honest peer's driver sets the time and hands it an
event; `guard` restricts what it may hand over, and when. -/
inductive WorldStep (guard : World C → C.VerifyingKey → UInt64 → Event C → Prop) (w : World C) :
    World C → Prop where
  | handle {k : C.VerifyingKey} {t : UInt64} {ev : Event C} {ord : IterOrder} {e' : Engine C}
      {out : List (Output C)} (hk : k ∈ honest) (hdriven : driven (w k).engine ev)
      (hgenuine : Genuine honest w ev) (hguard : guard w k t ev)
      (h : ((w k).engine.setTime t).handle ord ev = .ok (e', out)) :
      WorldStep guard w (Function.update w k ((w k).handled t ev out e'))

/-- The runs of the world. -/
def WorldRun (guard : World C → C.VerifyingKey → UInt64 → Event C → Prop) :
    World C → World C → Prop :=
  Relation.ReflTransGen (WorldStep honest guard)

/-- Every set in force up to the height of an honest peer satisfies `Q`. -/
def InForce (Q : ValidatorSet C → Prop) (w : World C) : Prop :=
  ∀ k ∈ honest, ∀ h ≤ (w k).engine.height, ∀ set,
    (w k).engine.registry.activeSet h = .ok set → Q set

/-- All validators are honest. -/
def AllHonest (w : World C) : Prop := InForce honest (fun set => set.members ⊆ honest) w

/-- At most `f` members of each set are not. -/
def FewByzantine (w : World C) : Prop :=
  InForce honest (fun set => (set.members \ honest).card ≤ set.f) w

end

/-- No restriction. -/
def anyStep : World C → C.VerifyingKey → UInt64 → Event C → Prop := fun _ _ _ _ => True

/-! ## What a step is to one of the peers -/

variable {honest : Finset C.VerifyingKey}
  {guard : World C → C.VerifyingKey → UInt64 → Event C → Prop} {genesis : List C.VerifyingKey}
  {w w' w₀ : World C}

/-- A step of the world is nothing to a peer, or a call of its handler. -/
theorem WorldStep.peer_cases (h : WorldStep honest guard w w') (j : C.VerifyingKey) :
    w' j = w j ∨
    ∃ t ev ord e' out, j ∈ honest ∧ driven (w j).engine ev ∧ Genuine honest w ev ∧
      guard w j t ev ∧ ((w j).engine.setTime t).handle ord ev = .ok (e', out) ∧
      w' j = (w j).handled t ev out e' := by
  cases h with
  | @handle k t ev ord e' out hk hdriven hgenuine hguard hhandle =>
      by_cases hjk : j = k
      · subst hjk
        exact Or.inr ⟨t, ev, ord, e', out, hk, hdriven, hgenuine, hguard, hhandle,
          Function.update_self ..⟩
      · exact Or.inl (Function.update_of_ne hjk ..)

/-- `p'` is `p` some driven calls later. -/
structure Peer.Later (p p' : Peer C) : Prop where
  run : ∃ evs out, Run driven p.engine evs out p'.engine ∧ p'.evs = p.evs ++ evs ∧
    p'.log = p.log ++ out
  trail : p.trail <+: p'.trail

namespace Peer.Later

variable {p p' p'' : Peer C}

theorem refl (p : Peer C) : p.Later p :=
  ⟨⟨[], [], Run.init, by simp, by simp⟩, List.prefix_refl _⟩

theorem trans (h₁ : p.Later p') (h₂ : p'.Later p'') : p.Later p'' := by
  rcases h₁.run with ⟨evs₁, out₁, hrun₁, hevs₁, hlog₁⟩
  rcases h₂.run with ⟨evs₂, out₂, hrun₂, hevs₂, hlog₂⟩
  refine ⟨⟨evs₁ ++ evs₂, out₁ ++ out₂, hrun₁.trans hrun₂, ?_, ?_⟩, h₁.trail.trans h₂.trail⟩
  · rw [hevs₂, hevs₁, List.append_assoc]
  · rw [hlog₂, hlog₁, List.append_assoc]

theorem handled {t : UInt64} {ev : Event C} {ord : IterOrder} {e' : Engine C}
    {out : List (Output C)} (hdriven : driven p.engine ev)
    (h : (p.engine.setTime t).handle ord ev = .ok (e', out)) :
    p.Later (p.handled t ev out e') := by
  have htime : p.engine.handle ord (.setTime t) = .ok (p.engine.setTime t, []) := rfl
  have hset : Run driven p.engine ([] ++ [.setTime t]) ([] ++ []) (p.engine.setTime t) :=
    Run.step Run.init (driven_of_ne (by simp) (by simp)) htime
  have hboth := Run.step hset (show driven (p.engine.setTime t) ev from hdriven) h
  refine ⟨⟨_, _, hboth, rfl, ?_⟩, List.prefix_append _ _⟩
  rw [Peer.handled_log]
  simp

variable (h : p.Later p')
include h

theorem log_eq : p.log <+: p'.log := by
  rcases h.run with ⟨evs, out, _, _, hlog⟩
  rw [hlog]
  exact List.prefix_append _ _

theorem evs_subset : p.evs ⊆ p'.evs := by
  rcases h.run with ⟨evs, out, _, hevs, _⟩
  rw [hevs]
  exact List.subset_append_left _ _

theorem finalized_le : finalized p.log <+: finalized p'.log := by
  rcases h.run with ⟨evs, out, _, _, hlog⟩
  rw [hlog, finalized_append]
  exact List.prefix_append _ _

theorem height_le : p.engine.height ≤ p'.engine.height := by
  rcases h.run with ⟨evs, out, hrun, _, _⟩
  exact hrun.trace.activeSet_eq.1

/-- The set of a height that was reached is settled. -/
theorem activeSet_eq {x : UInt64} (hle : x ≤ p.engine.height) :
    p'.engine.registry.activeSet x = p.engine.registry.activeSet x := by
  rcases h.run with ⟨evs, out, hrun, _, _⟩
  exact hrun.trace.activeSet_eq.2 x hle

end Peer.Later

/-- Nobody goes back in a step. -/
theorem WorldStep.later (h : WorldStep honest guard w w') (j : C.VerifyingKey) :
    (w j).Later (w' j) := by
  rcases h.peer_cases j with hsame | ⟨t, ev, ord, e', out, _, hdriven, _, _, hhandle, hnext⟩
  · rw [hsame]
    exact Peer.Later.refl _
  · rw [hnext]
    exact Peer.Later.handled hdriven hhandle

/-- Nor in a run. -/
theorem WorldRun.later (h : WorldRun honest guard w w') (j : C.VerifyingKey) :
    (w j).Later (w' j) := by
  induction h with
  | refl => exact Peer.Later.refl _
  | tail _ hstep ih => exact ih.trans (hstep.later j)

theorem WorldRun.imp {guard' : World C → C.VerifyingKey → UInt64 → Event C → Prop}
    (h : WorldRun honest guard w w') (himp : ∀ w k t ev, guard w k t ev → guard' w k t ev) :
    WorldRun honest guard' w w' := by
  induction h with
  | refl => exact Relation.ReflTransGen.refl
  | tail _ hstep ih =>
      rcases hstep with ⟨hk, hdriven, hgenuine, hguard, hhandle⟩
      exact ih.tail (WorldStep.handle hk hdriven hgenuine (himp _ _ _ _ hguard) hhandle)

/-- What the sets in force at the end of a run satisfy, they satisfied all
along. -/
theorem InForce.antitone {Q : ValidatorSet C → Prop} (h : InForce honest Q w')
    (hlater : ∀ j, (w j).Later (w' j)) : InForce honest Q w := by
  intro k hk x hle set hset
  apply h k hk x (UInt64.le_trans hle (hlater k).height_le) set
  rw [(hlater k).activeSet_eq hle]
  exact hset

/-- So does what was genuine stay genuine. -/
theorem Genuine.mono {ev : Event C} (h : Genuine honest w ev)
    (hlater : ∀ j, (w j).Later (w' j)) : Genuine honest w' ev := by
  cases ev with
  | message msg =>
      intro hhonest hver
      exact signedPayloads_mono (hlater _).log_eq.subset (h hhonest hver)
  | synced b =>
      intro vs hvs hhonest hver
      exact signedPayloads_mono (hlater _).log_eq.subset (h vs hvs hhonest hver)
  | _ => trivial

/-! ## Reachable worlds -/

/-- The history of a peer is a driven run of a new engine with its key. -/
def Peer.Sound (genesis : List C.VerifyingKey) (k : C.VerifyingKey) (p : Peer C) : Prop :=
  ∃ e₀ sk, withRegistry (ValidatorRegistry.new genesis) sk k Hash.zero 1 = .ok e₀ ∧
    Run driven e₀ p.evs p.log p.engine

/-- In every reachable world: honest histories are sound, and what honest
peers were handed was genuine. -/
structure WorldInv (honest : Finset C.VerifyingKey) (genesis : List C.VerifyingKey)
    (w : World C) : Prop where
  sound : ∀ {k}, k ∈ honest → (w k).Sound genesis k
  genuine : ∀ {k ev}, k ∈ honest → ev ∈ (w k).evs → Genuine honest w ev

namespace WorldInv

theorem init (h₀ : Launched honest genesis w) : WorldInv honest genesis w := by
  constructor
  · intro k hk
    rcases h₀ k hk with ⟨hevs, htrail, sk, hnew⟩
    refine ⟨(w k).engine, sk, hnew, ?_⟩
    rw [hevs, Peer.log, htrail]
    exact Run.init
  · intro k ev hk hmem
    rw [(h₀ k hk).1] at hmem
    cases hmem

theorem step (h : WorldInv honest genesis w) (hstep : WorldStep honest guard w w') :
    WorldInv honest genesis w' := by
  constructor
  · intro k hk
    rcases h.sound hk with ⟨e₀, sk, hnew, hrun⟩
    rcases (hstep.later k).run with ⟨evs, out, hmore, hevs, hlog⟩
    refine ⟨e₀, sk, hnew, ?_⟩
    rw [hevs, hlog]
    exact hrun.trans hmore
  · intro k ev hk hmem
    have hold : ∀ {ev}, Genuine honest w ev → Genuine honest w' ev :=
      fun hgen => hgen.mono hstep.later
    rcases hstep.peer_cases k with hsame | ⟨t, ev', ord, e', out, _, _, hgen, _, _, hnext⟩
    · rw [hsame] at hmem
      exact hold (h.genuine hk hmem)
    · rw [hnext] at hmem
      rcases List.mem_append.mp hmem with hmem | hmem
      · exact hold (h.genuine hk hmem)
      · -- the two new events: the clock, and the one handed over
        rcases List.mem_cons.mp hmem with rfl | hmem
        · trivial
        · rw [List.mem_singleton.mp hmem]
          exact hold hgen

/-- Every honest peer is sound at every point of a run. -/
theorem run (h₀ : Launched honest genesis w₀) (hrun : WorldRun honest guard w₀ w) :
    WorldInv honest genesis w := by
  induction hrun with
  | refl => exact init h₀
  | tail _ hstep ih => exact ih.step hstep

end WorldInv

/-! ## In the middle of a call -/

/-- A state that a new engine of `k` passes through in a driven run, also in
the middle of a call. -/
def Traced (genesis : List C.VerifyingKey) (k : C.VerifyingKey) (evs : List (Event C))
    (log : List (Output C)) (e : Engine C) : Prop :=
  ∃ e₀ sk, withRegistry (ValidatorRegistry.new genesis) sk k Hash.zero 1 = .ok e₀ ∧
    Trace driven e₀ evs log e

namespace Traced

variable {k : C.VerifyingKey} {evs : List (Event C)} {log : List (Output C)} {e : Engine C}

theorem mePk (h : Traced genesis k evs log e) : e.mePk = k := by
  rcases h with ⟨e₀, sk, hnew, htrace⟩
  rcases withRegistry_eq_ok hnew with ⟨set, _, rfl⟩
  exact htrace.mePk_eq

/-- A traced engine stands at the end of the chain it finalized. -/
theorem onChain (h : Traced genesis k evs log e) :
    OnChain (genesisState genesis) (finalized log) e := by
  rcases h with ⟨e₀, sk, hnew, htrace⟩
  have hon := (OnChain.withRegistry hnew).trace htrace
  rwa [List.nil_append] at hon

theorem disciplined (h : Traced genesis k evs log e) : Disciplined evs log e := by
  rcases h with ⟨e₀, sk, hnew, htrace⟩
  exact Disciplined.trace (Fresh.of_withRegistry hnew) htrace

/-- It votes under its own key. -/
theorem voter_eq (h : Traced genesis k evs log e) {vm : VoteMsg C} (hcast : Cast log vm) :
    vm.voter = k := by
  rw [h.disciplined.votes.own hcast, h.mePk]

theorem member_of_proposer (h : Traced genesis k evs log e) {r : UInt64} {key : C.VerifyingKey}
    (hprop : e.proposer r = .ok key) : key ∈ e.currentSet.validators := by
  have hmem := proposer_mem hprop
  rwa [h.onChain.roster, mem_sortById] at hmem

end Traced

theorem Peer.Sound.traced {k : C.VerifyingKey} {p : Peer C} (h : p.Sound genesis k) :
    Traced genesis k p.evs p.log p.engine := by
  rcases h with ⟨e₀, sk, hnew, hrun⟩
  exact ⟨e₀, sk, hnew, hrun.trace⟩

/-- A property of the states inside a call of a sound peer: it holds after the
change of the inputs, and every internal step keeps it. -/
theorem Peer.Sound.call_induction {k : C.VerifyingKey} {p : Peer C} {t : UInt64} {ev : Event C}
    {ord : IterOrder} {e' : Engine C} {out : List (Output C)}
    {P : List (Output C) → Engine C → Prop} (hp : p.Sound genesis k)
    (hdriven : driven p.engine ev)
    (h : (p.engine.setTime t).handle ord ev = .ok (e', out))
    (henter : ∀ {o e₁}, Traced genesis k (p.evs ++ [.setTime t, ev]) (p.log ++ o) e₁ →
      Enter ev (p.engine.setTime t) o e₁ → o <+: out → P o e₁)
    (hinternal : ∀ {o e₁ o' e₂},
      Traced genesis k (p.evs ++ [.setTime t, ev]) (p.log ++ o) e₁ →
      Traced genesis k (p.evs ++ [.setTime t, ev]) (p.log ++ (o ++ effects o')) e₂ →
      P o e₁ → Internal ord e₁ o' e₂ → o ++ effects o' <+: out → P (o ++ effects o') e₂) :
    P out e' := by
  rcases hp with ⟨e₀, sk, hnew, hrun⟩
  -- the clock is set before the event is handed over
  have htime : Trace driven e₀ (p.evs ++ [.setTime t]) (p.log ++ []) (p.engine.setTime t) :=
    Trace.enter hrun.trace (driven_of_ne (by simp) (by simp)) Enter.setTime
  -- along the steps of the call the trace of the peer grows with it
  have hall : Traced genesis k (p.evs ++ [.setTime t, ev]) (p.log ++ out) e' ∧ P out e' := by
    apply handle_induction h (P := fun o e₁ =>
      Traced genesis k (p.evs ++ [.setTime t, ev]) (p.log ++ o) e₁ ∧ P o e₁)
    · intro o e₁ hent hle
      have htrace := Trace.enter htime (show driven (p.engine.setTime t) ev from hdriven) hent
      rw [List.append_nil, List.append_assoc] at htrace
      have htraced : Traced genesis k (p.evs ++ [.setTime t, ev]) (p.log ++ o) e₁ :=
        ⟨e₀, sk, hnew, htrace⟩
      exact ⟨htraced, henter htraced hent hle⟩
    · rintro o e₁ o' e₂ ⟨htraced, hP⟩ hi hle
      have hnext : Traced genesis k (p.evs ++ [.setTime t, ev]) (p.log ++ (o ++ effects o')) e₂ := by
        rcases htraced with ⟨e₀, sk, hnew, htrace⟩
        rw [← List.append_assoc]
        exact ⟨e₀, sk, hnew, Trace.internal htrace hi⟩
      exact ⟨hnext, hinternal htraced hnext hP hi hle⟩
  exact hall.2

/-! ## Honest members behind a quorum -/

/-- Too few Byzantine members for a quorum. -/
theorem ValidatorSet.f_lt_threshold {keys : List C.VerifyingKey} {set : ValidatorSet C}
    (h : ValidatorSet.bft keys = .ok set) : set.f < set.threshold := by
  have hbounds := ValidatorSet.bft_bounds h
  omega

/-- Among the votes of a quorum that an honest engine goes by is one of an
honest peer: its own, or one of a member that was delivered to it. -/
theorem Tally.exists_honest {voteType : VoteType} {k : C.VerifyingKey} {evs : List (Event C)}
    {log : List (Output C)} {set : ValidatorSet C} {keys : List C.VerifyingKey} {h r : UInt64}
    {v : Hash} (ht : Tally voteType (Known evs log set) set h r v)
    (hset : ValidatorSet.bft keys = .ok set) (hfew : (set.members \ honest).card ≤ set.f)
    (hk : k ∈ honest) (hown : ∀ {vm}, Cast log vm → vm.voter = k) :
    ∃ vm, Known evs log set vm ∧ vm.voter ∈ honest ∧ vm.height = h ∧ vm.voteType = voteType ∧
      vm.blockId = some v := by
  rcases ht with ⟨voters, hcard, hvoters⟩
  by_contra hnone
  -- otherwise the voters are Byzantine members, and there are too few of them
  have hsub : voters ⊆ (set.members \ honest).image fun k => k.id := by
    intro id hid
    rcases hvoters id hid with ⟨vm, hvid, hh, hr, htype, hb, hknown⟩
    have hbyz : vm.voter ∉ honest := by
      intro hin
      exact hnone ⟨vm, hknown, hin, hh, htype, hb⟩
    refine Finset.mem_image.mpr ⟨vm.voter, ?_, hvid⟩
    rcases hknown with ⟨_, hmem, _⟩ | hcast
    · exact Finset.mem_sdiff.mpr ⟨(ValidatorSet.mem_members _ _).mpr hmem, hbyz⟩
    · rw [hown hcast] at hbyz
      exact absurd hk hbyz
  have hle : voters.card ≤ set.f :=
    (Finset.card_le_card hsub).trans (Finset.card_image_le.trans hfew)
  have hlt := ValidatorSet.f_lt_threshold hset
  omega

/-- Behind a certificate that verifies is the share of an honest member, which
that member gave. -/
theorem QuorumCertificate.exists_honest {b : Block C} {set : ValidatorSet C}
    {keys : List C.VerifyingKey} (hverify : b.qc.verify b.header set = .ok ())
    (hset : ValidatorSet.bft keys = .ok set) (hfew : (set.members \ honest).card ≤ set.f)
    (hgenuine : Genuine honest w (.synced b)) :
    ∃ j ∈ honest, ∃ vm, Cast (w j).log vm ∧ vm.voteType = .precommit ∧
      vm.blockId = some (b.header.id C) := by
  have hid := ((QuorumCertificate.verify_eq_ok_iff _ _ _).mp hverify).1
  rcases QuorumCertificate.exists_signers_of_verify hverify with ⟨signers, hcard, hmem, hsigned⟩
  have hlt := ValidatorSet.f_lt_threshold hset
  have hbig : (set.members \ honest).card < signers.card := by omega
  rcases Finset.exists_mem_notMem_of_card_lt_card hbig with ⟨j, hj, hjbyz⟩
  have hjhonest : j ∈ honest := by
    by_contra hout
    exact hjbyz (Finset.mem_sdiff.mpr ⟨hmem hj, hout⟩)
  rcases hsigned j hj with ⟨vs, hvs, rfl, hver⟩
  rcases mem_signedPayloads (hgenuine vs hvs hjhonest hver) with ⟨msg, hmsg, hpayload⟩
  rcases payload_eq_block hpayload with ⟨vm, rfl, htype, hblock⟩
  rw [hid] at hblock
  exact ⟨vs.validator, hjhonest, vm, hmsg, htype, hblock⟩

/-! ## What was hashed -/

/-- The proposals an engine broadcast. -/
def sentProposals (log : List (Output C)) : List (ProposalMsg C) :=
  log.filterMap fun o => match o with
    | .effect (.broadcast (.proposal pm)) => some pm
    | _ => none

/-- The proposals it was handed. -/
def handedProposals (evs : List (Event C)) : List (ProposalMsg C) :=
  evs.filterMap fun ev => match ev with
    | .message (.proposal pm) => some pm
    | _ => none

/-- The values a peer computed the ids of: those of its blocks and of the
proposals it sent or was handed. -/
def Peer.values (p : Peer C) : List (Proposed C) :=
  (finalized p.log).map (·.value) ++
    (sentProposals p.log ++ handedProposals p.evs).map (·.value)

/-- The byte strings hashed for these ids. -/
def Peer.hashed (p : Peer C) : List (List UInt8) := p.values.flatMap (·.inputs)

/-- No two different byte strings that honest peers hashed have one digest. -/
def CollisionFree (honest : Finset C.VerifyingKey) (w : World C) : Prop :=
  Set.InjOn C.digest {x | ∃ k ∈ honest, x ∈ (w k).hashed}

namespace Peer

variable {p p' : Peer C}

theorem value_of_finalized {b : Block C} (h : b ∈ finalized p.log) : b.value ∈ p.values :=
  List.mem_append_left _ (List.mem_map_of_mem h)

theorem value_of_sent {pm : ProposalMsg C} (h : .effect (.broadcast (.proposal pm)) ∈ p.log) :
    pm.value ∈ p.values := by
  apply List.mem_append_right
  apply List.mem_map_of_mem
  exact List.mem_append_left _ (List.mem_filterMap.mpr ⟨_, h, rfl⟩)

theorem value_of_handed {pm : ProposalMsg C} (h : .message (.proposal pm) ∈ p.evs) :
    pm.value ∈ p.values := by
  apply List.mem_append_right
  apply List.mem_map_of_mem
  exact List.mem_append_right _ (List.mem_filterMap.mpr ⟨_, h, rfl⟩)

theorem Later.values_subset (h : p.Later p') : p.values ⊆ p'.values := by
  have hlog := h.log_eq.subset
  apply List.append_subset.mpr
  constructor
  · exact List.Subset.trans (List.map_subset _ h.finalized_le.subset)
      (List.subset_append_left _ _)
  · apply List.subset_append_of_subset_right
    apply List.map_subset
    apply List.append_subset.mpr
    constructor
    · exact List.subset_append_of_subset_left _ (List.filterMap_subset _ hlog)
    · exact List.subset_append_of_subset_right _ (List.filterMap_subset _ h.evs_subset)

end Peer

namespace CollisionFree

theorem antitone (h : CollisionFree honest w') (hlater : ∀ j, (w j).Later (w' j)) :
    CollisionFree honest w := by
  apply Set.InjOn.mono _ h
  rintro x ⟨k, hk, hx⟩
  rcases List.mem_flatMap.mp hx with ⟨v, hv, hx⟩
  exact ⟨k, hk, List.mem_flatMap.mpr ⟨v, (hlater k).values_subset hv, hx⟩⟩

theorem mem_inputs {k : C.VerifyingKey} {v : Proposed C} (hk : k ∈ honest)
    (hv : v ∈ (w k).values) : ∀ x ∈ v.inputs, x ∈ {x | ∃ k ∈ honest, x ∈ (w k).hashed} :=
  fun _ hx => ⟨k, hk, List.mem_flatMap.mpr ⟨v, hv, hx⟩⟩

/-- Values of honest peers with one id have one header. -/
theorem header_eq (h : CollisionFree honest w) {j k : C.VerifyingKey} {u v : Proposed C}
    (hj : j ∈ honest) (hk : k ∈ honest) (hu : u ∈ (w j).values) (hv : v ∈ (w k).values)
    (hid : u.id = v.id) : u.header = v.header := by
  apply BlockHeader.signingBytes_injective
  exact h (mem_inputs hj hu _ List.mem_cons_self) (mem_inputs hk hv _ List.mem_cons_self) hid

/-- First parts of the chains of honest peers with one length and one tip
have the same headers and entries. -/
theorem content_eq (h : CollisionFree honest w) (hinv : WorldInv honest genesis w)
    {j k : C.VerifyingKey} (hj : j ∈ honest) (hk : k ∈ honest) {as bs : List (Block C)}
    (has : as <+: finalized (w j).log) (hbs : bs <+: finalized (w k).log)
    (hlen : as.length = bs.length)
    (htip : ((genesisState genesis).pushAll as).tip = ((genesisState genesis).pushAll bs).tip) :
    as.map (·.content) = bs.map (·.content) := by
  have hchain : ∀ {i cs}, i ∈ honest → cs <+: finalized (w i).log →
      Chain (genesisState genesis) cs := by
    rintro i cs hi ⟨rest, hrest⟩
    have hon := (hinv.sound hi).traced.onChain.chain
    rw [← hrest] at hon
    exact (Chain.append_iff.mp hon).1
  have hin : ∀ {i cs}, i ∈ honest → cs <+: finalized (w i).log → ∀ b ∈ cs,
      ∀ x ∈ b.value.inputs, x ∈ {x | ∃ k ∈ honest, x ∈ (w k).hashed} :=
    fun hi hcs b hb => mem_inputs hi (Peer.value_of_finalized (hcs.subset hb))
  exact Chain.content_eq_of_tip_eq h (hchain hj has) (hchain hk hbs) (hin hj has) (hin hk hbs)
    hlen htip

end CollisionFree

/-! ## Schedules -/

/-- Hand events to peers one after the other, each at its time; nothing comes
of it when one of them is not allowed or panics. -/
def World.play (honest : Finset C.VerifyingKey)
    (guard : World C → C.VerifyingKey → UInt64 → Event C → Prop)
    [∀ w k t ev, Decidable (guard w k t ev)] (ord : IterOrder) :
    World C → List (C.VerifyingKey × UInt64 × Event C) → Option (World C)
  | w, [] => some w
  | w, (k, t, ev) :: rest =>
      if k ∈ honest ∧ driven (w k).engine ev ∧ Genuine honest w ev ∧ guard w k t ev then
        match ((w k).engine.setTime t).handle ord ev with
        | .ok (e, out) =>
            World.play honest guard ord (Function.update w k ((w k).handled t ev out e)) rest
        | .error _ => none
      else none

/-- What can be played is a run. -/
theorem WorldRun.of_play [∀ w k t ev, Decidable (guard w k t ev)] {ord : IterOrder}
    {schedule : List (C.VerifyingKey × UInt64 × Event C)}
    (h : World.play honest guard ord w schedule = some w') : WorldRun honest guard w w' := by
  induction schedule generalizing w with
  | nil =>
      obtain rfl := Option.some.inj h
      exact Relation.ReflTransGen.refl
  | cons entry rest ih =>
      rcases entry with ⟨k, t, ev⟩
      simp only [World.play] at h
      split at h
      · next hallowed =>
          rcases hallowed with ⟨hk, hdriven, hgenuine, hguard⟩
          split at h
          · next hhandle =>
              exact Relation.ReflTransGen.head
                (WorldStep.handle hk hdriven hgenuine hguard hhandle) (ih h)
          · cases h
      · cases h

instance (w : World C) (k : C.VerifyingKey) (t : UInt64) (ev : Event C) :
    Decidable (anyStep w k t ev) := inferInstanceAs (Decidable True)

/-- As long as no change is recorded, the genesis set is in force. -/
theorem InForce.of_genesis {Q : ValidatorSet C → Prop}
    (hchanges : ∀ k ∈ honest, (w k).engine.registry.genesis = genesis ∧
      (w k).engine.registry.changes = [])
    (hQ : ∀ set, ValidatorSet.bft genesis = .ok set → Q set) : InForce honest Q w := by
  intro k hk h _ set hset
  apply hQ
  rw [← hset, ValidatorRegistry.activeSet, ValidatorRegistry.activeKeys,
    ValidatorRegistry.activeChanges, (hchanges k hk).1, (hchanges k hk).2]
  rfl

/-- A search through everything that was hashed finds no collision. -/
theorem CollisionFree.of_find {keys : List C.VerifyingKey} (hkeys : ∀ k ∈ honest, k ∈ keys)
    (h : Collision.find C.digest (keys.flatMap fun k => (w k).hashed) = none) :
    CollisionFree honest w := by
  rcases Collision.injOn_or_exhibits C.digest (keys.flatMap fun k => (w k).hashed) with
    hinj | ⟨x, y, hfind, _⟩
  · apply Set.InjOn.mono _ hinj
    rintro x ⟨k, hk, hx⟩
    exact List.mem_flatMap.mpr ⟨k, hkeys k hk, hx⟩
  · rw [h] at hfind
    cases hfind

/-- A new engine of the sample chain for every key. -/
def sampleWorld (genesis : List UInt8)
    (h : ∀ k, (sampleEngine genesis k).holds (fun _ => true) = true) : World sample := fun k =>
  { engine := (sampleEngine genesis k).get (h k)
    evs := []
    trail := [] }

theorem sampleWorld_launched (honest : Finset sample.VerifyingKey) (genesis : List UInt8)
    (h : ∀ k, (sampleEngine genesis k).holds (fun _ => true) = true) :
    Launched honest genesis (sampleWorld genesis h) := by
  intro k _
  exact ⟨rfl, rfl, k, Exec.eq_ok_get (sampleEngine genesis k) (h k)⟩

/-- A new engine for each of the members 1 to 4. -/
def fourWorld : World sample := sampleWorld [1, 2, 3, 4] fun _ => rfl

/-- The value a sample proposer makes at any height. -/
def sampleValueAt (height : UInt64) (prevHash : Hash) (timestamp : UInt64)
    (attestations : List (Attestation sample)) : Proposed sample :=
  let value := sampleValue attestations
  { value with header := { value.header with height, prevHash, timestamp } }

/-- A round 0 that goes well: at time `t` the proposal reaches the peers, and
each hears of the others' prevotes, then of their precommits. -/
def goodRound (height t : UInt64) (proposer : UInt8) (value : Proposed sample)
    (peers : List UInt8) : List (sample.VerifyingKey × UInt64 × Event sample) :=
  (peers.filter (· ≠ proposer)).map (fun k => (k, t, .message (.proposal
    (ProposalMsg.create (C := sample) proposer proposer height 0 none value)))) ++
  [VoteType.prevote, .precommit].flatMap fun type => peers.flatMap fun k =>
    (peers.filter (· ≠ k)).map fun j => (k, t, .message (.vote
      (VoteMsg.create (C := sample) j j height 0 type (some value.id))))

end SmartLedger
