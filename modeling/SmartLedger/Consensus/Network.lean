import SmartLedger.Lib.LockedVoting
import SmartLedger.Consensus.Locking

/-! # The honest engines of one height, and the network between them

A height is fixed, with the set in force there and at most `f` Byzantine
members (`Setting`). Every other member runs an engine that entered the
height with the same registry and tip (`Setting.Initial`). A step of the
network is a step of one of these engines (`NetStep`): an event, or one rule
that fires. Every call of a handler is a sequence of such steps
(`NetRun.handle`), so the runs here pass through every state the engines
pass through, also in the middle of a handler.

Messages may be lost, delayed, reordered, duplicated and made up. The one
thing the adversary cannot do is forge: a message that verifies under the key
of an honest member carries what that member really signed
(`Setting.Deliverable`). A signature is not bound to the message it came in:
whatever has the same signed bytes can be made of it.

Seen from outside, the votes of the honest members follow the discipline of
two-phase voting with locks (`NetInv.discipline`). Lock safety is what that
gives for the engines (`lock_safety`).
-/

namespace SmartLedger

open Engine

variable {C : Crypto}

/-! ## What is signed -/

/-- The bytes a signature is over, and its context. -/
abbrev Payload := List UInt8 × List UInt8

namespace ConsensusMsg

def signer : ConsensusMsg C → C.VerifyingKey
  | .proposal pm => pm.proposer
  | .vote vm => vm.voter

def payload : ConsensusMsg C → Payload
  | .proposal pm =>
      (proposalSigningBytes pm.height pm.round pm.value.id pm.validRound, Context.proposal)
  | .vote vm => votePayload vm.height vm.round vm.voteType vm.blockId

def verifySig : ConsensusMsg C → Bool
  | .proposal pm => pm.verifySig
  | .vote vm => vm.verifySig

end ConsensusMsg

/-- What an engine signed: the payload of everything it broadcast. -/
def signedPayloads (log : List (Output C)) : List Payload :=
  log.filterMap fun o => match o with
    | .effect (.broadcast msg) => some msg.payload
    | _ => none

theorem mem_signedPayloads {log : List (Output C)} {x : Payload} (h : x ∈ signedPayloads log) :
    ∃ msg, .effect (.broadcast msg) ∈ log ∧ msg.payload = x := by
  rcases List.mem_filterMap.mp h with ⟨o, ho, heq⟩
  split at heq
  · next msg => exact ⟨msg, ho, Option.some.inj heq⟩
  · cases heq

theorem signedPayloads_mono {log log' : List (Output C)} (h : log ⊆ log') :
    signedPayloads log ⊆ signedPayloads log' := List.filterMap_subset _ h

/-- A vote is signed under the vote context unless it is a precommit for a
block. -/
theorem payload_eq_vote {msg : ConsensusMsg C} {h r : UInt64} {t : VoteType} {id : Option Hash}
    (heq : msg.payload = (voteSigningBytes h r t id, Context.vote)) :
    ∃ vm, msg = .vote vm ∧ vm.height = h ∧ vm.round = r ∧ vm.voteType = t ∧ vm.blockId = id := by
  cases msg with
  | proposal pm => exact absurd (congrArg Prod.snd heq).symm Context.vote_ne_proposal
  | vote vm =>
      have hpayload : votePayload vm.height vm.round vm.voteType vm.blockId =
          (voteSigningBytes h r t id, Context.vote) := heq
      unfold votePayload at hpayload
      split at hpayload
      · exact absurd (congrArg Prod.snd hpayload).symm Context.vote_ne_block
      · exact ⟨vm, rfl, voteSigningBytes_inj (congrArg Prod.fst hpayload)⟩

/-- Only a precommit for a block is signed under the block context. -/
theorem payload_eq_block {msg : ConsensusMsg C} {id : Hash}
    (heq : msg.payload = (id.asBytes, Context.block)) :
    ∃ vm, msg = .vote vm ∧ vm.voteType = .precommit ∧ vm.blockId = some id := by
  cases msg with
  | proposal pm => exact absurd (congrArg Prod.snd heq).symm Context.block_ne_proposal
  | vote vm =>
      have hpayload : votePayload vm.height vm.round vm.voteType vm.blockId =
          (id.asBytes, Context.block) := heq
      unfold votePayload at hpayload
      split at hpayload
      · next id' htype hid =>
          have hbytes : id'.asBytes = id.asBytes := congrArg Prod.fst hpayload
          rw [Hash.asBytes_inj hbytes] at hid
          exact ⟨vm, rfl, htype, hid⟩
      · exact absurd (congrArg Prod.snd hpayload) Context.vote_ne_block

/-- Only a proposal is signed under the proposal context. -/
theorem payload_eq_proposal {msg : ConsensusMsg C} {h r : UInt64} {id : Hash}
    {vr : Option UInt64}
    (heq : msg.payload = (proposalSigningBytes h r id vr, Context.proposal)) :
    ∃ pm, msg = .proposal pm ∧ pm.value.id = id := by
  cases msg with
  | proposal pm => exact ⟨pm, rfl, (proposalSigningBytes_inj (congrArg Prod.fst heq)).2.2.1⟩
  | vote vm =>
      have hpayload : votePayload vm.height vm.round vm.voteType vm.blockId =
          (proposalSigningBytes h r id vr, Context.proposal) := heq
      unfold votePayload at hpayload
      split at hpayload
      · exact absurd (congrArg Prod.snd hpayload) Context.block_ne_proposal
      · exact absurd (congrArg Prod.snd hpayload) Context.vote_ne_proposal

/-! ## The setting -/

/-- One height: the registry and tip it is entered with, the set in force,
the Byzantine members, and what the members' keys signed outside the run (at
earlier heights, or for other purposes); votes of this height are not among
that. -/
structure Setting (C : Crypto) where
  registry : ValidatorRegistry C
  tip : Hash
  height : UInt64
  set : ValidatorSet C
  set_eq : registry.activeSet height = .ok set
  byzantine : Finset C.VerifyingKey
  byzantine_card : byzantine.card ≤ set.f
  elsewhere : C.VerifyingKey → List Payload
  elsewhere_vote : ∀ k r t id, (voteSigningBytes height r t id, Context.vote) ∉ elsewhere k

/-- An engine with the events it handled and what it did. -/
structure Party (C : Crypto) where
  engine : Engine C
  evs : List (Event C)
  log : List (Output C)

def Party.step (p : Party C) (evs : List (Event C)) (out : List (Output C)) (e : Engine C) :
    Party C where
  engine := e
  evs := p.evs ++ evs
  log := p.log ++ out

/-- The engines by their members' keys; only those of honest members count. -/
abbrev Net (C : Crypto) := C.VerifyingKey → Party C

namespace Setting

variable (S : Setting C)

/-- A member that is not Byzantine. -/
def Honest (k : C.VerifyingKey) : Prop := k ∈ S.set.members ∧ k ∉ S.byzantine

instance (k : C.VerifyingKey) : Decidable (S.Honest k) :=
  inferInstanceAs (Decidable (_ ∧ _))

/-- The engine of member `k` has just entered the height. -/
structure Entered (k : C.VerifyingKey) (e : Engine C) : Prop where
  fresh : Fresh e
  registry : e.registry = S.registry
  tip : e.tip = S.tip
  height : e.height = S.height
  mePk : e.mePk = k

def Initial (net : Net C) : Prop :=
  ∀ k, S.Honest k → S.Entered k (net k).engine ∧ (net k).evs = [] ∧ (net k).log = []

/-- What the adversary can deliver: no message under an honest member's key
but with a payload that the member signed. -/
def Deliverable (net : Net C) : Event C → Prop
  | .message msg => S.Honest msg.signer → msg.verifySig = true →
      msg.payload ∈ signedPayloads (net msg.signer).log ++ S.elsewhere msg.signer
  | _ => True

instance (net : Net C) : (ev : Event C) → Decidable (S.Deliverable net ev)
  | .message msg => inferInstanceAs (Decidable (S.Honest msg.signer → msg.verifySig = true →
      msg.payload ∈ signedPayloads (net msg.signer).log ++ S.elsewhere msg.signer))
  | .start | .timeout _ _ _ | .attestation _ | .governance _ | .synced _ | .resume | .setTime _ =>
      inferInstanceAs (Decidable True)

end Setting

/-- A step of the network; `guard` restricts the events. -/
inductive NetStep (S : Setting C) (guard : Net C → Event C → Prop) (net : Net C) : Net C → Prop where
  | enter {k : C.VerifyingKey} {ev : Event C} {out : List (Output C)} {e' : Engine C}
      (hk : S.Honest k) (hdriven : driven (net k).engine ev) (hdel : S.Deliverable net ev)
      (hguard : guard net ev) (hent : Enter ev (net k).engine out e') :
      NetStep S guard net (Function.update net k ((net k).step [ev] out e'))
  | internal {k : C.VerifyingKey} {ord : IterOrder} {out : List (Effect C)} {e' : Engine C}
      (hk : S.Honest k) (hi : Internal ord (net k).engine out e') :
      NetStep S guard net (Function.update net k ((net k).step [] (effects out) e'))

/-- The runs of the network. -/
def NetRun (S : Setting C) (guard : Net C → Event C → Prop) : Net C → Net C → Prop :=
  Relation.ReflTransGen (NetStep S guard)

/-- No restriction beyond unforgeability. -/
def anyDelivery : Net C → Event C → Prop := fun _ _ => True

namespace NetStep

variable {S : Setting C} {guard : Net C → Event C → Prop} {net net' : Net C}

/-- What a step of the network is to one of the parties: nothing, an event it
was allowed to be handed, or a rule. -/
theorem party_cases (h : NetStep S guard net net') (j : C.VerifyingKey) :
    net' j = net j ∨
    (∃ ev out e', driven (net j).engine ev ∧ S.Deliverable net ev ∧ guard net ev ∧
      Enter ev (net j).engine out e' ∧ net' j = (net j).step [ev] out e') ∨
    ∃ ord out e', Internal ord (net j).engine out e' ∧
      net' j = (net j).step [] (effects out) e' := by
  cases h with
  | @enter k ev out e' hk hdriven hdel hguard hent =>
      by_cases hjk : j = k
      · subst hjk
        exact Or.inr (Or.inl ⟨ev, out, e', hdriven, hdel, hguard, hent, Function.update_self ..⟩)
      · exact Or.inl (Function.update_of_ne hjk ..)
  | @internal k ord out e' hk hi =>
      by_cases hjk : j = k
      · subst hjk
        exact Or.inr (Or.inr ⟨ord, out, e', hi, Function.update_self ..⟩)
      · exact Or.inl (Function.update_of_ne hjk ..)

/-- What was handled and done stays. -/
theorem grows (h : NetStep S guard net net') (j : C.VerifyingKey) :
    (net j).evs ⊆ (net' j).evs ∧ (net j).log ⊆ (net' j).log := by
  rcases h.party_cases j with hsame | ⟨_, _, _, _, _, _, _, hnext⟩ | ⟨_, _, _, _, hnext⟩
  · rw [hsame]
    exact ⟨List.Subset.refl _, List.Subset.refl _⟩
  · rw [hnext]
    exact ⟨List.subset_append_left _ _, List.subset_append_left _ _⟩
  · rw [hnext]
    exact ⟨List.subset_append_left _ _, List.subset_append_left _ _⟩

end NetStep

namespace NetRun

variable {S : Setting C} {guard : Net C → Event C → Prop} {net net' : Net C}

theorem grows (h : NetRun S guard net net') (k : C.VerifyingKey) :
    (net k).evs ⊆ (net' k).evs ∧ (net k).log ⊆ (net' k).log := by
  induction h with
  | refl => exact ⟨List.Subset.refl _, List.Subset.refl _⟩
  | tail _ hstep ih =>
      rcases hstep.grows k with ⟨hevs, hlog⟩
      exact ⟨List.Subset.trans ih.1 hevs, List.Subset.trans ih.2 hlog⟩

theorem internals {ord : IterOrder} {k : C.VerifyingKey} {e e' : Engine C}
    {out : List (Effect C)} (hk : S.Honest k) (hi : Internals ord e out e') (net : Net C)
    (he : (net k).engine = e) :
    NetRun S guard net (Function.update net k ((net k).step [] (effects out) e')) := by
  induction hi generalizing net with
  | refl e =>
      have hsame : (net k).step [] (effects []) e = net k := by
        rw [← he]
        simp [Party.step]
      rw [hsame, Function.update_eq_self]
      exact Relation.ReflTransGen.refl
  | @step e e₁ e₂ o₁ o₂ hi rest ih =>
      -- one rule, then the rest of the run from there
      have hfirst : NetStep S guard net
          (Function.update net k ((net k).step [] (effects o₁) e₁)) :=
        NetStep.internal hk (he ▸ hi)
      have hrest := ih (Function.update net k ((net k).step [] (effects o₁) e₁))
        (by rw [Function.update_self]; rfl)
      rw [Function.update_self, Function.update_idem] at hrest
      have hjoin : ((net k).step [] (effects o₁) e₁).step [] (effects o₂) e₂ =
          (net k).step [] (effects (o₁ ++ o₂)) e₂ := by
        simp [Party.step]
      rw [hjoin] at hrest
      exact Relation.ReflTransGen.head hfirst hrest

/-- A call of a handler is a run of the network. -/
theorem handle {ord : IterOrder} {k : C.VerifyingKey} {ev : Event C} {e' : Engine C}
    {out : List (Output C)} (hk : S.Honest k) (hdriven : driven (net k).engine ev)
    (hdel : S.Deliverable net ev) (hguard : guard net ev)
    (h : (net k).engine.handle ord ev = .ok (e', out)) :
    NetRun S guard net (Function.update net k ((net k).step [ev] out e')) := by
  -- the event itself, then the rules it sets off
  rcases handle_steps h with ⟨e₁, o₁, o₂, hent, hints, rfl⟩
  have hfirst : NetStep S guard net (Function.update net k ((net k).step [ev] o₁ e₁)) :=
    NetStep.enter hk hdriven hdel hguard hent
  have hrest : NetRun S guard _ _ :=
    internals hk hints (Function.update net k ((net k).step [ev] o₁ e₁))
      (by rw [Function.update_self]; rfl)
  rw [Function.update_self, Function.update_idem] at hrest
  have hjoin : ((net k).step [ev] o₁ e₁).step [] (effects o₂) e' =
      (net k).step [ev] (o₁ ++ effects o₂) e' := by
    simp [Party.step]
  rw [hjoin] at hrest
  exact Relation.ReflTransGen.head hfirst hrest

end NetRun

/-! ## Schedules -/

instance (e : Engine C) (ev : Event C) : Decidable (driven e ev) :=
  inferInstanceAs (Decidable (_ → _))

/-- Hand events to members one after the other; nothing comes of it when one
of the events is not allowed or panics. -/
def Setting.play (S : Setting C) (guard : Net C → Event C → Prop)
    [∀ net ev, Decidable (guard net ev)] (ord : IterOrder) :
    Net C → List (C.VerifyingKey × Event C) → Option (Net C)
  | net, [] => some net
  | net, (k, ev) :: rest =>
      if S.Honest k ∧ driven (net k).engine ev ∧ S.Deliverable net ev ∧ guard net ev then
        match (net k).engine.handle ord ev with
        | .ok (e, out) => S.play guard ord (Function.update net k ((net k).step [ev] out e)) rest
        | .error _ => none
      else none

/-- What can be played is a run. -/
theorem NetRun.of_play {S : Setting C} {guard : Net C → Event C → Prop}
    [∀ net ev, Decidable (guard net ev)] {ord : IterOrder} {net net' : Net C}
    {schedule : List (C.VerifyingKey × Event C)}
    (h : S.play guard ord net schedule = some net') : NetRun S guard net net' := by
  induction schedule generalizing net with
  | nil =>
      obtain rfl := Option.some.inj h
      exact Relation.ReflTransGen.refl
  | cons entry rest ih =>
      rcases entry with ⟨k, ev⟩
      simp only [Setting.play] at h
      split at h
      · next hallowed =>
          rcases hallowed with ⟨hk, hdriven, hdel, hguard⟩
          split at h
          · next hhandle => exact (NetRun.handle hk hdriven hdel hguard hhandle).trans (ih h)
          · cases h
      · cases h

/-! ## What a run keeps -/

/-- An event in an engine's history was there before, or was allowed in this
very step. -/
theorem NetStep.evs_cases {S : Setting C} {guard : Net C → Event C → Prop} {net net' : Net C}
    (h : NetStep S guard net net') {j : C.VerifyingKey} {ev : Event C}
    (hmem : ev ∈ (net' j).evs) :
    ev ∈ (net j).evs ∨ (S.Deliverable net ev ∧ guard net ev) := by
  rcases h.party_cases j with hsame | ⟨ev', _, _, _, hdel, hguard, _, hnext⟩ | ⟨_, _, _, _, hnext⟩
  · rw [hsame] at hmem
    exact Or.inl hmem
  · rw [hnext] at hmem
    rcases List.mem_append.mp hmem with hold | hnew
    · exact Or.inl hold
    · rw [List.mem_singleton.mp hnew]
      exact Or.inr ⟨hdel, hguard⟩
  · rw [hnext] at hmem
    rcases List.mem_append.mp hmem with hold | hnew
    · exact Or.inl hold
    · cases hnew

/-- What holds of an event when it is handed over, and is not lost as
histories grow, holds of every event handled. -/
theorem NetRun.delivered {S : Setting C} {guard : Net C → Event C → Prop} {net net' : Net C}
    {P : Net C → Event C → Prop}
    (hallowed : ∀ {net ev}, S.Deliverable net ev → guard net ev → P net ev)
    (hmono : ∀ {net net' ev}, NetStep S guard net net' → P net ev → P net' ev)
    (h₀ : S.Initial net) (hrun : NetRun S guard net net') {k : C.VerifyingKey} {ev : Event C}
    (hk : S.Honest k) (hmem : ev ∈ (net' k).evs) : P net' ev := by
  induction hrun with
  | refl =>
      rw [(h₀ k hk).2.1] at hmem
      cases hmem
  | tail _ hstep ih =>
      rcases hstep.evs_cases hmem with hold | ⟨hdel, hguard⟩
      · exact hmono hstep (ih hold)
      · exact hmono hstep (hallowed hdel hguard)

theorem Setting.Deliverable.mono {S : Setting C} {guard : Net C → Event C → Prop}
    {net net' : Net C} {ev : Event C} (h : S.Deliverable net ev)
    (hstep : NetStep S guard net net') : S.Deliverable net' ev := by
  cases ev with
  | message msg =>
      intro hhonest hver
      rcases List.mem_append.mp (h hhonest hver) with hsigned | helse
      · exact List.mem_append_left _ (signedPayloads_mono (hstep.grows _).2 hsigned)
      · exact List.mem_append_right _ helse
  | _ => trivial

/-- In every reachable network: the history of an honest engine is a driven
trace from its entry, and what it was handed under an honest member's key was
signed by that member. -/
structure NetInv (S : Setting C) (net : Net C) : Prop where
  traces : ∀ {k}, S.Honest k → ∃ e₀, S.Entered k e₀ ∧
    Trace driven e₀ (net k).evs (net k).log (net k).engine
  genuine : ∀ {k ev}, S.Honest k → ev ∈ (net k).evs → S.Deliverable net ev

namespace NetInv

variable {S : Setting C} {guard : Net C → Event C → Prop} {net net' : Net C}

theorem traces_step (h : NetStep S guard net net') {j : C.VerifyingKey} {e₀ : Engine C}
    (htrace : Trace driven e₀ (net j).evs (net j).log (net j).engine) :
    Trace driven e₀ (net' j).evs (net' j).log (net' j).engine := by
  rcases h.party_cases j with hsame | ⟨_, _, _, hdriven, _, _, hent, hnext⟩ | ⟨_, _, _, hi, hnext⟩
  · rw [hsame]
    exact htrace
  · rw [hnext]
    exact Trace.enter htrace hdriven hent
  · rw [hnext]
    have hafter := Trace.internal htrace hi
    simpa [Party.step] using hafter

theorem run (h₀ : S.Initial net) (hrun : NetRun S guard net net') : NetInv S net' where
  traces := by
    intro k hk
    induction hrun with
    | refl =>
        rcases h₀ k hk with ⟨hentered, hevs, hlog⟩
        rw [hevs, hlog]
        exact ⟨(net k).engine, hentered, Trace.init⟩
    | tail _ hstep ih =>
        rcases ih with ⟨e₀, hentered, htrace⟩
        exact ⟨e₀, hentered, traces_step hstep htrace⟩
  genuine := by
    intro k ev hk hmem
    exact NetRun.delivered (fun hdel _ => hdel) (fun hstep hdel => hdel.mono hstep) h₀ hrun hk hmem

/-- An honest engine, with all that holds along its trace. -/
theorem disciplined (h : NetInv S net) {k : C.VerifyingKey} (hk : S.Honest k) :
    Disciplined (net k).evs (net k).log (net k).engine := by
  rcases h.traces hk with ⟨e₀, hentered, htrace⟩
  exact Disciplined.trace hentered.fresh htrace

theorem activeSet_eq (h : NetInv S net) {k : C.VerifyingKey} (hk : S.Honest k) :
    (net k).engine.registry.activeSet S.height = .ok S.set := by
  rcases h.traces hk with ⟨e₀, hentered, htrace⟩
  rw [htrace.activeSet_eq.2 S.height (UInt64.le_of_eq hentered.height.symm), hentered.registry]
  exact S.set_eq

theorem currentSet_eq (h : NetInv S net) {k : C.VerifyingKey} (hk : S.Honest k)
    (hheight : (net k).engine.height = S.height) : (net k).engine.currentSet = S.set := by
  rcases h.traces hk with ⟨e₀, hentered, htrace⟩
  have hset := (hentered.fresh.onChain.trace htrace).set
  rw [hheight, h.activeSet_eq hk] at hset
  exact (Except.ok.inj hset).symm

theorem voter_eq (h : NetInv S net) {k : C.VerifyingKey} (hk : S.Honest k) {vm : VoteMsg C}
    (hcast : Cast (net k).log vm) : vm.voter = k := by
  rcases h.traces hk with ⟨e₀, hentered, htrace⟩
  rw [(h.disciplined hk).votes.own hcast, htrace.mePk_eq, hentered.mePk]

end NetInv

/-! ## Lock safety -/

namespace Setting

variable (S : Setting C)

/-- The members of the height as a roster. -/
def roster : LockedVoting.Roster C.VerifyingKey where
  members := S.set.members
  faulty := S.byzantine
  n := S.set.validators.length
  f := S.set.f
  card_members := S.set.card_members_le
  card_faulty := S.byzantine_card
  bound := (ValidatorSet.bft_bounds S.set_eq).1

theorem threshold_eq : S.set.threshold = S.roster.n - S.roster.f :=
  (ValidatorSet.bft_bounds S.set_eq).2

/-- Member `k` signed a vote for `v` while in round `r` of the height. -/
def Voted (net : Net C) (voteType : VoteType) (k : C.VerifyingKey) (r : Nat) (v : Hash) : Prop :=
  ∃ vm, Cast (net k).log vm ∧ vm.height = S.height ∧ vm.voteType = voteType ∧
    vm.round.toNat = r ∧ vm.blockId = some v

variable {S} {net net' : Net C} {guard : Net C → Event C → Prop}

theorem Voted.mono {voteType : VoteType} {k : C.VerifyingKey} {r : Nat} {v : Hash}
    (h : S.Voted net voteType k r v) (hrun : NetRun S guard net net') :
    S.Voted net' voteType k r v := by
  rcases h with ⟨vm, hcast, hrest⟩
  exact ⟨vm, (hrun.grows k).2 hcast, hrest⟩

/-- A tally of votes that are genuine where their voter is honest is a quorum
of members that voted so. -/
theorem quorumOf_tally {voteType : VoteType} {K : VoteMsg C → Prop} {r : UInt64} {v : Hash}
    (ht : Tally voteType K S.set S.height r v) (hmem : ∀ vm, K vm → vm.voter ∈ S.set.members)
    (hgenuine : ∀ vm, K vm → vm.height = S.height → vm.voteType = voteType →
      vm.blockId = some v → S.Honest vm.voter → S.Voted net voteType vm.voter vm.round.toNat v) :
    S.roster.QuorumOf (S.Voted net voteType · r.toNat v) := by
  classical
  rcases ht with ⟨voters, hcard, hvoters⟩
  -- the members behind the voter ids; they are no fewer than the ids
  let V := S.set.members.filter fun k => ∃ vm : VoteMsg C, vm.voter = k ∧ vm.height = S.height ∧
    vm.round = r ∧ vm.voteType = voteType ∧ vm.blockId = some v ∧ K vm
  have hsub : voters ⊆ V.image fun k => k.id := by
    intro id hid
    rcases hvoters id hid with ⟨vm, hvid, hh, hr, ht, hb, hK⟩
    refine Finset.mem_image.mpr ⟨vm.voter, ?_, hvid⟩
    exact Finset.mem_filter.mpr ⟨hmem vm hK, vm, rfl, hh, hr, ht, hb, hK⟩
  refine ⟨V, Finset.filter_subset _ _, ?_, ?_⟩
  · rw [← S.threshold_eq]
    exact hcard.trans ((Finset.card_le_card hsub).trans Finset.card_image_le)
  · intro k hkV hk
    rcases (Finset.mem_filter.mp hkV).2 with ⟨vm, rfl, hh, rfl, ht, hb, hK⟩
    exact hgenuine vm hK hh ht hb hk

end Setting

namespace NetInv

variable {S : Setting C} {net : Net C}

theorem known_member (h : NetInv S net) {k : C.VerifyingKey} (hk : S.Honest k) {vm : VoteMsg C}
    (hknown : Known (net k).evs (net k).log S.set vm) : vm.voter ∈ S.set.members := by
  rcases hknown with ⟨_, hmem, _⟩ | hcast
  · exact (ValidatorSet.mem_members _ _).mpr hmem
  · rw [h.voter_eq hk hcast]
    exact hk.1

/-- A prevote of an honest member that some honest engine goes by was cast:
the signed bytes name its height and round. -/
theorem prevote_genuine (h : NetInv S net) {k : C.VerifyingKey} (hk : S.Honest k)
    {vm : VoteMsg C} {v : Hash} (hknown : Known (net k).evs (net k).log S.set vm)
    (hheight : vm.height = S.height) (htype : vm.voteType = .prevote)
    (hid : vm.blockId = some v) (hvoter : S.Honest vm.voter) :
    S.Voted net .prevote vm.voter vm.round.toNat v := by
  rcases hknown with ⟨hmem, _, hver⟩ | hcast
  · have hsigned : votePayload vm.height vm.round vm.voteType vm.blockId ∈
        signedPayloads (net vm.voter).log ++ S.elsewhere vm.voter :=
      h.genuine hk hmem hvoter hver
    have hpayload : votePayload vm.height vm.round vm.voteType vm.blockId =
        (voteSigningBytes S.height vm.round .prevote (some v), Context.vote) := by
      rw [hheight, htype, hid]
      rfl
    rw [hpayload] at hsigned
    rcases List.mem_append.mp hsigned with hrun | helse
    · rcases mem_signedPayloads hrun with ⟨msg, hmsg, heq⟩
      rcases payload_eq_vote heq with ⟨vm', rfl, hh', hr', ht', hb'⟩
      exact ⟨vm', hmsg, hh', ht', congrArg UInt64.toNat hr', hb'⟩
    · exact absurd helse (S.elsewhere_vote _ _ _ _)
  · rw [h.voter_eq hk hcast]
    exact ⟨vm, hcast, hheight, htype, rfl, hid⟩

/-- A polka some honest engine goes by is a quorum of members that
prevoted. -/
theorem quorumOf_polka (h : NetInv S net) {k : C.VerifyingKey} (hk : S.Honest k) {r : UInt64}
    {v : Hash} (hpolka : Polka (Known (net k).evs (net k).log S.set) S.set S.height r v) :
    S.roster.QuorumOf (S.Voted net .prevote · r.toNat v) := by
  apply Setting.quorumOf_tally hpolka
  · intro vm hknown
    exact h.known_member hk hknown
  · intro vm hknown hheight htype hid hvoter
    exact h.prevote_genuine hk hknown hheight htype hid hvoter

/-- The honest members of a height keep to the discipline of two-phase voting
with locks. -/
theorem discipline (h : NetInv S net) :
    LockedVoting.Discipline S.roster (S.Voted net .prevote) (S.Voted net .precommit) := by
  constructor
  -- two votes of one round and type are one vote
  · rintro k r v w hk ⟨vm₁, hcast₁, hh₁, ht₁, hr₁, hid₁⟩ ⟨vm₂, hcast₂, hh₂, ht₂, hr₂, hid₂⟩
    have hround : vm₁.round = vm₂.round := UInt64.toNat_inj.mp (hr₁.trans hr₂.symm)
    have hpos := votePos_congr hround (ht₁.trans ht₂.symm)
    obtain rfl := (h.disciplined hk).votes.unique hcast₁ hcast₂ (hh₁.trans hh₂.symm) hpos
    exact Option.some.inj (hid₁.symm.trans hid₂)
  -- a precommit needs a polka in the set of its height
  · rintro k r v hk ⟨vm, hcast, hh, ht, rfl, hid⟩
    rcases (h.disciplined hk).locks.precommits hcast ht hid with ⟨set, hset, hpolka⟩
    rw [hh, h.activeSet_eq hk] at hset
    obtain rfl := Except.ok.inj hset
    rw [hh] at hpolka
    exact h.quorumOf_polka hk hpolka
  -- and against a lock only a later polka helps
  · rintro k r r' v w hk ⟨pc, hpc, hpch, hpct, rfl, hpcid⟩ ⟨pv, hpv, hpvh, hpvt, rfl, hpvid⟩
      hlt hne
    rcases (h.disciplined hk).locks.prevotes hpc hpct hpcid hpv hpvt hpvid
      (hpch.trans hpvh.symm) (UInt64.lt_iff_toNat_lt.mpr hlt) hne with
      ⟨set, r, hset, hle, hlt', hpolka⟩
    rw [hpvh, h.activeSet_eq hk] at hset
    obtain rfl := Except.ok.inj hset
    rw [hpvh] at hpolka
    exact ⟨r.toNat, UInt64.le_iff_toNat_le.mp hle, UInt64.lt_iff_toNat_lt.mp hlt',
      h.quorumOf_polka hk hpolka⟩

end NetInv

/-- Lock safety. In every run, once honest members, at least `threshold - f`
of them, each signed a precommit for `v` in round `r`: however the run goes
on, in every honest engine at that height and for every round from `r` on, no
other id reaches a quorum of prevotes, and a lock or a valid value of such a
round is `v`. -/
theorem lock_safety (S : Setting C) {net₀ net net' : Net C} (h₀ : S.Initial net₀)
    (hrun : NetRun S anyDelivery net₀ net) {A : Finset C.VerifyingKey} {r : UInt64} {v : Hash}
    (hA : ∀ k ∈ A, S.Honest k ∧ S.Voted net .precommit k r.toNat v)
    (hcard : S.set.threshold - S.set.f ≤ A.card) (hcont : NetRun S anyDelivery net net')
    {k : C.VerifyingKey} (hk : S.Honest k) (hheight : (net' k).engine.height = S.height)
    {r' : UInt64} (hle : r ≤ r') :
    (∀ w, w ≠ v → (net' k).engine.countPrevotes r' (.id w) < S.set.threshold) ∧
    ((net' k).engine.lockedRound = some r' → (net' k).engine.lockedId = some v) ∧
    ((net' k).engine.validRound = some r' →
      (net' k).engine.validValue.map (·.id) = some v) := by
  have hinv : NetInv S net' := NetInv.run h₀ (hrun.trans hcont)
  have hdis := hinv.disciplined hk
  have hset := hinv.currentSet_eq hk hheight
  -- a polka this engine goes by in a round from `r` on is for `v`
  have hunique : ∀ {w : Hash}, Polka (Known (net' k).evs (net' k).log
      (net' k).engine.currentSet) (net' k).engine.currentSet (net' k).engine.height r' w →
      w = v := by
    intro w hpolka
    rw [hset, hheight] at hpolka
    have hcard' : S.roster.n - S.roster.f - S.roster.f ≤ A.card := by
      rw [← S.threshold_eq]
      exact hcard
    refine hinv.discipline.polka_unique ?_ hcard' (UInt64.le_iff_toNat_le.mp hle)
      (hinv.quorumOf_polka hk hpolka)
    intro j hj
    exact ⟨(hA j hj).1, (hA j hj).2.mono hcont⟩
  refine ⟨?_, ?_, ?_⟩
  · intro w hne
    by_contra hquorum
    have hcount : (net' k).engine.quorum ≤ (net' k).engine.countPrevotes r' (.id w) := by
      unfold quorum
      rw [hset]
      exact Nat.le_of_not_lt hquorum
    exact hne (hunique (polka_of_count hdis.stores hcount))
  · intro hlock
    rcases hdis.locks.lock hlock with ⟨w, hw, hpolka⟩
    rw [hw, hunique hpolka]
  · intro hvalid
    rcases hdis.valid hvalid with ⟨w, hw, hpolka⟩
    rw [hw, Option.map_some, hunique hpolka]

/-! ## Four members -/

instance (net : Net C) (ev : Event C) : Decidable (anyDelivery net ev) :=
  inferInstanceAs (Decidable True)

/-- Height 1 of the sample chain with members 1 to 4, of which 4 is
Byzantine. -/
def sampleSetting : Setting sample where
  registry := ValidatorRegistry.new (C := sample) [1, 2, 3, 4]
  tip := Hash.zero
  height := 1
  set := ⟨[1, 2, 3, 4], 3, by decide, by decide⟩
  set_eq := rfl
  byzantine := {(4 : UInt8)}
  byzantine_card := by decide
  elsewhere := fun _ => []
  elsewhere_vote := by simp

/-- A new engine for every member. -/
def sampleNet : Net sample := fun k =>
  { engine := (sampleEngine [1, 2, 3, 4] k).get rfl
    evs := []
    log := [] }

theorem sampleNet_initial : sampleSetting.Initial sampleNet := by
  intro k _
  have hnew := Exec.eq_ok_get (sampleEngine [1, 2, 3, 4] k) rfl
  exact ⟨⟨Fresh.of_withRegistry hnew, rfl, rfl, rfl, rfl⟩, rfl, rfl⟩

/-- Members 2 and 3 precommit the proposal of member 2 in round 0. -/
def lockSchedule : List (sample.VerifyingKey × Event sample) :=
  [(1, .start), (2, .start), (3, .start), (2, .attestation (sampleAttestation 1 7)),
    (3, .message (sampleProposal 2 0 none valueA)),
    (2, .message (sampleVote 3 0 .prevote (some valueA.id))),
    (2, .message (sampleVote 4 0 .prevote (some valueA.id))),
    (3, .message (sampleVote 2 0 .prevote (some valueA.id))),
    (3, .message (sampleVote 4 0 .prevote (some valueA.id)))]

/-- Then member 4 prevotes another value to member 1, which locks the first
all the same. -/
def lockContinuation : List (sample.VerifyingKey × Event sample) :=
  [(1, .message (sampleVote 4 0 .prevote (some valueB.id))),
    (1, .message (sampleProposal 2 0 none valueA)),
    (1, .message (sampleVote 2 0 .prevote (some valueA.id))),
    (1, .message (sampleVote 3 0 .prevote (some valueA.id)))]

theorem lock_safety_four :
    ∃ net : Net sample, NetRun sampleSetting anyDelivery sampleNet net ∧
      (net 1).engine.lockedRound = some 0 ∧ (net 1).engine.lockedId = some valueA.id ∧
      ∀ w, w ≠ valueA.id → (net 1).engine.countPrevotes 0 (.id w) < 3 := by
  have hfirst : (sampleSetting.play anyDelivery sampleOrder sampleNet lockSchedule).any
      (fun net => decide (
        .effect (.broadcast (sampleVote 2 0 .precommit (some valueA.id))) ∈ (net 2).log ∧
        .effect (.broadcast (sampleVote 3 0 .precommit (some valueA.id))) ∈ (net 3).log) &&
        (sampleSetting.play anyDelivery sampleOrder net lockContinuation).any fun net' =>
          decide ((net' 1).engine.lockedRound = some 0 ∧ (net' 1).engine.height = 1)) = true := by
    decide +kernel
  rcases (Option.any_eq_true _ _).mp hfirst with ⟨net, hplay, hnet⟩
  rw [Bool.and_eq_true, Option.any_eq_true] at hnet
  rcases hnet with ⟨hlogs, net', hplay', hnet'⟩
  rcases of_decide_eq_true hlogs with ⟨hlog₂, hlog₃⟩
  rcases of_decide_eq_true hnet' with ⟨hlock, hheight⟩
  have hrun := NetRun.of_play hplay
  have hcont := NetRun.of_play hplay'
  -- validators 2 and 3 are f + 1 honest precommitters
  have hA : ∀ k ∈ ({2, 3} : Finset sample.VerifyingKey), sampleSetting.Honest k ∧
      sampleSetting.Voted net .precommit k (0 : UInt64).toNat valueA.id := by
    intro k hk
    rcases Finset.mem_insert.mp hk with rfl | hk
    · exact ⟨by decide, _, hlog₂, rfl, rfl, rfl, rfl⟩
    · obtain rfl := Finset.mem_singleton.mp hk
      exact ⟨by decide, _, hlog₃, rfl, rfl, rfl, rfl⟩
  rcases lock_safety sampleSetting sampleNet_initial hrun hA (by decide) hcont
    (show sampleSetting.Honest 1 by decide) hheight (UInt64.le_refl 0) with ⟨hcount, hlocked, _⟩
  exact ⟨net', hrun.trans hcont, hlock, hlocked hlock, hcount⟩

end SmartLedger
