import SmartLedger.Consensus.Pool
import SmartLedger.Consensus.World

/-! # How often an entry is sealed

Neither the pool nor the validation of a block looks for an entry that is
already there. An attestation handed to an engine a second time waits in the
pool next to the first, and one that comes back after it was sealed is sealed
again, all validators being honest (`resubmitted_sealed_twice`).

What the engine does do is drop from its pool what a block seals. So if no
peer is handed an entry that is in its pool or in one of its blocks
(`newToPeer`), a fresh proposal takes nothing twice and nothing that the chain
below it holds (`MadeAt`), and every block comes from such a proposal
(`Sourced`), whoever finalizes it and on whatever way. That gives
`sealed_at_most_once`.
-/

namespace SmartLedger

open Engine

variable {C : Crypto} {e e' : Engine C} {log log' : List (Output C)}

/-- What identifies the entries. -/
def leaves (atts : List (Attestation C)) : List Hash := atts.map (·.leafHash)

@[simp] theorem leaves_append (as bs : List (Attestation C)) :
    leaves (as ++ bs) = leaves as ++ leaves bs := List.map_append

/-- A peer is handed no entry that waits in its pool or is in its blocks. -/
def newToPeer (w : World C) (k : C.VerifyingKey) (_ : UInt64) (ev : Event C) : Prop :=
  ∀ a ∈ ev.handed, a.leafHash ∉ leaves (w k).engine.mempool ∧
    a.leafHash ∉ leaves (sealedBy (w k).log)

instance (w : World C) (k : C.VerifyingKey) (t : UInt64) (ev : Event C) :
    Decidable (newToPeer w k t ev) := inferInstanceAs (Decidable (∀ a ∈ ev.handed, _))

/-! ## The pool -/

/-- Nothing is in the pool twice, and nothing of it is sealed yet. -/
structure PoolFresh (log : List (Output C)) (e : Engine C) : Prop where
  nodup : (leaves e.mempool).Nodup
  unsealed : ∀ a ∈ e.mempool, a.leafHash ∉ leaves (sealedBy log)

namespace PoolFresh

/-- What a block seals leaves the pool. -/
theorem dropSealed (h : PoolFresh log e) {out : List (Output C)}
    (hpool : e'.mempool = Engine.dropSealed (sealedBy out) e.mempool) :
    PoolFresh (log ++ out) e' := by
  constructor
  · rw [hpool]
    exact h.nodup.sublist (List.filter_sublist.map _)
  · intro a ha
    rw [hpool, mem_dropSealed] at ha
    rw [sealedBy_append, leaves_append, List.mem_append, not_or]
    exact ⟨h.unsealed a ha.1, ha.2⟩

theorem internal {ord : IterOrder} {out : List (Effect C)} (h : PoolFresh log e)
    (hi : Internal ord e out e') : PoolFresh (log ++ effects out) e' := h.dropSealed hi.mempool

theorem enter {ev : Event C} {out : List (Output C)} (h : PoolFresh log e)
    (hnew : ∀ a ∈ ev.handed, a.leafHash ∉ leaves e.mempool ∧ a.leafHash ∉ leaves (sealedBy log))
    (hent : Enter ev e out e') : PoolFresh (log ++ out) e' := by
  have hpool := hent.mempool
  by_cases hhanded : ev.handed = []
  · rw [hhanded, List.append_nil] at hpool
    exact h.dropSealed hpool
  · cases hent with
    | @attestation _ att =>
        have hatt := hnew att List.mem_cons_self
        rw [List.append_nil]
        -- the document joins the pool behind everything that was in it
        constructor
        · show (leaves (e.mempool ++ [att])).Nodup
          rw [leaves_append, List.nodup_append]
          refine ⟨h.nodup, List.nodup_singleton _, ?_⟩
          intro x hx y hy heq
          obtain rfl : y = att.leafHash := List.mem_singleton.mp hy
          exact hatt.1 (heq ▸ hx)
        · intro a ha
          rcases List.mem_append.mp ha with hold | hlast
          · exact h.unsealed a hold
          · rw [List.mem_singleton.mp hlast]
            exact hatt.2
    | _ => exact absurd rfl hhanded

end PoolFresh

/-! ## Fresh proposals -/

/-- A value that was proposed fresh on top of some blocks of the log: it
holds no entry twice, and none of theirs. -/
structure MadeAt (s : ChainState C) (log : List (Output C)) (v : Proposed C) : Prop where
  sent : ∃ pm, .effect (.broadcast (.proposal pm)) ∈ log ∧ pm.value = v
  txCount_eq : v.header.txCount.toNat = v.attestations.length
  merkleRoot_eq :
    (MerkleTree.build C (v.attestations.map (·.leafHash))).root C = v.header.merkleRoot
  nodup : (leaves v.attestations).Nodup
  base : ∃ bs, bs <+: finalized log ∧ v.header.prevHash = (s.pushAll bs).tip ∧
    v.header.height.toNat = (s.pushAll bs).height ∧
    ∀ x ∈ leaves v.attestations, x ∉ leaves (bs.flatMap (·.attestations))

namespace MadeAt

variable {s : ChainState C} {v : Proposed C}

theorem mono (h : MadeAt s log v) (hlog : log <+: log') : MadeAt s log' v := by
  rcases h.sent with ⟨pm, hpm, hvalue⟩
  rcases h.base with ⟨bs, hbs, hprev, hheight, hdisjoint⟩
  rcases hlog with ⟨rest, rfl⟩
  refine ⟨⟨pm, List.mem_append_left _ hpm, hvalue⟩, h.txCount_eq, h.merkleRoot_eq, h.nodup,
    bs, ?_, hprev, hheight, hdisjoint⟩
  rw [finalized_append]
  exact hbs.trans (List.prefix_append _ _)

/-- The value an engine makes of its pool. -/
theorem of_getValue (hpool : PoolFresh log e) (hon : OnChain s (finalized log) e)
    {pm : ProposalMsg C} (hsent : .effect (.broadcast (.proposal pm)) ∈ log)
    (hvalue : pm.value = e.getValue) : MadeAt s log pm.value := by
  refine ⟨⟨pm, hsent, rfl⟩, ?_, ?_, ?_, finalized log, List.prefix_refl _, ?_⟩
  · rw [hvalue]
    exact e.getValue_txCount
  · rw [hvalue]
    rfl
  · rw [hvalue]
    exact hpool.nodup.sublist ((List.take_sublist _ _).map _)
  · rw [hvalue, hon.state]
    refine ⟨rfl, rfl, ?_⟩
    intro x hx
    rcases List.mem_map.mp hx with ⟨a, ha, rfl⟩
    exact hpool.unsealed a (List.mem_of_mem_take ha)

end MadeAt

/-! ## Where ids come from -/

/-- Every id an engine stores, signs or finalizes is `ok`. -/
structure Sourced (ok : Hash → Prop) (log : List (Output C)) (e : Engine C) : Prop where
  stored : ∀ r pm, e.proposals.lookup r = some pm → ok pm.value.id
  valid : ∀ v, e.validValue = some v → ok v.id
  sent : ∀ pm, .effect (.broadcast (.proposal pm)) ∈ log → ok pm.value.id
  precommits : ∀ vm id, Cast log vm → vm.voteType = .precommit → vm.blockId = some id → ok id
  blocks : ∀ b ∈ finalized log, ok (b.header.id C)

namespace Sourced

variable {ok ok' : Hash → Prop}

theorem mono (h : Sourced ok log e) (himp : ∀ id, ok id → ok' id) : Sourced ok' log e where
  stored r pm hpm := himp _ (h.stored r pm hpm)
  valid v hv := himp _ (h.valid v hv)
  sent pm hpm := himp _ (h.sent pm hpm)
  precommits vm id hcast htype hid := himp _ (h.precommits vm id hcast htype hid)
  blocks b hb := himp _ (h.blocks b hb)

/-- A proposal is for the valid value, or fresh. -/
theorem proposes (hvalid : ∀ v, e.validValue = some v → ok v.id) {pm : ProposalMsg C}
    (hprop : e.Proposes pm) (hfresh : e.validValue = none → ok pm.value.id) :
    ok pm.value.id := by
  cases hv : e.validValue with
  | none => exact hfresh hv
  | some v =>
      rcases hprop with ⟨r, rfl, _⟩
      have hvalue : (e.ownProposal r).value = v := by
        show e.proposalValue.1 = v
        unfold proposalValue
        rw [hv]
      rw [hvalue]
      exact hvalid v hv

/-- Along an internal step, it is enough that a fresh proposal is `ok`. -/
theorem internal {ord : IterOrder} {out : List (Effect C)} (h : Sourced ok log e)
    (hi : Internal ord e out e')
    (hfresh : ∀ pm, .broadcast (.proposal pm) ∈ out → e'.validValue = none → ok pm.value.id) :
    Sourced ok (log ++ effects out) e' := by
  have hvalid : ∀ v, e'.validValue = some v → ok v.id := by
    intro v hv
    rcases hi.validValue_cases hv with ⟨_, hold⟩ | ⟨pm, hpm, rfl, _⟩
    · exact h.valid v hold
    · exact h.stored _ pm hpm
  -- what it proposes is a valid value, or fresh
  have hsent : ∀ pm, .broadcast (.proposal pm) ∈ out → ok pm.value.id :=
    fun pm hpm => proposes hvalid (hi.proposes hpm) (hfresh pm hpm)
  refine ⟨?_, hvalid, ?_, ?_, ?_⟩
  · intro r pm hpm
    -- stored are the proposals of before and our own
    rcases hi.stored hpm with ⟨_, hold⟩ | ⟨_, hnew⟩
    · exact h.stored r pm hold
    · exact hsent pm hnew
  · intro pm hpm
    rcases List.mem_append.mp hpm with hold | hnew
    · exact h.sent pm hold
    · exact hsent pm (mem_effects.mp hnew)
  · intro vm id hcast htype hid
    rcases cast_append.mp hcast with hold | hnew
    · exact h.precommits vm id hold htype hid
    · rcases hi.vote_cases (cast_effects.mp hnew) hid with ⟨_, _, rfl⟩ | ⟨pm, hpm, rfl, _, _⟩
      · cases htype
      · exact h.stored _ pm hpm
  · intro b hb
    rw [finalized_append, List.mem_append] at hb
    rcases hb with hold | hnew
    · exact h.blocks b hold
    · rcases hi.height_cases with ⟨_, hnone⟩ | ⟨r, pm, _, _, hpm, _, _, _, _, _, hone⟩
      · rw [hnone] at hnew
        cases hnew
      · rw [hone] at hnew
        rw [List.mem_singleton.mp hnew]
        exact h.stored r pm hpm

/-- Along a change of the inputs, also what comes from outside must be. -/
theorem enter {ev : Event C} {out : List (Output C)} (h : Sourced ok log e)
    (hent : Enter ev e out e')
    (hfresh : ∀ pm, .effect (.broadcast (.proposal pm)) ∈ out → e'.validValue = none →
      ok pm.value.id)
    (hhanded : ∀ pm, ev = .message (.proposal pm) → e.AcceptsProposal pm → ok pm.value.id)
    (hsynced : ∀ b, ev = .synced b → b.qc.verify b.header e.currentSet = .ok () →
      ok (b.header.id C)) :
    Sourced ok (log ++ out) e' := by
  have hvalid : ∀ v, e'.validValue = some v → ok v.id :=
    fun v hv => h.valid v (hent.validValue_cases hv)
  have hsent : ∀ pm, .effect (.broadcast (.proposal pm)) ∈ out → ok pm.value.id :=
    fun pm hpm => proposes hvalid (hent.proposes hpm) (hfresh pm hpm)
  refine ⟨?_, hvalid, ?_, ?_, ?_⟩
  · intro r pm hpm
    -- stored are those of before, our own and an accepted one
    rcases hent.stored hpm with ⟨_, hold⟩ | ⟨_, hnew⟩ | ⟨_, hev, _, hacc⟩
    · exact h.stored r pm hold
    · exact hsent pm hnew
    · exact hhanded pm hev hacc
  · intro pm hpm
    rcases List.mem_append.mp hpm with hold | hnew
    · exact h.sent pm hold
    · exact hsent pm hnew
  · intro vm id hcast htype hid
    exact h.precommits vm id (hent.noVote.cast_iff.mp hcast) htype hid
  · intro b hb
    rw [finalized_append, List.mem_append] at hb
    rcases hb with hold | hnew
    · exact h.blocks b hold
    · rcases hent.height_cases with ⟨_, hnone⟩ | ⟨b', _, _, hev, _, hqc, _, _, _, rfl⟩
      · rw [hnone] at hnew
        cases hnew
      · obtain rfl : b = b' := List.mem_singleton.mp hnew
        -- a block of a peer is only taken with its certificate
        exact hsynced b hev hqc

end Sourced

/-! ## In the world -/

variable {honest : Finset C.VerifyingKey} {genesis : List C.VerifyingKey} {w w' w₀ : World C}

/-- The id of a value that an honest peer proposed fresh. -/
def Origin (honest : Finset C.VerifyingKey) (genesis : List C.VerifyingKey) (w : World C)
    (id : Hash) : Prop :=
  ∃ j ∈ honest, ∃ v : Proposed C, v.id = id ∧ MadeAt (genesisState genesis) (w j).log v

theorem Origin.mono {id : Hash} (h : Origin honest genesis w id)
    (hlater : ∀ j, (w j).Later (w' j)) : Origin honest genesis w' id := by
  rcases h with ⟨j, hj, v, hid, hmade⟩
  exact ⟨j, hj, v, hid, hmade.mono (hlater j).log_eq⟩

/-- In every world reached with new entries only. -/
structure SealInv (honest : Finset C.VerifyingKey) (genesis : List C.VerifyingKey)
    (w : World C) : Prop extends WorldInv honest genesis w where
  sourced : ∀ {k}, k ∈ honest → Sourced (Origin honest genesis w) (w k).log (w k).engine
  pools : ∀ {k}, k ∈ honest → PoolFresh (w k).log (w k).engine

namespace SealInv

theorem init (h₀ : Launched honest genesis w) : SealInv honest genesis w := by
  refine ⟨WorldInv.init h₀, ?_, ?_⟩
  · intro k hk
    rcases h₀ k hk with ⟨_, htrail, sk, hnew⟩
    rcases withRegistry_eq_ok hnew with ⟨set, _, hengine⟩
    rw [hengine, Peer.log, htrail]
    refine ⟨?_, ?_, ?_, ?_, ?_⟩
    · intro r pm hpm
      simp at hpm
    · intro v hv
      cases hv
    · intro pm hpm
      cases hpm
    · intro vm id hcast
      cases hcast
    · intro b hb
      cases hb
  · intro k hk
    rcases h₀ k hk with ⟨_, _, sk, hnew⟩
    rcases withRegistry_eq_ok hnew with ⟨set, _, hengine⟩
    rw [hengine]
    exact ⟨List.nodup_nil, fun a ha => by cases ha⟩

/-- An accepted proposal is one its proposer signed, who is honest. -/
theorem handed (h : SealInv honest genesis w) (hall : AllHonest honest w) {k : C.VerifyingKey}
    (hk : k ∈ honest) {pm : ProposalMsg C}
    (hgenuine : Genuine honest w (.message (.proposal pm)))
    (hacc : (w k).engine.AcceptsProposal pm) : Origin honest genesis w pm.value.id := by
  have htraced := (h.sound hk).traced
  have hmember : pm.proposer ∈ honest := by
    apply hall k hk _ (UInt64.le_refl _) _ htraced.onChain.set
    exact (ValidatorSet.mem_members _ _).mpr (htraced.member_of_proposer hacc.2.1)
  rcases mem_signedPayloads (hgenuine hmember hacc.2.2) with ⟨msg, hmsg, hpayload⟩
  rcases payload_eq_proposal hpayload with ⟨pm', rfl, hid⟩
  rw [← hid]
  exact (h.sourced hmember).sent pm' hmsg

/-- A certificate that verifies has the share of an honest member. -/
theorem synced (h : SealInv honest genesis w) (hall : AllHonest honest w) {k : C.VerifyingKey}
    (hk : k ∈ honest) {b : Block C} (hgenuine : Genuine honest w (.synced b))
    (hqc : b.qc.verify b.header (w k).engine.currentSet = .ok ()) :
    Origin honest genesis w (b.header.id C) := by
  have hset := (h.sound hk).traced.onChain.set
  have hmembers := hall k hk _ (UInt64.le_refl _) _ hset
  have hnone : ((w k).engine.currentSet.members \ honest).card ≤ (w k).engine.currentSet.f := by
    rw [Finset.sdiff_eq_empty_iff_subset.mpr hmembers, Finset.card_empty]
    exact Nat.zero_le _
  rcases QuorumCertificate.exists_honest hqc hset hnone hgenuine with
    ⟨j, hj, vm, hcast, htype, hid⟩
  exact (h.sourced hj).precommits vm _ hcast htype hid

theorem step (h : SealInv honest genesis w) (hall : AllHonest honest w)
    (hstep : WorldStep honest newToPeer w w') : SealInv honest genesis w' := by
  have hlater := hstep.later
  have hpeers : ∀ {k}, k ∈ honest →
      Sourced (Origin honest genesis w') (w' k).log (w' k).engine ∧
        PoolFresh (w' k).log (w' k).engine := by
    intro k hk
    have hold : Sourced (Origin honest genesis w') (w k).log (w k).engine :=
      (h.sourced hk).mono fun _ hid => hid.mono hlater
    rcases hstep.peer_cases k with
      hsame | ⟨t, ev, ord, e', out, _, hdriven, hgenuine, hnew, hhandle, hnext⟩
    · rw [hsame]
      exact ⟨hold, h.pools hk⟩
    have hlog : (w' k).log = (w k).log ++ out := by
      rw [hnext, Peer.handled_log]
    -- a fresh proposal in the middle of the call is made of the pool there
    have hmade : ∀ {o e₁ pm},
        Traced genesis k ((w k).evs ++ [.setTime t, ev]) ((w k).log ++ o) e₁ →
        PoolFresh ((w k).log ++ o) e₁ → o <+: out → e₁.Proposes pm → e₁.validValue = none →
        .effect (.broadcast (.proposal pm)) ∈ o → Origin honest genesis w' pm.value.id := by
      intro o e₁ pm htraced hpool hle hprop hfresh hmem
      have hmade := MadeAt.of_getValue hpool htraced.onChain (List.mem_append_right _ hmem)
        (hprop.fresh hfresh).1
      refine ⟨k, hk, pm.value, rfl, hmade.mono ?_⟩
      rw [hlog]
      exact (List.prefix_append_right_inj _).mpr hle
    rw [hlog, hnext]
    apply (h.sound hk).call_induction hdriven hhandle (P := fun o e₁ =>
      Sourced (Origin honest genesis w') ((w k).log ++ o) e₁ ∧ PoolFresh ((w k).log ++ o) e₁)
    · intro o e₁ htraced hent hle
      have hpool : PoolFresh ((w k).log ++ o) e₁ :=
        PoolFresh.enter (e := (w k).engine.setTime t) ⟨(h.pools hk).nodup, (h.pools hk).unsealed⟩
          hnew hent
      have hset : Sourced (Origin honest genesis w') (w k).log ((w k).engine.setTime t) :=
        ⟨hold.stored, hold.valid, hold.sent, hold.precommits, hold.blocks⟩
      refine ⟨hset.enter hent ?_ ?_ ?_, hpool⟩
      · intro pm hmem hfresh
        exact hmade htraced hpool hle (hent.proposes hmem) hfresh hmem
      · rintro pm rfl hacc
        exact (h.handed hall hk hgenuine hacc).mono hlater
      · rintro b rfl hqc
        exact (h.synced hall hk hgenuine hqc).mono hlater
    · rintro o e₁ o' e₂ _ hnextTraced ⟨hsourced, hpool⟩ hi hle
      have hpool' := hpool.internal hi
      rw [List.append_assoc] at hpool'
      rw [← List.append_assoc]
      refine ⟨hsourced.internal hi ?_, by rwa [List.append_assoc]⟩
      intro pm hmem hfresh
      exact hmade hnextTraced hpool' hle (hi.proposes hmem) hfresh
        (List.mem_append_right _ (mem_effects.mpr hmem))
  exact ⟨h.toWorldInv.step hstep, fun hk => (hpeers hk).1, fun hk => (hpeers hk).2⟩

theorem run (h₀ : Launched honest genesis w₀) (hrun : WorldRun honest newToPeer w₀ w)
    (hall : AllHonest honest w) : SealInv honest genesis w := by
  induction hrun with
  | refl => exact init h₀
  | tail _ hstep ih =>
      have hbefore := InForce.antitone hall hstep.later
      exact (ih hbefore).step hbefore hstep

/-- The entries of a block of an honest peer's chain: none twice, and none of
the blocks before it. -/
theorem block_new (h : SealInv honest genesis w) (hfree : CollisionFree honest w)
    {k : C.VerifyingKey} (hk : k ∈ honest) {bs rest : List (Block C)} {b : Block C}
    (hsplit : finalized (w k).log = bs ++ b :: rest) :
    (leaves b.attestations).Nodup ∧
      ∀ x ∈ leaves b.attestations, x ∉ leaves (bs.flatMap (·.attestations)) := by
  have hchain := (h.sound hk).traced.onChain.chain
  rw [hsplit] at hchain
  rcases (Chain.append_iff.mp hchain).2.1 with ⟨hheight, set, _, hvalid⟩
  have hwf := (Proposed.isValid_iff _ _ _ _).mp hvalid
  have hmem : b ∈ finalized (w k).log := by
    rw [hsplit]
    exact List.mem_append_right _ List.mem_cons_self
  rcases (h.sourced hk).blocks b hmem with ⟨j, hj, v, hid, hmade⟩
  rcases hmade.sent with ⟨pm, hsent, hpm⟩
  have hv : v ∈ (w j).values := hpm ▸ Peer.value_of_sent hsent
  have hb : b.value ∈ (w k).values := Peer.value_of_finalized hmem
  -- the block is the value that was proposed
  have hheader : v.header = b.header := hfree.header_eq hj hk hv hb hid
  have hentries : v.attestations = b.attestations :=
    Proposed.attestations_eq_of_header_eq hfree (CollisionFree.mem_inputs hj hv)
      (CollisionFree.mem_inputs hk hb) hmade.txCount_eq hwf.txCount_eq hmade.merkleRoot_eq
      hwf.merkleRoot_eq hheader
  -- and it was proposed on the same blocks
  rcases hmade.base with ⟨bs', hbs', hprev, hheight', hdisjoint⟩
  have hbs : bs <+: finalized (w k).log := by
    rw [hsplit]
    exact List.prefix_append _ _
  have hlen : bs'.length = bs.length := by
    rw [hheader, ChainState.pushAll_height] at hheight'
    rw [ChainState.pushAll_height] at hheight
    omega
  have htip : ((genesisState genesis).pushAll bs').tip = ((genesisState genesis).pushAll bs).tip := by
    have hprev' : b.header.prevHash = _ := hwf.prevHash_eq
    rw [← hprev, ← hprev', hheader]
  have hsame := hfree.content_eq h.toWorldInv hj hk hbs' hbs hlen htip
  have hsealed : bs'.flatMap (·.attestations) = bs.flatMap (·.attestations) := by
    have hsnd : ∀ cs : List (Block C),
        cs.flatMap (·.attestations) = ((cs.map (·.content)).map Prod.snd).flatten := by
      intro cs
      rw [List.map_map, List.flatMap_def]
      rfl
    rw [hsnd, hsnd, hsame]
  rw [← hentries, ← hsealed]
  exact ⟨hmade.nodup, hdisjoint⟩

end SealInv

/-- A list of blocks that each hold no entry twice and none of the blocks
before. -/
theorem leaves_nodup_of_split {bs : List (Block C)}
    (h : ∀ as b cs, bs = as ++ b :: cs → (leaves b.attestations).Nodup ∧
      ∀ x ∈ leaves b.attestations, x ∉ leaves (as.flatMap (·.attestations))) :
    (leaves (bs.flatMap (·.attestations))).Nodup := by
  induction bs using List.reverseRecOn with
  | nil => exact List.nodup_nil
  | append_singleton bs b ih =>
      have hlast := h bs b [] rfl
      rw [List.flatMap_append, List.flatMap_singleton, leaves_append, List.nodup_append]
      refine ⟨ih ?_, hlast.1, ?_⟩
      · rintro as c cs rfl
        exact h as c (cs ++ [b]) (by simp)
      · intro x hx y hy heq
        exact hlast.2 y hy (heq ▸ hx)

/-- In every run of honest validators in which no peer is handed an entry that
is in its pool or in one of its blocks, no entry occurs twice in the blocks an
honest peer finalized. -/
theorem sealed_at_most_once (h₀ : Launched honest genesis w₀)
    (hrun : WorldRun honest newToPeer w₀ w) (hall : AllHonest honest w)
    (hfree : CollisionFree honest w) {k : C.VerifyingKey} (hk : k ∈ honest) :
    ((sealedBy (w k).log).map (·.leafHash)).Nodup := by
  have hinv := SealInv.run h₀ hrun hall
  apply leaves_nodup_of_split
  intro as b cs hsplit
  exact hinv.block_new hfree hk hsplit

/-- The members of the genesis set are honest, as long as nobody records a
change. -/
theorem AllHonest.of_genesis {honest : Finset sample.VerifyingKey}
    {genesis : List sample.VerifyingKey} {w : World sample}
    (hchanges : ∀ k ∈ honest, (w k).engine.registry.genesis = genesis ∧
      (w k).engine.registry.changes = [])
    (hsub : ∀ k ∈ genesis, k ∈ honest) : AllHonest honest w := by
  refine InForce.of_genesis (Q := fun set => set.members ⊆ honest) hchanges ?_
  intro set hset k hk
  rw [ValidatorSet.mem_members, (ValidatorSet.bft_eq_ok hset).1] at hk
  exact hsub k hk

/-- The two values that the members 2 and 3 propose. -/
def firstValue : Proposed sample := sampleValueAt 1 Hash.zero 0 [sampleAttestation 9 7]

def secondValue : Proposed sample := sampleValueAt 2 firstValue.id 0 [sampleAttestation 9 8]

/-- Two entries are gossiped to three of the four members. Member 2 proposes
the first when it hears of it, and member 3 the second at the next height. -/
def twoGossiped : List (sample.VerifyingKey × UInt64 × Event sample) :=
  [1, 2, 3].map (fun k => (k, 0, .start)) ++
  [1, 3].flatMap (fun k => [(k, 0, .attestation (sampleAttestation 9 7)),
    (k, 0, .attestation (sampleAttestation 9 8))]) ++
  [(2, 0, .attestation (sampleAttestation 9 7)), (2, 0, .attestation (sampleAttestation 9 8))] ++
  goodRound 1 0 2 firstValue [1, 2, 3] ++ goodRound 2 0 3 secondValue [1, 2, 3]

/-- Each of the three seals both entries once. -/
theorem sealed_at_most_once_four :
    ∃ w : World sample, WorldRun {1, 2, 3, 4} newToPeer fourWorld w ∧
      (∀ k ∈ ({1, 2, 3} : Finset sample.VerifyingKey),
        sealedBy (w k).log = [sampleAttestation 9 7, sampleAttestation 9 8] ∧
          (w k).engine.mempool = []) ∧
      ∀ k ∈ ({1, 2, 3, 4} : Finset sample.VerifyingKey),
        ((sealedBy (w k).log).map (·.leafHash)).Nodup := by
  have hplays : (World.play {1, 2, 3, 4} newToPeer sampleOrder fourWorld twoGossiped).any
      (fun w => decide ((∀ k ∈ ({1, 2, 3, 4} : Finset sample.VerifyingKey),
          (w k).engine.registry.genesis = [1, 2, 3, 4] ∧ (w k).engine.registry.changes = []) ∧
        (∀ k ∈ ({1, 2, 3} : Finset sample.VerifyingKey),
          sealedBy (w k).log = [sampleAttestation 9 7, sampleAttestation 9 8] ∧
            (w k).engine.mempool = []) ∧
        Collision.find sample.digest ([(1 : sample.VerifyingKey), 2, 3, 4].flatMap fun k =>
          (w k).hashed) = none)) = true := by decide +kernel
  rcases (Option.any_eq_true _ _).mp hplays with ⟨w, hplay, hw⟩
  rcases of_decide_eq_true hw with ⟨hchanges, hsealed, hfind⟩
  have hrun := WorldRun.of_play hplay
  refine ⟨w, hrun, hsealed, fun k hk => ?_⟩
  exact sealed_at_most_once (sampleWorld_launched _ _ _) hrun
    (AllHonest.of_genesis hchanges (by decide)) (CollisionFree.of_find (by simp) hfind) hk

/-- The world of the lone validator 1. -/
def loneWorld : World sample := sampleWorld [1] fun _ => rfl

/-- An attestation that is handed in again after it was sealed is sealed a
second time. -/
theorem resubmitted_sealed_twice :
    ¬ ∀ (honest : Finset sample.VerifyingKey) (genesis : List sample.VerifyingKey)
      (w₀ w : World sample), Launched honest genesis w₀ → WorldRun honest anyStep w₀ w →
      AllHonest honest w → CollisionFree honest w → ∀ k ∈ honest,
        ((sealedBy (w k).log).map (·.leafHash)).Nodup := by
  intro hall
  have hplays : (World.play {(1 : sample.VerifyingKey)} anyStep sampleOrder loneWorld
      [(1, 0, .start), (1, 0, .attestation (sampleAttestation 1 7)),
        (1, 0, .attestation (sampleAttestation 1 7))]).any (fun w =>
      decide ((∀ k ∈ ({(1 : sample.VerifyingKey)} : Finset sample.VerifyingKey),
          (w k).engine.registry.genesis = [(1 : sample.VerifyingKey)] ∧
            (w k).engine.registry.changes = []) ∧
        Collision.find sample.digest ([(1 : sample.VerifyingKey)].flatMap fun k =>
          (w k).hashed) = none ∧
        sealedBy (w 1).log = [sampleAttestation 1 7, sampleAttestation 1 7])) = true := by
    decide +kernel
  rcases (Option.any_eq_true _ _).mp hplays with ⟨w, hplay, hw⟩
  rcases of_decide_eq_true hw with ⟨hchanges, hfind, htwice⟩
  have honce := hall _ _ _ _ (sampleWorld_launched _ _ _) (WorldRun.of_play hplay)
    (AllHonest.of_genesis hchanges (by simp)) (CollisionFree.of_find (by simp) hfind) 1 (by simp)
  rw [htwice] at honce
  simp at honce

end SmartLedger
