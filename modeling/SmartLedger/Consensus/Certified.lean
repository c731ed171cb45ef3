import SmartLedger.Consensus.Integrity
import SmartLedger.Consensus.Store

/-! # Committed blocks and their certificates

The commit rule counts stored precommits, whoever cast them; the certificate
of the committed block is later counted against the set. The two counts agree
for an engine that is a member of the set. A follower outside the set files
its own votes next to those of the members and counts them, so it commits
blocks that nobody can verify (`follower_commits_uncertified`).

`committed_certified`: as long as an engine outside the set in force accepts
a proposal only with a quorum of members' precommits for it at hand, every
block it commits is certified. It then commits at once, on their votes alone.
-/

namespace SmartLedger

open Engine

variable {C : Crypto} {ord : IterOrder} {e e' : Engine C}

/-- How many of the stored round-`r` precommits for `id` come from members of
the current set whose id is not ours: our own votes never displace them. -/
def Engine.othersPrecommits (e : Engine C) (r : UInt64) (id : Hash) : Nat :=
  KeyMap.countValues
    (fun vm => (vm.blockId == some id && e.currentSet.contains vm.voter) &&
      !(vm.voter.id == e.mePk.id)) (e.precommits.ofRound r)

/-- The engine is a member of the set in force, or the event brings no proposal
it accepts (one for its height, by the designated proposer of its round and
properly signed) unless it already holds a quorum of precommits of other
members for it. -/
def TakesPartAsMember (e : Engine C) (ev : Event C) : Prop :=
  e.mePk ∈ e.currentSet.validators ∨
    ∀ pm, ev = .message (.proposal pm) → e.AcceptsProposal pm →
      e.quorum ≤ e.othersPrecommits pm.round pm.value.id

theorem mem_sortById {keys : List C.VerifyingKey} {k : C.VerifyingKey} :
    k ∈ sortById keys ↔ k ∈ keys := List.mem_insertionSort _

/-- Entering a round adds a proposal only if it is our own, as a member. -/
theorem startRound_proposals {r : UInt64} {out : List (Effect C)}
    (h : e.startRound r = .ok (e', out)) :
    e'.proposals = e.proposals ∨ e'.mePk ∈ e'.validatorsSorted := by
  rcases startRound_frame h with ⟨_, _, rfl, ⟨hsame, _⟩ | ⟨hprop, _⟩⟩
  · exact Or.inl hsame
  · exact Or.inr (proposer_mem hprop)

/-- So does every internal step, apart from clearing the proposals. -/
theorem Engine.Internal.proposals {out : List (Effect C)} (h : Internal ord e out e') :
    (SameHeight e e' ∧ e'.proposals = e.proposals) ∨ e'.proposals = ∅ ∨
      e'.mePk ∈ e'.validatorsSorted := by
  cases h with
  | prevote => exact Or.inl ⟨rfl, rfl⟩
  | schedulePrevote => exact Or.inl ⟨rfl, rfl⟩
  | polka => exact Or.inl ⟨rfl, rfl⟩
  | latePolka => exact Or.inl ⟨rfl, rfl⟩
  | precommitNil => exact Or.inl ⟨rfl, rfl⟩
  | schedulePrecommit => exact Or.inl ⟨rfl, rfl⟩
  | jump hlt hstart =>
      rcases startRound_proposals hstart with hsame | hmem
      · exact Or.inl ⟨(startRound_sameHeight hstart).1, hsame⟩
      · exact Or.inr (Or.inr hmem)
  | wake hparked hwake =>
      rcases wake_frame hwake with ⟨_, rfl, ⟨hsame, _⟩ | ⟨hprop, _⟩⟩
      · exact Or.inl ⟨rfl, hsame⟩
      · exact Or.inr (Or.inr (proposer_mem hprop))
  | commit hpm hquorum hvalid hcommit =>
      rcases commit_cases hcommit with ⟨_, _, _, _, _, hstart, _⟩
      rcases startRound_proposals hstart with hsame | hmem
      · exact Or.inr (Or.inl hsame)
      · exact Or.inr (Or.inr hmem)

/-! ## Facts about finalized blocks -/

/-- A block below the engine's height whose set in force satisfies `Q`. -/
def Settled (Q : Block C → ValidatorSet C → Prop) (e : Engine C) (b : Block C) : Prop :=
  b.header.height < e.height ∧ ∃ set, e.registry.activeSet b.header.height = .ok set ∧ Q b set

namespace Settled

variable {Q : Block C → ValidatorSet C → Prop} {b : Block C}

theorem sameHeight (h : Settled Q e b) (hsame : SameHeight e e') : Settled Q e' b := by
  unfold Settled
  rw [hsame.height, hsame.registry]
  exact h

/-- What is settled stays so when the engine rolls to the next height. -/
theorem rolled (h : Settled Q e b) {v : Proposed C} (pool : List (SignedValidatorChange C))
    {height : UInt64} (set : ValidatorSet C)
    (hvalid : v.isValid e.tip e.height e.currentSet = true)
    (hheight : checkedAdd e.height 1 = .ok height) :
    Settled Q (e.rolled v pool height set) b := by
  rcases h with ⟨hlt, s, hs, hQ⟩
  have hnat := checkedAdd_eq_ok hheight
  have hone : (1 : UInt64).toNat = 1 := rfl
  rw [UInt64.lt_iff_toNat_lt] at hlt
  refine ⟨?_, s, ?_, hQ⟩
  · show b.header.height < height
    rw [UInt64.lt_iff_toNat_lt]
    omega
  · show (e.registry.recordAll v.governance).activeSet b.header.height = _
    rw [activeSet_rolled hvalid (UInt64.le_iff_toNat_le.mpr hlt.le)]
    exact hs

/-- A roll settles the block it rolls over. -/
theorem of_rolled (pool : List (SignedValidatorChange C)) {height : UInt64}
    (set : ValidatorSet C) (hset : e.registry.activeSet e.height = .ok e.currentSet)
    (hvalid : b.value.isValid e.tip e.height e.currentSet = true)
    (hheight : checkedAdd e.height 1 = .ok height) (hQ : Q b e.currentSet) :
    Settled Q (e.rolled b.value pool height set) b := by
  have hb : b.header.height = e.height := ((Proposed.isValid_iff _ _ _ _).mp hvalid).height_eq
  refine ⟨?_, e.currentSet, ?_, hQ⟩
  · show b.header.height < height
    rw [hb, UInt64.lt_iff_toNat_lt, checkedAdd_eq_ok hheight]
    exact Nat.lt_succ_self _
  · show (e.registry.recordAll b.value.governance).activeSet b.header.height = _
    rw [hb, activeSet_rolled hvalid (UInt64.le_refl _)]
    exact hset

end Settled

/-! ## Certificates of members -/

/-- If the engine was a member at the block's height, the block's certificate
verifies. -/
def CertifiedIfMember (mePk : C.VerifyingKey) (b : Block C) (set : ValidatorSet C) : Prop :=
  mePk ∈ set.validators → b.qc.verify b.header set = .ok ()

/-- Along any run: the stores are authentic, and a block that was committed by
a member, or applied, is certified. -/
structure Certified (s₀ : ChainState C) (log : List (Output C)) (e : Engine C) : Prop where
  keys : C.Matching e.meSk e.mePk
  stores : e.StoresHold e.Authentic
  onChain : OnChain s₀ (finalized log) e
  blocks : ∀ b ∈ finalized log, Settled (CertifiedIfMember e.mePk) e b

namespace Certified

variable {s₀ : ChainState C} {log : List (Output C)}

/-- A block assembled by a member verifies. -/
theorem assembleBlock_verify (h : Certified s₀ log e) {r : UInt64} {v : Proposed C}
    (hmember : e.mePk ∈ e.currentSet.validators)
    (hquorum : e.quorum ≤ e.countPrecommits r (.id v.id)) :
    (e.assembleBlock ord r v.id v).qc.verify (e.assembleBlock ord r v.id v).header e.currentSet =
      .ok () := by
  apply (assembleBlock_verify_iff h.stores.2 (fun vm hvm => hvm.1) r v).mpr
  apply hquorum.trans
  apply memberPrecommits_of_members h.stores.2
  intro vm hvm
  -- a stored vote is of a member, or our own
  rcases hvm.2 with hin | hme
  · exact hin
  · rw [hme]
    exact hmember

theorem internal {out : List (Effect C)} (h : Certified s₀ log e) (hi : Internal ord e out e') :
    Certified s₀ (log ++ effects out) e' := by
  have hchain := h.onChain.internal hi
  rw [← finalized_append] at hchain
  have hkeys : C.Matching e'.meSk e'.mePk := by
    rw [hi.keys.1, hi.keys.2]
    exact h.keys
  refine ⟨hkeys, h.stores.authentic_internal h.keys hi, hchain, ?_⟩
  intro b hb
  rw [finalized_append, List.mem_append] at hb
  rw [hi.keys.2]
  rcases hi.height_cases with ⟨hsame, hnone⟩ | hcommit
  · rw [hnone] at hb
    rcases hb with hb | hb
    · exact (h.blocks b hb).sameHeight hsame
    · cases hb
  · rcases hcommit with ⟨r, pm, height, set, hpm, hquorum, hvalid, hheight, _, hsame, hone⟩
    rw [hone, List.mem_singleton] at hb
    rcases hb with hb | rfl
    · exact ((h.blocks b hb).rolled _ set hvalid hheight).sameHeight hsame
    · have hQ : CertifiedIfMember e.mePk (e.assembleBlock ord r pm.value.id pm.value)
          e.currentSet := fun hmember => h.assembleBlock_verify hmember hquorum
      -- the block just committed carries its certificate, if we are a member
      have hsettled := Settled.of_rolled (b := e.assembleBlock ord r pm.value.id pm.value)
        (dropEnacted pm.value.governance e.govMempool) set h.onChain.set hvalid hheight hQ
      exact hsettled.sameHeight hsame

theorem enter {ev : Event C} {out : List (Output C)} (h : Certified s₀ log e)
    (hent : Enter ev e out e') : Certified s₀ (log ++ out) e' := by
  have hchain := h.onChain.enter hent
  rw [← finalized_append] at hchain
  have hkeys : C.Matching e'.meSk e'.mePk := by
    rw [hent.keys.1, hent.keys.2]
    exact h.keys
  refine ⟨hkeys, h.stores.authentic_enter hent, hchain, ?_⟩
  intro b hb
  rw [finalized_append, List.mem_append] at hb
  rw [hent.keys.2]
  rcases hent.height_cases with ⟨hsame, hnone⟩ | hsync
  · rw [hnone] at hb
    rcases hb with hb | hb
    · exact (h.blocks b hb).sameHeight hsame
    · cases hb
  · rcases hsync with ⟨b', height, set, _, hvalid, hqc, hheight, _, rfl, rfl⟩
    rcases hb with hb | hb
    · exact ((h.blocks b hb).rolled e.govMempool set hvalid hheight).sameHeight rfl
    · obtain rfl : b = b' := List.mem_singleton.mp hb
      have hQ : CertifiedIfMember e.mePk b e.currentSet := fun _ => hqc
      have hsettled := Settled.of_rolled e.govMempool set h.onChain.set hvalid hheight hQ
      exact hsettled.sameHeight rfl

theorem withRegistry {registry : ValidatorRegistry C} {meSk : C.SigningKey}
    {mePk : C.VerifyingKey} {tip₀ : Hash} {h₀ : UInt64} (hkeys : C.Matching meSk mePk)
    (hnew : Engine.withRegistry registry meSk mePk tip₀ h₀ = .ok e) :
    Certified ⟨registry, tip₀, h₀.toNat⟩ [] e := by
  have hchain := OnChain.withRegistry hnew
  rcases withRegistry_eq_ok hnew with ⟨set, _, rfl⟩
  exact ⟨hkeys, StoresHold.of_empty rfl rfl, hchain, fun b hb => by cases hb⟩

theorem trace {guard : Engine C → Event C → Prop} {e₀ : Engine C} {evs : List (Event C)}
    (h₀ : Certified s₀ [] e₀) (htrace : Trace guard e₀ evs log e) : Certified s₀ log e := by
  induction htrace with
  | init => exact h₀
  | enter _ _ hent ih => exact ih.enter hent
  | internal _ hi ih => exact ih.internal hi

end Certified

/-! ## Votes of the other members -/

namespace Engine

theorem othersPrecommits_le_member (e : Engine C) (r : UInt64) (id : Hash) :
    e.othersPrecommits r id ≤ e.memberPrecommits r id := by
  apply KeyMap.countValues_mono
  intro k vm hk hothers
  rw [Bool.and_eq_true] at hothers
  exact ⟨vm, hk, hothers.1⟩

/-- The precommits of `e` that are not filed under our id are still there. -/
def KeepsPrecommits (e e' : Engine C) : Prop :=
  ∀ r k vm, (e.precommits.ofRound r).lookup k = some vm → k ≠ e.mePk.id →
    (e'.precommits.ofRound r).lookup k = some vm

theorem KeepsPrecommits.of_eq (h : e'.precommits = e.precommits) : KeepsPrecommits e e' := by
  intro r k vm hk _
  rwa [h]

theorem KeepsPrecommits.put {vm : VoteMsg C} (h : e'.precommits = e.precommits.put r e.mePk.id vm) :
    KeepsPrecommits e e' := by
  intro r k vm hk hne
  rw [h]
  exact VoteStore.lookup_put_of_ne hne hk

theorem KeepsPrecommits.others_le {G : VoteMsg C → Prop} {height : UInt64}
    (h : KeepsPrecommits e e') (hsame : SameHeight e e')
    (hs : VoteStore.Holds G height .precommit e.precommits) (r : UInt64) (id : Hash) :
    e.othersPrecommits r id ≤ e'.othersPrecommits r id := by
  unfold othersPrecommits
  rw [hsame.currentSet, hsame.mePk]
  apply KeyMap.countValues_mono
  intro k vm hk hothers
  refine ⟨vm, h r k vm hk ?_, hothers⟩
  -- an entry is filed under its voter's id
  rw [← (hs r k vm hk).1]
  simp only [Bool.and_eq_true, Bool.not_eq_true', beq_eq_false_iff_ne] at hothers
  exact hothers.2

/-- A round is entered with the precommits as they are. -/
theorem startRound_precommits {r : UInt64} {out : List (Effect C)}
    (h : e.startRound r = .ok (e', out)) : e'.precommits = e.precommits := by
  rcases startRound_frame h with ⟨_, _, rfl, _⟩
  rfl

theorem Internal.keepsPrecommits {out : List (Effect C)} (h : Internal ord e out e') :
    KeepsPrecommits e e' ∨ e'.proposals = ∅ ∨ e'.mePk ∈ e'.validatorsSorted := by
  cases h with
  | prevote => exact Or.inl (KeepsPrecommits.of_eq rfl)
  | schedulePrevote => exact Or.inl (KeepsPrecommits.of_eq rfl)
  | polka => exact Or.inl (KeepsPrecommits.put rfl)
  | latePolka => exact Or.inl (KeepsPrecommits.of_eq rfl)
  | precommitNil => exact Or.inl (KeepsPrecommits.put rfl)
  | schedulePrecommit => exact Or.inl (KeepsPrecommits.of_eq rfl)
  | jump _ hstart => exact Or.inl (KeepsPrecommits.of_eq (startRound_precommits hstart))
  | wake _ hwake =>
      rcases wake_frame hwake with ⟨_, rfl, _⟩
      exact Or.inl (KeepsPrecommits.of_eq rfl)
  | commit _ _ _ hcommit =>
      rcases commit_cases hcommit with ⟨_, _, _, _, _, hstart, _⟩
      rcases startRound_proposals hstart with hsame | hmem
      · exact Or.inr (Or.inl hsame)
      · exact Or.inr (Or.inr hmem)

end Engine

/-! ## Taking part only as a member -/

/-- Under `TakesPartAsMember`: outside the set the engine holds a proposal only
with a quorum of precommits of other members for it, and what it committed is
certified. -/
structure MemberOnly (log : List (Output C)) (e : Engine C) : Prop where
  vouched : e.mePk ∉ e.currentSet.validators → ∀ r pm, e.proposals.lookup r = some pm →
    e.quorum ≤ e.othersPrecommits r pm.value.id
  committed : ∀ b, .effect (.committed b) ∈ log →
    Settled (fun b set => b.qc.verify b.header set = .ok ()) e b

namespace MemberOnly

variable {s₀ : ChainState C} {log : List (Output C)}

theorem assembleBlock_verify (h : MemberOnly log e) (hc : Certified s₀ log e) {r : UInt64}
    {pm : ProposalMsg C} (hpm : e.proposals.lookup r = some pm)
    (hquorum : e.quorum ≤ e.countPrecommits r (.id pm.value.id)) :
    (e.assembleBlock ord r pm.value.id pm.value).qc.verify
      (e.assembleBlock ord r pm.value.id pm.value).header e.currentSet = .ok () := by
  by_cases hmember : e.mePk ∈ e.currentSet.validators
  · exact hc.assembleBlock_verify hmember hquorum
  · apply (assembleBlock_verify_iff hc.stores.2 (fun vm hvm => hvm.1) r pm.value).mpr
    exact (h.vouched hmember r pm hpm).trans (othersPrecommits_le_member _ _ _)

theorem internal {out : List (Effect C)} (h : MemberOnly log e) (hc : Certified s₀ log e)
    (hi : Internal ord e out e') : MemberOnly (log ++ effects out) e' := by
  have hon := hc.onChain
  -- a new height has no proposal to vouch for
  have hnone : e'.proposals = ∅ → ∀ r pm, e'.proposals.lookup r = some pm →
      e'.quorum ≤ e'.othersPrecommits r pm.value.id := by
    intro hempty r pm hpm
    rw [hempty] at hpm
    simp at hpm
  -- and a follower is never the proposer
  have hin : e'.mePk ∉ e'.currentSet.validators → ¬ e'.mePk ∈ e'.validatorsSorted := by
    intro hout hmem
    rw [(hon.internal hi).roster, mem_sortById] at hmem
    exact hout hmem
  constructor
  · intro hout
    rcases hi.proposals with ⟨hsame, heq⟩ | hempty | hmem
    · rcases hi.keepsPrecommits with hkeeps | hempty | hmem
      · intro r pm hpm
        rw [heq] at hpm
        rw [hsame.mePk, hsame.currentSet] at hout
        have hle := hkeeps.others_le hsame hc.stores.2 r pm.value.id
        unfold quorum
        rw [hsame.currentSet]
        exact (h.vouched hout r pm hpm).trans hle
      · exact hnone hempty
      · exact absurd hmem (hin hout)
    · exact hnone hempty
    · exact absurd hmem (hin hout)
  · intro b hb
    rw [List.mem_append, mem_effects] at hb
    have hfin : .committed b ∈ out → b ∈ finalized (effects out) :=
      fun hmem => committed_mem_finalized (mem_effects.mpr hmem)
    rcases hi.height_cases with ⟨hsame, hquiet⟩ | hcommit
    · rcases hb with hb | hb
      · exact (h.committed b hb).sameHeight hsame
      · have hmem := hfin hb
        rw [hquiet] at hmem
        cases hmem
    · rcases hcommit with ⟨r, pm, height, set, hpm, hquorum, hvalid, hheight, _, hsame, hone⟩
      rcases hb with hb | hb
      · exact ((h.committed b hb).rolled _ set hvalid hheight).sameHeight hsame
      · have hmem := hfin hb
        rw [hone, List.mem_singleton] at hmem
        subst hmem
        have hsettled := Settled.of_rolled
          (Q := fun b set => b.qc.verify b.header set = .ok ())
          (b := e.assembleBlock ord r pm.value.id pm.value)
          (dropEnacted pm.value.governance e.govMempool) set hon.set hvalid hheight
          (h.assembleBlock_verify hc hpm hquorum)
        exact hsettled.sameHeight hsame

/-- An input that leaves the height alone adds a proposal only under the guard,
and takes away no precommit. -/
theorem enter_vouched {ev : Event C} {out : List (Output C)} (h : MemberOnly log e)
    (hc : Certified s₀ log e) (hguard : TakesPartAsMember e ev) (hent : Enter ev e out e')
    (hsame : SameHeight e e') (hout : e.mePk ∉ e.currentSet.validators) {r : UInt64}
    {pm : ProposalMsg C} (hpm : e'.proposals.lookup r = some pm) :
    e'.quorum ≤ e'.othersPrecommits r pm.value.id := by
  have hroster := (hc.onChain.enter hent).roster
  -- precommits are not taken back, so what vouched before still does
  have hkept : KeepsPrecommits e e' → e.proposals.lookup r = some pm →
      e'.quorum ≤ e'.othersPrecommits r pm.value.id := by
    intro hkeeps hold
    unfold quorum
    rw [hsame.currentSet]
    exact (h.vouched hout r pm hold).trans (hkeeps.others_le hsame hc.stores.2 r pm.value.id)
  have hround : ∀ {r' out}, e.startRound r' = .ok (e', out) →
      e'.quorum ≤ e'.othersPrecommits r pm.value.id := by
    intro r' out hstart
    rcases startRound_proposals hstart with heq | hmem
    · rw [heq] at hpm
      exact hkept (KeepsPrecommits.of_eq (startRound_precommits hstart)) hpm
    · -- a round of our own making brings no proposal, as we are not its proposer
      rw [hroster, mem_sortById, hsame.mePk, hsame.currentSet] at hmem
      exact absurd hmem hout
  cases hent with
  | start hstart => exact hround hstart
  | message hi =>
      cases ingest_cases hi with
      | ignored => exact hkept (KeepsPrecommits.of_eq rfl) hpm
      | @proposal pm' hacc =>
          rcases KeyMap.lookup_orInsert_cases hpm with hold | ⟨rfl, rfl, _⟩
          · exact hkept (KeepsPrecommits.of_eq rfl) hold
          · exact (hguard.resolve_left hout) _ rfl hacc
      | prevote => exact hkept (KeepsPrecommits.of_eq rfl) hpm
      | precommit =>
          refine hkept ?_ hpm
          intro r k vm hk _
          exact VoteStore.lookup_offer_of_some hk
  | timeout => exact hkept (KeepsPrecommits.of_eq rfl) hpm
  | attestation => exact hkept (KeepsPrecommits.of_eq rfl) hpm
  | governance => exact hkept (KeepsPrecommits.of_eq rfl) hpm
  | refused => exact hkept (KeepsPrecommits.of_eq rfl) hpm
  | synced hsync =>
      rcases applySyncedBlock_cases hsync with ⟨_, _, _, _, _, _, rfl⟩
      simp [rolled, clearHeight] at hpm
  | rejected => exact hkept (KeepsPrecommits.of_eq rfl) hpm
  | resume hstart => exact hround hstart
  | setTime => exact hkept (KeepsPrecommits.of_eq rfl) hpm

theorem enter {ev : Event C} {out : List (Output C)} (h : MemberOnly log e)
    (hc : Certified s₀ log e) (hguard : TakesPartAsMember e ev) (hent : Enter ev e out e') :
    MemberOnly (log ++ out) e' := by
  constructor
  · intro hout r pm hpm
    rcases hent.height_cases with ⟨hsame, _⟩ | ⟨_, _, _, _, _, _, _, _, rfl, _⟩
    · rw [hsame.mePk, hsame.currentSet] at hout
      exact h.enter_vouched hc hguard hent hsame hout hpm
    · simp [rolled, clearHeight] at hpm
  · intro b hb
    rw [List.mem_append] at hb
    rcases hent.height_cases with ⟨hsame, hnone⟩ | hsync
    · rcases hb with hb | hb
      · exact (h.committed b hb).sameHeight hsame
      · have hmem := committed_mem_finalized hb
        rw [hnone] at hmem
        cases hmem
    · rcases hsync with ⟨b', height, set, _, hvalid, _, hheight, _, rfl, rfl⟩
      rcases hb with hb | hb
      · exact ((h.committed b hb).rolled e.govMempool set hvalid hheight).sameHeight rfl
      · cases List.mem_singleton.mp hb

end MemberOnly

/-- In every run in which the engine takes part only as a member, every block
it commits verifies under the set in force at the block's height: at least
`threshold` distinct members validly signed its id. -/
theorem committed_certified {registry : ValidatorRegistry C} {meSk : C.SigningKey}
    {mePk : C.VerifyingKey} {tip₀ : Hash} {h₀ : UInt64} {e₀ : Engine C} {evs : List (Event C)}
    {log : List (Output C)} (hkeys : C.Matching meSk mePk)
    (hnew : withRegistry registry meSk mePk tip₀ h₀ = .ok e₀)
    (hrun : Run TakesPartAsMember e₀ evs log e) {b : Block C}
    (hb : .effect (.committed b) ∈ log) :
    ∃ set, e.registry.activeSet b.header.height = .ok set ∧ b.qc.verify b.header set = .ok () ∧
      ∃ signers : Finset C.VerifyingKey, set.threshold ≤ signers.card ∧
        signers ⊆ set.members ∧ ∀ k ∈ signers, b.qc.Signed k (b.header.id C) := by
  have hinit := Certified.withRegistry hkeys hnew
  have hempty : e₀.proposals = ∅ := by
    rcases withRegistry_eq_ok hnew with ⟨set, _, rfl⟩
    rfl
  -- both facts go along every step of the run
  have hboth : Certified ⟨registry, tip₀, h₀.toNat⟩ log e ∧ MemberOnly log e := by
    have htrace := hrun.trace
    clear hb hrun
    induction htrace with
    | init =>
        refine ⟨hinit, ?_, fun b hb => by cases hb⟩
        intro _ r pm hpm
        rw [hempty] at hpm
        simp at hpm
    | enter _ hguard hent ih => exact ⟨ih.1.enter hent, ih.2.enter ih.1 hguard hent⟩
    | internal _ hi ih => exact ⟨ih.1.internal hi, ih.2.internal ih.1 hi⟩
  rcases hboth.2.committed b hb with ⟨_, set, hset, hver⟩
  rcases QuorumCertificate.exists_signers_of_verify hver with ⟨signers, hcard, hsub, hsigned⟩
  rw [((QuorumCertificate.verify_eq_ok_iff _ _ _).mp hver).1] at hsigned
  exact ⟨set, hset, hver, signers, hcard, hsub, hsigned⟩

/-- The block of a `Committed` effect. -/
def Output.committed? : Output C → Option (Block C)
  | .effect (.committed b) => some b
  | _ => none

theorem Output.committed?_eq_some {o : Output C} {b : Block C} (h : o.committed? = some b) :
    o = .effect (.committed b) := by
  unfold Output.committed? at h
  split at h
  · rw [Option.some.inj h]
  · cases h

instance Engine.AcceptsProposal.decidable (e : Engine C) (pm : ProposalMsg C) :
    Decidable (e.AcceptsProposal pm) := by
  unfold Engine.AcceptsProposal
  infer_instance

instance TakesPartAsMember.decidable (e : Engine C) :
    (ev : Event C) → Decidable (TakesPartAsMember e ev)
  | .message (.proposal pm) =>
      decidable_of_iff (e.currentSet.contains e.mePk = true ∨ (e.AcceptsProposal pm →
        e.quorum ≤ e.othersPrecommits pm.round pm.value.id)) (by simp [TakesPartAsMember])
  | .message (.vote _) | .start | .resume | .synced _ | .timeout _ _ _ | .attestation _
  | .governance _ | .setTime _ => .isTrue (by simp [TakesPartAsMember])

/-- The value that member 2 of four proposes in round 0. -/
def sealedByFour : Proposed sample := sampleValue [sampleAttestation 1 7]

/-- Member 1 takes part: it hears the proposal, and the votes of 2 and 3. -/
def memberInput : List (Event sample) :=
  [.start, .message (sampleProposal 2 0 none sealedByFour),
    .message (sampleVote 2 0 .prevote (some sealedByFour.id)),
    .message (sampleVote 3 0 .prevote (some sealedByFour.id)),
    .message (sampleVote 2 0 .precommit (some sealedByFour.id)),
    .message (sampleVote 3 0 .precommit (some sealedByFour.id))]

/-- Key 5 follows: it hears the precommits of three members first. -/
def watcherInput : List (Event sample) :=
  [.start, .message (sampleVote 1 0 .precommit (some sealedByFour.id)),
    .message (sampleVote 3 0 .precommit (some sealedByFour.id)),
    .message (sampleVote 4 0 .precommit (some sealedByFour.id)),
    .message (sampleProposal 2 0 none sealedByFour)]

/-- On these inputs key `me` commits the block of the four, with a certificate
that verifies. -/
def CertifiesSealed (me : UInt8) (evs : List (Event sample)) : Prop :=
  ∃ (e₀ e : Engine sample) (log : List (Output sample)) (b : Block sample),
    sampleEngine [1, 2, 3, 4] me = .ok e₀ ∧ Run TakesPartAsMember e₀ evs log e ∧
    .effect (.committed b) ∈ log ∧ b.value = sealedByFour ∧
    ∃ set, e.registry.activeSet b.header.height = .ok set ∧ b.qc.verify b.header set = .ok ()

/-- Both do. -/
theorem committed_certified_four :
    CertifiesSealed 1 memberInput ∧ CertifiesSealed 5 watcherInput := by
  have hall : ∀ me evs, (sampleRunWhile TakesPartAsMember [1, 2, 3, 4] me evs).holds
      (fun r => r.2.2 && (r.2.1.any fun o => o.committed?.any fun b =>
        decide (b.value = sealedByFour))) = true → CertifiesSealed me evs := by
    intro me evs hholds
    rcases Run.of_sampleRunWhile (p := fun r => r.2.any fun o => o.committed?.any fun b =>
      decide (b.value = sealedByFour)) hholds with ⟨e₀, e, log, hnew, hrun, hany⟩
    rcases List.any_eq_true.mp hany with ⟨o, ho, hcommit⟩
    rcases (Option.any_eq_true _ _).mp hcommit with ⟨b, hb, hvalue⟩
    rw [Output.committed?_eq_some hb] at ho
    rcases committed_certified (sample_matching me) hnew hrun ho with ⟨set, hset, hver, _⟩
    exact ⟨e₀, e, log, b, hnew, hrun, ho, of_decide_eq_true hvalue, set, hset, hver⟩
  constructor
  · exact hall 1 memberInput (by decide +kernel)
  · exact hall 5 watcherInput (by decide +kernel)

/-- The attestation that validator 1 proposes in round 0. -/
def followerInput : List (Event sample) :=
  [.start, .message (sampleProposal 1 0 none (sampleValue [sampleAttestation 1 7]))]

/-- Key 2 follows the chain of the lone validator 1. On the proposal alone it
counts its own prevote and precommit, and commits a block whose certificate
holds no signature of a member. -/
theorem follower_commits_uncertified :
    ¬ ∀ (genesis : List UInt8) (me : UInt8) (evs : List (Event sample)) (e₀ e : Engine sample)
      (log : List (Output sample)) (b : Block sample),
      sampleEngine genesis me = .ok e₀ → Run anyEvent e₀ evs log e →
      .effect (.committed b) ∈ log →
      ∃ set, e.registry.activeSet b.header.height = .ok set ∧ b.qc.verify b.header set = .ok () := by
  intro hall
  have hholds : (sampleRun [1] 2 followerInput).holds
      (fun r => r.2.any fun o => o.committed?.any fun b =>
        !(r.1.registry.activeSet b.header.height).holds
          fun set => (b.qc.verify b.header set).isOk) = true := by decide +kernel
  rcases Run.of_sampleRun (fun _ _ _ => trivial) hholds with ⟨e₀, e, log, hnew, hrun, hany⟩
  rcases List.any_eq_true.mp hany with ⟨o, ho, hcommit⟩
  rcases (Option.any_eq_true _ _).mp hcommit with ⟨b, hb, hbad⟩
  rw [Output.committed?_eq_some hb] at ho
  rcases hall [1] 2 followerInput e₀ e log b hnew hrun ho with ⟨set, hset, hver⟩
  rw [Bool.not_eq_true', ← Bool.not_eq_true] at hbad
  exact hbad (Exec.holds_iff.mpr ⟨set, hset, by rw [hver]; rfl⟩)

end SmartLedger
