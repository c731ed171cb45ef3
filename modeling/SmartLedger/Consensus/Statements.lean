import SmartLedger.Ledger.Binding
import SmartLedger.Consensus.Messages
import SmartLedger.Sample

/-! # What the keys sign

The statements that a key puts its signature to, each with the bytes and the
context that signing and verification use. A verifying signature names its
statement, except that a precommit for a block is nothing but a share of the
block's certificate, and that the order of the keys in a governance change is
not signed (`Statement.payload_eq_iff`).
-/

namespace SmartLedger

variable {C : Crypto}

/-- A validator's contribution to the quorum certificate of a header. -/
def BlockHeader.sign (hdr : BlockHeader) (sk : C.SigningKey) : C.Signature :=
  C.sign sk (hdr.id C).asBytes Context.block

/-- Add a validator's approval to a proposed change. -/
def SignedValidatorChange.approveChange (signed : SignedValidatorChange C) (sk : C.SigningKey)
    (pk : C.VerifyingKey) : SignedValidatorChange C :=
  { signed with
    approvals := signed.approvals ++
      [{ validator := pk, signature := C.sign sk signed.change.signingBytes Context.governance }] }

/-- What a signature says. -/
inductive Statement (C : Crypto) where
  | proposal (height round : UInt64) (blockId : Hash) (validRound : Option UInt64)
  | vote (height round : UInt64) (voteType : VoteType) (blockId : Option Hash)
  | share (blockId : Hash)
  | attestation (hash : Hash)
  | governance (change : ValidatorChange C)
deriving DecidableEq

namespace Statement

/-- The signed bytes and the context. -/
def payload : Statement C → List UInt8 × List UInt8
  | .proposal height round blockId validRound =>
      (proposalSigningBytes height round blockId validRound, Context.proposal)
  | .vote height round voteType blockId => votePayload height round voteType blockId
  | .share blockId => (blockId.asBytes, Context.block)
  | .attestation hash => (hash.asBytes, Context.attestation)
  | .governance change => (change.signingBytes, Context.governance)

def sign (sk : C.SigningKey) (s : Statement C) : C.Signature := C.sign sk s.payload.1 s.payload.2

def verify (pk : C.VerifyingKey) (s : Statement C) (sig : C.Signature) : Bool :=
  C.verify pk s.payload.1 sig s.payload.2

/-- The block that a statement counts for in a certificate. -/
def certified : Statement C → Option Hash
  | .vote _ _ .precommit blockId => blockId
  | .share blockId => some blockId
  | _ => none

/-- The keys of a change fit the 32-bit counters in front of them. -/
def Small : Statement C → Prop
  | .governance change => change.Small
  | _ => True

/-- The statements that one signature stands for. -/
inductive Coincides : Statement C → Statement C → Prop where
  | same (s : Statement C) : Coincides s s
  | certify {s t : Statement C} {blockId : Hash} (hs : s.certified = some blockId)
      (ht : t.certified = some blockId) : Coincides s t
  | reorder {change change' : ValidatorChange C} (h : change.Same change') :
      Coincides (.governance change) (.governance change')

end Statement

/-! ## The code signs and verifies statements -/

section

variable {sk : C.SigningKey} {pk : C.VerifyingKey}

theorem ProposalMsg.create_sig (height round : UInt64) (validRound : Option UInt64)
    (value : Proposed C) : (ProposalMsg.create sk pk height round validRound value).sig =
      (Statement.proposal height round value.id validRound).sign sk := by
  unfold ProposalMsg.create Statement.sign Statement.payload
  rfl

theorem ProposalMsg.verifySig_eq (pm : ProposalMsg C) :
    pm.verifySig =
      (Statement.proposal pm.height pm.round pm.value.id pm.validRound).verify pm.proposer pm.sig := by
  unfold ProposalMsg.verifySig Statement.verify Statement.payload
  rfl

theorem VoteMsg.create_sig (height round : UInt64) (voteType : VoteType) (blockId : Option Hash) :
    (VoteMsg.create sk pk height round voteType blockId).sig =
      (Statement.vote height round voteType blockId).sign sk := by
  unfold VoteMsg.create signVote Statement.sign Statement.payload
  rfl

theorem VoteMsg.verifySig_eq (vm : VoteMsg C) :
    vm.verifySig =
      (Statement.vote vm.height vm.round vm.voteType vm.blockId).verify vm.voter vm.sig := by
  unfold VoteMsg.verifySig verifyVote Statement.verify Statement.payload
  rfl

theorem BlockHeader.sign_eq (hdr : BlockHeader) :
    hdr.sign sk = (Statement.share (hdr.id C)).sign sk := by
  unfold BlockHeader.sign Statement.sign Statement.payload
  rfl

theorem QuorumCertificate.countValid_eq (qc : QuorumCertificate C) (set : ValidatorSet C) :
    qc.countValid set = countSigned set (Statement.share (C := C) qc.blockId).payload.1
      (Statement.share (C := C) qc.blockId).payload.2 ∅ qc.signatures := by
  unfold QuorumCertificate.countValid Statement.payload
  rfl

theorem Attestation.create_signature (hash : Hash) :
    (Attestation.create sk pk hash).signature = (Statement.attestation hash).sign sk := by
  unfold Attestation.create Statement.sign Statement.payload
  rfl

theorem Attestation.verify_eq (a : Attestation C) :
    a.verify = (Statement.attestation a.hash).verify a.pubkey a.signature := by
  unfold Attestation.verify Statement.verify Statement.payload
  rfl

theorem SignedValidatorChange.approveChange_approvals (s : SignedValidatorChange C) :
    (s.approveChange sk pk).approvals =
      s.approvals ++ [⟨pk, (Statement.governance s.change).sign sk⟩] := by
  unfold SignedValidatorChange.approveChange Statement.sign Statement.payload
  rfl

theorem SignedValidatorChange.isAuthorized_eq (s : SignedValidatorChange C)
    (current : ValidatorSet C) :
    s.isAuthorized current = if s.change.isEmpty then false
      else decide (current.threshold ≤
        countSigned current (Statement.governance s.change).payload.1
          (Statement.governance s.change).payload.2 ∅ s.approvals) := by
  unfold SignedValidatorChange.isAuthorized Statement.payload
  rfl

end

/-! ## What the bytes say -/

namespace Statement

variable {s t : Statement C}

/-- A vote counts for a block and is signed as a share of its certificate, or
counts for none and is signed whole. -/
theorem vote_payload_cases (height round : UInt64) (voteType : VoteType) (blockId : Option Hash) :
    (∃ id, (vote height round voteType blockId : Statement C).certified = some id ∧
      (vote height round voteType blockId : Statement C).payload = (id.asBytes, Context.block)) ∨
    (vote height round voteType blockId : Statement C).payload =
      (voteSigningBytes height round voteType blockId, Context.vote) := by
  cases voteType with
  | prevote => exact Or.inr rfl
  | precommit =>
      cases blockId with
      | none => exact Or.inr rfl
      | some id => exact Or.inl ⟨id, rfl, rfl⟩

/-- What is signed under the block context counts for a block. -/
theorem certified_of_context (h : s.payload.2 = Context.block) :
    ∃ id, s.certified = some id ∧ s.payload.1 = id.asBytes := by
  cases s with
  | proposal => exact absurd h.symm Context.block_ne_proposal
  | vote height round voteType blockId =>
      rcases vote_payload_cases (C := C) height round voteType blockId with ⟨id, hcert, heq⟩ | heq
      · exact ⟨id, hcert, congrArg Prod.fst heq⟩
      · rw [heq] at h
        exact absurd h Context.vote_ne_block
  | share id => exact ⟨id, rfl, rfl⟩
  | attestation => exact absurd h Context.attestation_ne_block
  | governance => exact absurd h Context.governance_ne_block

theorem vote_of_context (h : s.payload.2 = Context.vote) :
    ∃ height round voteType blockId, s = .vote height round voteType blockId ∧
      s.payload.1 = voteSigningBytes height round voteType blockId := by
  cases s with
  | proposal => exact absurd h.symm Context.vote_ne_proposal
  | vote height round voteType blockId =>
      rcases vote_payload_cases (C := C) height round voteType blockId with ⟨id, _, heq⟩ | heq
      · rw [heq] at h
        exact absurd h.symm Context.vote_ne_block
      · exact ⟨height, round, voteType, blockId, rfl, congrArg Prod.fst heq⟩
  | share => exact absurd h.symm Context.vote_ne_block
  | attestation => exact absurd h Context.attestation_ne_vote
  | governance => exact absurd h Context.governance_ne_vote

/-- A vote is signed under the block context or the vote context. -/
theorem vote_context (height round : UInt64) (voteType : VoteType) (blockId : Option Hash) :
    (vote height round voteType blockId : Statement C).payload.2 = Context.block ∨
      (vote height round voteType blockId : Statement C).payload.2 = Context.vote :=
  (vote_payload_cases height round voteType blockId).imp
    (fun ⟨_, _, heq⟩ => congrArg Prod.snd heq) (congrArg Prod.snd)

/-- The other contexts are of one kind of statement each, none of them a
vote. -/
theorem not_vote_of_context {context : List UInt8} (hblock : context ≠ Context.block)
    (hvote : context ≠ Context.vote) (h : s.payload.2 = context) (height round : UInt64)
    (voteType : VoteType) (blockId : Option Hash) : s ≠ .vote height round voteType blockId := by
  rintro rfl
  rcases vote_context (C := C) height round voteType blockId with heq | heq
  · exact hblock (h.symm.trans heq)
  · exact hvote (h.symm.trans heq)

theorem proposal_of_context (h : s.payload.2 = Context.proposal) :
    ∃ height round blockId validRound, s = .proposal height round blockId validRound := by
  cases s with
  | proposal height round blockId validRound => exact ⟨height, round, blockId, validRound, rfl⟩
  | vote =>
      exact absurd rfl (not_vote_of_context Context.block_ne_proposal.symm
        Context.vote_ne_proposal.symm h _ _ _ _)
  | share => exact absurd h Context.block_ne_proposal
  | attestation => exact absurd h Context.attestation_ne_proposal
  | governance => exact absurd h Context.governance_ne_proposal

theorem attestation_of_context (h : s.payload.2 = Context.attestation) :
    ∃ hash, s = .attestation hash := by
  cases s with
  | proposal => exact absurd h.symm Context.attestation_ne_proposal
  | vote =>
      exact absurd rfl (not_vote_of_context Context.attestation_ne_block
        Context.attestation_ne_vote h _ _ _ _)
  | share => exact absurd h.symm Context.attestation_ne_block
  | attestation hash => exact ⟨hash, rfl⟩
  | governance => exact absurd h.symm Context.attestation_ne_governance

theorem governance_of_context (h : s.payload.2 = Context.governance) :
    ∃ change, s = .governance change := by
  cases s with
  | proposal => exact absurd h.symm Context.governance_ne_proposal
  | vote =>
      exact absurd rfl (not_vote_of_context Context.governance_ne_block
        Context.governance_ne_vote h _ _ _ _)
  | share => exact absurd h.symm Context.governance_ne_block
  | attestation => exact absurd h Context.attestation_ne_governance
  | governance change => exact ⟨change, rfl⟩

/-- What counts for a block is signed as its id under the block context. -/
theorem payload_of_certified {id : Hash} (h : s.certified = some id) :
    s.payload = (id.asBytes, Context.block) := by
  cases s with
  | proposal => cases h
  | vote height round voteType blockId =>
      cases voteType with
      | prevote => cases h
      | precommit =>
          obtain rfl : blockId = some id := h
          rfl
  | share blockId =>
      obtain rfl := Option.some.inj h
      rfl
  | attestation => cases h
  | governance => cases h

/-- Under the block context the bytes are the id of the block. -/
theorem coincides_of_block (hs : s.payload.2 = Context.block) (h : s.payload = t.payload) :
    s.Coincides t := by
  rcases certified_of_context hs with ⟨id, hcert, hbytes⟩
  rw [h] at hs hbytes
  rcases certified_of_context hs with ⟨id', hcert', hbytes'⟩
  rw [hbytes'] at hbytes
  rw [Hash.asBytes_inj hbytes] at hcert'
  exact Coincides.certify hcert hcert'

/-- Two statements have the same signed bytes under the same context exactly
when they coincide. -/
theorem payload_eq_iff {s t : Statement C} (hs : s.Small) (ht : t.Small) :
    s.payload = t.payload ↔ s.Coincides t := by
  constructor
  · intro h
    have hcontext : t.payload.2 = s.payload.2 := (congrArg Prod.snd h).symm
    have hbytes := congrArg Prod.fst h
    cases s with
    | proposal height round blockId validRound =>
        rcases proposal_of_context hcontext with ⟨height', round', blockId', validRound', rfl⟩
        rcases proposalSigningBytes_inj hbytes with ⟨rfl, rfl, rfl, rfl⟩
        exact Coincides.same _
    | vote height round voteType blockId =>
        -- a precommit for a block is signed as a share of its certificate
        rcases vote_context (C := C) height round voteType blockId with hblock | hvote
        · exact coincides_of_block hblock h
        · rcases vote_of_context hvote with ⟨_, _, _, _, heq, hown⟩
          obtain ⟨rfl, rfl, rfl, rfl⟩ := Statement.vote.inj heq
          rw [hvote] at hcontext
          rcases vote_of_context hcontext with ⟨height', round', voteType', blockId', rfl, hother⟩
          rw [hown, hother] at hbytes
          rcases voteSigningBytes_inj hbytes with ⟨rfl, rfl, rfl, rfl⟩
          exact Coincides.same _
    | share blockId => exact coincides_of_block rfl h
    | attestation hash =>
        rcases attestation_of_context hcontext with ⟨hash', rfl⟩
        obtain rfl := Hash.asBytes_inj hbytes
        exact Coincides.same _
    | governance change =>
        rcases governance_of_context hcontext with ⟨change', rfl⟩
        exact Coincides.reorder (ValidatorChange.same_of_signingBytes_eq hs ht hbytes)
  · intro h
    cases h with
    | same => rfl
    | certify hs ht => rw [payload_of_certified hs, payload_of_certified ht]
    | reorder hsame => simp only [payload, ValidatorChange.signingBytes_eq_of_same hsame]

/-- A change that adds two keys, and the same change with the keys swapped:
one signature approves both. -/
theorem payload_eq_iff_swapped :
    (governance (C := sample) ⟨[2, 3], [1], 7⟩).payload =
      (governance (C := sample) ⟨[3, 2], [1], 7⟩).payload :=
  (payload_eq_iff (C := sample) (by simp [Small, ValidatorChange.Small])
    (by simp [Small, ValidatorChange.Small])).mpr
    (Coincides.reorder ⟨rfl, List.Perm.swap _ _ _, List.Perm.refl _⟩)

/-- A precommit does not only coincide with a share of the certificate: two
precommits for one block, of different rounds, have one payload. -/
theorem precommits_coincide :
    ¬ ∀ s t : Statement sample, s.Small → t.Small → s.payload = t.payload →
      s = t ∨
      (∃ height round blockId, (s = .vote height round .precommit (some blockId) ∧
        t = .share blockId) ∨
        (s = .share blockId ∧ t = .vote height round .precommit (some blockId))) ∨
      ∃ change change', s = .governance change ∧ t = .governance change' ∧
        change.Same change' := by
  intro hall
  rcases hall (.vote 1 0 .precommit (some Hash.zero)) (.vote 1 1 .precommit (some Hash.zero))
    trivial trivial rfl with heq | ⟨_, _, _, ⟨_, hshare⟩ | ⟨hshare, _⟩⟩ | ⟨_, _, hchange, _⟩
  · exact absurd heq (by decide)
  · cases hshare
  · cases hshare
  · cases hchange

end Statement

end SmartLedger
