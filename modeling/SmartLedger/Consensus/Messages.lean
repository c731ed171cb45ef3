import SmartLedger.Ledger.Block

/-! # Wire messages of the consensus and their signing rules

A non-nil precommit is itself a quorum-certificate share: it signs the bare
block id under `Context.block`, and neither height nor round. Prevotes and
nil votes sign the whole vote body under `Context.vote`.
-/

namespace SmartLedger

variable {C : Crypto}

/-! ## Candidate blocks -/

/-- A candidate block value: a header plus the attestations and governance
changes it commits to. -/
structure Proposed (C : Crypto) where
  header : BlockHeader
  attestations : List (Attestation C)
  governance : List (SignedValidatorChange C)
deriving DecidableEq

namespace Proposed

/-- The block id: what everyone votes on. -/
def id (v : Proposed C) : Hash := v.header.id C

/-- Is this a well-formed value on top of `tip` at `height`, given the set
`current` in force there? -/
def isValid (v : Proposed C) (tip : Hash) (height : UInt64) (current : ValidatorSet C) : Bool :=
  if v.attestations.isEmpty && v.governance.isEmpty then false
  else if v.header.height ≠ height || v.header.prevHash ≠ tip then false
  else if v.header.txCount.toNat ≠ v.attestations.length then false
  else if v.attestations.any fun a => !a.verify then false
  else if (MerkleTree.build C (v.attestations.map (·.leafHash))).root C ≠ v.header.merkleRoot then
    false
  else if governanceRoot v.governance ≠ v.header.govRoot then false
  else v.governance.all fun change =>
    change.isAuthorized current && !(change.change.activationHeight ≤ height)

/-- What `isValid` checks, one field per check. -/
structure WellFormed (v : Proposed C) (tip : Hash) (height : UInt64)
    (current : ValidatorSet C) : Prop where
  nonempty : v.attestations ≠ [] ∨ v.governance ≠ []
  height_eq : v.header.height = height
  prevHash_eq : v.header.prevHash = tip
  txCount_eq : v.header.txCount.toNat = v.attestations.length
  attestations_verify : ∀ a ∈ v.attestations, a.verify = true
  merkleRoot_eq :
    (MerkleTree.build C (v.attestations.map (·.leafHash))).root C = v.header.merkleRoot
  govRoot_eq : governanceRoot v.governance = v.header.govRoot
  authorized : ∀ g ∈ v.governance, g.isAuthorized current = true
  activates_later : ∀ g ∈ v.governance, height < g.change.activationHeight

theorem isValid_iff (v : Proposed C) (tip : Hash) (height : UInt64) (current : ValidatorSet C) :
    v.isValid tip height current = true ↔ v.WellFormed tip height current := by
  unfold isValid
  constructor
  · intro h
    split at h
    · cases h
    next hne =>
    split at h
    · cases h
    next hpos =>
    split at h
    · cases h
    next htx =>
    split at h
    · cases h
    next hatt =>
    split at h
    · cases h
    next hroot =>
    split at h
    · cases h
    next hgov =>
    -- none of the early returns was taken
    simp only [List.all_eq_true, Bool.and_eq_true, Bool.not_eq_true', decide_eq_false_iff_not,
      UInt64.not_le] at h
    simp only [Bool.and_eq_true, List.isEmpty_iff, not_and_or] at hne
    simp only [Bool.or_eq_true, decide_eq_true_eq, not_or, not_not] at hpos
    simp only [List.any_eq_true, Bool.not_eq_true', not_exists, not_and,
      Bool.not_eq_false] at hatt
    exact ⟨hne, hpos.1, hpos.2, not_not.mp htx, hatt, not_not.mp hroot, not_not.mp hgov,
      fun g hg => (h g hg).1, fun g hg => (h g hg).2⟩
  · intro h
    have hne : (v.attestations.isEmpty && v.governance.isEmpty) = false := by
      rw [Bool.and_eq_false_iff]
      rcases h.nonempty with hatt | hgov
      · exact Or.inl (by simpa using hatt)
      · exact Or.inr (by simpa using hgov)
    have hatt : (v.attestations.any fun a => !a.verify) = false := by
      rw [List.any_eq_false]
      intro a ha
      simp [h.attestations_verify a ha]
    have hgov : (v.governance.all fun g =>
        g.isAuthorized current && !(g.change.activationHeight ≤ height)) = true := by
      rw [List.all_eq_true]
      intro g hg
      have hlater := h.activates_later g hg
      simp [h.authorized g hg, hlater]
    simp [hne, hatt, hgov, h.height_eq, h.prevHash_eq, h.txCount_eq, h.merkleRoot_eq,
      h.govRoot_eq]

end Proposed

/-! ## Proposals and votes -/

/-- Prevote (phase 1) or precommit (phase 2). -/
inductive VoteType where
  | prevote
  | precommit
deriving DecidableEq, Repr

/-- A proposal for `(height, round)`; `validRound` is set when the proposer
re-proposes a value that earned a polka in that round. -/
structure ProposalMsg (C : Crypto) where
  height : UInt64
  round : UInt64
  validRound : Option UInt64
  value : Proposed C
  proposer : C.VerifyingKey
  sig : C.Signature
deriving DecidableEq

/-- A prevote or precommit for a block id, or for nil. -/
structure VoteMsg (C : Crypto) where
  height : UInt64
  round : UInt64
  voteType : VoteType
  blockId : Option Hash
  voter : C.VerifyingKey
  sig : C.Signature
deriving DecidableEq

inductive ConsensusMsg (C : Crypto) where
  | proposal (pm : ProposalMsg C)
  | vote (vm : VoteMsg C)
deriving DecidableEq

/-- Canonical bytes a proposer signs. -/
def proposalSigningBytes (height round : UInt64) (blockId : Hash) (validRound : Option UInt64) :
    List UInt8 :=
  beBytes64 height ++ (beBytes64 round ++ (blockId.asBytes ++
    match validRound with
    | some vr => 1 :: beBytes64 vr
    | none => [0]))

/-- Canonical bytes for a prevote or a nil vote. -/
def voteSigningBytes (height round : UInt64) (voteType : VoteType) (blockId : Option Hash) :
    List UInt8 :=
  beBytes64 height ++ (beBytes64 round ++
    ((match voteType with
      | .prevote => 0
      | .precommit => 1) ::
    match blockId with
    | some id => 1 :: id.asBytes
    | none => [0]))

/-- The vote bytes determine the vote. -/
theorem voteSigningBytes_inj {h₁ h₂ r₁ r₂ : UInt64} {t₁ t₂ : VoteType} {b₁ b₂ : Option Hash}
    (h : voteSigningBytes h₁ r₁ t₁ b₁ = voteSigningBytes h₂ r₂ t₂ b₂) :
    h₁ = h₂ ∧ r₁ = r₂ ∧ t₁ = t₂ ∧ b₁ = b₂ := by
  unfold voteSigningBytes at h
  -- the fixed-width fields come off the front one by one
  rcases List.append_inj h (by simp) with ⟨hheight, h⟩
  rcases List.append_inj h (by simp) with ⟨hround, h⟩
  rw [List.cons.injEq] at h
  rcases h with ⟨htype, h⟩
  refine ⟨beBytes64_inj hheight, beBytes64_inj hround, ?_, ?_⟩
  · cases t₁ <;> cases t₂ <;> simp_all
  · cases b₁ with
    | none => cases b₂ <;> simp_all
    | some id₁ =>
        cases b₂ with
        | none => simp at h
        | some id₂ =>
            rw [List.cons.injEq] at h
            exact congrArg some (Hash.asBytes_inj h.2)

/-- The proposal bytes determine the proposal, up to its value's id. -/
theorem proposalSigningBytes_inj {h₁ h₂ r₁ r₂ : UInt64} {id₁ id₂ : Hash}
    {vr₁ vr₂ : Option UInt64}
    (h : proposalSigningBytes h₁ r₁ id₁ vr₁ = proposalSigningBytes h₂ r₂ id₂ vr₂) :
    h₁ = h₂ ∧ r₁ = r₂ ∧ id₁ = id₂ ∧ vr₁ = vr₂ := by
  unfold proposalSigningBytes at h
  rcases List.append_inj h (by simp) with ⟨hheight, h⟩
  rcases List.append_inj h (by simp) with ⟨hround, h⟩
  rcases List.append_inj h (by simp) with ⟨hid, h⟩
  refine ⟨beBytes64_inj hheight, beBytes64_inj hround, Hash.asBytes_inj hid, ?_⟩
  cases vr₁ with
  | none => cases vr₂ <;> simp_all
  | some r₁ =>
      cases vr₂ with
      | none => simp at h
      | some r₂ =>
          rw [List.cons.injEq] at h
          exact congrArg some (beBytes64_inj h.2)

namespace ProposalMsg

def create (sk : C.SigningKey) (proposer : C.VerifyingKey) (height round : UInt64)
    (validRound : Option UInt64) (value : Proposed C) : ProposalMsg C :=
  { height, round, validRound, value, proposer
    sig := C.sign sk (proposalSigningBytes height round value.id validRound) Context.proposal }

/-- Authenticate the proposal. -/
def verifySig (pm : ProposalMsg C) : Bool :=
  C.verify pm.proposer (proposalSigningBytes pm.height pm.round pm.value.id pm.validRound) pm.sig
    Context.proposal

end ProposalMsg

/-- What a vote signs: the bare block id for a non-nil precommit, the whole
vote body for everything else; with the context. -/
def votePayload (height round : UInt64) (voteType : VoteType) (blockId : Option Hash) :
    List UInt8 × List UInt8 :=
  match voteType, blockId with
  | .precommit, some id => (id.asBytes, Context.block)
  | _, _ => (voteSigningBytes height round voteType blockId, Context.vote)

def signVote (sk : C.SigningKey) (height round : UInt64) (voteType : VoteType)
    (blockId : Option Hash) : C.Signature :=
  let payload := votePayload height round voteType blockId
  C.sign sk payload.1 payload.2

def verifyVote (pk : C.VerifyingKey) (height round : UInt64) (voteType : VoteType)
    (blockId : Option Hash) (sig : C.Signature) : Bool :=
  let payload := votePayload height round voteType blockId
  C.verify pk payload.1 sig payload.2

namespace VoteMsg

def create (sk : C.SigningKey) (voter : C.VerifyingKey) (height round : UInt64)
    (voteType : VoteType) (blockId : Option Hash) : VoteMsg C :=
  { height, round, voteType, blockId, voter, sig := signVote sk height round voteType blockId }

def verifySig (vm : VoteMsg C) : Bool :=
  verifyVote vm.voter vm.height vm.round vm.voteType vm.blockId vm.sig

/-- A vote created with the matching key verifies. -/
theorem verifySig_create {sk : C.SigningKey} {pk : C.VerifyingKey} (h : C.Matching sk pk)
    (height round : UInt64) (voteType : VoteType) (blockId : Option Hash) :
    (create sk pk height round voteType blockId).verifySig = true := h _ _

end VoteMsg

end SmartLedger
