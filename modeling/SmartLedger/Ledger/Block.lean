import SmartLedger.Ledger.Attestation
import SmartLedger.Ledger.Governance
import SmartLedger.Sample

/-! # Blocks, headers and the quorum certificate that finalizes them

The header is the signable summary of a block; its id is the digest of a
fixed-width encoding. A quorum certificate finalizes a header under a
validator set when enough distinct members signed its id. Two certificates
that finalize different ids expose more than `f` members that signed both
(`fork_accountability`).
-/

namespace SmartLedger

variable {C : Crypto}

/-- The errors of the ledger layer that the modelled code returns. -/
inductive LedgerError where
  | invalidAttestation
  | notIncluded
  | blockIdMismatch
  | insufficientQuorum (got need : Nat)
deriving DecidableEq, Repr

/-- The compact, signable summary of a block. -/
structure BlockHeader where
  height : UInt64
  prevHash : Hash
  merkleRoot : Hash
  txCount : UInt32
  timestamp : UInt64
  govRoot : Hash
deriving DecidableEq, Repr

namespace BlockHeader

/-- The fixed-layout encoding: the block-id preimage. -/
def signingBytes (hdr : BlockHeader) : List UInt8 :=
  beBytes64 hdr.height ++ (hdr.prevHash.asBytes ++ (hdr.merkleRoot.asBytes ++
    (beBytes32 hdr.txCount ++ (beBytes64 hdr.timestamp ++ hdr.govRoot.asBytes))))

/-- The block id. -/
def id (C : Crypto) (hdr : BlockHeader) : Hash := C.digest hdr.signingBytes

end BlockHeader

/-- Proof that a quorum of the validator set finalized a block. -/
structure QuorumCertificate (C : Crypto) where
  blockId : Hash
  signatures : List (ValidatorSig C)
deriving DecidableEq

namespace QuorumCertificate

/-- Count the distinct, in-set, valid signatures over `blockId`. -/
def countValid (qc : QuorumCertificate C) (set : ValidatorSet C) : Nat :=
  countSigned set qc.blockId.asBytes Context.block ∅ qc.signatures

/-- Does this certificate already carry a quorum against `set`? -/
def isFinal (qc : QuorumCertificate C) (set : ValidatorSet C) : Bool :=
  decide (set.threshold ≤ qc.countValid set)

/-- Does the certificate finalize `header` under `set`? -/
def verify (qc : QuorumCertificate C) (header : BlockHeader) (set : ValidatorSet C) :
    Except LedgerError Unit :=
  if qc.blockId ≠ header.id C then .error .blockIdMismatch
  else if qc.countValid set < set.threshold then
    .error (.insufficientQuorum (qc.countValid set) set.threshold)
  else .ok ()

theorem verify_eq_ok_iff (qc : QuorumCertificate C) (header : BlockHeader)
    (set : ValidatorSet C) :
    qc.verify header set = .ok () ↔
      qc.blockId = header.id C ∧ set.threshold ≤ qc.countValid set := by
  unfold verify
  constructor
  · intro h
    split at h
    · cases h
    · split at h
      · cases h
      · next hid hlt => exact ⟨not_not.mp hid, by omega⟩
  · intro h
    rw [if_neg (not_not.mpr h.1), if_neg (by omega)]

/-- `k` has a valid signature over `id` in the certificate. -/
def Signed (qc : QuorumCertificate C) (k : C.VerifyingKey) (id : Hash) : Prop :=
  ∃ vs ∈ qc.signatures, vs.validator = k ∧
    C.verify k id.asBytes vs.signature Context.block = true

/-- A verifying certificate holds valid signatures of at least `threshold`
distinct members, whatever else it carries. -/
theorem exists_signers_of_verify {qc : QuorumCertificate C} {header : BlockHeader}
    {set : ValidatorSet C} (h : qc.verify header set = .ok ()) :
    ∃ signers : Finset C.VerifyingKey, set.threshold ≤ signers.card ∧
      signers ⊆ set.members ∧ ∀ k ∈ signers, qc.Signed k qc.blockId := by
  have hcount := ((verify_eq_ok_iff qc header set).mp h).2
  rcases exists_signers_of_countSigned set qc.blockId.asBytes Context.block ∅ qc.signatures with
    ⟨signers, hcard, hsigners⟩
  refine ⟨signers, ?_, ?_, ?_⟩
  · rw [hcard]
    exact hcount
  · intro k hk
    simpa using (hsigners k hk).1
  · intro k hk
    rcases (hsigners k hk).2.2 with ⟨vs, hvs, hk', hver⟩
    exact ⟨vs, hvs, hk', hver⟩

/-- Sets with the same members and threshold accept the same certificates. -/
theorem verify_congr {set set' : ValidatorSet C} (hmembers : set.members = set'.members)
    (hthreshold : set.threshold = set'.threshold) (qc : QuorumCertificate C)
    (header : BlockHeader) : qc.verify header set = qc.verify header set' := by
  have hcount : qc.countValid set = qc.countValid set' := countSigned_congr hmembers _ _ _ _
  unfold verify
  rw [hcount, hthreshold]

/-- Any keys that can sign make a certificate, and it counts the members
among them. -/
theorem exists_signedBy {signers : Finset C.VerifyingKey}
    (hkeys : ∀ k ∈ signers, ∃ sk, C.Matching sk k)
    (hids : ∀ a ∈ signers, ∀ b ∈ signers, a.id = b.id → a = b) (blockId : Hash) :
    ∃ qc : QuorumCertificate C, qc.blockId = blockId ∧
      ∀ set, qc.countValid set = (signers ∩ set.members).card := by
  let share (vs : { vs : ValidatorSig C //
    C.verify vs.validator blockId.asBytes vs.signature Context.block = true }) := vs.1.validator
  -- every signer has a share that verifies
  have hrange : signers.toList ∈ Set.range (List.map share) := by
    rw [Set.range_list_map]
    intro k hk
    rcases hkeys k (Finset.mem_toList.mp hk) with ⟨sk, hsk⟩
    exact ⟨⟨⟨k, C.sign sk blockId.asBytes Context.block⟩, hsk _ _⟩, rfl⟩
  rcases hrange with ⟨shares, hshares⟩
  have hvalidators : (shares.map Subtype.val).map (·.validator) = signers.toList := by
    rw [← hshares, List.map_map]
    rfl
  have hver : ∀ vs ∈ shares.map Subtype.val,
      C.verify vs.validator blockId.asBytes vs.signature Context.block = true := by
    intro vs hvs
    rcases List.mem_map.mp hvs with ⟨vs', _, rfl⟩
    exact vs'.2
  have hnodup : ((shares.map Subtype.val).map fun vs => vs.validator.id).Nodup := by
    have hmap : (shares.map Subtype.val).map (fun vs => vs.validator.id) =
        signers.toList.map fun k => k.id := by
      rw [← hvalidators]
      simp only [List.map_map]
      rfl
    rw [hmap]
    refine List.Nodup.map_on ?_ signers.nodup_toList
    intro a ha b hb heq
    exact hids a (Finset.mem_toList.mp ha) b (Finset.mem_toList.mp hb) heq
  refine ⟨⟨blockId, shares.map Subtype.val⟩, rfl, ?_⟩
  intro set
  -- nothing is skipped, so the count is that of the members
  have hcount := countSigned_of_verified set blockId.asBytes Context.block ∅
    (shares.map Subtype.val) hver hnodup (fun vs _ => Finset.notMem_empty _)
  refine hcount.trans ?_
  have hfilter : ((shares.map Subtype.val).filter fun vs => set.contains vs.validator).length =
      (signers.toList.filter fun k => set.contains k).length := by
    rw [← hvalidators]
    generalize shares.map Subtype.val = sigs
    rw [List.filter_map, List.length_map]
    rfl
  have hinter : signers ∩ set.members = signers.filter fun k => set.contains k = true := by
    ext k
    simp
  rw [hfilter, hinter, ← Finset.length_toList]
  apply List.Perm.length_eq
  rw [List.perm_ext_iff_of_nodup (signers.nodup_toList.filter _) (Finset.nodup_toList _)]
  intro k
  simp

end QuorumCertificate

/-- A finalized block. -/
structure Block (C : Crypto) where
  header : BlockHeader
  attestations : List (Attestation C)
  governance : List (SignedValidatorChange C)
  qc : QuorumCertificate C
deriving DecidableEq

/-- Fork accountability. Every non-empty key list (duplicates allowed) has a
quorum set; each certificate that verifies under it holds valid signatures of
at least `threshold` distinct members; and two certificates that finalize
different ids name at least `f + 1` distinct members that signed both. -/
theorem fork_accountability (keys : List C.VerifyingKey) (hkeys : keys ≠ []) :
    ∃ set, ValidatorSet.bft keys = .ok set ∧
      (∀ (qc : QuorumCertificate C) (header : BlockHeader), qc.verify header set = .ok () →
        ∃ signers : Finset C.VerifyingKey, set.threshold ≤ signers.card ∧
          signers ⊆ set.members ∧ ∀ k ∈ signers, qc.Signed k qc.blockId) ∧
      ∀ (qc₁ qc₂ : QuorumCertificate C) (h₁ h₂ : BlockHeader), qc₁.blockId ≠ qc₂.blockId →
        qc₁.verify h₁ set = .ok () → qc₂.verify h₂ set = .ok () →
        ∃ culprits : Finset C.VerifyingKey,
          (keys.length - set.threshold) + 1 ≤ culprits.card ∧ culprits ⊆ set.members ∧
          ∀ k ∈ culprits, qc₁.Signed k qc₁.blockId ∧ qc₂.Signed k qc₂.blockId := by
  rcases (ValidatorSet.bft_isOk_iff keys).mpr hkeys with ⟨set, hset⟩
  rcases ValidatorSet.bft_bounds hset with ⟨hf, hthr⟩
  refine ⟨set, hset, fun qc header h => QuorumCertificate.exists_signers_of_verify h, ?_⟩
  intro qc₁ qc₂ h₁ h₂ _ hv₁ hv₂
  rcases QuorumCertificate.exists_signers_of_verify hv₁ with ⟨A, hA, hAm, hAs⟩
  rcases QuorumCertificate.exists_signers_of_verify hv₂ with ⟨B, hB, hBm, hBs⟩
  rw [hthr] at hA hB
  refine ⟨A ∩ B, ?_, Finset.inter_subset_left.trans hAm, ?_⟩
  · rw [← (ValidatorSet.bft_eq_ok hset).1]
    exact Quorum.inter_card hf set.card_members_le hAm hBm hA hB
  · intro k hk
    rcases Finset.mem_inter.mp hk with ⟨hkA, hkB⟩
    exact ⟨hAs k hkA, hBs k hkB⟩

/-- A header of the sample chain, told apart by its timestamp. -/
def sampleHeader (timestamp : UInt64) : BlockHeader where
  height := 1
  prevHash := Hash.zero
  merkleRoot := Hash.zero
  txCount := 0
  timestamp := timestamp
  govRoot := Hash.zero

/-- A certificate for that header by the given signers. -/
def sampleCertificate (timestamp : UInt64) (signers : List UInt8) : QuorumCertificate sample where
  blockId := (sampleHeader timestamp).id sample
  signatures := signers.map fun k =>
    { validator := k
      signature := sampleSign k ((sampleHeader timestamp).id sample).asBytes Context.block }

/-- Four validators, two certificates of three signers each: at least two
members signed both. -/
theorem fork_accountability_four :
    ∃ set : ValidatorSet sample, ValidatorSet.bft (C := sample) [1, 2, 3, 4] = .ok set ∧
      (sampleCertificate 0 [1, 2, 3]).verify (sampleHeader 0) set = .ok () ∧
      (sampleCertificate 1 [2, 3, 4]).verify (sampleHeader 1) set = .ok () ∧
      ∃ culprits : Finset UInt8, 2 ≤ culprits.card ∧ ∀ k ∈ culprits,
        (sampleCertificate 0 [1, 2, 3]).Signed k ((sampleHeader 0).id sample) ∧
        (sampleCertificate 1 [2, 3, 4]).Signed k ((sampleHeader 1).id sample) := by
  rcases fork_accountability (C := sample) [1, 2, 3, 4] (List.cons_ne_nil _ _) with
    ⟨set, hset, _, hfork⟩
  obtain rfl : set = ⟨[1, 2, 3, 4], 3, by decide, by decide⟩ := Except.ok.inj hset.symm
  have hv₀ : (sampleCertificate 0 [1, 2, 3]).verify (sampleHeader 0)
      ⟨[1, 2, 3, 4], 3, by decide, by decide⟩ = .ok () :=
    (QuorumCertificate.verify_eq_ok_iff _ _ _).mpr (by decide +kernel)
  have hv₁ : (sampleCertificate 1 [2, 3, 4]).verify (sampleHeader 1)
      ⟨[1, 2, 3, 4], 3, by decide, by decide⟩ = .ok () :=
    (QuorumCertificate.verify_eq_ok_iff _ _ _).mpr (by decide +kernel)
  rcases hfork _ _ _ _ (by decide +kernel) hv₀ hv₁ with ⟨culprits, hcard, _, hsigned⟩
  exact ⟨_, hset, hv₀, hv₁, culprits, hcard, hsigned⟩

end SmartLedger
