import SmartLedger.Consensus.Binding
import SmartLedger.Node.Replay

/-! # The offline client

A client verifies a proof against the validators of its genesis file,
whatever governance happened since. `verifyProof_agrees_iff` says when this
is the verification that the chain's own history calls for: exactly as long
as the set in force at the block's height is the genesis set again.
-/

namespace SmartLedger

variable {C : Crypto}

/-- A validator's public identity and where to reach it. -/
structure ValidatorInfo (C : Crypto) where
  pubkey : C.VerifyingKey
  addr : String

/-- The shared starting parameters. -/
structure GenesisConfig (C : Crypto) where
  chainId : String
  validators : List (ValidatorInfo C)

/-- The public keys, in roster order. -/
def GenesisConfig.validatorKeys (genesis : GenesisConfig C) : List C.VerifyingKey :=
  genesis.validators.map (·.pubkey)

/-- Verify a proof offline against the validator set defined by `genesis`. -/
def verifyProof (proof : NotarizationProof C) (genesis : GenesisConfig C) : Exec Bool := do
  let set ← ValidatorSet.bft genesis.validatorKeys
  return (proof.verify set).isOk

/-- The proof a node serves for `hash`, from its committed blocks. -/
def findProof (hash : Hash) : List (Block C) → Exec (Option (NotarizationProof C))
  | [] => .ok none
  | block :: rest =>
      match block.attestations.findIdx? fun a => a.hash = hash with
      | some index => NotarizationProof.fromBlock block index
      | none => findProof hash rest

theorem verifyProof_eq_true_iff {genesis : GenesisConfig C} {set : ValidatorSet C}
    (hset : ValidatorSet.bft genesis.validatorKeys = .ok set) (p : NotarizationProof C) :
    verifyProof p genesis = .ok true ↔ p.verify set = .ok () := by
  unfold verifyProof
  rw [hset]
  show (Except.ok (p.verify set).isOk : Exec Bool) = .ok true ↔ _
  rw [Except.ok.injEq]
  cases p.verify set with
  | ok u => simp [Except.isOk, Except.toBool]
  | error err => simp [Except.isOk, Except.toBool]

/-- A served proof was extracted from a stored block. -/
theorem findProof_origin {hash : Hash} {bs : List (Block C)} {p : NotarizationProof C}
    (h : findProof hash bs = .ok (some p)) :
    ∃ b ∈ bs, ∃ index, NotarizationProof.fromBlock b index = .ok (some p) := by
  induction bs with
  | nil => cases Except.ok.inj h
  | cons b bs ih =>
      unfold findProof at h
      split at h
      · next index _ => exact ⟨b, List.mem_cons_self, index, h⟩
      · rcases ih h with ⟨b', hb', index, hproof⟩
        exact ⟨b', List.mem_cons_of_mem _ hb', index, hproof⟩

/-! ## Finalized chains -/

/-- A chain from a genesis roster, each block finalized under the set in
force at its height. -/
structure FinalizedFrom (genesis : List C.VerifyingKey) (bs : List (Block C)) : Prop where
  chain : Chain (genesisState genesis) bs
  certified : ∀ b ∈ bs, ∃ set, (recorded genesis bs).activeSet b.header.height = .ok set ∧
    b.qc.verify b.header set = .ok ()

theorem recorded_eq (genesis : List C.VerifyingKey) (bs : List (Block C)) :
    recorded genesis bs = ((genesisState genesis).pushAll bs).registry := by
  have hgen : (recorded genesis bs).genesis =
      ((genesisState genesis).pushAll bs).registry.genesis := by
    rw [ChainState.pushAll_genesis]
    exact ValidatorRegistry.recordAll_genesis _ _
  have hchanges : (recorded genesis bs).changes =
      ((genesisState genesis).pushAll bs).registry.changes := by
    rw [ChainState.pushAll_changes, recorded_changes]
    rfl
  cases hr : recorded genesis bs with
  | mk g c =>
      cases hp : ((genesisState genesis).pushAll bs).registry with
      | mk g' c' =>
          rw [hr, hp] at hgen hchanges
          dsimp only at hgen hchanges
          rw [hgen, hchanges]

namespace FinalizedFrom

variable {genesis : List C.VerifyingKey} {bs : List (Block C)}

/-- The genesis roster of a chain that has a block is not empty. -/
theorem genesis_set (h : FinalizedFrom genesis bs) {b : Block C} (hb : b ∈ bs) :
    ∃ set, ValidatorSet.bft genesis = .ok set := by
  rcases List.mem_iff_getElem?.mp hb with ⟨i, hi⟩
  have hpos : 0 < bs.length := by
    have hlt := (List.getElem?_eq_some_iff.mp hi).1
    omega
  have hfirst : bs[0]? = some bs[0] := List.getElem?_eq_getElem hpos
  rcases Chain.block_at h.chain hfirst with ⟨_, set, hset, _⟩
  -- nothing is recorded before the first block
  exact ⟨set, hset⟩

/-- Both conditions can be evaluated. -/
theorem of_checks (hchain : Chain (genesisState genesis) bs)
    (hcert : ∀ b ∈ bs, ((recorded genesis bs).activeSet b.header.height).holds
      (fun set => decide (b.qc.verify b.header set = .ok ())) = true) :
    FinalizedFrom genesis bs := by
  refine ⟨hchain, ?_⟩
  intro b hb
  rcases Exec.holds_iff.mp (hcert b hb) with ⟨set, hset, hver⟩
  exact ⟨set, hset, of_decide_eq_true hver⟩

/-- What a block of the chain satisfies under the set in force. -/
theorem block (h : FinalizedFrom genesis bs) {b : Block C} (hb : b ∈ bs) {set : ValidatorSet C}
    (hset : (recorded genesis bs).activeSet b.header.height = .ok set) :
    b.qc.verify b.header set = .ok () ∧ ∃ tip, b.value.WellFormed tip b.header.height set := by
  rcases h.certified b hb with ⟨set', hset', hqc⟩
  obtain rfl : set = set' := Except.ok.inj (hset.symm.trans hset')
  rcases List.mem_iff_getElem?.mp hb with ⟨i, hi⟩
  rcases Chain.block_at h.chain hi with ⟨_, set', _, hset', hwf⟩
  rw [← recorded_eq] at hset'
  obtain rfl : set = set' := Except.ok.inj (hset.symm.trans hset')
  exact ⟨hqc, _, hwf⟩

/-- What a node serves verifies under the set in force at its height. -/
theorem served (h : FinalizedFrom genesis bs) {hash : Hash} {p : NotarizationProof C}
    (hp : findProof hash bs = .ok (some p)) {set : ValidatorSet C}
    (hset : (recorded genesis bs).activeSet p.header.height = .ok set) :
    p.verify set = .ok () := by
  rcases findProof_origin hp with ⟨b, hb, index, hproof⟩
  by_cases hlt : index < b.attestations.length
  · have ha : b.attestations[index]? = some b.attestations[index] := List.getElem?_eq_getElem hlt
    rcases NotarizationProof.fromBlock_spec ha with ⟨path, hspec, hroot⟩
    obtain rfl := Option.some.inj (Except.ok.inj (hproof.symm.trans hspec))
    rcases h.block hb hset with ⟨hqc, tip, hwf⟩
    rw [NotarizationProof.verify_eq_ok_iff]
    exact ⟨hwf.attestations_verify _ (List.getElem_mem hlt), hroot.trans hwf.merkleRoot_eq, hqc⟩
  · rw [NotarizationProof.fromBlock_eq_none (by omega)] at hproof
    cases Except.ok.inj hproof

end FinalizedFrom

/-! ## The client and the chain -/

/-- Two sets with the same members and the same threshold. -/
def ValidatorSet.Alike (set set' : ValidatorSet C) : Prop :=
  set.members = set'.members ∧ set.threshold = set'.threshold

/-- For every proof with the header of `b`, the client accepts it exactly
when it verifies under `set`; and it accepts what a node serves. -/
structure ClientAgrees (genesis : GenesisConfig C) (bs : List (Block C)) (b : Block C)
    (set : ValidatorSet C) : Prop where
  agrees : ∀ p : NotarizationProof C, p.header = b.header →
    (verifyProof p genesis = .ok true ↔ p.verify set = .ok ())
  served : ∀ hash p, findProof hash bs = .ok (some p) → p.header = b.header →
    verifyProof p genesis = .ok true

/-- A client that agrees on a block with an entry holds the set in force. -/
theorem alike_of_clientAgrees {genesis : GenesisConfig C} {bs : List (Block C)} {b : Block C}
    {G S : ValidatorSet C} {tip : Hash} (hG : ValidatorSet.bft genesis.validatorKeys = .ok G)
    (hwf : b.value.WellFormed tip b.header.height S) (hqc : b.qc.verify b.header S = .ok ())
    (hne : b.attestations ≠ [])
    (hkeys : ∀ k ∈ G.validators ++ S.validators, ∃ sk, C.Matching sk k)
    (hids : ∀ k ∈ G.validators ++ S.validators, ∀ k' ∈ G.validators ++ S.validators,
      k.id = k'.id → k = k')
    (hagree : ClientAgrees genesis bs b S) : G.Alike S := by
  have hlt : 0 < b.attestations.length := List.length_pos_iff.mpr hne
  have ha : b.attestations[0]? = some b.attestations[0] := List.getElem?_eq_getElem hlt
  rcases NotarizationProof.fromBlock_spec ha with ⟨path, _, hroot⟩
  -- the keys in question are those of the two sets
  have hboth : ∀ k ∈ G.members ∪ S.members, k ∈ G.validators ++ S.validators := by
    intro k hk
    simpa using hk
  apply Quorum.eq_of_same_quorums S.threshold_pos G.threshold_pos
  · rcases QuorumCertificate.exists_signers_of_verify hqc with ⟨signers, hcard, hsub, _⟩
    exact hcard.trans (Finset.card_le_card hsub)
  · -- the first entry of the block, under a certificate by exactly the keys of `A`
    intro A hA
    rcases QuorumCertificate.exists_signedBy (fun k hk => hkeys k (hboth k (hA hk)))
      (fun k hk k' hk' => hids k (hboth k (hA hk)) k' (hboth k' (hA hk'))) (b.header.id C) with
      ⟨qc, hid, hcount⟩
    let p : NotarizationProof C :=
      { attestation := b.attestations[0], path, header := b.header, qc }
    -- all but the counting of the certificate holds in either set
    have hverify : ∀ set : ValidatorSet C,
        p.verify set = .ok () ↔ set.threshold ≤ (A ∩ set.members).card := by
      intro set
      rw [NotarizationProof.verify_eq_ok_iff, QuorumCertificate.verify_eq_ok_iff, ← hcount set]
      constructor
      · intro h
        exact h.2.2.2
      · intro h
        exact ⟨hwf.attestations_verify _ (List.getElem_mem hlt),
          hroot.trans hwf.merkleRoot_eq, hid, h⟩
    rw [← hverify G, ← hverify S, ← verifyProof_eq_true_iff hG]
    exact hagree.agrees p rfl

/-- When the client is right about a block of a finalized chain: if the set
in force at its height is the genesis set again. If it is not, some proof
with the block's header is misjudged, provided that the block has an entry
and that the validators can sign; and a block without entries has no proofs.
Both are up to collisions among what was hashed. -/
theorem verifyProof_agrees_iff (genesis : GenesisConfig C) (bs : List (Block C))
    (hfin : FinalizedFrom genesis.validatorKeys bs) (b : Block C) (hb : b ∈ bs) :
    ∃ G S, ValidatorSet.bft genesis.validatorKeys = .ok G ∧
      (recorded genesis.validatorKeys bs).activeSet b.header.height = .ok S ∧
      (G.Alike S → ClientAgrees genesis bs b S) ∧
      (b.attestations ≠ [] →
        (∀ k ∈ G.validators ++ S.validators, ∃ sk, C.Matching sk k) →
        (ClientAgrees genesis bs b S ↔ G.Alike S) ∨
          Collision.Exhibits C.digest ((G.validators ++ S.validators).map C.keyBytes)) ∧
      (b.attestations = [] → ∀ p : NotarizationProof C, p.header = b.header →
        verifyProof p genesis = .ok true ∨ p.verify S = .ok () →
        Collision.Exhibits C.digest (p.inputs ++ MerkleTree.treeInputs C [])) := by
  rcases hfin.genesis_set hb with ⟨G, hG⟩
  rcases hfin.certified b hb with ⟨S, hS, _⟩
  rcases hfin.block hb hS with ⟨hqc, tip, hwf⟩
  -- the client judges by the genesis set, the block by its own
  have hclient : G.Alike S → ClientAgrees genesis bs b S := by
    intro halike
    have hagrees : ∀ p : NotarizationProof C, p.header = b.header →
        (verifyProof p genesis = .ok true ↔ p.verify S = .ok ()) := by
      intro p _
      rw [verifyProof_eq_true_iff hG, NotarizationProof.verify_eq_ok_iff,
        NotarizationProof.verify_eq_ok_iff,
        QuorumCertificate.verify_congr halike.1 halike.2]
    refine ⟨hagrees, ?_⟩
    intro hash p hp hheader
    rw [hagrees p hheader]
    exact hfin.served hp (hheader ▸ hS)
  refine ⟨G, S, hG, hS, hclient, ?_, ?_⟩
  · intro hne hkeys
    rcases Collision.injOn_or_exhibits C.digest
      ((G.validators ++ S.validators).map C.keyBytes) with hinj | hcol
    · left
      constructor
      · apply alike_of_clientAgrees hG hwf hqc hne hkeys
        intro k hk k' hk' heq
        exact C.keyBytes_inj (hinj (List.mem_map_of_mem hk) (List.mem_map_of_mem hk') heq)
      · exact hclient
    · exact Or.inr hcol
  · intro hnil p hheader hver
    have hroot : (MerkleTree.build C (([] : List (Attestation C)).map (·.leafHash))).root C =
        p.header.merkleRoot := by
      rw [hheader, ← hnil]
      exact hwf.merkleRoot_eq
    -- in one of the two sets the proof verifies
    have hsome : ∃ set, p.verify set = .ok () := by
      rcases hver with hver | hver
      · exact ⟨G, (verifyProof_eq_true_iff hG p).mp hver⟩
      · exact ⟨S, hver⟩
    rcases hsome with ⟨set, hset⟩
    rcases NotarizationProof.mem_of_verify hset [] hroot with hmem | hcol
    · cases hmem
    · exact hcol

/-- A block of the sample chain sealed by one validator. -/
def sealedBlock (height : UInt64) (prevHash : Hash) (attestations : List (Attestation sample))
    (governance : List (SignedValidatorChange sample)) (signer : UInt8) : Block sample :=
  let header : BlockHeader := {
    height
    prevHash
    merkleRoot := (MerkleTree.build sample (attestations.map (·.leafHash))).root sample
    txCount := UInt32.ofNat attestations.length
    timestamp := 0
    govRoot := governanceRoot governance }
  { header
    attestations
    governance
    qc := {
      blockId := header.id sample
      signatures := [{
        validator := signer
        signature := sampleSign signer (header.id sample).asBytes Context.block }] } }

/-- The lone validator 1 hands over to validator 2. -/
def handoverFirst : Block sample := sealedBlock 1 Hash.zero [] [sampleChange [2] [1] 2 [1]] 1

/-- Validator 2 seals an entry. -/
def handoverSecond : Block sample :=
  sealedBlock 2 (handoverFirst.header.id sample) [sampleAttestation 9 7] [] 2

def handover : List (Block sample) := [handoverFirst, handoverSecond]

def sampleGenesis (keys : List UInt8) : GenesisConfig sample where
  chainId := "sample"
  validators := keys.map fun k => { pubkey := k, addr := "" }

theorem handover_finalized : FinalizedFrom (sampleGenesis [1]).validatorKeys handover :=
  FinalizedFrom.of_checks (by decide +kernel) (by decide +kernel)

/-- After the handover the client is wrong about some proof of the second
block. -/
theorem verifyProof_disagrees_after_handover :
    ∃ b ∈ handover, ∃ S,
      (recorded (sampleGenesis [1]).validatorKeys handover).activeSet b.header.height = .ok S ∧
      ¬ ClientAgrees (sampleGenesis [1]) handover b S := by
  rcases verifyProof_agrees_iff (sampleGenesis [1]) handover handover_finalized _
    (List.mem_cons_of_mem _ List.mem_cons_self) with ⟨G, S, hG, hS, _, hiff, _⟩
  refine ⟨_, List.mem_cons_of_mem _ List.mem_cons_self, S, hS, ?_⟩
  obtain rfl : G = ⟨[(1 : UInt8)], 1, by decide, by decide⟩ := Except.ok.inj hG.symm
  have hS' : (recorded (sampleGenesis [1]).validatorKeys handover).activeSet 2 =
      .ok ⟨[(2 : UInt8)], 1, by decide, by decide⟩ := by rfl
  obtain rfl : S = ⟨[(2 : UInt8)], 1, by decide, by decide⟩ := Except.ok.inj (hS.symm.trans hS')
  rcases hiff (List.cons_ne_nil _ _) (fun k _ => ⟨k, sample_matching k⟩) with
    hiff | ⟨x, y, hfind, _⟩
  · rw [hiff]
    intro halike
    exact absurd halike.1 (by decide +kernel)
  · exact absurd (hfind.symm.trans (by decide +kernel : _ = none)) (by simp)

/-- The node serves a proof for the entry, it verifies under the set in force
at its height, and the client rejects it. -/
theorem verifyProof_rejects_served :
    FinalizedFrom (sampleGenesis [1]).validatorKeys handover ∧
    ∃ p b S, findProof ⟨7⟩ handover = .ok (some p) ∧ b ∈ handover ∧ p.header = b.header ∧
      (recorded (sampleGenesis [1]).validatorKeys handover).activeSet p.header.height = .ok S ∧
      p.verify S = .ok () ∧ verifyProof p (sampleGenesis [1]) = .ok false := by
  refine ⟨handover_finalized, ?_⟩
  have hcheck : (findProof (C := sample) ⟨7⟩ handover).holds (fun found => found.any fun p =>
      handover.any (fun b => decide (p.header = b.header)) &&
      ((recorded (sampleGenesis [1]).validatorKeys handover).activeSet p.header.height).holds
        (fun S => decide (p.verify S = .ok ())) &&
      decide (verifyProof p (sampleGenesis [1]) = .ok false)) = true := by decide +kernel
  rcases Exec.holds_iff.mp hcheck with ⟨found, hfound, hp⟩
  rcases (Option.any_eq_true _ _).mp hp with ⟨p, hsome, hp⟩
  simp only [Bool.and_eq_true, decide_eq_true_eq, List.any_eq_true] at hp
  rcases hp with ⟨⟨⟨b, hb, hheader⟩, hset⟩, hclient⟩
  rcases Exec.holds_iff.mp hset with ⟨S, hS, hver⟩
  refine ⟨p, b, S, ?_, hb, hheader, hS, of_decide_eq_true hver, hclient⟩
  rw [hfound, hsome]

end SmartLedger
