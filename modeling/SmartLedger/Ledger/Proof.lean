import SmartLedger.Ledger.Merkle
import SmartLedger.Ledger.Block

/-! # Notarization proofs

What a client keeps: the entry, its path to the Merkle root, the header and
the certificate. It verifies offline against a validator set, in three
layers: the actor's signature, the inclusion, the quorum.
-/

namespace SmartLedger

variable {C : Crypto}

/-- A complete, offline-verifiable proof of notarization for one entry. -/
structure NotarizationProof (C : Crypto) where
  attestation : Attestation C
  path : MerklePath
  header : BlockHeader
  qc : QuorumCertificate C
deriving DecidableEq

namespace NotarizationProof

/-- Extract a proof for the attestation at `index` within `block`. -/
def fromBlock (block : Block C) (index : Nat) : Exec (Option (NotarizationProof C)) := do
  let leaves := block.attestations.map (·.leafHash)
  match ← (MerkleTree.build C leaves).proof index with
  | none => return none
  | some path =>
      match block.attestations[index]? with
      | none => return none
      | some attestation => return some { attestation, path, header := block.header, qc := block.qc }

/-- Verify all three layers against a known set. -/
def verify (p : NotarizationProof C) (set : ValidatorSet C) : Except LedgerError Unit :=
  if p.attestation.verify = false then .error .invalidAttestation
  else if p.path.computeRoot C p.attestation.leafHash ≠ p.header.merkleRoot then
    .error .notIncluded
  else p.qc.verify p.header set

theorem verify_eq_ok_iff (p : NotarizationProof C) (set : ValidatorSet C) :
    p.verify set = .ok () ↔ p.attestation.verify = true ∧
      p.path.computeRoot C p.attestation.leafHash = p.header.merkleRoot ∧
      p.qc.verify p.header set = .ok () := by
  unfold verify
  by_cases hatt : p.attestation.verify = false
  · simp [hatt]
  · by_cases hroot : p.path.computeRoot C p.attestation.leafHash = p.header.merkleRoot
    · simp [hatt, hroot]
    · simp [hatt, hroot]

/-- Everything hashed to follow the path of a proof. -/
def inputs (p : NotarizationProof C) : List (List UInt8) :=
  pathInputs C p.path p.attestation.encode

theorem map_leafHash (atts : List (Attestation C)) :
    atts.map (·.leafHash) = (atts.map (·.encode)).map (hashLeaf C) := by
  rw [List.map_map]
  rfl

/-! ## Completeness -/

/-- The proof of an entry in range: its entry, the block's header and
certificate, and a path to the root. -/
theorem fromBlock_spec {b : Block C} {index : Nat} {a : Attestation C}
    (ha : b.attestations[index]? = some a) :
    ∃ path, fromBlock b index =
        .ok (some { attestation := a, path, header := b.header, qc := b.qc }) ∧
      path.computeRoot C a.leafHash =
        (MerkleTree.build C (b.attestations.map (·.leafHash))).root C := by
  have hleaf : (b.attestations.map (·.leafHash))[index]? = some a.leafHash := by
    rw [List.getElem?_map, ha]
    rfl
  rcases MerkleTree.proof_computeRoot (C := C) hleaf with ⟨path, hproof, hroot⟩
  refine ⟨path, ?_, hroot⟩
  simp only [fromBlock, hproof]
  show (match b.attestations[index]? with
    | none => pure none
    | some attestation => pure (some _)) = _
  rw [ha]
  rfl

theorem fromBlock_eq_none {b : Block C} {index : Nat} (hge : b.attestations.length ≤ index) :
    fromBlock b index = .ok none := by
  have hproof : (MerkleTree.build C (b.attestations.map (·.leafHash))).proof index = .ok none := by
    apply MerkleTree.proof_eq_none
    rw [List.length_map]
    exact hge
  simp only [fromBlock, hproof]
  rfl

/-! ## Soundness -/

/-- A verified proof is about one of the entries under its root, or the
search exhibits a collision among the strings hashed. -/
theorem mem_of_verify {p : NotarizationProof C} {set : ValidatorSet C}
    (h : p.verify set = .ok ()) (atts : List (Attestation C))
    (hroot : (MerkleTree.build C (atts.map (·.leafHash))).root C = p.header.merkleRoot) :
    p.attestation ∈ atts ∨
      Collision.Exhibits C.digest
        (p.inputs ++ MerkleTree.treeInputs C (atts.map (·.encode))) := by
  rcases Collision.injOn_or_exhibits C.digest
    (p.inputs ++ MerkleTree.treeInputs C (atts.map (·.encode))) with hinj | hcol
  · left
    have hpath := ((verify_eq_ok_iff p set).mp h).2.1
    rw [← hroot, map_leafHash] at hpath
    have hmem := MerkleTree.mem_of_computeRoot hinj
      (fun x hx => List.mem_append_right _ hx) (fun x hx => List.mem_append_left _ hx) hpath
    rcases List.mem_map.mp hmem with ⟨a, ha, heq⟩
    rw [← Attestation.encode_injective heq]
    exact ha
  · exact Or.inr hcol

end NotarizationProof

end SmartLedger
