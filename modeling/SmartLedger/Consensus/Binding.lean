import SmartLedger.Ledger.Proof
import SmartLedger.Ledger.Binding
import SmartLedger.Consensus.Runs

/-! # What a finalized block commits to

* `proofs_complete_and_sound`: every entry of a block has a proof that
  verifies, and a proof that verifies is of an entry under the header's root.
* `header_id_pins`: values with one id have one header, the same entries and
  the same governance changes up to what the commitments leave open, and
  chains with the same ids lead to the same validator sets and proposers.

Both are up to collisions of the digest, and a collision is always one among
the byte strings that were really hashed (`Collision.Exhibits`).
-/

namespace SmartLedger

variable {C : Crypto}

/-! ## Proofs of a block's entries -/

/-- The notarization proofs of a valid, finalized block are those of its
entries, and all of them verify; and a proof that verifies is of an entry of
every list with the header's Merkle root. -/
theorem proofs_complete_and_sound :
    (∀ (b : Block C) (tip : Hash) (height : UInt64) (current set : ValidatorSet C),
      b.value.isValid tip height current = true → b.qc.verify b.header set = .ok () →
      (∀ index a, b.attestations[index]? = some a →
        ∃ p, NotarizationProof.fromBlock b index = .ok (some p) ∧ p.attestation = a ∧
          p.header = b.header ∧ p.verify set = .ok ()) ∧
      ∀ index, b.attestations.length ≤ index →
        NotarizationProof.fromBlock b index = .ok none) ∧
    ∀ (p : NotarizationProof C) (set : ValidatorSet C) (atts : List (Attestation C)),
      p.verify set = .ok () →
      (MerkleTree.build C (atts.map (·.leafHash))).root C = p.header.merkleRoot →
      p.attestation ∈ atts ∨
        Collision.Exhibits C.digest
          (p.inputs ++ MerkleTree.treeInputs C (atts.map (·.encode))) := by
  constructor
  · intro b tip height current set hvalid hqc
    -- a valid block has verifying entries under its Merkle root
    have hwf := (Proposed.isValid_iff _ _ _ _).mp hvalid
    constructor
    · intro index a ha
      rcases NotarizationProof.fromBlock_spec ha with ⟨path, hproof, hroot⟩
      refine ⟨_, hproof, rfl, rfl, ?_⟩
      rw [NotarizationProof.verify_eq_ok_iff]
      exact ⟨hwf.attestations_verify a (List.mem_of_getElem? ha), hroot.trans hwf.merkleRoot_eq,
        hqc⟩
    · intro index hge
      exact NotarizationProof.fromBlock_eq_none hge
  · intro p set atts hver hroot
    exact NotarizationProof.mem_of_verify hver atts hroot

/-- A block of the sample chain, sealed by validator 1. -/
def sampleBlock (attestations : List (Attestation sample)) : Block sample :=
  let value := sampleValue attestations
  { header := value.header
    attestations := value.attestations
    governance := []
    qc := {
      blockId := value.id
      signatures := [{
        validator := (1 : UInt8)
        signature := sampleSign 1 value.id.asBytes Context.block }] } }

/-- The lone last entry of three is promoted; its proof verifies all the
same, and is about it. -/
theorem proofs_complete_and_sound_three :
    ∃ p, NotarizationProof.fromBlock (sampleBlock [sampleAttestation 1 7, sampleAttestation 2 8,
        sampleAttestation 3 9]) 2 = .ok (some p) ∧
      p.attestation = sampleAttestation 3 9 ∧
      p.verify ⟨[(1 : UInt8)], 1, by decide, by decide⟩ = .ok () ∧
      (p.attestation ∈ [sampleAttestation 1 7, sampleAttestation 2 8, sampleAttestation 3 9] ∨
        Collision.Exhibits sample.digest (p.inputs ++ MerkleTree.treeInputs sample
          ([sampleAttestation 1 7, sampleAttestation 2 8, sampleAttestation 3 9].map
            (·.encode)))) := by
  have hboth := proofs_complete_and_sound (C := sample)
  have hvalid : (sampleBlock [sampleAttestation 1 7, sampleAttestation 2 8,
      sampleAttestation 3 9]).value.isValid Hash.zero 1 ⟨[(1 : UInt8)], 1, by decide, by decide⟩ =
      true := by decide +kernel
  have hqc : (sampleBlock [sampleAttestation 1 7, sampleAttestation 2 8,
      sampleAttestation 3 9]).qc.verify (sampleBlock [sampleAttestation 1 7, sampleAttestation 2 8,
      sampleAttestation 3 9]).header ⟨[(1 : UInt8)], 1, by decide, by decide⟩ = .ok () :=
    (QuorumCertificate.verify_eq_ok_iff _ _ _).mpr (by decide +kernel)
  rcases (hboth.1 _ _ _ _ _ hvalid hqc).1 2 (sampleAttestation 3 9) rfl with
    ⟨p, hproof, hatt, hheader, hver⟩
  refine ⟨p, hproof, hatt, hver, hboth.2 p _ _ hver ?_⟩
  rw [hheader]
  rfl

/-! ## What an id pins -/

namespace Proposed

/-- Everything hashed for the id of a value, down to its entries and its
governance changes. -/
def inputs (v : Proposed C) : List (List UInt8) :=
  v.header.signingBytes ::
    (MerkleTree.treeInputs C (v.attestations.map (·.encode)) ++ govInputs v.governance)

/-- The value passes validation somewhere. -/
def Passes (v : Proposed C) : Prop :=
  ∃ tip height current, v.isValid tip height current = true

/-- No list of keys in the value is too long for its counter. -/
def Small (v : Proposed C) : Prop := ∀ s ∈ v.governance, s.change.Small

/-- The same header and entries, and the same governance changes up to what
the commitments leave open. -/
structure Same (v w : Proposed C) : Prop where
  header : v.header = w.header
  attestations : v.attestations = w.attestations
  governance : List.Forall₂ SameChange v.governance w.governance

/-- Equal headers over well-formed entries are over the same entries. -/
theorem attestations_eq_of_header_eq {inputs : Set (List UInt8)}
    (hinj : Set.InjOn C.digest inputs) {v w : Proposed C} (hin : ∀ x ∈ v.inputs, x ∈ inputs)
    (hin' : ∀ x ∈ w.inputs, x ∈ inputs) (hcount : v.header.txCount.toNat = v.attestations.length)
    (hcount' : w.header.txCount.toNat = w.attestations.length)
    (hroot : (MerkleTree.build C (v.attestations.map (·.leafHash))).root C = v.header.merkleRoot)
    (hroot' : (MerkleTree.build C (w.attestations.map (·.leafHash))).root C =
      w.header.merkleRoot) (hheader : v.header = w.header) :
    v.attestations = w.attestations := by
  -- the transaction count fixes the number of leaves, the root the leaves
  have hlen : v.attestations.length = w.attestations.length := by
    rw [← hcount, ← hcount', hheader]
  have hroots : (MerkleTree.build C (v.attestations.map (·.leafHash))).root C =
      (MerkleTree.build C (w.attestations.map (·.leafHash))).root C := by
    rw [hroot, hroot', hheader]
  rw [NotarizationProof.map_leafHash, NotarizationProof.map_leafHash] at hroots
  have hdata := MerkleTree.root_inj hinj
    (fun x hx => hin x (List.mem_cons_of_mem _ (List.mem_append_left _ hx)))
    (fun x hx => hin' x (List.mem_cons_of_mem _ (List.mem_append_left _ hx)))
    (by rw [List.length_map, List.length_map, hlen]) hroots
  exact List.map_injective_iff.mpr Attestation.encode_injective hdata

theorem same_of_id_eq {inputs : Set (List UInt8)} (hinj : Set.InjOn C.digest inputs)
    {v w : Proposed C} (hin : ∀ x ∈ v.inputs, x ∈ inputs) (hin' : ∀ x ∈ w.inputs, x ∈ inputs)
    (hv : v.Passes) (hw : w.Passes) (hsmall : v.Small) (hsmall' : w.Small) (hid : v.id = w.id) :
    v.Same w := by
  rcases hv with ⟨tip, height, current, hvalid⟩
  rcases hw with ⟨tip', height', current', hvalid'⟩
  have hwf := (isValid_iff _ _ _ _).mp hvalid
  have hwf' := (isValid_iff _ _ _ _).mp hvalid'
  have hheader : v.header = w.header := by
    apply BlockHeader.signingBytes_injective
    exact hinj (hin _ List.mem_cons_self) (hin' _ List.mem_cons_self) hid
  refine ⟨hheader, ?_, ?_⟩
  · exact attestations_eq_of_header_eq hinj hin hin' hwf.txCount_eq hwf'.txCount_eq
      hwf.merkleRoot_eq hwf'.merkleRoot_eq hheader
  · apply sameChanges_of_governanceRoot_eq hinj
      (fun x hx => hin x (List.mem_cons_of_mem _ (List.mem_append_right _ hx)))
      (fun x hx => hin' x (List.mem_cons_of_mem _ (List.mem_append_right _ hx))) hsmall hsmall'
    rw [hwf.govRoot_eq, hwf'.govRoot_eq, hheader]

end Proposed

/-! ## Chains with the same ids -/

/-- Blocks with pairwise equal ids hold the same values. -/
theorem forall₂_same_of_ids_eq {inputs : Set (List UInt8)} (hinj : Set.InjOn C.digest inputs)
    {bs bs' : List (Block C)} (hin : ∀ b ∈ bs, ∀ x ∈ b.value.inputs, x ∈ inputs)
    (hin' : ∀ b ∈ bs', ∀ x ∈ b.value.inputs, x ∈ inputs)
    (hbs : ∀ b ∈ bs, b.value.Passes ∧ b.value.Small)
    (hbs' : ∀ b ∈ bs', b.value.Passes ∧ b.value.Small)
    (hids : bs.map (fun b => b.header.id C) = bs'.map fun b => b.header.id C) :
    List.Forall₂ (fun b b' => b.value.Same b'.value) bs bs' := by
  induction bs generalizing bs' with
  | nil =>
      have hnil : bs' = [] := by simpa using hids.symm
      rw [hnil]
      exact List.Forall₂.nil
  | cons b bs ih =>
      match bs', hids with
      | b' :: bs', hids =>
          rw [List.map_cons, List.map_cons, List.cons.injEq] at hids
          -- heads by their ids, tails by induction
          refine List.Forall₂.cons ?_ ?_
          · exact Proposed.same_of_id_eq hinj (hin b List.mem_cons_self)
              (hin' b' List.mem_cons_self) (hbs b List.mem_cons_self).1
              (hbs' b' List.mem_cons_self).1 (hbs b List.mem_cons_self).2
              (hbs' b' List.mem_cons_self).2 hids.1
          · exact ih (fun x hx => hin x (List.mem_cons_of_mem _ hx))
              (fun x hx => hin' x (List.mem_cons_of_mem _ hx))
              (fun x hx => hbs x (List.mem_cons_of_mem _ hx))
              (fun x hx => hbs' x (List.mem_cons_of_mem _ hx)) hids.2

/-- The header and the entries of a block. -/
def Block.content (b : Block C) : BlockHeader × List (Attestation C) := (b.header, b.attestations)

/-- Chains from one start with one length and one tip have the same headers
and entries: the tip is the id of the last header, which names the tip
before. -/
theorem Chain.content_eq_of_tip_eq {inputs : Set (List UInt8)} (hinj : Set.InjOn C.digest inputs)
    {s : ChainState C} {as bs : List (Block C)} (ha : Chain s as) (hb : Chain s bs)
    (hin : ∀ b ∈ as, ∀ x ∈ b.value.inputs, x ∈ inputs)
    (hin' : ∀ b ∈ bs, ∀ x ∈ b.value.inputs, x ∈ inputs) (hlen : as.length = bs.length)
    (htip : (s.pushAll as).tip = (s.pushAll bs).tip) :
    as.map (·.content) = bs.map (·.content) := by
  induction as using List.reverseRecOn generalizing bs with
  | nil =>
      rw [List.length_nil] at hlen
      rw [List.eq_nil_of_length_eq_zero hlen.symm]
  | append_singleton as a ih =>
      rcases List.eq_nil_or_concat bs with rfl | ⟨bs, b, rfl⟩
      · simp at hlen
      rw [List.concat_eq_append] at hb hin' hlen htip ⊢
      rcases append_iff.mp ha with ⟨ha, ⟨_, set, _, hvalid⟩, _⟩
      rcases append_iff.mp hb with ⟨hb, ⟨_, set', _, hvalid'⟩, _⟩
      have hwf := (Proposed.isValid_iff _ _ _ _).mp hvalid
      have hwf' := (Proposed.isValid_iff _ _ _ _).mp hvalid'
      have hina := hin a (by simp)
      have hinb := hin' b (by simp)
      -- the tip is the id of the last header
      have hheader : a.header = b.header := by
        rw [ChainState.pushAll_append, ChainState.pushAll_append] at htip
        apply BlockHeader.signingBytes_injective
        exact hinj (hina _ List.mem_cons_self) (hinb _ List.mem_cons_self) htip
      have hentries : a.attestations = b.attestations :=
        Proposed.attestations_eq_of_header_eq hinj hina hinb hwf.txCount_eq hwf'.txCount_eq
          hwf.merkleRoot_eq hwf'.merkleRoot_eq hheader
      -- and the header names the tip before it
      have hbefore : (s.pushAll as).tip = (s.pushAll bs).tip := by
        have hprev : a.header.prevHash = _ := hwf.prevHash_eq
        have hprev' : b.header.prevHash = _ := hwf'.prevHash_eq
        rw [← hprev, ← hprev', hheader]
      have hsame := ih ha hb (fun x hx => hin x (List.mem_append_left _ hx))
        (fun x hx => hin' x (List.mem_append_left _ hx)) (by simpa using hlen) hbefore
      rw [List.map_append, List.map_append, hsame]
      simp [Block.content, hheader, hentries]

/-- The registry that a list of blocks records on top of a genesis roster. -/
def recorded (genesis : List C.VerifyingKey) (bs : List (Block C)) : ValidatorRegistry C :=
  (ValidatorRegistry.new genesis).recordAll (bs.flatMap (·.governance))

theorem recorded_changes (genesis : List C.VerifyingKey) (bs : List (Block C)) :
    (recorded genesis bs).changes = (bs.flatMap (·.governance)).map (·.change) := by
  unfold recorded
  rw [ValidatorRegistry.recordAll_changes]
  rfl

theorem recorded_same (genesis : List C.VerifyingKey) {bs bs' : List (Block C)}
    (h : List.Forall₂ (fun b b' => b.value.Same b'.value) bs bs') :
    List.Forall₂ ValidatorChange.Same (recorded genesis bs).changes
      (recorded genesis bs').changes := by
  rw [recorded_changes, recorded_changes]
  induction h with
  | nil => exact List.Forall₂.nil
  | cons hb _ ih =>
      rw [List.flatMap_cons, List.flatMap_cons, List.map_append, List.map_append]
      refine List.rel_append ?_ ih
      rw [List.forall₂_map_left_iff, List.forall₂_map_right_iff]
      exact hb.governance.imp fun _ _ hs => hs.change

/-- Both computations panic, or both return a set, with the same members and
the same threshold. -/
def SameSet : Exec (ValidatorSet C) → Exec (ValidatorSet C) → Prop
  | .ok set, .ok set' => set.members = set'.members ∧ set.threshold = set'.threshold
  | .error p, .error p' => p = p'
  | _, _ => False

theorem sameSet_of_perm {keys keys' : List C.VerifyingKey} (hperm : keys.Perm keys') :
    SameSet (ValidatorSet.bft keys) (ValidatorSet.bft keys') := by
  by_cases hnil : keys = []
  · subst hnil
    rw [List.nil_perm.mp hperm]
    simp [SameSet, ValidatorSet.bft, ValidatorSet.new]
  · have hnil' : keys' ≠ [] := fun h => hnil (List.perm_nil.mp (h ▸ hperm))
    rcases (ValidatorSet.bft_isOk_iff keys).mpr hnil with ⟨set, hset⟩
    rcases (ValidatorSet.bft_isOk_iff keys').mpr hnil' with ⟨set', hset'⟩
    rw [hset, hset']
    rcases ValidatorSet.bft_eq_ok hset with ⟨hv, ht⟩
    rcases ValidatorSet.bft_eq_ok hset' with ⟨hv', ht'⟩
    constructor
    · unfold ValidatorSet.members
      rw [hv, hv']
      exact List.toFinset_eq_of_perm _ _ hperm
    · rw [ht, ht', hperm.length_eq]

/-- Engines of one height whose rosters are rearrangements of each other, with
no two keys of one id, go by the same proposers. -/
theorem proposer_eq_of_perm {e e' : Engine C} (hheight : e.height = e'.height)
    (hroster : e.validatorsSorted = sortById e.currentSet.validators)
    (hroster' : e'.validatorsSorted = sortById e'.currentSet.validators)
    (hperm : e.currentSet.validators.Perm e'.currentSet.validators)
    (hids : ∀ a ∈ e.currentSet.validators, ∀ b ∈ e.currentSet.validators, a.id = b.id → a = b)
    (r : UInt64) : e.proposer r = e'.proposer r := by
  have hsorted : e.validatorsSorted = e'.validatorsSorted := by
    rw [hroster, hroster']
    apply StableSort.insertionSort_eq_of_perm hperm
    intro a ha b hb heq
    exact hids a ha b hb (Hash.rank_injective heq)
  unfold Engine.proposer Engine.n
  rw [hheight, hsorted]

/-- Values that pass validation and have one id are the same, and chains of
such values over one genesis with pairwise equal ids give the same set and
the same proposers at every height; or else the search through what was
hashed exhibits a collision. -/
theorem header_id_pins :
    (∀ v w : Proposed C, v.Passes → w.Passes → v.Small → w.Small → v.id = w.id →
      v.Same w ∨ Collision.Exhibits C.digest (v.inputs ++ w.inputs)) ∧
    ∀ (genesis : List C.VerifyingKey) (bs bs' : List (Block C)),
      (∀ b ∈ bs, b.value.Passes ∧ b.value.Small) → (∀ b ∈ bs', b.value.Passes ∧ b.value.Small) →
      bs.map (fun b => b.header.id C) = bs'.map (fun b => b.header.id C) → ∀ h : UInt64,
      (SameSet ((recorded genesis bs).activeSet h) ((recorded genesis bs').activeSet h) ∧
        ∀ meSk mePk tip meSk' mePk' tip' e e',
          Engine.withRegistry (recorded genesis bs) meSk mePk tip h = .ok e →
          Engine.withRegistry (recorded genesis bs') meSk' mePk' tip' h = .ok e' →
          ∀ r, e.proposer r = e'.proposer r) ∨
      Collision.Exhibits C.digest
        ((bs.flatMap (·.value.inputs) ++ bs'.flatMap (·.value.inputs)) ++
          ((recorded genesis bs).activeKeys h).map C.keyBytes) := by
  constructor
  · intro v w hv hw hsmall hsmall' hid
    rcases Collision.injOn_or_exhibits C.digest (v.inputs ++ w.inputs) with hinj | hcol
    · exact Or.inl (Proposed.same_of_id_eq hinj (fun x hx => List.mem_append_left _ hx)
        (fun x hx => List.mem_append_right _ hx) hv hw hsmall hsmall' hid)
    · exact Or.inr hcol
  · intro genesis bs bs' hbs hbs' hids h
    rcases Collision.injOn_or_exhibits C.digest
      ((bs.flatMap (·.value.inputs) ++ bs'.flatMap (·.value.inputs)) ++
        ((recorded genesis bs).activeKeys h).map C.keyBytes) with hinj | hcol
    swap
    · exact Or.inr hcol
    left
    have hsame := forall₂_same_of_ids_eq hinj
      (fun b hb x hx => List.mem_append_left _
        (List.mem_append_left _ (List.mem_flatMap.mpr ⟨b, hb, hx⟩)))
      (fun b hb x hx => List.mem_append_left _
        (List.mem_append_right _ (List.mem_flatMap.mpr ⟨b, hb, hx⟩))) hbs hbs' hids
    -- the same values record the same changes over the same genesis
    have hgenesis : (recorded genesis bs).genesis = (recorded genesis bs').genesis := by
      unfold recorded
      rw [ValidatorRegistry.recordAll_genesis, ValidatorRegistry.recordAll_genesis]
    have hperm := ValidatorRegistry.activeKeys_perm hgenesis (recorded_same genesis hsame) h
    refine ⟨sameSet_of_perm hperm, ?_⟩
    intro meSk mePk tip meSk' mePk' tip' e e' he he' r
    rcases Engine.withRegistry_eq_ok he with ⟨set, hset, rfl⟩
    rcases Engine.withRegistry_eq_ok he' with ⟨set', hset', rfl⟩
    rcases ValidatorSet.bft_eq_ok hset with ⟨hv, _⟩
    rcases ValidatorSet.bft_eq_ok hset' with ⟨hv', _⟩
    refine proposer_eq_of_perm ?_ ?_ ?_ ?_ ?_ r
    · rfl
    · rfl
    · rfl
    · show set.validators.Perm set'.validators
      rw [hv, hv']
      exact hperm
    · -- two keys of one id would be a collision of their bytes
      intro a ha b hb heq
      have hkey : ∀ k ∈ set.validators, C.keyBytes k ∈
          ((recorded genesis bs).activeKeys h).map C.keyBytes := by
        intro k hk
        rw [hv] at hk
        exact List.mem_map_of_mem hk
      exact C.keyBytes_inj (hinj (List.mem_append_right _ (hkey a ha))
        (List.mem_append_right _ (hkey b hb)) heq)

/-- A block of the sample chain that only governs. -/
def sampleGovBlock (governance : List (SignedValidatorChange sample)) : Block sample :=
  { header := { (sampleValue []).header with govRoot := governanceRoot governance }
    attestations := []
    governance
    qc := { blockId := Hash.zero, signatures := [] } }

/-- Adding validators 2 and 3 in either order is one block id, and one set of
three with one proposer from height 2 on. -/
theorem header_id_pins_swapped :
    (sampleGovBlock [sampleChange [2, 3] [] 2 [1]]).header.id sample =
      (sampleGovBlock [sampleChange [3, 2] [] 2 [1]]).header.id sample ∧
    SameSet ((recorded [(1 : UInt8)] [sampleGovBlock [sampleChange [2, 3] [] 2 [1]]]).activeSet 2)
      ((recorded [(1 : UInt8)] [sampleGovBlock [sampleChange [3, 2] [] 2 [1]]]).activeSet 2) ∧
    (sampleGovBlock [sampleChange [2, 3] [] 2 [1]]).value.Same
      (sampleGovBlock [sampleChange [3, 2] [] 2 [1]]).value := by
  have hid : (sampleGovBlock [sampleChange [2, 3] [] 2 [1]]).header.id sample =
      (sampleGovBlock [sampleChange [3, 2] [] 2 [1]]).header.id sample := by decide +kernel
  -- both values pass, whatever the order
  have hpasses : ∀ adds : List UInt8, (sampleGovBlock [sampleChange adds [] 2 [1]]).value.isValid
      Hash.zero 1 ⟨[(1 : UInt8)], 1, by decide, by decide⟩ = true → adds.length < 2 ^ 32 →
      (sampleGovBlock [sampleChange adds [] 2 [1]]).value.Passes ∧
        (sampleGovBlock [sampleChange adds [] 2 [1]]).value.Small := by
    intro adds hvalid hlen
    refine ⟨⟨_, _, _, hvalid⟩, ?_⟩
    intro s hs
    rw [List.mem_singleton.mp hs]
    exact ⟨hlen, show 0 < 2 ^ 32 by decide⟩
  have hfirst := hpasses [2, 3] (by decide +kernel) (by decide)
  have hsecond := hpasses [3, 2] (by decide +kernel) (by decide)
  have hpins := header_id_pins (C := sample)
  refine ⟨hid, ?_, ?_⟩
  · rcases hpins.2 [(1 : UInt8)] [sampleGovBlock [sampleChange [2, 3] [] 2 [1]]]
      [sampleGovBlock [sampleChange [3, 2] [] 2 [1]]]
      (fun b hb => List.mem_singleton.mp hb ▸ hfirst)
      (fun b hb => List.mem_singleton.mp hb ▸ hsecond) (congrArg (fun x => [x]) hid) 2 with
      hsame | ⟨x, y, hfind, _⟩
    · exact hsame.1
    · exact absurd (hfind.symm.trans (by decide +kernel : _ = none)) (by simp)
  · rcases hpins.1 _ _ hfirst.1 hsecond.1 hfirst.2 hsecond.2 hid with hsame | ⟨x, y, hfind, _⟩
    · exact hsame
    · exact absurd (hfind.symm.trans (by decide +kernel : _ = none)) (by simp)

end SmartLedger
