import SmartLedger.Anchor.Service
import SmartLedger.Ledger.Proof

/-! # Anchored proofs

A notarization proof with a fourth layer: its block is in a checkpoint whose
root was published. The service keeps the ids of every window, so it can
rebuild the checkpoint and its path for any block that was anchored; whoever
holds the proof checks the path against the root of the record, and that root
against the receipt.
-/

namespace SmartLedger

variable {C : Crypto}

/-- A portable proof that a block id is under a checkpoint root. -/
structure CheckpointInclusion where
  blockId : Hash
  path : MerklePath
deriving DecidableEq

namespace CheckpointInclusion

/-- Does the block id lead to the given root? -/
def verify (C : Crypto) (i : CheckpointInclusion) (root : Hash) : Bool :=
  i.path.computeRoot C (checkpointLeaf C i.blockId) = root

/-- Everything hashed to follow the path. -/
def inputs (C : Crypto) (i : CheckpointInclusion) : List (List UInt8) :=
  pathInputs C i.path i.blockId.asBytes

end CheckpointInclusion

/-- An inclusion proof that a block id is committed under this checkpoint. -/
def Checkpoint.inclusion (cp : Checkpoint) (blockId : Hash) :
    Exec (Option CheckpointInclusion) :=
  match cp.blockIds.findIdx? (· == blockId) with
  | none => .ok none
  | some idx => do
      match ← cp.tree.proof idx with
      | none => return none
      | some path => return some { blockId, path }

/-- A notarization proof with a public anchor. -/
structure AnchoredProof (C : Crypto) where
  notarization : NotarizationProof C
  checkpoint : CheckpointInclusion
  record : AnchorRecord

/-- Verify all four layers against a known set. -/
def AnchoredProof.verify (a : AnchoredProof C) (set : ValidatorSet C) : Except AnchorError Unit :=
  match a.notarization.verify set with
  | .error err => .error (.notarization err)
  | .ok () =>
      if a.checkpoint.blockId ≠ a.notarization.header.id C then .error .blockMismatch
      else if a.checkpoint.verify C a.record.checkpointRoot = false then .error .notInCheckpoint
      else if a.record.receipt.checkpointRoot ≠ a.record.checkpointRoot then
        .error .receiptMismatch
      else .ok ()

namespace AnchorService

variable {B : AnchorBackend}

/-- The inclusion of a block in the first of some windows that has it. -/
def inclusionIn (C : Crypto) (blockId : Hash) :
    List Window → Exec (Option (CheckpointInclusion × AnchorRecord))
  | [] => .ok none
  | w :: rest =>
      if w.blockIds.contains blockId then
        match Checkpoint.fromBlockIds C w.blockIds w.fromHeight w.toHeight with
        | none => .ok none
        | some cp => do
            match ← cp.inclusion blockId with
            | none => return none
            | some inclusion => return some (inclusion, w.record)
      else inclusionIn C blockId rest

def inclusionFor (C : Crypto) (s : AnchorService B) (blockId : Hash) :
    Exec (Option (CheckpointInclusion × AnchorRecord)) := inclusionIn C blockId s.history

/-- Wrap a notarization proof, if its block has been anchored. -/
def anchorProof (s : AnchorService B) (notarization : NotarizationProof C) :
    Exec (Option (AnchoredProof C)) := do
  match ← s.inclusionFor C (notarization.header.id C) with
  | none => return none
  | some (checkpoint, record) => return some { notarization, checkpoint, record }

end AnchorService

/-! ## Verification -/

theorem AnchoredProof.verify_eq_ok_iff (a : AnchoredProof C) (set : ValidatorSet C) :
    a.verify set = .ok () ↔ a.notarization.verify set = .ok () ∧
      a.checkpoint.blockId = a.notarization.header.id C ∧
      a.checkpoint.verify C a.record.checkpointRoot = true ∧
      a.record.receipt.checkpointRoot = a.record.checkpointRoot := by
  unfold verify
  cases a.notarization.verify set with
  | error err => simp
  | ok u =>
      by_cases hblock : a.checkpoint.blockId = a.notarization.header.id C
      · by_cases hroot : a.checkpoint.verify C a.record.checkpointRoot = false
        · simp [hblock, hroot]
        · by_cases hreceipt : a.record.receipt.checkpointRoot = a.record.checkpointRoot
          · simp [hblock, hroot, hreceipt]
          · simp [hblock, hroot, hreceipt]
      · simp [hblock]

/-- A path that leads to the root of some ids starts at one of them, or the
search exhibits a collision among the strings hashed. -/
theorem CheckpointInclusion.mem_of_verify {i : CheckpointInclusion} (blockIds : List Hash)
    (h : i.verify C (Checkpoint.rootOf C blockIds) = true) :
    i.blockId ∈ blockIds ∨
      Collision.Exhibits C.digest
        (i.inputs C ++ MerkleTree.treeInputs C (blockIds.map Hash.asBytes)) := by
  rcases Collision.injOn_or_exhibits C.digest
    (i.inputs C ++ MerkleTree.treeInputs C (blockIds.map Hash.asBytes)) with hinj | hcol
  · left
    have hpath : i.path.computeRoot C (hashLeaf C i.blockId.asBytes) =
        (MerkleTree.build C ((blockIds.map Hash.asBytes).map (hashLeaf C))).root C := by
      rw [List.map_map]
      exact of_decide_eq_true h
    have hmem := MerkleTree.mem_of_computeRoot hinj
      (fun x hx => List.mem_append_right _ hx) (fun x hx => List.mem_append_left _ hx) hpath
    rcases List.mem_map.mp hmem with ⟨id, hid, heq⟩
    rw [← Hash.asBytes_inj heq]
    exact hid
  · exact Or.inr hcol

/-! ## Reconstruction -/

/-- A checkpoint has an inclusion for each of its ids, and only for these. -/
theorem Checkpoint.inclusion_spec {blockIds : List Hash} {fromHeight toHeight : UInt64}
    {cp : Checkpoint} (hcp : fromBlockIds C blockIds fromHeight toHeight = some cp)
    {blockId : Hash} (hmem : blockId ∈ blockIds) :
    ∃ i, cp.inclusion blockId = .ok (some i) ∧ i.blockId = blockId ∧
      i.verify C (rootOf C blockIds) = true := by
  have hne : blockIds ≠ [] := List.ne_nil_of_mem hmem
  unfold fromBlockIds at hcp
  rw [if_neg (by simpa using hne)] at hcp
  obtain rfl := Option.some.inj hcp
  -- the position of the id, and the path from there
  have hfound : (blockIds.findIdx? (· == blockId)).isSome = true := by
    rw [List.findIdx?_isSome, List.any_eq_true]
    exact ⟨blockId, hmem, beq_self_eq_true _⟩
  rcases Option.isSome_iff_exists.mp hfound with ⟨idx, hidx⟩
  rcases List.findIdx?_eq_some_iff_getElem.mp hidx with ⟨hlt, hat, _⟩
  have hleaf : (blockIds.map (checkpointLeaf C))[idx]? = some (checkpointLeaf C blockId) := by
    rw [List.getElem?_map, List.getElem?_eq_getElem hlt, beq_iff_eq.mp hat]
    rfl
  rcases MerkleTree.proof_computeRoot (C := C) hleaf with ⟨path, hproof, hroot⟩
  refine ⟨⟨blockId, path⟩, ?_, rfl, decide_eq_true hroot⟩
  simp only [inclusion, hidx, hproof]
  rfl

/-- What can be said of every window of a service. -/
structure Window.Anchored (C : Crypto) (w : Window) : Prop where
  root : w.record.checkpointRoot = Checkpoint.rootOf C w.blockIds
  receipt : w.record.receipt.checkpointRoot = w.record.checkpointRoot

/-- An inclusion is found for exactly the ids of the windows, and it leads to
the root that was published. -/
theorem AnchorService.inclusionIn_spec {history : List Window}
    (hanchored : ∀ w ∈ history, w.Anchored C) (blockId : Hash) :
    ∃ result, inclusionIn C blockId history = .ok result ∧
      (result.isSome = true ↔ ∃ w ∈ history, blockId ∈ w.blockIds) ∧
      ∀ i record, result = some (i, record) → i.blockId = blockId ∧
        i.verify C record.checkpointRoot = true ∧
        record.receipt.checkpointRoot = record.checkpointRoot := by
  induction history with
  | nil => exact ⟨none, rfl, by simp, nofun⟩
  | cons w rest ih =>
      by_cases hmem : blockId ∈ w.blockIds
      -- the search stops at the first window with the id
      · have hw := hanchored w List.mem_cons_self
        rcases Checkpoint.fromBlockIds_of_ne_nil (C := C) (List.ne_nil_of_mem hmem) w.fromHeight
          w.toHeight with ⟨cp, hcp, _⟩
        rcases Checkpoint.inclusion_spec hcp hmem with ⟨i, hi, hblock, hverify⟩
        refine ⟨some (i, w.record), ?_, ?_, ?_⟩
        · simp only [inclusionIn, List.contains_iff_mem, if_pos hmem, hcp, hi]
          rfl
        · simp only [Option.isSome_some, true_iff]
          exact ⟨w, List.mem_cons_self, hmem⟩
        · rintro i' record heq
          cases heq
          rw [← hw.root] at hverify
          exact ⟨hblock, hverify, hw.receipt⟩
      · rcases ih fun w' hw' => hanchored w' (List.mem_cons_of_mem _ hw') with
          ⟨result, hresult, hiff, hfound⟩
        refine ⟨result, ?_, ?_, hfound⟩
        · simp only [inclusionIn, List.contains_iff_mem, if_neg hmem]
          exact hresult
        · rw [hiff]
          constructor
          · rintro ⟨w', hw', hin⟩
            exact ⟨w', List.mem_cons_of_mem _ hw', hin⟩
          · rintro ⟨w', hw', hin⟩
            rcases List.mem_cons.mp hw' with rfl | hrest
            · exact absurd hin hmem
            · exact ⟨w', hrest, hin⟩

/-! ## Backends that publish the root -/

/-- Receipts carry the root of the checkpoint. -/
def AnchorBackend.PublishesRoot (B : AnchorBackend) : Prop :=
  ∀ state checkpoint receipt, (B.anchor state checkpoint).1 = .ok receipt →
    receipt.checkpointRoot = checkpoint.root

theorem mockAnchor_publishesRoot : mockAnchor.PublishesRoot := by
  rintro published checkpoint receipt h
  rw [← Except.ok.inj h]

/-- The backend that appends to a file: what the next writes run into, and how
many succeeded. -/
structure FileState where
  path : String
  count : Nat
  faults : List (Option String)

def fileAnchor : AnchorBackend where
  State := FileState
  anchor file checkpoint :=
    match file.faults.headD none with
    | some message => (.error (.io message), { file with faults := file.faults.tail })
    | none => (.ok {
        backend := "file"
        reference := "file:" ++ file.path ++ "#" ++ toString file.count
        checkpointRoot := checkpoint.root },
        { file with count := file.count + 1, faults := file.faults.tail })

theorem fileAnchor_publishesRoot : fileAnchor.PublishesRoot := by
  rintro file checkpoint receipt h
  simp only [fileAnchor] at h
  split at h
  · cases h
  · rw [← Except.ok.inj h]

/-- The receipts of a service carry the roots of its records. -/
def AnchorService.Receipted {B : AnchorBackend} (s : AnchorService B) : Prop :=
  ∀ w ∈ s.history, w.record.receipt.checkpointRoot = w.record.checkpointRoot

namespace AnchorService.Receipted

variable {B : AnchorBackend} {s : AnchorService B}

theorem flush (h : s.Receipted) (hroots : B.PublishesRoot) : (s.flush C).1.Receipted := by
  rcases s.flush_cases (C := C) with ⟨backend, heq⟩ | ⟨backend, w, checkpoint, hanchor, hroot, heq⟩
  · rw [heq]
    exact h
  · rw [heq]
    intro w' hw'
    rcases List.mem_append.mp hw' with hold | hnew
    · exact h w' hold
    · rw [List.mem_singleton.mp hnew, hroot]
      exact hroots _ _ _ (congrArg Prod.fst hanchor)

theorem call (h : s.Receipted) (hroots : B.PublishesRoot) (c : AnchorCall) :
    (s.call C c).1.Receipted := by
  cases c with
  | recordBlock blockId height =>
      let s' : AnchorService B := { s with
        pendingFrom := some (s.pendingFrom.getD height)
        pendingTo := height
        pendingIds := s.pendingIds ++ [blockId] }
      have hcall : s.call C (.recordBlock blockId height) =
          if s'.interval ≤ s'.pendingIds.length then s'.flush C else (s', none) := rfl
      have hqueued : s'.Receipted := h
      rw [hcall]
      split
      · exact hqueued.flush hroots
      · exact hqueued
  | flush => exact h.flush hroots

theorem run (h : s.Receipted) (hroots : B.PublishesRoot) (calls : List AnchorCall) :
    (s.run C calls).Receipted := by
  induction calls generalizing s with
  | nil => exact h
  | cons c calls ih => exact ih (h.call hroots c)

end AnchorService.Receipted

/-- Every window of a reachable service is anchored as its record says. -/
theorem Batched.anchored {B : AnchorBackend} {s : AnchorService B} {windows : List Fed}
    {pending : Fed} (h : Batched C s windows pending) (hreceipts : s.Receipted) :
    ∀ w ∈ s.history, w.Anchored C := by
  intro w hw
  rcases List.mem_iff_getElem.mp hw with ⟨i, hi, rfl⟩
  have hof := List.Forall₂.get h.history (h.history.length_eq ▸ hi) hi
  rw [List.get_eq_getElem, List.get_eq_getElem] at hof
  exact ⟨hof.root, hreceipts _ hw⟩

/-- After any calls, a proof can be anchored exactly when its block is in a
published window, and it then verifies whenever the proof itself does. And
whatever verifies against a root of some ids is about one of these blocks, is
backed by a receipt for that root and by a valid proof of notarization; or else
a collision is exhibited. -/
theorem anchored_proof_exact {B : AnchorBackend} (hroots : B.PublishesRoot) :
    (∀ backend interval hpos calls (s : AnchorService B),
      s = (AnchorService.new backend interval hpos).run C calls →
      ∀ p : NotarizationProof C, ∃ result, s.anchorProof p = .ok result ∧
        (result.isSome = true ↔ ∃ w ∈ s.history, p.header.id C ∈ w.blockIds) ∧
        ∀ a, result = some a → a.notarization = p ∧
          ∀ set, p.verify set = .ok () → a.verify set = .ok ()) ∧
    ∀ (a : AnchoredProof C) set, a.verify set = .ok () →
      ∀ blockIds fromHeight toHeight cp,
        Checkpoint.fromBlockIds C blockIds fromHeight toHeight = some cp →
        cp.root = a.record.checkpointRoot →
        a.record.receipt.checkpointRoot = cp.root ∧ a.notarization.verify set = .ok () ∧
          (a.notarization.header.id C ∈ blockIds ∨ Collision.Exhibits C.digest
            (a.checkpoint.inputs C ++ MerkleTree.treeInputs C (blockIds.map Hash.asBytes))) := by
  constructor
  · rintro backend interval hpos calls s rfl p
    rcases (Batched.new (C := C) backend interval hpos).run calls with
      ⟨windows, pending, hbatched, _⟩
    have hempty : (AnchorService.new (B := B) backend interval hpos).Receipted := by
      intro w hw
      cases hw
    -- what was published is searched, and every window has its root
    rcases AnchorService.inclusionIn_spec (hbatched.anchored (hempty.run hroots calls))
      (p.header.id C) with ⟨result, hresult, hiff, hfound⟩
    cases result with
    | none =>
        refine ⟨none, ?_, hiff, nofun⟩
        simp only [AnchorService.anchorProof, AnchorService.inclusionFor, hresult]
        rfl
    | some found =>
        rcases found with ⟨i, record⟩
        rcases hfound i record rfl with ⟨hblock, hverify, hreceipt⟩
        refine ⟨some ⟨p, i, record⟩, ?_, hiff, ?_⟩
        · simp only [AnchorService.anchorProof, AnchorService.inclusionFor, hresult]
          rfl
        · rintro a heq
          cases heq
          refine ⟨rfl, ?_⟩
          intro set hp
          exact (AnchoredProof.verify_eq_ok_iff _ _).mpr ⟨hp, hblock, hverify, hreceipt⟩
  · intro a set h blockIds fromHeight toHeight cp hcp hroot
    rcases (AnchoredProof.verify_eq_ok_iff _ _).mp h with ⟨hp, hblock, hverify, hreceipt⟩
    refine ⟨hreceipt.trans hroot.symm, hp, ?_⟩
    -- the checkpoint says its root, which is that of the ids
    have hcproot : cp.root = Checkpoint.rootOf C blockIds := by
      unfold Checkpoint.fromBlockIds at hcp
      split at hcp
      · cases hcp
      · rw [← Option.some.inj hcp]
        rfl
    rw [← hblock]
    apply CheckpointInclusion.mem_of_verify
    rw [← hcproot, hroot]
    exact hverify

/-- A proof of one entry, sealed by validator 1. -/
def sampleNotarization : NotarizationProof sample :=
  let attestation := Attestation.create (C := sample) (1 : UInt8) (1 : UInt8) ⟨7⟩
  let header : BlockHeader := {
    height := 2
    prevHash := ⟨9⟩
    merkleRoot := attestation.leafHash
    txCount := 1
    timestamp := 0
    govRoot := Hash.zero }
  { attestation
    path := ⟨[]⟩
    header
    qc := {
      blockId := header.id sample
      signatures := [{
        validator := (1 : UInt8)
        signature := sampleSign 1 (header.id sample).asBytes Context.block }] } }

/-- Its block is the second of a window of two. -/
theorem anchored_proof_exact_mock :
    ∃ a, ((AnchorService.new (B := mockAnchor) [] 2 (by decide)).run sample
        [.recordBlock ⟨9⟩ 1, .recordBlock (sampleNotarization.header.id sample) 2]).anchorProof
          sampleNotarization = .ok (some a) ∧
      a.verify ⟨[(1 : UInt8)], 1, by decide, by decide⟩ = .ok () := by
  rcases (anchored_proof_exact mockAnchor_publishesRoot).1 [] 2 (by decide)
    [.recordBlock ⟨9⟩ 1, .recordBlock (sampleNotarization.header.id sample) 2] _ rfl
    sampleNotarization with ⟨result, hresult, hiff, hanchored⟩
  have hsome := hiff.mpr (by decide +kernel)
  rcases Option.isSome_iff_exists.mp hsome with ⟨a, rfl⟩
  refine ⟨a, hresult, (hanchored a rfl).2 _ ?_⟩
  rw [NotarizationProof.verify_eq_ok_iff, QuorumCertificate.verify_eq_ok_iff]
  decide +kernel

end SmartLedger
