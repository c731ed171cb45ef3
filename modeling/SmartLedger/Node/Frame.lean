import SmartLedger.Lib.JsonText
import SmartLedger.Node.Gossip

/-! # Frames

A message travels as a `u32` length followed by that many bytes of compact
JSON, and a reader refuses lengths above `maxFrame`. Nothing on the sending
side looks at the length: a proposal carries up to `maxTxs` attestations and a
catch-up reply up to `maxSyncBatch` blocks.

The JSON texts are written out as `serde_json` writes them, keys, signatures
and hashes in hex; the parser is a parameter (`Reads`). `weight` adds up what a
text is made of, and `frames_received_iff` says which messages arrive.
-/

namespace SmartLedger

open JsonText

variable {C : Crypto}

/-! ## The texts -/

def Hash.json (h : Hash) : List UInt8 := hex h.asBytes

def keyJson (k : C.VerifyingKey) : List UInt8 := hex (C.keyBytes k)

def sigJson (s : C.Signature) : List UInt8 := hex (C.sigBytes s)

/-- `Option`: `null`, or the value. -/
def optionJson {α : Type} (json : α → List UInt8) : Option α → List UInt8
  | none => null
  | some a => json a

def Attestation.json (a : Attestation C) : List UInt8 :=
  obj [field "pubkey" (keyJson a.pubkey), field "hash" a.hash.json,
    field "signature" (sigJson a.signature)]

def ValidatorSig.json (s : ValidatorSig C) : List UInt8 :=
  obj [field "validator" (keyJson s.validator), field "signature" (sigJson s.signature)]

def ValidatorChange.json (c : ValidatorChange C) : List UInt8 :=
  obj [field "adds" (arr (c.adds.map keyJson)), field "removes" (arr (c.removes.map keyJson)),
    field "activation_height" (num c.activationHeight.toNat)]

def SignedValidatorChange.json (s : SignedValidatorChange C) : List UInt8 :=
  obj [field "change" s.change.json, field "approvals" (arr (s.approvals.map ValidatorSig.json))]

def BlockHeader.json (hdr : BlockHeader) : List UInt8 :=
  obj [field "height" (num hdr.height.toNat), field "prev_hash" hdr.prevHash.json,
    field "merkle_root" hdr.merkleRoot.json, field "tx_count" (num hdr.txCount.toNat),
    field "timestamp" (num hdr.timestamp.toNat), field "gov_root" hdr.govRoot.json]

def QuorumCertificate.json (qc : QuorumCertificate C) : List UInt8 :=
  obj [field "block_id" qc.blockId.json,
    field "signatures" (arr (qc.signatures.map ValidatorSig.json))]

def Block.json (b : Block C) : List UInt8 :=
  obj [field "header" b.header.json, field "attestations" (arr (b.attestations.map Attestation.json)),
    field "governance" (arr (b.governance.map SignedValidatorChange.json)), field "qc" b.qc.json]

def Proposed.json (v : Proposed C) : List UInt8 :=
  obj [field "header" v.header.json, field "attestations" (arr (v.attestations.map Attestation.json)),
    field "governance" (arr (v.governance.map SignedValidatorChange.json))]

def ProposalMsg.json (pm : ProposalMsg C) : List UInt8 :=
  obj [field "height" (num pm.height.toNat), field "round" (num pm.round.toNat),
    field "valid_round" (optionJson (fun r => num r.toNat) pm.validRound),
    field "value" pm.value.json, field "proposer" (keyJson pm.proposer),
    field "sig" (sigJson pm.sig)]

def VoteType.json : VoteType → List UInt8
  | .prevote => str (Bytes.ascii "Prevote".toList)
  | .precommit => str (Bytes.ascii "Precommit".toList)

def VoteMsg.json (vm : VoteMsg C) : List UInt8 :=
  obj [field "height" (num vm.height.toNat), field "round" (num vm.round.toNat),
    field "vote_type" vm.voteType.json, field "block_id" (optionJson Hash.json vm.blockId),
    field "voter" (keyJson vm.voter), field "sig" (sigJson vm.sig)]

def ConsensusMsg.json : ConsensusMsg C → List UInt8
  | .proposal pm => variant "Proposal" pm.json
  | .vote vm => variant "Vote" vm.json

/-- `serde_json::to_vec`. -/
def WireMsg.json : WireMsg C → List UInt8
  | .consensus msg => variant "Consensus" msg.json
  | .attestation att => variant "Attestation" att.json
  | .governance change => variant "Governance" change.json
  | .getBlocks start => variant "GetBlocks" (obj [field "from" (num start.toNat)])
  | .blocks bs => variant "Blocks" (arr (bs.map Block.json))

/-! ## Frames -/

/-- Reject absurd frames early. -/
def maxFrame : Nat := 32 * 1024 * 1024

/-- What `write_frame` sends: the length as a `u32`, whatever it is, and the
text. -/
def writeFrame (msg : WireMsg C) : List UInt8 :=
  beBytes32 (UInt32.ofNat msg.json.length) ++ msg.json

/-- The `io::Error`s of `read_frame`. -/
inductive FrameError where
  | unexpectedEof
  | frameTooLarge
  | invalidData
deriving DecidableEq, Repr

/-- `read_frame`, with what it leaves in the stream. -/
def readFrame {α : Type} (decode : List UInt8 → Option α) (stream : List UInt8) :
    Except FrameError (α × List UInt8) :=
  if stream.length < 4 then .error .unexpectedEof
  else
    let len := Bytes.ofBe (stream.take 4)
    let rest := stream.drop 4
    if maxFrame < len then .error .frameTooLarge
    else if rest.length < len then .error .unexpectedEof
    else
      match decode (rest.take len) with
      | some msg => .ok (msg, rest.drop len)
      | none => .error .invalidData

/-- `serde_json::from_slice` on the text of a message: the text reads back,
and what is cut off before its end is not read as the message. -/
structure Reads (decode : List UInt8 → Option (WireMsg C)) (msg : WireMsg C) : Prop where
  whole : decode msg.json = some msg
  cut : ∀ part, part <+: msg.json → part ≠ msg.json → decode part ≠ some msg

/-- The receiver reads the message that was sent. -/
def Received (decode : List UInt8 → Option (WireMsg C)) (msg : WireMsg C) : Prop :=
  ∃ rest, readFrame decode (writeFrame msg) = .ok (msg, rest)

/-- Reading a frame whose length arrived as `len`. -/
theorem readFrame_eq {α : Type} (decode : List UInt8 → Option α) (len : Nat)
    (text : List UInt8) :
    readFrame decode (Bytes.be 4 len ++ text) =
      if maxFrame < len % 2 ^ 32 then .error .frameTooLarge
      else if text.length < len % 2 ^ 32 then .error .unexpectedEof
      else match decode (text.take (len % 2 ^ 32)) with
        | some msg => .ok (msg, text.drop (len % 2 ^ 32))
        | none => .error .invalidData := by
  have hlen : (Bytes.be 4 len).length = 4 := Bytes.length_be 4 len
  have htake : (Bytes.be 4 len ++ text).take 4 = Bytes.be 4 len := by
    rw [List.take_append_of_le_length (by omega), List.take_of_length_le (by omega)]
  have hdrop : (Bytes.be 4 len ++ text).drop 4 = text := by
    rw [List.drop_append_of_le_length (by omega), List.drop_of_length_le (by omega),
      List.nil_append]
  have hread : Bytes.ofBe (Bytes.be 4 len) = len % 2 ^ 32 := Bytes.ofBe_be 4 len
  unfold readFrame
  rw [if_neg (by rw [List.length_append]; omega)]
  dsimp only
  rw [htake, hdrop, hread]

/-- A message arrives exactly if its text is within the limit. Past it, either
the reader sees too large a number, or the length wrapped around and the
reader takes a cut-off text. -/
theorem received_iff_length {decode : List UInt8 → Option (WireMsg C)} {msg : WireMsg C}
    (h : Reads decode msg) : Received decode msg ↔ msg.json.length ≤ maxFrame := by
  have hframe : writeFrame msg = Bytes.be 4 msg.json.length ++ msg.json := by
    unfold writeFrame beBytes32
    rw [UInt32.toNat_ofNat']
    congr 1
    exact Bytes.be_mod 4 4 _ le_rfl
  have hmax : maxFrame < 2 ^ 32 := by decide
  unfold Received
  rw [hframe, readFrame_eq]
  constructor
  · rintro ⟨rest, hread⟩
    by_contra hover
    split at hread
    · cases hread
    next hle =>
    split at hread
    · cases hread
    -- the text is longer than the length that was read
    have hcut : msg.json.take (msg.json.length % 2 ^ 32) ≠ msg.json := by
      intro heq
      have hlen := congrArg List.length heq
      rw [List.length_take] at hlen
      omega
    split at hread
    · next m hm =>
        obtain ⟨rfl, _⟩ := Prod.mk.inj (Except.ok.inj hread)
        exact h.cut _ (List.take_prefix _ _) hcut hm
    · cases hread
  · intro hle
    have hmod : msg.json.length % 2 ^ 32 = msg.json.length := Nat.mod_eq_of_lt (by omega)
    rw [hmod, if_neg (by omega), if_neg (by omega), List.take_length, h.whole]
    exact ⟨_, rfl⟩

/-! ## What a text weighs

The constants are the names, quotes, colons, commas and brackets around the
data; a list weighs its items and the commas between them. -/

/-- A key in hex, with its quotes. -/
def keyWeight (C : Crypto) : Nat := 2 * C.pubkeyLen + 2

/-- A signature in hex, with its quotes. -/
def sigWeight (C : Crypto) : Nat := 2 * C.sigLen + 2

/-- An attestation: a key, a hash and a signature. -/
def attestationWeight (C : Crypto) : Nat := 98 + keyWeight C + sigWeight C

/-- A validator's signature with its key. -/
def shareWeight (C : Crypto) : Nat := 27 + keyWeight C + sigWeight C

/-- `n` items of one weight, in brackets. -/
def listWeight (n item : Nat) : Nat := joined (List.replicate n item) + 2

def ValidatorChange.weight (c : ValidatorChange C) : Nat :=
  41 + listWeight c.adds.length (keyWeight C) + listWeight c.removes.length (keyWeight C) +
    digits c.activationHeight.toNat

def SignedValidatorChange.weight (s : SignedValidatorChange C) : Nat :=
  24 + s.change.weight + listWeight s.approvals.length (shareWeight C)

def BlockHeader.weight (hdr : BlockHeader) : Nat :=
  274 + digits hdr.height.toNat + digits hdr.txCount.toNat + digits hdr.timestamp.toNat

/-- The governance changes of a block, in brackets. -/
def governanceWeight (changes : List (SignedValidatorChange C)) : Nat :=
  joined (changes.map SignedValidatorChange.weight) + 2

def Block.weight (b : Block C) : Nat :=
  140 + b.header.weight + listWeight b.attestations.length (attestationWeight C) +
    governanceWeight b.governance + listWeight b.qc.signatures.length (shareWeight C)

def Proposed.weight (v : Proposed C) : Nat :=
  41 + v.header.weight + listWeight v.attestations.length (attestationWeight C) +
    governanceWeight v.governance

def optionWeight {α : Type} (weight : α → Nat) : Option α → Nat
  | none => 4
  | some a => weight a

def VoteType.weight : VoteType → Nat
  | .prevote => 9
  | .precommit => 11

/-- The length of the text of a message, from its lists and numbers alone. -/
def WireMsg.weight : WireMsg C → Nat
  | .consensus (.proposal pm) =>
      90 + digits pm.height.toNat + digits pm.round.toNat +
        optionWeight (fun r => digits r.toNat) pm.validRound + pm.value.weight + keyWeight C +
        sigWeight C
  | .consensus (.vote vm) =>
      84 + digits vm.height.toNat + digits vm.round.toNat + vm.voteType.weight +
        optionWeight (fun _ => 66) vm.blockId + keyWeight C + sigWeight C
  | .attestation _ => 16 + attestationWeight C
  | .governance change => 15 + change.weight
  | .getBlocks start => 23 + digits start.toNat
  | .blocks bs => 13 + joined (bs.map Block.weight)

@[simp] theorem length_keyJson (k : C.VerifyingKey) : (keyJson k).length = keyWeight C := by
  simp [keyJson, keyWeight, C.length_keyBytes]

@[simp] theorem length_sigJson (s : C.Signature) : (sigJson s).length = sigWeight C := by
  simp [sigJson, sigWeight, C.length_sigBytes]

@[simp] theorem Hash.length_json (h : Hash) : h.json.length = 66 := by
  simp [Hash.json, Hash.len]

@[simp] theorem Attestation.length_json (a : Attestation C) :
    a.json.length = attestationWeight C := by
  simp [Attestation.json, attestationWeight, joined]
  omega

@[simp] theorem ValidatorSig.length_json (s : ValidatorSig C) :
    s.json.length = shareWeight C := by
  simp [ValidatorSig.json, shareWeight, joined]
  omega

/-- A list whose items all have one length. -/
theorem length_arr_of {α : Type} {json : α → List UInt8} {item : Nat}
    (h : ∀ a, (json a).length = item) (l : List α) :
    (arr (l.map json)).length = listWeight l.length item := by
  rw [length_arr h l, List.map_const', listWeight]

@[simp] theorem ValidatorChange.length_json (c : ValidatorChange C) :
    c.json.length = c.weight := by
  simp [ValidatorChange.json, ValidatorChange.weight, joined, length_arr_of length_keyJson]
  omega

@[simp] theorem SignedValidatorChange.length_json (s : SignedValidatorChange C) :
    s.json.length = s.weight := by
  simp [SignedValidatorChange.json, SignedValidatorChange.weight, joined,
    length_arr_of ValidatorSig.length_json]
  omega

@[simp] theorem BlockHeader.length_json (hdr : BlockHeader) : hdr.json.length = hdr.weight := by
  simp [BlockHeader.json, BlockHeader.weight, joined]
  omega

theorem length_governanceJson (changes : List (SignedValidatorChange C)) :
    (arr (changes.map SignedValidatorChange.json)).length = governanceWeight changes := by
  rw [length_arr SignedValidatorChange.length_json, governanceWeight]

@[simp] theorem Block.length_json (b : Block C) : b.json.length = b.weight := by
  simp [Block.json, QuorumCertificate.json, Block.weight, joined, length_governanceJson,
    length_arr_of ValidatorSig.length_json, length_arr_of Attestation.length_json]
  omega

@[simp] theorem Proposed.length_json (v : Proposed C) : v.json.length = v.weight := by
  simp [Proposed.json, Proposed.weight, joined, length_governanceJson,
    length_arr_of Attestation.length_json]
  omega

@[simp] theorem length_optionJson {α : Type} (json : α → List UInt8) (a : Option α) :
    (optionJson json a).length = optionWeight (fun a => (json a).length) a := by
  cases a with
  | none => simp [optionJson, optionWeight]
  | some a => rfl

@[simp] theorem VoteType.length_json (t : VoteType) : t.json.length = t.weight := by
  cases t with
  | prevote => simp [VoteType.json, VoteType.weight]
  | precommit => simp [VoteType.json, VoteType.weight]

/-- The weight of a message is the length of its text. -/
theorem WireMsg.length_json (msg : WireMsg C) : msg.json.length = msg.weight := by
  cases msg with
  | consensus msg =>
      cases msg with
      | proposal pm =>
          simp [WireMsg.json, ConsensusMsg.json, ProposalMsg.json, variant, WireMsg.weight, joined]
          omega
      | vote vm =>
          simp [WireMsg.json, ConsensusMsg.json, VoteMsg.json, variant, WireMsg.weight, joined]
          omega
  | attestation att =>
      simp [WireMsg.json, variant, WireMsg.weight, joined]
      omega
  | governance change =>
      simp [WireMsg.json, variant, WireMsg.weight, joined]
      omega
  | getBlocks start =>
      simp [WireMsg.json, variant, WireMsg.weight, joined]
      omega
  | blocks bs =>
      simp [WireMsg.json, variant, length_arr Block.length_json, WireMsg.weight, joined]
      omega

/-! ## Which messages arrive -/

/-- The lengths of ML-DSA-65. -/
structure Crypto.MlDsa65 (C : Crypto) : Prop where
  pubkeyLen : C.pubkeyLen = 1952
  sigLen : C.sigLen = 3309

/-- A `u64` has 20 digits at most. -/
theorem digits_toNat_le (n : UInt64) : digits n.toNat ≤ 20 :=
  digits_le (by omega) (n.toNat_lt.trans (by norm_num))

theorem digits_toNat32_le (n : UInt32) : digits n.toNat ≤ 10 :=
  digits_le (by omega) (n.toNat_lt.trans (by norm_num))

section Lengths

variable (hlen : C.MlDsa65)
include hlen

theorem keyWeight_eq : keyWeight C = 3906 := by
  rw [keyWeight, hlen.pubkeyLen]

theorem sigWeight_eq : sigWeight C = 6620 := by
  rw [sigWeight, hlen.sigLen]

theorem attestationWeight_eq : attestationWeight C = 10624 := by
  rw [attestationWeight, keyWeight_eq hlen, sigWeight_eq hlen]

/-- Votes, attestations and requests are small. -/
theorem vote_weight_le (vm : VoteMsg C) : (WireMsg.consensus (.vote vm)).weight ≤ maxFrame := by
  have hheight := digits_toNat_le vm.height
  have hround := digits_toNat_le vm.round
  have htype : vm.voteType.weight ≤ 11 := by cases vm.voteType <;> decide
  have hid : optionWeight (fun _ => 66) vm.blockId ≤ 66 := by
    cases vm.blockId with
    | none => show 4 ≤ 66; omega
    | some _ => exact le_rfl
  have hmax : maxFrame = 33554432 := rfl
  rw [WireMsg.weight, keyWeight_eq hlen, sigWeight_eq hlen]
  omega

/-- An attestation is of one length. -/
theorem attestation_weight_le (att : Attestation C) :
    (WireMsg.attestation att).weight ≤ maxFrame := by
  have hmax : maxFrame = 33554432 := rfl
  rw [WireMsg.weight, attestationWeight_eq hlen]
  omega

/-- A proposal without governance changes is within the limit up to 3157
attestations, and beyond it from 3158 on, whatever its numbers are. -/
theorem proposal_weight_le_iff {pm : ProposalMsg C} (hgov : pm.value.governance = [])
    (hne : pm.value.attestations ≠ []) :
    (WireMsg.consensus (.proposal pm)).weight ≤ maxFrame ↔
      pm.value.attestations.length ≤ 3157 := by
  have hheight := digits_toNat_le pm.height
  have hround := digits_toNat_le pm.round
  have hvalid : optionWeight (fun r : UInt64 => digits r.toNat) pm.validRound ≤ 20 := by
    cases pm.validRound with
    | none => show 4 ≤ 20; omega
    | some r => exact digits_toNat_le r
  have hhdr := digits_toNat_le pm.value.header.height
  have htx := digits_toNat32_le pm.value.header.txCount
  have htime := digits_toNat_le pm.value.header.timestamp
  have hpos : 0 < pm.value.attestations.length := List.length_pos_iff.mpr hne
  have hatts := joined_replicate _ (attestationWeight C) hpos
  rw [attestationWeight_eq hlen] at hatts
  have hnone : governanceWeight pm.value.governance = 2 := by
    rw [hgov]
    rfl
  have hmax : maxFrame = 33554432 := rfl
  rw [WireMsg.weight, keyWeight_eq hlen, sigWeight_eq hlen, Proposed.weight, BlockHeader.weight,
    hnone, listWeight, attestationWeight_eq hlen]
  omega

end Lengths

/-- A request is a number. -/
theorem getBlocks_weight_le (start : UInt64) :
    (WireMsg.getBlocks (C := C) start).weight ≤ maxFrame := by
  have hstart := digits_toNat_le start
  have hmax : maxFrame = 33554432 := rfl
  rw [WireMsg.weight]
  omega

/-- A message that is read as it was written arrives when it fits into a frame. -/
theorem received_iff {decode : List UInt8 → Option (WireMsg C)} {msg : WireMsg C}
    (h : Reads decode msg) : Received decode msg ↔ msg.weight ≤ maxFrame := by
  rw [received_iff_length h, msg.length_json]

open Engine

/-- What a node sends is received exactly up to a certain weight, which votes,
attestations and requests never reach; a fresh proposal without governance
changes is received exactly when the proposer has no more than 3157 pooled
attestations. -/
theorem frames_received_iff {decode : List UInt8 → Option (WireMsg C)} (hlen : C.MlDsa65)
    {genesis : List C.VerifyingKey} {meSk : C.SigningKey} {mePk : C.VerifyingKey}
    {store : List (Block C)} {baseTimeout : Nat} {n₀ : Node C}
    (hnew : Node.new genesis meSk mePk store baseTimeout = .ok n₀) :
    (∀ ins acts n msg, Session n₀ ins acts n → .broadcast msg ∈ acts → Reads decode msg →
      (Received decode msg ↔ msg.weight ≤ maxFrame) ∧
      ((∃ vm, msg = .consensus (.vote vm)) ∨ (∃ att, msg = .attestation att) ∨
        (∃ start, msg = .getBlocks start) → Received decode msg)) ∧
    ∀ ins pm e, NodeSends n₀ ins pm e → e.validValue = none → e.govMempool = [] →
      Reads decode (.consensus (.proposal pm)) →
      (Received decode (.consensus (.proposal pm)) ↔ e.mempool.length ≤ 3157) := by
  constructor
  · intro ins acts n msg _ _ hreads
    refine ⟨received_iff hreads, ?_⟩
    rw [received_iff hreads]
    rintro (⟨vm, rfl⟩ | ⟨att, rfl⟩ | ⟨start, rfl⟩)
    · exact vote_weight_le hlen vm
    · exact attestation_weight_le hlen att
    · exact getBlocks_weight_le start
  · intro ins pm e hnode hfresh hnogov hreads
    rcases Exec.bind_eq_ok.mp (Node.new_eq_ok hnew).1 with ⟨height, _, hbuild⟩
    rcases Engine.withRegistry_eq_ok hbuild with ⟨set, _, he₀⟩
    have hstart : n₀.engine.round = 0 ∧ n₀.engine.step = .propose := by
      rw [he₀]
      exact ⟨rfl, rfl⟩
    rcases hnode.sends hstart with ⟨evs, hsends⟩
    rcases hsends.proposes.fresh hfresh with ⟨hvalue, hne⟩
    -- the value is made of the pools, and only the attestations fill it
    have hgov : e.getValue.governance = [] := by
      unfold getValue
      rw [hnogov]
      rfl
    have hatts : e.getValue.attestations = e.mempool.take maxTxs := rfl
    have hpool : e.getValue.attestations ≠ [] := by
      rcases hne with hatt | hbad
      · exact hatt
      · exact absurd hgov hbad
    rw [received_iff hreads, proposal_weight_le_iff hlen (by rw [hvalue]; exact hgov)
      (by rw [hvalue]; exact hpool), hvalue, hatts, List.length_take]
    -- the cap on the attestations of a block is out of reach of a frame
    have hmax : maxTxs = 10000 := rfl
    omega

/-! ## A proposal that nobody can read -/

/-- The sample primitives with keys and signatures of the real lengths. -/
def wide : Crypto where
  SigningKey := UInt8
  VerifyingKey := UInt8
  Signature := Hash
  decEqVerifyingKey := inferInstance
  decEqSignature := inferInstance
  pubkeyLen := 1952
  sigLen := 3309
  keyBytes k := k :: List.replicate 1951 0
  length_keyBytes _ := by rw [List.length_cons, List.length_replicate]
  keyBytes_inj _ _ h := (List.cons.inj h).1
  sigBytes s := s.asBytes ++ List.replicate 3277 0
  length_sigBytes s := by
    rw [List.length_append, List.length_replicate, Hash.length_asBytes]
    rfl
  sigBytes_inj a b h := Hash.asBytes_inj (List.append_inj_left h (by simp))
  digest := sampleDigest
  sign := sampleSign
  verify key message signature context := decide (signature = sampleSign key message context)

instance (k : Nat) : OfNat wide.VerifyingKey k := inferInstanceAs (OfNat UInt8 k)

theorem wide_mlDsa65 : wide.MlDsa65 := ⟨rfl, rfl⟩

/-- A parser that knows one message. -/
def readsOnly (msg : WireMsg C) (text : List UInt8) : Option (WireMsg C) :=
  if text = msg.json then some msg else none

theorem readsOnly_reads (msg : WireMsg C) : Reads (readsOnly msg) msg where
  whole := if_pos rfl
  cut := by
    intro part _ hne heq
    rw [readsOnly, if_neg hne] at heq
    cases heq

/-- The node with another clock and another pool. -/
def Node.pooling (n : Node C) (now : UInt64) (mempool : List (Attestation C)) : Node C :=
  { n with engine := { n.engine with now, mempool } }

/-- A node that is not parked only pools what a client submits. -/
theorem Node.submit_busy {n : Node C} (hbusy : n.engine.parked = false) (ord : IterOrder)
    (t now : UInt64) (pool : List (Attestation C)) (att : Attestation C) :
    (n.pooling t pool).handle ord now (.submit att) =
      .ok (n.pooling now (pool ++ [att]), [.broadcast (.attestation att)]) := by
  have hadd : ((n.pooling t pool).engine.setTime now).addAttestation ord att =
      .ok ((n.pooling now (pool ++ [att])).engine, []) := by
    have hparked : ¬ n.engine.parked = true := by
      rw [hbusy]
      exact Bool.false_ne_true
    unfold addAttestation
    exact if_neg hparked
  unfold Node.handle Node.dispatch
  dsimp only
  rw [hadd]
  rfl

/-- So its pool can grow to any size. -/
theorem Session.submits {n₀ n : Node C} {ins : List (NodeEvent C)} {acts : List (Action C)}
    (h : Session n₀ ins acts n) (hbusy : n.engine.parked = false) (att : Attestation C) (k : Nat) :
    ∃ ins' acts' now, Session n₀ ins' acts'
      (n.pooling now (n.engine.mempool ++ List.replicate k att)) := by
  induction k with
  | zero =>
      refine ⟨ins, acts, n.engine.now, ?_⟩
      rw [List.replicate_zero, List.append_nil]
      exact h
  | succ k ih =>
      rcases ih with ⟨ins', acts', now, hsession⟩
      refine ⟨ins' ++ [.submit att], acts' ++ [.broadcast (.attestation att)], now, ?_⟩
      rw [List.replicate_succ', ← List.append_assoc]
      exact Session.step hsession (Node.submit_busy hbusy sampleOrder now now _ att)

def wideAttestation : Attestation wide := Attestation.create (C := wide) (1 : UInt8) 1 ⟨7⟩

/-- Validator 1 of two is started and handed an attestation. Validator 2
proposes first, so it waits. -/
def wideStart : Exec (Node wide × Node wide × List (Action wide)) := do
  let n₀ ← Node.new (C := wide) [1, 2] (1 : UInt8) 1 [] 1000
  let (n, _) ← n₀.begin sampleOrder 0
  let (n, acts) ← n.handle sampleOrder 0 (.submit wideAttestation)
  return (n₀, n, acts)

/-- The session behind the computed start. -/
theorem Session.of_wideStart {n₀ n : Node wide} {acts : List (Action wide)}
    (h : wideStart = .ok (n₀, n, acts)) :
    Node.new (C := wide) [1, 2] (1 : UInt8) 1 [] 1000 = .ok n₀ ∧
      ∃ acts', Session n₀ [.submit wideAttestation] (acts' ++ acts) n := by
  unfold wideStart at h
  simp only [Exec.bind_eq_ok] at h
  rcases h with ⟨m₀, hnew, ⟨m₁, acts₁⟩, hbegin, ⟨m₂, acts₂⟩, hhandle, hres⟩
  rcases Exec.ok_triple hres with ⟨rfl, rfl, rfl⟩
  exact ⟨hnew, acts₁, Session.step (Session.start hbegin) hhandle⟩

/-- The attestations a node passes on. -/
def passedOn (acts : List (Action C)) : List (Attestation C) :=
  acts.filterMap fun
    | .broadcast (.attestation att) => some att
    | _ => none

theorem mem_passedOn {acts : List (Action C)} {att : Attestation C} (h : att ∈ passedOn acts) :
    .broadcast (.attestation att) ∈ acts := by
  unfold passedOn at h
  rw [List.mem_filterMap] at h
  rcases h with ⟨a, ha, heq⟩
  split at heq
  · rw [← Option.some.inj heq]
    exact ha
  · cases heq

/-- The attestation it passes on is received; and so is the proposal that
validator 2 makes of the attestation when it hears of it. -/
theorem frames_received_small :
    (∃ (n₀ n : Node wide) (ins : List (NodeEvent wide)) (acts : List (Action wide)),
      Session n₀ ins acts n ∧ .broadcast (.attestation wideAttestation) ∈ acts ∧
      (WireMsg.attestation wideAttestation).weight ≤ maxFrame ∧
      Received (readsOnly (WireMsg.attestation wideAttestation)) (.attestation wideAttestation)) ∧
    ∃ (n₀ : Node wide) (pm : ProposalMsg wide) (e : Engine wide),
      NodeSends n₀ [.wire (.attestation wideAttestation)] pm e ∧ e.mempool = [wideAttestation] ∧
      Received (readsOnly (WireMsg.consensus (.proposal pm))) (.consensus (.proposal pm)) := by
  constructor
  · have hstart : wideStart.holds (fun r => decide (wideAttestation ∈ passedOn r.2.2)) = true := by
      decide +kernel
    rcases Exec.holds_iff.mp hstart with ⟨⟨n₀, n, acts⟩, hrun, hsent⟩
    rcases Session.of_wideStart hrun with ⟨hnew, acts', hsession⟩
    have hmem : .broadcast (.attestation wideAttestation) ∈ acts :=
      mem_passedOn (of_decide_eq_true hsent)
    rcases (frames_received_iff wide_mlDsa65 hnew).1 _ _ n _ hsession
      (List.mem_append_right _ hmem) (readsOnly_reads _) with ⟨hiff, hsmall⟩
    have hgot := hsmall (Or.inr (Or.inl ⟨_, rfl⟩))
    exact ⟨n₀, n, _, _, hsession, List.mem_append_right _ hmem, hiff.mp hgot, hgot⟩
  -- the attestation makes validator 2 propose
  · have hwakes : (wakeUpWith (C := wide) [1, 2] (2 : UInt8) 2 wideAttestation).holds (fun r =>
        wakesWith true r &&
          decide (r.2.2.1.mempool = [wideAttestation] ∧ r.2.2.1.govMempool = [])) = true := by
      decide +kernel
    rcases exists_nodeSends (p := fun e => decide (e.mempool = [wideAttestation] ∧
      e.govMempool = [])) hwakes with ⟨n₀, pm, e, hnew, hsends, hfresh, _, hpools⟩
    rcases of_decide_eq_true hpools with ⟨hpool, hgov⟩
    refine ⟨n₀, pm, e, hsends, hpool, ?_⟩
    apply ((frames_received_iff wide_mlDsa65 hnew).2 _ pm e hsends hfresh hgov
      (readsOnly_reads _)).mpr
    rw [hpool]
    decide

/-- A prevote of validator 2 in round 1, which takes validator 1 there. -/
def wideVote : ConsensusMsg wide :=
  .vote (VoteMsg.create (C := wide) (2 : UInt8) 2 1 1 .prevote none)

/-- What validator 1 then does with a pool of 3158 attestations: it is its
turn to propose. -/
def wideRound : Exec (Node wide × List (Action wide)) := do
  let (_, n, _) ← wideStart
  let n := n.pooling 0 (n.engine.mempool ++ List.replicate 3157 wideAttestation)
  n.handle sampleOrder 0 (.wire (.consensus wideVote))

/-- The number of attestations in each proposal sent. -/
def proposedCounts (acts : List (Action C)) : List Nat :=
  acts.filterMap fun
    | .broadcast (.consensus (.proposal pm)) => some pm.value.attestations.length
    | _ => none

theorem mem_proposedCounts {acts : List (Action C)} {k : Nat} (h : k ∈ proposedCounts acts) :
    ∃ pm, .broadcast (.consensus (.proposal pm)) ∈ acts ∧ pm.value.attestations.length = k := by
  unfold proposedCounts at h
  rw [List.mem_filterMap] at h
  rcases h with ⟨a, ha, heq⟩
  split at heq
  · next pm => exact ⟨pm, ha, Option.some.inj heq⟩
  · cases heq

/-- Too many attestations make a proposal too heavy, whatever else it has. -/
theorem proposal_weight_gt (hlen : C.MlDsa65) {pm : ProposalMsg C}
    (h : 3158 ≤ pm.value.attestations.length) :
    maxFrame < (WireMsg.consensus (.proposal pm)).weight := by
  have hatts := joined_replicate _ (attestationWeight C) (by omega : 0 < pm.value.attestations.length)
  rw [attestationWeight_eq hlen] at hatts
  have hmax : maxFrame = 33554432 := rfl
  rw [WireMsg.weight, keyWeight_eq hlen, sigWeight_eq hlen, Proposed.weight, BlockHeader.weight,
    listWeight, attestationWeight_eq hlen]
  omega

/-- The proposal of 3158 attestations cannot be read. -/
theorem oversized_proposal_lost :
    ¬ ∀ (decode : List UInt8 → Option (WireMsg wide)) (n₀ : Node wide) ins acts n msg,
      Node.new (C := wide) [1, 2] (1 : UInt8) 1 [] 1000 = .ok n₀ → Session n₀ ins acts n →
      .broadcast msg ∈ acts → Reads decode msg → Received decode msg := by
  intro hall
  have hstart : wideStart.holds (fun r => !r.2.1.engine.parked) = true := by decide +kernel
  rcases Exec.holds_iff.mp hstart with ⟨⟨n₀, n, acts⟩, hrun, hbusy⟩
  rcases Session.of_wideStart hrun with ⟨hnew, acts', hsession⟩
  rcases hsession.submits (by simpa using hbusy) wideAttestation 3157 with
    ⟨ins₁, acts₁, now, hsession₁⟩
  have hround : wideRound.holds (fun r => decide (3158 ∈ proposedCounts r.2)) = true := by
    decide +kernel
  rcases Exec.holds_iff.mp hround with ⟨⟨n₂, acts₂⟩, hround, hcount⟩
  unfold wideRound at hround
  rw [hrun] at hround
  -- the clock is set again before the message is read
  have hsession₂ : Session n₀ (ins₁ ++ [.wire (.consensus wideVote)]) (acts₁ ++ acts₂) n₂ :=
    Session.step hsession₁ hround
  rcases mem_proposedCounts (of_decide_eq_true hcount) with ⟨pm, hpm, hlength⟩
  have hreads := readsOnly_reads (WireMsg.consensus (.proposal pm))
  have hgot := hall _ n₀ _ _ n₂ _ hnew hsession₂ (List.mem_append_right _ hpm) hreads
  rw [received_iff hreads] at hgot
  have hover := proposal_weight_gt wide_mlDsa65 hlength.ge
  omega

end SmartLedger
