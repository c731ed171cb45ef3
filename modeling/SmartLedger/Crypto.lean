import Mathlib.Tactic
import SmartLedger.Lib.Bytes

/-! # The cryptographic core

Hashes, keys, signatures and machine integers, as the `slc-crypto` crate
offers them to the rest of the chain.

SHA3-256 and ML-DSA-65 come from third-party crates. They enter as one
parameter, `Crypto`: the key and signature types with their serialized form,
`digest`, `sign` and `verify`. Nothing is assumed about them beyond what the
serializers fix; a result that needs more (a signature verifies under the
matching key, an adversary cannot forge one) states it as a hypothesis.

`SigningKey::sign` is a function here: the signer's fresh randomness is not
an input, and a signer that fails is not modelled.
-/

namespace SmartLedger

/-! ## Panics and checked arithmetic -/

/-- The ways the modelled code can panic. -/
inductive Panic where
  | overflow
  | zeroThreshold
  | thresholdExceedsValidators
  | indexOutOfBounds
  | expectedPresent
deriving DecidableEq, Repr

/-- A computation that may panic; the thread does not survive it. -/
abbrev Exec := Except Panic

/-- From a successful bind, both parts. -/
theorem Exec.bind_eq_ok {α β : Type} {x : Exec α} {f : α → Exec β} {b : β} :
    (x >>= f) = .ok b ↔ ∃ a, x = .ok a ∧ f a = .ok b := by
  cases x with
  | error p => simp [bind, Except.bind]
  | ok a => simp [bind, Except.bind]

theorem Exec.ok_pair {α β : Type} {a a' : α} {b b' : β}
    (h : (.ok (a, b) : Exec (α × β)) = .ok (a', b')) : a' = a ∧ b' = b := by
  have heq := Except.ok.inj h
  rw [Prod.mk.injEq] at heq
  exact ⟨heq.1.symm, heq.2.symm⟩

theorem Exec.ok_triple {α β γ : Type} {a a' : α} {b b' : β} {c c' : γ}
    (h : (.ok (a, b, c) : Exec (α × β × γ)) = .ok (a', b', c')) : a' = a ∧ b' = b ∧ c' = c := by
  have heq := Except.ok.inj h
  rw [Prod.mk.injEq, Prod.mk.injEq] at heq
  exact ⟨heq.1.symm, heq.2.1.symm, heq.2.2.symm⟩

/-- The computation returns, and its result satisfies `p`. -/
def Exec.holds {α : Type} (x : Exec α) (p : α → Bool) : Bool :=
  match x with
  | .ok a => p a
  | .error _ => false

theorem Exec.holds_iff {α : Type} {x : Exec α} {p : α → Bool} :
    x.holds p = true ↔ ∃ a, x = .ok a ∧ p a = true := by
  cases x with
  | error e => simp [Exec.holds]
  | ok a => simp [Exec.holds]

/-- The result of a computation that returns. -/
def Exec.get {α : Type} : (x : Exec α) → x.holds (fun _ => true) = true → α
  | .ok a, _ => a

theorem Exec.eq_ok_get {α : Type} (x : Exec α) (h : x.holds (fun _ => true) = true) :
    x = .ok (x.get h) := by
  cases x with
  | error e => cases h
  | ok a => rfl

/-- `a + b` on `u64`, checked. -/
def checkedAdd (a b : UInt64) : Exec UInt64 :=
  if a.toNat + b.toNat < 2 ^ 64 then .ok (a + b) else .error .overflow

theorem checkedAdd_eq_ok {a b c : UInt64} (h : checkedAdd a b = .ok c) :
    c.toNat = a.toNat + b.toNat := by
  unfold checkedAdd at h
  split at h
  · next hlt =>
      obtain rfl := Except.ok.inj h
      rw [UInt64.toNat_add, Nat.mod_eq_of_lt hlt]
  · cases h

theorem checkedAdd_isOk_iff {a b : UInt64} :
    (∃ c, checkedAdd a b = .ok c) ↔ a.toNat + b.toNat < 2 ^ 64 := by
  unfold checkedAdd
  by_cases hlt : a.toNat + b.toNat < 2 ^ 64
  · rw [if_pos hlt]
    exact iff_of_true ⟨_, rfl⟩ hlt
  · rw [if_neg hlt]
    refine iff_of_false ?_ hlt
    rintro ⟨c, hc⟩
    cases hc

/-- `u64::to_be_bytes`. -/
def beBytes64 (x : UInt64) : List UInt8 := Bytes.be 8 x.toNat

/-- `u32::to_be_bytes`. -/
def beBytes32 (x : UInt32) : List UInt8 := Bytes.be 4 x.toNat

@[simp] theorem length_beBytes64 (x : UInt64) : (beBytes64 x).length = 8 := Bytes.length_be 8 _

theorem beBytes64_inj {x y : UInt64} (h : beBytes64 x = beBytes64 y) : x = y := by
  apply UInt64.toNat_inj.mp
  apply Bytes.be_inj _ _ h
  · exact x.toNat_lt
  · exact y.toNat_lt

@[simp] theorem length_beBytes32 (x : UInt32) : (beBytes32 x).length = 4 := Bytes.length_be 4 _

theorem beBytes32_inj {x y : UInt32} (h : beBytes32 x = beBytes32 y) : x = y := by
  apply UInt32.toNat_inj.mp
  apply Bytes.be_inj _ _ h
  · exact x.toNat_lt
  · exact y.toNat_lt

/-! ## Hashes -/

/-- A 32-byte SHA3-256 digest, kept as the 256-bit word its bytes spell in
big-endian; the derived order on byte arrays is the order of these words. -/
structure Hash where
  word : BitVec 256
deriving DecidableEq, Repr

namespace Hash

/-- Length in bytes. -/
def len : Nat := 32

/-- The all-zero hash. -/
def zero : Hash := ⟨0⟩

def asBytes (h : Hash) : List UInt8 := Bytes.be len h.word.toNat

@[simp] theorem length_asBytes (h : Hash) : h.asBytes.length = len := Bytes.length_be _ _

theorem asBytes_inj {a b : Hash} (h : a.asBytes = b.asBytes) : a = b := by
  obtain ⟨a⟩ := a
  obtain ⟨b⟩ := b
  congr 1
  apply BitVec.eq_of_toNat_eq
  apply Bytes.be_inj (w := 32) _ _ h
  · exact lt_of_lt_of_eq a.isLt (by norm_num)
  · exact lt_of_lt_of_eq b.isLt (by norm_num)

/-- The hash of 32 given bytes. -/
def ofBytes (bytes : List UInt8) : Hash := ⟨BitVec.ofNat 256 (Bytes.ofBe bytes)⟩

theorem asBytes_ofBytes {bytes : List UInt8} (h : bytes.length = len) :
    (ofBytes bytes).asBytes = bytes := by
  have hlt : Bytes.ofBe bytes < 2 ^ 256 :=
    lt_of_lt_of_eq (Bytes.ofBe_lt bytes) (by rw [h]; norm_num [len])
  have hword : (ofBytes bytes).word.toNat = Bytes.ofBe bytes := by
    unfold ofBytes
    rw [BitVec.toNat_ofNat, Nat.mod_eq_of_lt hlt]
  unfold asBytes
  rw [hword, ← h, Bytes.be_ofBe]

theorem ofBytes_asBytes (h : Hash) : ofBytes h.asBytes = h :=
  asBytes_inj (asBytes_ofBytes h.length_asBytes)

/-- The position of a hash in the derived order. -/
def rank (h : Hash) : Nat := h.word.toNat

theorem rank_injective : Function.Injective rank := by
  rintro ⟨a⟩ ⟨b⟩ h
  congr 1
  exact BitVec.eq_of_toNat_eq h

end Hash

/-! ## The primitives -/

/-- ML-DSA-65 and SHA3-256, with the fixed-width serialized forms the rest of
the code concatenates. Two public keys are equal when their bytes are. -/
structure Crypto where
  SigningKey : Type
  VerifyingKey : Type
  Signature : Type
  decEqVerifyingKey : DecidableEq VerifyingKey
  decEqSignature : DecidableEq Signature
  pubkeyLen : Nat
  sigLen : Nat
  keyBytes : VerifyingKey → List UInt8
  length_keyBytes : ∀ k, (keyBytes k).length = pubkeyLen
  keyBytes_inj : Function.Injective keyBytes
  sigBytes : Signature → List UInt8
  length_sigBytes : ∀ s, (sigBytes s).length = sigLen
  sigBytes_inj : Function.Injective sigBytes
  /-- `Hash::digest`. -/
  digest : List UInt8 → Hash
  /-- `SigningKey::sign(message, context)`. -/
  sign : SigningKey → List UInt8 → List UInt8 → Signature
  /-- `VerifyingKey::verify(message, signature, context)`. -/
  verify : VerifyingKey → List UInt8 → Signature → List UInt8 → Bool

attribute [instance] Crypto.decEqVerifyingKey Crypto.decEqSignature

namespace Crypto

variable {C : Crypto}

/-- `VerifyingKey::id`: the digest of the key's bytes. -/
def VerifyingKey.id (k : C.VerifyingKey) : Hash := C.digest (C.keyBytes k)

/-- The two halves of one keypair: whatever `sk` signs verifies under `pk`. -/
def Matching (C : Crypto) (sk : C.SigningKey) (pk : C.VerifyingKey) : Prop :=
  ∀ message context, C.verify pk message (C.sign sk message context) context = true

end Crypto

/-! ## Domain-separation contexts -/

namespace Context

/-- `SLC-attestation-v1`. -/
def attestation : List UInt8 := Bytes.ascii
  ['S', 'L', 'C', '-', 'a', 't', 't', 'e', 's', 't', 'a', 't', 'i', 'o', 'n', '-', 'v', '1']

/-- `SLC-block-v1`. -/
def block : List UInt8 := Bytes.ascii
  ['S', 'L', 'C', '-', 'b', 'l', 'o', 'c', 'k', '-', 'v', '1']

/-- `SLC-proposal-v1`. -/
def proposal : List UInt8 := Bytes.ascii
  ['S', 'L', 'C', '-', 'p', 'r', 'o', 'p', 'o', 's', 'a', 'l', '-', 'v', '1']

/-- `SLC-vote-v1`. -/
def vote : List UInt8 := Bytes.ascii
  ['S', 'L', 'C', '-', 'v', 'o', 't', 'e', '-', 'v', '1']

/-- `SLC-governance-v1`. -/
def governance : List UInt8 := Bytes.ascii
  ['S', 'L', 'C', '-', 'g', 'o', 'v', 'e', 'r', 'n', 'a', 'n', 'c', 'e', '-', 'v', '1']

theorem vote_ne_block : vote ≠ block := by decide

theorem vote_ne_proposal : vote ≠ proposal := by decide

theorem block_ne_proposal : block ≠ proposal := by decide

theorem attestation_ne_block : attestation ≠ block := by decide

theorem attestation_ne_proposal : attestation ≠ proposal := by decide

theorem attestation_ne_vote : attestation ≠ vote := by decide

theorem attestation_ne_governance : attestation ≠ governance := by decide

theorem governance_ne_block : governance ≠ block := by decide

theorem governance_ne_proposal : governance ≠ proposal := by decide

theorem governance_ne_vote : governance ≠ vote := by decide

end Context

end SmartLedger
