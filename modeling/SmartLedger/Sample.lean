import SmartLedger.Crypto

/-! # A computable instance of the primitives

Concrete runs are evaluated on this instance: one-byte keys, a polynomial
digest, and as signature the digest of key, context and message. It is not
secure, but it is deterministic, every signature verifies under its own key
(`sample_matching`), and it has no collision on the handful of byte strings a
concrete run signs and hashes.
-/

namespace SmartLedger

/-- A polynomial digest of a byte string. -/
def sampleDigest (data : List UInt8) : Hash :=
  ⟨BitVec.ofNat 256 (data.foldl (fun acc b => acc * 257 + (b.toNat + 1)) 0)⟩

/-- The signature of `key` over a message under a context. -/
def sampleSign (key : UInt8) (message context : List UInt8) : Hash :=
  sampleDigest (key :: (context ++ message))

/-- The sample primitives. -/
def sample : Crypto where
  SigningKey := UInt8
  VerifyingKey := UInt8
  Signature := Hash
  decEqVerifyingKey := inferInstance
  decEqSignature := inferInstance
  pubkeyLen := 1
  sigLen := 32
  keyBytes k := [k]
  length_keyBytes _ := rfl
  keyBytes_inj _ _ h := List.singleton_injective h
  sigBytes := Hash.asBytes
  length_sigBytes := Hash.length_asBytes
  sigBytes_inj _ _ h := Hash.asBytes_inj h
  digest := sampleDigest
  sign := sampleSign
  verify key message signature context := decide (signature = sampleSign key message context)

instance (k : Nat) : OfNat sample.VerifyingKey k := inferInstanceAs (OfNat UInt8 k)

theorem sample_matching (key : UInt8) : sample.Matching key key := by
  intro message context
  show decide (sampleSign key message context = sampleSign key message context) = true
  simp

end SmartLedger
