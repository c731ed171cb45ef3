import SmartLedger.Crypto

/-! # Attestations and their Merkle root

The atomic entry of the chain, `{ pubkey, hash, signature }`, and the tree
that batches entries under one root: leaves and nodes are hashed under
different prefixes, and the last node of an odd level is promoted unchanged.
-/

namespace SmartLedger

variable {C : Crypto}

/-! ## The Merkle tree -/

/-- Merkle root of a tree with zero leaves. -/
def emptyRoot (C : Crypto) : Hash := C.digest (Bytes.ascii
  ['S', 'L', 'C', '-', 'e', 'm', 'p', 't', 'y', '-', 'm', 'e', 'r', 'k', 'l', 'e', '-', 'v', '1'])

/-- Hash a leaf preimage under the leaf prefix. -/
def hashLeaf (C : Crypto) (data : List UInt8) : Hash := C.digest (0x00 :: data)

/-- Hash two child digests into their parent under the node prefix. -/
def hashNode (C : Crypto) (left right : Hash) : Hash :=
  C.digest (0x01 :: (left.asBytes ++ right.asBytes))

/-- Every level of the tree, leaves first. -/
structure MerkleTree where
  levels : List (List Hash)

namespace MerkleTree

/-- One pass of the pairing loop; a lone last node is promoted. -/
def nextLevel (C : Crypto) : List Hash → List Hash
  | left :: right :: rest => hashNode C left right :: nextLevel C rest
  | [lone] => [lone]
  | [] => []

theorem length_nextLevel (C : Crypto) (l : List Hash) :
    (nextLevel C l).length = (l.length + 1) / 2 := by
  fun_induction nextLevel C l with
  | case1 left right rest ih => simp only [List.length_cons, ih]; omega
  | case2 lone => simp
  | case3 => simp

/-- The `while levels.last().len() > 1` loop; every pass halves the level, so
as many passes as there are nodes are enough. -/
def levelsFrom (C : Crypto) : Nat → List Hash → List (List Hash)
  | 0, current => [current]
  | fuel + 1, current =>
      if 1 < current.length then current :: levelsFrom C fuel (nextLevel C current)
      else [current]

/-- Build a tree from pre-hashed leaves. -/
def build (C : Crypto) (leaves : List Hash) : MerkleTree :=
  ⟨levelsFrom C leaves.length leaves⟩

/-- The root: the single node of the last level, if it has one. -/
def root (C : Crypto) (t : MerkleTree) : Hash :=
  match t.levels.getLast? with
  | some [top] => top
  | _ => emptyRoot C

/-- The loop of `build` ends because its condition fails, not for lack of
passes. -/
theorem levelsFrom_last_length (C : Crypto) (fuel : Nat) (current : List Hash)
    (hfuel : current.length ≤ fuel) :
    ∃ top, (levelsFrom C fuel current).getLast? = some top ∧ top.length ≤ 1 := by
  induction fuel generalizing current with
  | zero => exact ⟨current, rfl, by omega⟩
  | succ fuel ih =>
      unfold levelsFrom
      by_cases hlong : 1 < current.length
      · rw [if_pos hlong]
        have hnext : (nextLevel C current).length ≤ fuel := by
          rw [length_nextLevel]
          omega
        rcases ih (nextLevel C current) hnext with ⟨top, htop, hlen⟩
        refine ⟨top, ?_, hlen⟩
        rw [List.getLast?_cons, htop]
        rfl
      · rw [if_neg hlong]
        exact ⟨current, rfl, by omega⟩

end MerkleTree

/-! ## Attestations -/

/-- A notarization entry: an actor's signature over a data hash. -/
structure Attestation (C : Crypto) where
  pubkey : C.VerifyingKey
  hash : Hash
  signature : C.Signature
deriving DecidableEq

namespace Attestation

/-- Build and sign a fresh attestation over `hash`. -/
def create (signingKey : C.SigningKey) (pubkey : C.VerifyingKey) (hash : Hash) : Attestation C :=
  ⟨pubkey, hash, C.sign signingKey hash.asBytes Context.attestation⟩

/-- Does this actor's signature cover this hash? -/
def verify (a : Attestation C) : Bool :=
  C.verify a.pubkey a.hash.asBytes a.signature Context.attestation

/-- The Merkle-leaf preimage. -/
def encode (a : Attestation C) : List UInt8 :=
  C.keyBytes a.pubkey ++ (a.hash.asBytes ++ C.sigBytes a.signature)

def leafHash (a : Attestation C) : Hash := hashLeaf C a.encode

/-- The fields have fixed widths, so the preimage determines the entry. -/
theorem encode_injective : Function.Injective (encode (C := C)) := by
  rintro ⟨pk, h, sig⟩ ⟨pk', h', sig'⟩ heq
  simp only [encode] at heq
  rcases List.append_inj heq (by rw [C.length_keyBytes, C.length_keyBytes]) with ⟨hpk, heq⟩
  rcases List.append_inj heq (by simp) with ⟨hh, hsig⟩
  rw [C.keyBytes_inj hpk, Hash.asBytes_inj hh, C.sigBytes_inj hsig]

end Attestation

end SmartLedger
