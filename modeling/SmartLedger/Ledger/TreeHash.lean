import SmartLedger.Lib.PowerTree
import SmartLedger.Ledger.Merkle

/-! # The tree of RFC 6962

The reference defines the hash of a list of leaves by recursion: the list is
cut at the largest power of two below its length. The code builds levels
bottom up and promotes lone nodes. Both give the same root and the same
inclusion paths, for any number of leaves (`merkle_tree_is_rfc6962`).
-/

namespace SmartLedger

variable {C : Crypto}

/-- The recursive tree hash. -/
def treeHash (C : Crypto) (leaves : List Hash) : Hash :=
  PowerTree.fold (hashNode C) (emptyRoot C) leaves

/-- A sibling met on the way up, with its side first. -/
def MerkleStep.ofTurn (turn : Bool × Hash) : MerkleStep :=
  { sibling := turn.2, siblingIsLeft := turn.1 }

/-- The recursive audit path. -/
def auditPath (C : Crypto) (index : Nat) (leaves : List Hash) : MerklePath :=
  ⟨(PowerTree.siblings (hashNode C) (emptyRoot C) index leaves).map MerkleStep.ofTurn⟩

namespace MerkleTree

theorem nextLevel_eq_pass (nodes : List Hash) :
    nextLevel C nodes = PowerTree.pass (hashNode C) nodes := by
  fun_induction nextLevel C nodes with
  | case1 left right rest ih => rw [PowerTree.pass, ih]
  | case2 lone => rfl
  | case3 => rfl

theorem hop_eq {nodes : List Hash} {idx : Nat} (hlt : idx < nodes.length) :
    hop nodes idx = .ok ((PowerTree.hop nodes idx).map MerkleStep.ofTurn) := by
  unfold hop PowerTree.hop
  by_cases heven : idx % 2 = 0
  · rw [if_pos heven, if_pos heven]
    cases nodes[idx + 1]? <;> rfl
  · rw [if_neg heven, if_neg heven, List.getElem?_eq_getElem (by omega)]
    rfl

/-- The levels end where enough passes do. -/
theorem top_eq_iterate {fuel m : Nat} {current : List Hash} (hne : current ≠ [])
    (hfuel : current.length ≤ fuel) (hle : current.length ≤ 2 ^ m) :
    top C fuel current = (PowerTree.pass (hashNode C))^[m] current := by
  induction fuel generalizing current m with
  | zero => exact absurd (List.eq_nil_of_length_eq_zero (by omega)) hne
  | succ fuel ih =>
      have hlen := length_nextLevel C current
      have hpos : 0 < current.length := List.length_pos_of_ne_nil hne
      unfold top
      by_cases hlong : 1 < current.length
      · rw [if_pos hlong]
        cases m with
        | zero => omega
        | succ m =>
            have hne' : nextLevel C current ≠ [] := List.ne_nil_of_length_pos (by omega)
            rw [Nat.pow_succ] at hle
            have hrest : top C fuel (nextLevel C current) =
                (PowerTree.pass (hashNode C))^[m] (nextLevel C current) :=
              ih hne' (by omega) (by omega)
            rw [hrest, nextLevel_eq_pass, Function.iterate_succ_apply]
      · rw [if_neg hlong]
        rcases List.length_eq_one_iff.mp (by omega : current.length = 1) with ⟨a, rfl⟩
        exact (PowerTree.iterate_pass_singleton (hashNode C) m a).symm

/-- The hops of a leaf are what is met in enough passes. -/
theorem hops_eq_climb {fuel m idx : Nat} {current : List Hash} (hlt : idx < current.length)
    (hfuel : current.length ≤ fuel) (hle : current.length ≤ 2 ^ m) :
    hops (levelsFrom C fuel current) idx =
      .ok ((PowerTree.climb (hashNode C) m current idx).map MerkleStep.ofTurn) := by
  induction fuel generalizing current m idx with
  | zero => omega
  | succ fuel ih =>
      have hlen := length_nextLevel C current
      unfold levelsFrom
      by_cases hlong : 1 < current.length
      · rw [if_pos hlong]
        cases m with
        | zero => omega
        | succ m =>
            rw [Nat.pow_succ] at hle
            have habove : hops (levelsFrom C fuel (nextLevel C current)) (idx / 2) =
                .ok ((PowerTree.climb (hashNode C) m (nextLevel C current) (idx / 2)).map
                  MerkleStep.ofTurn) := ih (by omega) (by omega) (by omega)
            -- the level above is the first one the climb goes on in
            rcases levelsFrom_head (C := C) fuel (nextLevel C current) with ⟨rest, hrest⟩
            rw [hrest] at habove ⊢
            simp only [hops, hop_eq hlt, habove]
            rw [PowerTree.climb, List.map_append, nextLevel_eq_pass]
            rfl
      · rw [if_neg hlong]
        obtain rfl : idx = 0 := by omega
        rcases List.length_eq_one_iff.mp (by omega : current.length = 1) with ⟨a, rfl⟩
        rw [PowerTree.climb_singleton]
        rfl

theorem root_eq_treeHash (leaves : List Hash) : (build C leaves).root C = treeHash C leaves := by
  by_cases hne : leaves = []
  · subst hne
    unfold treeHash PowerTree.fold
    rfl
  · have htop := top_eq_root (C := C) hne
    have hpow : leaves.length ≤ 2 ^ leaves.length := Nat.lt_two_pow_self.le
    rw [top_eq_iterate hne le_rfl hpow,
      PowerTree.iterate_pass (hashNode C) (emptyRoot C) hne hpow] at htop
    exact (List.singleton_injective htop).symm

theorem proof_eq_auditPath {leaves : List Hash} {index : Nat} (hlt : index < leaves.length) :
    (build C leaves).proof index = .ok (some (auditPath C index leaves)) := by
  have hpow : leaves.length ≤ 2 ^ leaves.length := Nat.lt_two_pow_self.le
  have hsteps := hops_eq_climb (C := C) hlt le_rfl hpow
  rw [PowerTree.climb_eq_siblings (hashNode C) (emptyRoot C) hlt hpow] at hsteps
  rcases levelsFrom_head (C := C) leaves.length leaves with ⟨rest, hrest⟩
  unfold proof build
  rw [hrest] at hsteps ⊢
  simp only [hsteps, if_neg (Nat.not_le_of_lt hlt)]
  rfl

end MerkleTree

theorem length_auditPath_le {leaves : List Hash} {index : Nat} (hlt : index < leaves.length) :
    (auditPath C index leaves).steps.length ≤ Nat.clog 2 leaves.length := by
  have hpow : leaves.length ≤ 2 ^ Nat.clog 2 leaves.length := Nat.le_pow_clog (by omega) _
  unfold auditPath
  rw [List.length_map, ← PowerTree.climb_eq_siblings (hashNode C) (emptyRoot C) hlt hpow]
  exact PowerTree.length_climb_le (hashNode C) _ _ _

/-- The tree hash is the empty root, the only leaf, or combined of those of the
leaves before and behind the largest power of two; it is the root the code
computes for any list of leaves. The path of every index in range is the audit
path, not longer than the binary logarithm, and recomputes the root. -/
theorem merkle_tree_is_rfc6962 :
    (treeHash C [] = emptyRoot C ∧ (∀ leaf, treeHash C [leaf] = leaf) ∧
      ∀ leaves : List Hash, 2 ≤ leaves.length → ∃ j, 2 ^ j < leaves.length ∧
        (∀ i, 2 ^ i < leaves.length → 2 ^ i ≤ 2 ^ j) ∧
        treeHash C leaves =
          hashNode C (treeHash C (leaves.take (2 ^ j))) (treeHash C (leaves.drop (2 ^ j)))) ∧
    ∀ leaves, (MerkleTree.build C leaves).root C = treeHash C leaves ∧
      ∀ index leaf, leaves[index]? = some leaf →
        (MerkleTree.build C leaves).proof index = .ok (some (auditPath C index leaves)) ∧
        (auditPath C index leaves).steps.length ≤ Nat.clog 2 leaves.length ∧
        (auditPath C index leaves).computeRoot C leaf = treeHash C leaves := by
  constructor
  · refine ⟨?_, ?_, ?_⟩
    · unfold treeHash PowerTree.fold
      rfl
    · intro leaf
      unfold treeHash PowerTree.fold
      rfl
    · intro leaves hlong
      -- the cut is the largest power of two below the length
      refine ⟨Nat.log 2 (leaves.length - 1), PowerTree.cut_lt hlong,
        fun i hi => PowerTree.le_cut hi, ?_⟩
      unfold treeHash
      rw [PowerTree.fold, if_pos hlong]
      rfl
  · intro leaves
    refine ⟨MerkleTree.root_eq_treeHash leaves, ?_⟩
    intro index leaf hleaf
    have hlt : index < leaves.length := (List.getElem?_eq_some_iff.mp hleaf).1
    refine ⟨MerkleTree.proof_eq_auditPath hlt, length_auditPath_le hlt, ?_⟩
    rcases MerkleTree.proof_computeRoot (C := C) hleaf with ⟨path, hproof, hroot⟩
    rw [MerkleTree.proof_eq_auditPath hlt] at hproof
    obtain rfl := Option.some.inj (Except.ok.inj hproof)
    rw [hroot, MerkleTree.root_eq_treeHash]

end SmartLedger
