import SmartLedger.Lib.Collision
import SmartLedger.Lib.PairTree
import SmartLedger.Ledger.Attestation

/-! # Inclusion proofs

An authentication path lists the siblings from a leaf up to the root. The
levels of `MerkleTree.build` are those of a binary tree over its leaves
(`top_eq_collapse`), whatever their number: odd levels promote their last
node.

* `proof_computeRoot`: the path of every index in range recomputes the root.
* `mem_of_computeRoot`: a path that recomputes the root of a list of leaves
  starts at one of them.
* `root_inj`: lists of one length with one root are equal.

The last two hold where the digest has no collision on the byte strings that
were hashed to build the tree (`treeInputs`) and to follow the path
(`pathInputs`).
-/

namespace SmartLedger

variable {C : Crypto}

/-! ## Paths -/

/-- One hop of an authentication path: the sibling of the running node, and
whether it sits on the left. -/
structure MerkleStep where
  sibling : Hash
  siblingIsLeft : Bool
deriving DecidableEq, Repr

/-- The siblings from a leaf up to the root. -/
structure MerklePath where
  steps : List MerkleStep
deriving DecidableEq, Repr

/-- Recompute the root implied by `leafHash`. -/
def MerklePath.computeRoot (C : Crypto) (path : MerklePath) (leafHash : Hash) : Hash :=
  path.steps.foldl (fun acc step =>
    if step.siblingIsLeft then hashNode C step.sibling acc else hashNode C acc step.sibling)
    leafHash

namespace MerkleTree

/-- The hop of the node at `idx` of a level. -/
def hop (nodes : List Hash) (idx : Nat) : Exec (List MerkleStep) :=
  if idx % 2 = 0 then
    -- a lone promoted node has no sibling and makes no hop
    match nodes[idx + 1]? with
    | some sibling => .ok [⟨sibling, false⟩]
    | none => .ok []
  else
    match nodes[idx - 1]? with
    | some sibling => .ok [⟨sibling, true⟩]
    | none => .error .indexOutOfBounds

/-- The hops of all levels below the last. -/
def hops : List (List Hash) → Nat → Exec (List MerkleStep)
  | nodes :: next :: rest, idx => do
      let here ← hop nodes idx
      let above ← hops (next :: rest) (idx / 2)
      return here ++ above
  | _, _ => .ok []

/-- An inclusion proof for the leaf at `index`, if it is in range. -/
def proof (t : MerkleTree) (index : Nat) : Exec (Option MerklePath) :=
  match t.levels with
  | [] => .error .indexOutOfBounds
  | leaves :: _ =>
      if leaves.length ≤ index then .ok none
      else do
        let steps ← hops t.levels index
        return some ⟨steps⟩

/-! ## What is hashed -/

/-- The byte string behind the empty root. -/
def emptyInput : List UInt8 := Bytes.ascii
  ['S', 'L', 'C', '-', 'e', 'm', 'p', 't', 'y', '-', 'm', 'e', 'r', 'k', 'l', 'e', '-', 'v', '1']

/-- The byte string behind a leaf. -/
def leafInput (data : List UInt8) : List UInt8 := 0x00 :: data

/-- The byte string behind a node. -/
def nodeInput (children : Hash × Hash) : List UInt8 :=
  0x01 :: (children.1.asBytes ++ children.2.asBytes)

/-- The pairs that one pass over a level hashes. -/
def passPairs : List Hash → List (Hash × Hash)
  | left :: right :: rest => (left, right) :: passPairs rest
  | _ => []

/-- The pairs that all passes from a level on hash. -/
def buildPairs (C : Crypto) : Nat → List Hash → List (Hash × Hash)
  | 0, _ => []
  | fuel + 1, current =>
      if 1 < current.length then passPairs current ++ buildPairs C fuel (nextLevel C current)
      else []

/-- Everything that is hashed for the root over some leaves. -/
def treeInputs (C : Crypto) (data : List (List UInt8)) : List (List UInt8) :=
  emptyInput :: (data.map leafInput ++
    (buildPairs C data.length (data.map (hashLeaf C))).map nodeInput)

end MerkleTree

namespace MerklePath

/-- A path as a climb. -/
def turns (path : MerklePath) : List (Bool × Hash) :=
  path.steps.map fun step => (step.siblingIsLeft, step.sibling)

theorem computeRoot_eq_climb (path : MerklePath) (leafHash : Hash) :
    path.computeRoot C leafHash = PairTree.climb (hashNode C) leafHash path.turns := by
  unfold computeRoot PairTree.climb turns
  rw [List.foldl_map]
  congr 1
  funext acc step
  cases hleft : step.siblingIsLeft <;> simp [PairTree.turn]

end MerklePath

/-- Everything that is hashed to follow a path from a leaf. -/
def pathInputs (C : Crypto) (path : MerklePath) (data : List UInt8) : List (List UInt8) :=
  MerkleTree.leafInput data ::
    (PairTree.climbPairs (hashNode C) (hashLeaf C data) path.turns).map MerkleTree.nodeInput

namespace MerkleTree

theorem nodeInput_injective : Function.Injective nodeInput := by
  rintro ⟨l, r⟩ ⟨l', r'⟩ h
  simp only [nodeInput, List.cons.injEq, true_and] at h
  rcases List.append_inj h (by simp) with ⟨hl, hr⟩
  rw [Hash.asBytes_inj hl, Hash.asBytes_inj hr]

theorem leafInput_injective : Function.Injective leafInput := by
  intro a b h
  exact (List.cons.inj h).2

theorem leafInput_ne_nodeInput (data : List UInt8) (children : Hash × Hash) :
    leafInput data ≠ nodeInput children := by
  simp [leafInput, nodeInput]

theorem emptyInput_ne_leafInput (data : List UInt8) : emptyInput ≠ leafInput data := by
  intro h
  have hhead : (0x53 : UInt8) = 0x00 := (List.cons.inj h).1
  exact absurd hhead (by decide)

theorem emptyInput_ne_nodeInput (children : Hash × Hash) : emptyInput ≠ nodeInput children := by
  intro h
  have hhead : (0x53 : UInt8) = 0x01 := (List.cons.inj h).1
  exact absurd hhead (by decide)

/-! ## The last level -/

/-- The level at which the passes end. -/
def top (C : Crypto) : Nat → List Hash → List Hash
  | 0, current => current
  | fuel + 1, current => if 1 < current.length then top C fuel (nextLevel C current) else current

theorem getLast_levelsFrom (fuel : Nat) (current : List Hash) :
    (levelsFrom C fuel current).getLast? = some (top C fuel current) := by
  induction fuel generalizing current with
  | zero => rfl
  | succ fuel ih =>
      unfold levelsFrom top
      by_cases hlong : 1 < current.length
      · rw [if_pos hlong, if_pos hlong, List.getLast?_cons, ih]
        rfl
      · rw [if_neg hlong, if_neg hlong]
        rfl

theorem length_top_le {fuel : Nat} {current : List Hash} (hfuel : current.length ≤ fuel) :
    (top C fuel current).length ≤ 1 := by
  rcases levelsFrom_last_length C fuel current hfuel with ⟨last, hlast, hlen⟩
  rw [getLast_levelsFrom] at hlast
  rw [Option.some.inj hlast]
  exact hlen

theorem top_ne_nil {fuel : Nat} {current : List Hash} (hne : current ≠ []) :
    top C fuel current ≠ [] := by
  induction fuel generalizing current with
  | zero => exact hne
  | succ fuel ih =>
      unfold top
      by_cases hlong : 1 < current.length
      · rw [if_pos hlong]
        apply ih
        intro hnil
        have hlen := length_nextLevel C current
        rw [hnil, List.length_nil] at hlen
        omega
      · rw [if_neg hlong]
        exact hne

/-- Over at least one leaf the last level is the root alone. -/
theorem top_eq_root {leaves : List Hash} (hne : leaves ≠ []) :
    top C leaves.length leaves = [(build C leaves).root C] := by
  have hlen : (top C leaves.length leaves).length ≤ 1 := length_top_le le_rfl
  have hnonempty : top C leaves.length leaves ≠ [] := top_ne_nil hne
  unfold root build
  rw [getLast_levelsFrom]
  match htop : top C leaves.length leaves with
  | [] => exact absurd htop hnonempty
  | [_] => rfl
  | _ :: _ :: _ =>
      rw [htop] at hlen
      simp at hlen

theorem root_nil : (build C []).root C = C.digest emptyInput := rfl

/-! ## The levels as a tree -/

theorem nextLevel_map_eval (ts : List (PairTree Hash)) :
    nextLevel C (ts.map (PairTree.eval (hashNode C))) =
      (PairTree.pairUp ts).map (PairTree.eval (hashNode C)) := by
  fun_induction PairTree.pairUp ts with
  | case1 l r rest ih =>
      simp only [List.map_cons, nextLevel, ih]
      rfl
  | case2 lone => rfl
  | case3 => rfl

theorem top_eq_collapse (fuel : Nat) (ts : List (PairTree Hash)) :
    top C fuel (ts.map (PairTree.eval (hashNode C))) =
      (PairTree.collapse fuel ts).map (PairTree.eval (hashNode C)) := by
  induction fuel generalizing ts with
  | zero => rfl
  | succ fuel ih =>
      unfold top PairTree.collapse
      rw [List.length_map]
      split
      · rw [nextLevel_map_eval, ih]
      · rfl

/-- One pass adds the pairs it hashes. -/
theorem pairs_pairUp {ts : List (PairTree Hash)} {t : PairTree Hash}
    (ht : t ∈ PairTree.pairUp ts) {p : Hash × Hash} (hp : p ∈ t.pairs (hashNode C)) :
    (∃ t' ∈ ts, p ∈ t'.pairs (hashNode C)) ∨
      p ∈ passPairs (ts.map (PairTree.eval (hashNode C))) := by
  fun_induction PairTree.pairUp ts with
  | case1 l r rest ih =>
      rcases List.mem_cons.mp ht with rfl | ht
      · rcases List.mem_cons.mp hp with rfl | hp
        · exact Or.inr List.mem_cons_self
        · left
          rcases List.mem_append.mp hp with hl | hr
          · exact ⟨l, List.mem_cons_self, hl⟩
          · exact ⟨r, List.mem_cons_of_mem _ List.mem_cons_self, hr⟩
      · rcases ih ht with ⟨t', ht', hp'⟩ | hp'
        · exact Or.inl ⟨t', List.mem_cons_of_mem _ (List.mem_cons_of_mem _ ht'), hp'⟩
        · exact Or.inr (List.mem_cons_of_mem _ hp')
  | case2 lone => exact Or.inl ⟨t, ht, hp⟩
  | case3 => cases ht

theorem pairs_collapse {fuel : Nat} {ts : List (PairTree Hash)} {t : PairTree Hash}
    (ht : t ∈ PairTree.collapse fuel ts) {p : Hash × Hash} (hp : p ∈ t.pairs (hashNode C)) :
    (∃ t' ∈ ts, p ∈ t'.pairs (hashNode C)) ∨
      p ∈ buildPairs C fuel (ts.map (PairTree.eval (hashNode C))) := by
  induction fuel generalizing ts with
  | zero => exact Or.inl ⟨t, ht, hp⟩
  | succ fuel ih =>
      unfold PairTree.collapse at ht
      unfold buildPairs
      rw [List.length_map]
      by_cases hlong : 1 < ts.length
      · rw [if_pos hlong] at ht ⊢
        rcases ih ht with ⟨t', ht', hp'⟩ | hp'
        · rcases pairs_pairUp ht' hp' with hold | hpass
          · exact Or.inl hold
          · exact Or.inr (List.mem_append_left _ hpass)
        · rw [← nextLevel_map_eval] at hp'
          exact Or.inr (List.mem_append_right _ hp')
      · rw [if_neg hlong] at ht
        exact Or.inl ⟨t, ht, hp⟩

/-- The root over at least one leaf is the value of a tree with these leaves,
and what is combined in it was hashed. -/
theorem exists_tree {leaves : List Hash} (hne : leaves ≠ []) :
    ∃ t : PairTree Hash, t.leaves = leaves ∧ t.eval (hashNode C) = (build C leaves).root C ∧
      ∀ p ∈ t.pairs (hashNode C), p ∈ buildPairs C leaves.length leaves := by
  -- the leaves are collapsed as one-leaf trees
  have heval : (leaves.map PairTree.leaf).map (PairTree.eval (hashNode C)) = leaves := by
    rw [List.map_map]
    exact List.map_id _
  have htop := top_eq_collapse (C := C) leaves.length (leaves.map PairTree.leaf)
  rw [heval, top_eq_root hne] at htop
  match hcol : PairTree.collapse leaves.length (leaves.map PairTree.leaf) with
  | [t] =>
      rw [hcol] at htop
      have hleaves := PairTree.leaves_collapse leaves.length (leaves.map PairTree.leaf)
      rw [hcol] at hleaves
      refine ⟨t, ?_, ?_, ?_⟩
      · have hflat : (leaves.map PairTree.leaf).flatMap PairTree.leaves = leaves := by
          rw [List.flatMap_map]
          exact List.flatMap_singleton' leaves
        rw [hflat] at hleaves
        simpa using hleaves
      · exact (List.singleton_injective htop).symm
      · intro p hp
        have hcases := pairs_collapse (C := C) (hcol ▸ List.mem_singleton_self t) hp
        rw [heval] at hcases
        rcases hcases with ⟨t', ht', hp'⟩ | hbuilt
        · -- a leaf combines nothing
          rcases List.mem_map.mp ht' with ⟨h, _, rfl⟩
          cases hp'
        · exact hbuilt
  | [] =>
      rw [hcol] at htop
      cases htop
  | _ :: _ :: _ =>
      have hlen := congrArg List.length htop
      simp [hcol] at hlen

/-! ## Soundness -/

/-- A path that recomputes the root of a list of leaves starts at one of
them. -/
theorem mem_of_computeRoot {inputs : Set (List UInt8)} (hinj : Set.InjOn C.digest inputs)
    {data : List (List UInt8)} (htree : ∀ x ∈ treeInputs C data, x ∈ inputs) {d : List UInt8}
    {path : MerklePath} (hpath : ∀ x ∈ pathInputs C path d, x ∈ inputs)
    (h : path.computeRoot C (hashLeaf C d) = (build C (data.map (hashLeaf C))).root C) :
    d ∈ data := by
  have hleaf : leafInput d ∈ inputs := hpath _ List.mem_cons_self
  rw [MerklePath.computeRoot_eq_climb] at h
  by_cases hne : data = []
  · -- nothing leads to the empty root
    subst hne
    have hempty : emptyInput ∈ inputs := htree _ List.mem_cons_self
    rw [List.map_nil, root_nil] at h
    rcases path.turns.eq_nil_or_concat with hnil | ⟨steps, step, hlast⟩
    · rw [hnil] at h
      exact absurd (hinj hleaf hempty h).symm (emptyInput_ne_leafInput d)
    · rw [List.concat_eq_append] at hlast
      have hnode : nodeInput (PairTree.turn (PairTree.climb (hashNode C) (hashLeaf C d) steps) step)
          ∈ inputs := by
        apply hpath
        apply List.mem_cons_of_mem
        rw [hlast, PairTree.climbPairs_snoc, List.map_append]
        exact List.mem_append_right _ List.mem_cons_self
      rw [hlast, PairTree.climb_snoc] at h
      exact absurd (hinj hnode hempty h).symm (emptyInput_ne_nodeInput _)
  · have hne' : data.map (hashLeaf C) ≠ [] := by simpa using hne
    rcases exists_tree (C := C) hne' with ⟨t, hleaves, heval, hpairs⟩
    rw [← heval] at h
    have hdata : ∀ x ∈ data, leafInput x ∈ inputs := by
      intro x hx
      exact htree _ (List.mem_cons_of_mem _ (List.mem_append_left _ (List.mem_map_of_mem hx)))
    -- the climb ends in the value of the tree, so it began at a leaf
    have hsound : hashLeaf C d ∈ PairTree.leaves t := by
      refine PairTree.mem_leaves_of_climb (hashNode C) (S := {p | nodeInput p ∈ inputs})
        ?_ ?_ ?_ ?_ ?_ h
      · intro p hp q hq heq
        exact nodeInput_injective (hinj hp hq heq)
      · intro p hp heq
        exact leafInput_ne_nodeInput _ _ (hinj hp hleaf heq).symm
      · intro p hp
        exact hpath _ (List.mem_cons_of_mem _ (List.mem_map_of_mem hp))
      · intro p hp
        have hbuilt := hpairs p hp
        rw [List.length_map] at hbuilt
        exact htree _
          (List.mem_cons_of_mem _ (List.mem_append_right _ (List.mem_map_of_mem hbuilt)))
      · intro a ha p hp heq
        rw [hleaves] at ha
        rcases List.mem_map.mp ha with ⟨x, hx, rfl⟩
        exact leafInput_ne_nodeInput _ _ (hinj hp (hdata x hx) heq).symm
    rw [hleaves] at hsound
    rcases List.mem_map.mp hsound with ⟨x, hx, heq⟩
    rw [← leafInput_injective (hinj (hdata x hx) hleaf heq)]
    exact hx

/-! ## Completeness -/

/-- A node of the next level, by its children. -/
theorem nextLevel_getElem? (nodes : List Hash) (j : Nat) :
    (nextLevel C nodes)[j]? =
      match nodes[2 * j]?, nodes[2 * j + 1]? with
      | some left, some right => some (hashNode C left right)
      | some lone, none => some lone
      | none, _ => none := by
  fun_induction nextLevel C nodes generalizing j with
  | case1 left right rest ih =>
      cases j with
      | zero => rfl
      | succ j =>
          rw [List.getElem?_cons_succ, ih j, show 2 * (j + 1) = 2 * j + 1 + 1 by omega]
          simp
  | case2 lone => cases j <;> simp
  | case3 => simp

/-- The hop of a node leads to its parent. -/
theorem hop_spec {nodes : List Hash} {idx : Nat} {node : Hash} (hnode : nodes[idx]? = some node) :
    ∃ here, hop nodes idx = .ok here ∧
      (nextLevel C nodes)[idx / 2]? = some (MerklePath.computeRoot C ⟨here⟩ node) := by
  have hlt : idx < nodes.length := (List.getElem?_eq_some_iff.mp hnode).1
  unfold hop
  rw [nextLevel_getElem?]
  by_cases heven : idx % 2 = 0
  · rw [if_pos heven, show 2 * (idx / 2) = idx by omega, hnode]
    cases hright : nodes[idx + 1]? with
    | none => exact ⟨[], rfl, rfl⟩
    | some right => exact ⟨_, rfl, rfl⟩
  · -- a right child has its sibling in range
    rw [if_neg heven, show 2 * (idx / 2) = idx - 1 by omega, show idx - 1 + 1 = idx by omega,
      hnode, List.getElem?_eq_getElem (show idx - 1 < nodes.length by omega)]
    exact ⟨_, rfl, rfl⟩

theorem computeRoot_append (here above : List MerkleStep) (node : Hash) :
    MerklePath.computeRoot C ⟨here ++ above⟩ node =
      MerklePath.computeRoot C ⟨above⟩ (MerklePath.computeRoot C ⟨here⟩ node) :=
  List.foldl_append

theorem levelsFrom_head (fuel : Nat) (current : List Hash) :
    ∃ rest, levelsFrom C fuel current = current :: rest := by
  cases fuel with
  | zero => exact ⟨[], rfl⟩
  | succ fuel =>
      unfold levelsFrom
      split
      · exact ⟨_, rfl⟩
      · exact ⟨_, rfl⟩

/-- The hops from a node of some level lead to the last level. -/
theorem hops_spec {fuel : Nat} {current : List Hash} (hfuel : current.length ≤ fuel) {idx : Nat}
    {node : Hash} (hnode : current[idx]? = some node) :
    ∃ steps, hops (levelsFrom C fuel current) idx = .ok steps ∧
      top C fuel current = [MerklePath.computeRoot C ⟨steps⟩ node] := by
  have hlt : idx < current.length := (List.getElem?_eq_some_iff.mp hnode).1
  induction fuel generalizing current idx node with
  | zero => omega
  | succ fuel ih =>
      unfold levelsFrom top
      by_cases hlong : 1 < current.length
      · rw [if_pos hlong, if_pos hlong]
        have hlen := length_nextLevel C current
        -- one hop, and the parent is a node of the next level
        rcases hop_spec (C := C) hnode with ⟨here, hhere, hparent⟩
        rcases ih (by omega) hparent (by omega) with ⟨above, habove, htop⟩
        rcases levelsFrom_head (C := C) fuel (nextLevel C current) with ⟨rest, hrest⟩
        refine ⟨here ++ above, ?_, ?_⟩
        · rw [hrest] at habove ⊢
          simp only [hops, hhere, habove]
          rfl
        · rw [computeRoot_append]
          exact htop
      · -- one node: it is the root and its path is empty
        rw [if_neg hlong, if_neg hlong]
        obtain rfl : idx = 0 := by omega
        rcases List.length_eq_one_iff.mp (by omega : current.length = 1) with ⟨only, rfl⟩
        obtain rfl : only = node := Option.some.inj hnode
        exact ⟨[], rfl, rfl⟩

/-- The path of a leaf in range recomputes the root. -/
theorem proof_computeRoot {leaves : List Hash} {index : Nat} {leaf : Hash}
    (hleaf : leaves[index]? = some leaf) :
    ∃ path, (build C leaves).proof index = .ok (some path) ∧
      path.computeRoot C leaf = (build C leaves).root C := by
  have hlt : index < leaves.length := (List.getElem?_eq_some_iff.mp hleaf).1
  have hne : leaves ≠ [] := List.ne_nil_of_length_pos (by omega)
  rcases hops_spec (C := C) le_rfl hleaf with ⟨steps, hsteps, htop⟩
  rw [top_eq_root hne] at htop
  rcases levelsFrom_head (C := C) leaves.length leaves with ⟨rest, hrest⟩
  refine ⟨⟨steps⟩, ?_, (List.singleton_injective htop).symm⟩
  unfold proof build
  rw [hrest] at hsteps ⊢
  simp only [hsteps, if_neg (Nat.not_le_of_lt hlt)]
  rfl

/-- Out of range there is none. -/
theorem proof_eq_none {leaves : List Hash} {index : Nat} (hge : leaves.length ≤ index) :
    (build C leaves).proof index = .ok none := by
  rcases levelsFrom_head (C := C) leaves.length leaves with ⟨rest, hrest⟩
  unfold proof build
  rw [hrest]
  simp only [if_pos hge]

/-! ## Injectivity -/

/-- Levels of one length with one next level are equal. -/
theorem eq_of_nextLevel_eq {nodes nodes' : List Hash} (hlen : nodes.length = nodes'.length)
    (hinj : ∀ p ∈ passPairs nodes, ∀ q ∈ passPairs nodes',
      hashNode C p.1 p.2 = hashNode C q.1 q.2 → p = q)
    (h : nextLevel C nodes = nextLevel C nodes') : nodes = nodes' := by
  fun_induction nextLevel C nodes generalizing nodes' with
  | case1 left right rest ih =>
      rcases nodes' with _ | ⟨left', _ | ⟨right', rest'⟩⟩
      · simp at hlen
      · simp at hlen
      · simp only [nextLevel, List.cons.injEq] at h
        have hpair := hinj _ List.mem_cons_self _ List.mem_cons_self h.1
        rw [Prod.mk.injEq] at hpair
        have hrest : rest = rest' := ih (by simpa using hlen)
          (fun p hp q hq => hinj p (List.mem_cons_of_mem _ hp) q (List.mem_cons_of_mem _ hq)) h.2
        rw [hpair.1, hpair.2, hrest]
  | case2 lone =>
      rcases List.length_eq_one_iff.mp hlen.symm with ⟨lone', rfl⟩
      exact h
  | case3 => exact (List.eq_nil_of_length_eq_zero hlen.symm).symm

theorem eq_of_top_eq {fuel : Nat} {nodes nodes' : List Hash} (hlen : nodes.length = nodes'.length)
    (hinj : ∀ p ∈ buildPairs C fuel nodes, ∀ q ∈ buildPairs C fuel nodes',
      hashNode C p.1 p.2 = hashNode C q.1 q.2 → p = q)
    (h : top C fuel nodes = top C fuel nodes') : nodes = nodes' := by
  induction fuel generalizing nodes nodes' with
  | zero => exact h
  | succ fuel ih =>
      unfold top at h
      unfold buildPairs at hinj
      rw [← hlen] at h hinj
      by_cases hlong : 1 < nodes.length
      · rw [if_pos hlong, if_pos hlong] at h hinj
        have hnext : nextLevel C nodes = nextLevel C nodes' := by
          apply ih _ _ h
          · rw [length_nextLevel, length_nextLevel, hlen]
          · intro p hp q hq
            exact hinj p (List.mem_append_right _ hp) q (List.mem_append_right _ hq)
        apply eq_of_nextLevel_eq hlen _ hnext
        intro p hp q hq
        exact hinj p (List.mem_append_left _ hp) q (List.mem_append_left _ hq)
      · rw [if_neg hlong, if_neg hlong] at h
        exact h

/-- Leaves of one number with one root are the same leaves. -/
theorem root_inj {inputs : Set (List UInt8)} (hinj : Set.InjOn C.digest inputs)
    {data data' : List (List UInt8)} (htree : ∀ x ∈ treeInputs C data, x ∈ inputs)
    (htree' : ∀ x ∈ treeInputs C data', x ∈ inputs) (hlen : data.length = data'.length)
    (h : (build C (data.map (hashLeaf C))).root C = (build C (data'.map (hashLeaf C))).root C) :
    data = data' := by
  have hpair : ∀ {d : List (List UInt8)}, (∀ x ∈ treeInputs C d, x ∈ inputs) →
      ∀ p ∈ buildPairs C d.length (d.map (hashLeaf C)), nodeInput p ∈ inputs := by
    intro d hd p hp
    exact hd _ (List.mem_cons_of_mem _ (List.mem_append_right _ (List.mem_map_of_mem hp)))
  have hleaf : ∀ {d : List (List UInt8)}, (∀ x ∈ treeInputs C d, x ∈ inputs) →
      ∀ x ∈ d, leafInput x ∈ inputs := by
    intro d hd x hx
    exact hd _ (List.mem_cons_of_mem _ (List.mem_append_left _ (List.mem_map_of_mem hx)))
  by_cases hne : data = []
  · subst hne
    exact (List.eq_nil_of_length_eq_zero hlen.symm).symm
  · have hne' : data' ≠ [] := by
      rintro rfl
      exact hne (List.eq_nil_of_length_eq_zero hlen)
    have htop : top C data.length (data.map (hashLeaf C)) =
        top C data.length (data'.map (hashLeaf C)) := by
      have hleaves : data.map (hashLeaf C) ≠ [] := by simpa using hne
      have hleaves' : data'.map (hashLeaf C) ≠ [] := by simpa using hne'
      have htop₁ := top_eq_root (C := C) hleaves
      have htop₂ := top_eq_root (C := C) hleaves'
      rw [List.length_map] at htop₁ htop₂
      rw [htop₁, hlen, htop₂, h]
    have hhashes : data.map (hashLeaf C) = data'.map (hashLeaf C) := by
      apply eq_of_top_eq _ _ htop
      · rw [List.length_map, List.length_map, hlen]
      · intro p hp q hq heq
        rw [hlen] at hq
        exact nodeInput_injective (hinj (hpair htree p hp) (hpair htree' q hq) heq)
    -- equal leaf digests are digests of equal leaves
    apply List.ext_getElem hlen
    intro i hi hi'
    have heq : hashLeaf C data[i] = hashLeaf C data'[i] := by
      have hget := congrArg (fun l => l[i]?) hhashes
      simpa [hi, hi'] using hget
    exact leafInput_injective
      (hinj (hleaf htree _ (List.getElem_mem hi)) (hleaf htree' _ (List.getElem_mem hi')) heq)

end MerkleTree

end SmartLedger
