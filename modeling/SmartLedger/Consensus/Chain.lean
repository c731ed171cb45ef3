import SmartLedger.Consensus.Messages

/-! # Chains of blocks

What the chain is for, independently of the engines that grow it: each block
is valid on top of the one before it, under the validator set in force at its
own height, and the governance it carries is recorded for later heights.

* `Chain.activeSet_stable`: growing a chain never changes the set in force at
  a height it has already reached.
* `Chain.block_at`: what a block inside a chain satisfies, seen from the end.
* `Chain.change_origin`: where a recorded change comes from.
-/

namespace SmartLedger

variable {C : Crypto}

/-- The value a block finalizes. -/
def Block.value (b : Block C) : Proposed C :=
  { header := b.header, attestations := b.attestations, governance := b.governance }

/-- Where a chain stands: the roster history, the last block id, and the
height of the next block. -/
@[ext]
structure ChainState (C : Crypto) where
  registry : ValidatorRegistry C
  tip : Hash
  height : Nat

namespace ChainState

/-- `b` is a valid next block under the set in force at its height. -/
def Admits (s : ChainState C) (b : Block C) : Prop :=
  b.header.height.toNat = s.height ∧
    ∃ set, s.registry.activeSet b.header.height = .ok set ∧
      b.value.isValid s.tip b.header.height set = true

instance (s : ChainState C) (b : Block C) : Decidable (s.Admits b) :=
  decidable_of_iff (b.header.height.toNat = s.height ∧
    (s.registry.activeSet b.header.height).holds
      (fun set => b.value.isValid s.tip b.header.height set) = true) (by
    rw [Exec.holds_iff]
    exact Iff.rfl)

/-- The chain after `b`. -/
def push (s : ChainState C) (b : Block C) : ChainState C :=
  { registry := s.registry.recordAll b.governance
    tip := b.header.id C
    height := s.height + 1 }

def pushAll (s : ChainState C) (bs : List (Block C)) : ChainState C := bs.foldl push s

@[simp] theorem pushAll_nil (s : ChainState C) : s.pushAll [] = s := rfl

@[simp] theorem pushAll_cons (s : ChainState C) (b : Block C) (bs : List (Block C)) :
    s.pushAll (b :: bs) = (s.push b).pushAll bs := rfl

theorem pushAll_append (s : ChainState C) (as bs : List (Block C)) :
    s.pushAll (as ++ bs) = (s.pushAll as).pushAll bs := List.foldl_append

theorem pushAll_height (s : ChainState C) (bs : List (Block C)) :
    (s.pushAll bs).height = s.height + bs.length := by
  induction bs generalizing s with
  | nil => rfl
  | cons b bs ih =>
      rw [pushAll_cons, ih, List.length_cons, Nat.add_comm bs.length 1]
      exact Nat.add_assoc s.height 1 bs.length

theorem pushAll_tip (s : ChainState C) (bs : List (Block C)) :
    (s.pushAll bs).tip = (bs.getLast?.map fun b => b.header.id C).getD s.tip := by
  induction bs generalizing s with
  | nil => rfl
  | cons b bs ih =>
      rw [pushAll_cons, ih, List.getLast?_cons]
      cases bs.getLast? <;> rfl

theorem pushAll_genesis (s : ChainState C) (bs : List (Block C)) :
    (s.pushAll bs).registry.genesis = s.registry.genesis := by
  induction bs generalizing s with
  | nil => rfl
  | cons b bs ih =>
      rw [pushAll_cons, ih, push]
      exact s.registry.recordAll_genesis b.governance

theorem pushAll_changes (s : ChainState C) (bs : List (Block C)) :
    (s.pushAll bs).registry.changes =
      s.registry.changes ++ (bs.flatMap (·.governance)).map (·.change) := by
  induction bs generalizing s with
  | nil => simp
  | cons b bs ih =>
      rw [pushAll_cons, ih, push, s.registry.recordAll_changes b.governance]
      simp

end ChainState

/-- Where the chain of a genesis roster starts. -/
def genesisState (genesis : List C.VerifyingKey) : ChainState C :=
  { registry := ValidatorRegistry.new genesis, tip := Hash.zero, height := 1 }

/-- Every block is admitted where the ones before it lead. -/
def Chain : ChainState C → List (Block C) → Prop
  | _, [] => True
  | s, b :: bs => s.Admits b ∧ Chain (s.push b) bs

namespace Chain

instance decidable : (s : ChainState C) → (bs : List (Block C)) → Decidable (Chain s bs)
  | _, [] => isTrue trivial
  | s, b :: bs => @instDecidableAnd _ _ _ (decidable (s.push b) bs)

variable {s : ChainState C} {bs : List (Block C)}

theorem append_iff {as : List (Block C)} :
    Chain s (as ++ bs) ↔ Chain s as ∧ Chain (s.pushAll as) bs := by
  induction as generalizing s with
  | nil => simp [Chain]
  | cons b as ih => simp only [List.cons_append, Chain, ih, ChainState.pushAll_cons, and_assoc]

theorem snoc {b : Block C} (h : Chain s bs) (hb : (s.pushAll bs).Admits b) :
    Chain s (bs ++ [b]) := append_iff.mpr ⟨h, hb, trivial⟩

/-- One admitted block leaves every set up to its own height alone. -/
theorem activeSet_push {b : Block C} (hb : s.Admits b) {h : UInt64} (hle : h.toNat ≤ s.height) :
    (s.push b).registry.activeSet h = s.registry.activeSet h := by
  rcases hb with ⟨hheight, set, _, hvalid⟩
  have hwf := (Proposed.isValid_iff _ _ _ _).mp hvalid
  apply ValidatorRegistry.activeSet_recordAll
  intro g hg
  have hlater : b.header.height < g.change.activationHeight := hwf.activates_later g hg
  rw [UInt64.lt_iff_toNat_lt] at hlater ⊢
  omega

/-- Growing a chain never changes the set in force at a height it reached. -/
theorem activeSet_stable (hc : Chain s bs) {h : UInt64} (hle : h.toNat ≤ s.height) :
    (s.pushAll bs).registry.activeSet h = s.registry.activeSet h := by
  induction bs generalizing s with
  | nil => rfl
  | cons b bs ih =>
      have hle' : h.toNat ≤ (s.push b).height := Nat.le_succ_of_le hle
      rw [ChainState.pushAll_cons, ih hc.2 hle', activeSet_push hc.1 hle]

/-- The set in force at a height reached by a prefix is the same at the end. -/
theorem activeSet_take (hc : Chain s bs) (i : Nat) {h : UInt64}
    (hle : h.toNat ≤ (s.pushAll (bs.take i)).height) :
    (s.pushAll bs).registry.activeSet h = (s.pushAll (bs.take i)).registry.activeSet h := by
  have hsplit := List.take_append_drop i bs
  have hdrop : Chain (s.pushAll (bs.take i)) (bs.drop i) := by
    rw [← hsplit] at hc
    exact (append_iff.mp hc).2
  have hstable := activeSet_stable hdrop hle
  rwa [← ChainState.pushAll_append, hsplit] at hstable

/-- A block inside a chain is admitted by the blocks before it, and the set
it was checked against is still the one in force at its height. -/
theorem block_at (hc : Chain s bs) {i : Nat} {b : Block C} (hb : bs[i]? = some b) :
    b.header.height.toNat = s.height + i ∧
    ∃ set, (s.pushAll (bs.take i)).registry.activeSet b.header.height = .ok set ∧
      (s.pushAll bs).registry.activeSet b.header.height = .ok set ∧
      b.value.WellFormed (s.pushAll (bs.take i)).tip b.header.height set := by
  rcases List.getElem?_eq_some_iff.mp hb with ⟨hi, rfl⟩
  have hsplit : bs = bs.take i ++ (bs[i] :: bs.drop (i + 1)) := by
    rw [List.getElem_cons_drop, List.take_append_drop]
  have hadm : (s.pushAll (bs.take i)).Admits bs[i] := by
    have hc' := hc
    rw [hsplit] at hc'
    exact (append_iff.mp hc').2.1
  rcases hadm with ⟨hheight, set, hset, hvalid⟩
  have hlen : (bs.take i).length = i := by
    rw [List.length_take]
    omega
  have hheight' := hheight
  rw [ChainState.pushAll_height, hlen] at hheight'
  refine ⟨hheight', set, hset, ?_, (Proposed.isValid_iff _ _ _ _).mp hvalid⟩
  rw [activeSet_take hc i hheight.le]
  exact hset

/-- A recorded change was there at the start or came with a block, which
carried it authorized by its own set and ahead of its activation. -/
theorem change_origin (hc : Chain s bs) {c : ValidatorChange C}
    (h : c ∈ (s.pushAll bs).registry.changes) :
    c ∈ s.registry.changes ∨
    ∃ b ∈ bs, ∃ g ∈ b.governance, ∃ set, g.change = c ∧
      (s.pushAll bs).registry.activeSet b.header.height = .ok set ∧
      g.isAuthorized set = true ∧ b.header.height < c.activationHeight := by
  rw [ChainState.pushAll_changes, List.mem_append] at h
  rcases h with h | h
  · exact Or.inl h
  · rcases List.mem_map.mp h with ⟨g, hg, rfl⟩
    rcases List.mem_flatMap.mp hg with ⟨b, hb, hg⟩
    rcases List.mem_iff_getElem?.mp hb with ⟨i, hi⟩
    rcases block_at hc hi with ⟨_, set, _, hset, hwf⟩
    exact Or.inr ⟨b, hb, g, hg, set, rfl, hset, hwf.authorized g hg, hwf.activates_later g hg⟩

end Chain

end SmartLedger
