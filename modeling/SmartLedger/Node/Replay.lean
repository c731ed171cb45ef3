import SmartLedger.Consensus.Certified
import SmartLedger.Node.Loop

/-! # Rebuilding the chain state from the stored blocks

A node derives the state of its chain in three ways: live, from its store
after a reboot (`rebuild`), and by catching up block by block (`feed`).
`replay_reconstructs` says that all three agree after every handled event.
-/

namespace SmartLedger

variable {C : Crypto} {e f : Engine C}

/-! ## From the store -/

/-- Replaying the store's governance is pushing its blocks. -/
theorem replayGovernance_eq (genesis : List C.VerifyingKey) (tip : Hash) (height : Nat)
    (store : List (Block C)) :
    replayGovernance genesis store =
      (ChainState.pushAll ⟨ValidatorRegistry.new genesis, tip, height⟩ store).registry := by
  unfold replayGovernance
  generalize ValidatorRegistry.new genesis = reg
  induction store generalizing reg tip height with
  | nil => rfl
  | cons b store ih => exact ih (b.header.id C) (height + 1) (reg.recordAll b.governance)

/-- The tip of a stored chain that starts at height 1 is where the chain
stands. -/
theorem storeTip_eq {registry : ValidatorRegistry C} {store : List (Block C)}
    (hchain : Chain ⟨registry, Hash.zero, 1⟩ store) :
    (storeTip store).1 = (ChainState.pushAll ⟨registry, Hash.zero, 1⟩ store).tip ∧
    (storeTip store).2.toNat + 1 = (ChainState.pushAll ⟨registry, Hash.zero, 1⟩ store).height := by
  rw [ChainState.pushAll_tip, ChainState.pushAll_height]
  unfold storeTip
  cases hlast : store.getLast? with
  | none =>
      rw [List.getLast?_eq_none_iff] at hlast
      subst hlast
      exact ⟨rfl, rfl⟩
  | some b =>
      have hpos : 0 < store.length := by
        rcases List.eq_nil_or_concat store with rfl | ⟨l, a, rfl⟩
        · cases hlast
        · simp
      rw [List.getLast?_eq_getElem?] at hlast
      rcases Chain.block_at hchain hlast with ⟨hheight, _⟩
      refine ⟨rfl, ?_⟩
      dsimp only at hheight ⊢
      omega

/-- An engine built from a store stands at the end of its chain. -/
theorem OnChain.rebuild {genesis : List C.VerifyingKey} {store : List (Block C)}
    {meSk : C.SigningKey} {mePk : C.VerifyingKey} (hchain : Chain (genesisState genesis) store)
    (h : rebuild genesis meSk mePk store = .ok e) : OnChain (genesisState genesis) store e := by
  unfold SmartLedger.rebuild at h
  rcases Exec.bind_eq_ok.mp h with ⟨height, hnext, hbuild⟩
  rcases storeTip_eq hchain with ⟨htip, hheight⟩
  have hon := OnChain.withRegistry hbuild
  refine ⟨hchain, ?_, hon.set, hon.roster⟩
  have hstate : e.chainState =
      ⟨replayGovernance genesis store, (storeTip store).1, height.toNat⟩ := hon.state.symm
  rw [hstate, replayGovernance_eq genesis Hash.zero 1 store, htip, checkedAdd_eq_ok hnext]
  apply ChainState.ext
  · rfl
  · rfl
  · exact hheight.symm

/-- The engine rebuilt from the store stands where the live engine does. -/
theorem rebuild_eq {genesis : List C.VerifyingKey} {store : List (Block C)}
    (hon : OnChain (genesisState genesis) store e) (meSk : C.SigningKey)
    (mePk : C.VerifyingKey) :
    ∃ e', rebuild genesis meSk mePk store = .ok e' ∧ e'.chainState = e.chainState ∧
      e'.currentSet = e.currentSet := by
  rcases storeTip_eq hon.chain with ⟨htip, hheight⟩
  rw [show ChainState.pushAll ⟨ValidatorRegistry.new genesis, Hash.zero, 1⟩ store = e.chainState
    from hon.state] at htip hheight
  -- the height of the engine is that of the last block and one
  have hnext : checkedAdd (storeTip store).2 1 = .ok e.height := by
    unfold checkedAdd
    have hlt := e.height.toNat_lt
    have hnat : (storeTip store).2.toNat + (1 : UInt64).toNat = e.height.toNat := hheight
    rw [if_pos (by omega)]
    congr 1
    apply UInt64.toNat_inj.mp
    rw [UInt64.toNat_add, hnat, Nat.mod_eq_of_lt hlt]
  have hreg : replayGovernance genesis store = e.registry := by
    rw [replayGovernance_eq genesis Hash.zero 1]
    exact congrArg ChainState.registry hon.state
  unfold rebuild
  dsimp only
  rw [hnext, hreg, show (storeTip store).1 = e.tip from htip]
  show ∃ e', Engine.withRegistry e.registry meSk mePk e.tip e.height = .ok e' ∧ _
  unfold Engine.withRegistry
  rw [hon.set]
  exact ⟨_, rfl, rfl, rfl⟩

/-! ## By catching up -/

/-- Hand the blocks one after the other to `applySyncedBlock`. -/
def feed (e : Engine C) : List (Block C) → Exec (Except String (Engine C))
  | [] => .ok (.ok e)
  | b :: bs => do
      match ← e.applySyncedBlock b with
      | .ok e => feed e bs
      | .error err => return .error err

/-- A chain of certified blocks is accepted block by block, and leads to its
end. -/
theorem feed_chain {s : ChainState C} {bs : List (Block C)} {height : UInt64}
    (hchain : Chain s bs) (hstate : f.chainState = s)
    (hset : f.registry.activeSet f.height = .ok f.currentSet)
    (hcert : ∀ b ∈ bs, ∃ set, (s.pushAll bs).registry.activeSet b.header.height = .ok set ∧
      b.qc.verify b.header set = .ok ())
    (hheight : height.toNat = (s.pushAll bs).height)
    (hlast : ∃ set, (s.pushAll bs).registry.activeSet height = .ok set) :
    ∃ f', feed f bs = .ok (.ok f') ∧ f'.chainState = s.pushAll bs ∧
      f'.registry.activeSet f'.height = .ok f'.currentSet := by
  induction bs generalizing s f with
  | nil => exact ⟨f, rfl, hstate, hset⟩
  | cons b bs ih =>
      subst hstate
      rcases hchain with ⟨⟨hbheight, set, hbset, hvalid⟩, hrest⟩
      have hb : b.header.height = f.height := UInt64.toNat_inj.mp hbheight
      rw [hb] at hbset hvalid
      obtain rfl : f.currentSet = set := Except.ok.inj (hset.symm.trans hbset)
      -- certified under the final registry, hence under the set in force here
      have hqc : b.qc.verify b.header f.currentSet = .ok () := by
        rcases hcert b List.mem_cons_self with ⟨set', hset', hver⟩
        have hchain' : Chain f.chainState (b :: bs) :=
          ⟨⟨hbheight, f.currentSet, by rw [hb]; exact hset, by rw [hb]; exact hvalid⟩, hrest⟩
        rw [Chain.activeSet_stable hchain' hbheight.le, hb] at hset'
        obtain rfl : f.currentSet = set' := Except.ok.inj (hset.symm.trans hset')
        exact hver
      -- the next height exists because the end of the chain has one
      have hend := ChainState.pushAll_height (f.chainState.push b) bs
      have hpush : (f.chainState.push b).height = f.height.toNat + 1 := rfl
      have hnext : checkedAdd f.height 1 = .ok (f.height + 1) := by
        unfold checkedAdd
        have hlt := height.toNat_lt
        have hone : (1 : UInt64).toNat = 1 := rfl
        rw [ChainState.pushAll_cons] at hheight
        rw [if_pos (by omega)]
      have hnat := checkedAdd_eq_ok hnext
      -- either a further block was admitted there, or it is the end of the chain
      have hnextSet : ∃ set, (f.registry.recordAll b.governance).activeSet (f.height + 1) =
          .ok set := by
        cases bs with
        | nil =>
            rcases hlast with ⟨set, hlast⟩
            have heq : height = f.height + 1 := by
              apply UInt64.toNat_inj.mp
              rw [hheight, hnat]
              rfl
            exact ⟨set, heq ▸ hlast⟩
        | cons b' bs' =>
            rcases hrest.1 with ⟨hbheight', set, hset', _⟩
            have heq : b'.header.height = f.height + 1 := by
              apply UInt64.toNat_inj.mp
              rw [hbheight', hnat]
              rfl
            exact ⟨set, heq ▸ hset'⟩
      rcases hnextSet with ⟨set, hnextSet⟩
      have hsync := Engine.applySyncedBlock_eq hvalid hqc hnext hnextSet
      have hstate' : ({ f.rolled b.value f.govMempool (f.height + 1) set with parked := false } :
          Engine C).chainState = f.chainState.push b := ChainState.ext rfl rfl hnat
      rcases ih hrest hstate' hnextSet (fun x hx => hcert x (List.mem_cons_of_mem _ hx)) hheight
        hlast with ⟨f', hfeed, hf', hset'⟩
      refine ⟨f', ?_, hf', hset'⟩
      unfold feed
      rw [hsync]
      exact hfeed

/-! ## The three agree -/

/-- A fresh node starts at height 1 on the implicit genesis block. -/
theorem rebuild_nil (genesis : List C.VerifyingKey) (meSk : C.SigningKey)
    (mePk : C.VerifyingKey) :
    rebuild genesis meSk mePk [] =
      Engine.withRegistry (ValidatorRegistry.new genesis) meSk mePk Hash.zero 1 := rfl

theorem chainState_ext {e e' : Engine C} (h : e'.chainState = e.chainState) :
    e'.height = e.height ∧ e'.tip = e.tip ∧ e'.registry = e.registry :=
  ⟨UInt64.toNat_inj.mp (congrArg ChainState.height h), congrArg ChainState.tip h,
    congrArg ChainState.registry h⟩

variable {genesis : List C.VerifyingKey} {meSk : C.SigningKey} {mePk : C.VerifyingKey}
  {baseTimeout : Nat} {n₀ n : Node C}

/-- After the start and after every handled event, the engine that `Node::new`
would build from the store has the live engine's height, tip, registry and
sets. If the node's key was in the set in force at the height of every stored
block, a fresh engine with the same genesis accepts the stored blocks one by
one and ends in the same place. -/
theorem replay_reconstructs (hnew : Node.new genesis meSk mePk [] baseTimeout = .ok n₀)
    (hrun : NodeRun n₀ n) :
    (∃ e', rebuild genesis meSk mePk n.store = .ok e' ∧
      e'.height = n.engine.height ∧ e'.tip = n.engine.tip ∧ e'.registry = n.engine.registry ∧
      e'.currentSet = n.engine.currentSet ∧
      ∀ h, e'.registry.activeSet h = n.engine.registry.activeSet h) ∧
    (C.Matching meSk mePk →
      (∀ b ∈ n.store, ∃ set, n.engine.registry.activeSet b.header.height = .ok set ∧
        mePk ∈ set.validators) →
      ∀ (sk : C.SigningKey) (pk : C.VerifyingKey) (f₀ : Engine C),
        rebuild genesis sk pk [] = .ok f₀ →
        ∃ f', feed f₀ n.store = .ok (.ok f') ∧
          f'.height = n.engine.height ∧ f'.tip = n.engine.tip ∧
          f'.registry = n.engine.registry ∧ f'.currentSet = n.engine.currentSet ∧
          ∀ h, f'.registry.activeSet h = n.engine.registry.activeSet h) := by
  rcases hrun.engine_run hnew with ⟨evs, log, hengine, hstore⟩
  unfold Node.new at hnew
  rw [Exec.bind_eq_ok] at hnew
  rcases hnew with ⟨e₀, hbuild, hnew⟩
  obtain rfl := Except.ok.inj hnew
  rw [rebuild_nil] at hbuild
  have hon : OnChain (genesisState genesis) ([] ++ finalized log) n.engine :=
    (OnChain.withRegistry hbuild).run hengine
  rw [List.nil_append, ← hstore] at hon
  constructor
  · rcases rebuild_eq hon meSk mePk with ⟨e', hrebuild, hstate, hset⟩
    rcases chainState_ext hstate with ⟨hheight, htip, hreg⟩
    exact ⟨e', hrebuild, hheight, htip, hreg, hset, fun h => by rw [hreg]⟩
  · intro hkeys hmember sk pk f₀ hfresh
    rw [rebuild_nil] at hfresh
    have hstart := OnChain.withRegistry hfresh
    -- what it sealed as a member carries a certificate that verifies
    have hcert := (Certified.withRegistry hkeys hbuild).trace hengine.trace
    have hme : n.engine.mePk = mePk := by
      rw [hengine.trace.mePk_eq]
      rcases Engine.withRegistry_eq_ok hbuild with ⟨set, _, rfl⟩
      rfl
    have hblocks : ∀ b ∈ n.store, ∃ set,
        ((genesisState genesis).pushAll n.store).registry.activeSet b.header.height = .ok set ∧
        b.qc.verify b.header set = .ok () := by
      intro b hb
      rcases hmember b hb with ⟨set, hset, hin⟩
      rw [hstore] at hb
      rcases hcert.blocks b hb with ⟨_, set', hset', hver⟩
      obtain rfl : set = set' := Except.ok.inj (hset.symm.trans hset')
      rw [hme] at hver
      rw [hon.state]
      exact ⟨set, hset, hver hin⟩
    have hheight : n.engine.height.toNat =
        ((genesisState genesis).pushAll n.store).height := by
      rw [hon.state]
      rfl
    -- the height after the last block has its set as well
    have hlast : ∃ set, ((genesisState genesis).pushAll n.store).registry.activeSet
        n.engine.height = .ok set := by
      rw [hon.state]
      exact ⟨_, hon.set⟩
    rcases feed_chain hon.chain hstart.state.symm hstart.set hblocks hheight hlast with
      ⟨f', hfeed, hstate, hset⟩
    rw [hon.state] at hstate
    rcases chainState_ext hstate with ⟨hheight', htip, hreg⟩
    rw [hreg, hheight', hon.set] at hset
    exact ⟨f', hfeed, hheight', htip, hreg, (Except.ok.inj hset).symm, fun h => by rw [hreg]⟩

/-- The lone validator's node, started and handed an attestation, and then a
change that adds validator 2 at height 3. -/
def sampleNode : Exec (Node sample × Node sample) := do
  let n₀ ← Node.new (C := sample) [1] (1 : UInt8) 1 [] 1000
  let (n, _) ← n₀.begin sampleOrder 0
  let (n, _) ← n.handle sampleOrder 0 (.submit (sampleAttestation 1 7))
  let (n, _) ← n.handle sampleOrder 0 (.submitGovernance (sampleChange [2] [] 3 [1]))
  return (n₀, n)

/-- It holds two blocks, the second with the change, and is in a set of two;
reboot and catch-up both end where it stands. -/
theorem replay_reconstructs_handover :
    ∃ n₀ n : Node sample, Node.new (C := sample) [1] (1 : UInt8) 1 [] 1000 = .ok n₀ ∧
      NodeRun n₀ n ∧ n.store.length = 2 ∧
      n.engine.registry.changes = [⟨[2], [], 3⟩] ∧ n.engine.currentSet.validators = [1, 2] ∧
      (∃ e', rebuild (C := sample) [1] (1 : UInt8) 1 n.store = .ok e' ∧
        e'.height = n.engine.height ∧ e'.tip = n.engine.tip ∧
        e'.registry = n.engine.registry ∧ e'.currentSet = n.engine.currentSet) ∧
      ∃ f₀ f', rebuild (C := sample) [1] (2 : UInt8) 2 [] = .ok f₀ ∧
        feed f₀ n.store = .ok (.ok f') ∧ f'.height = n.engine.height ∧
        f'.tip = n.engine.tip ∧ f'.currentSet = n.engine.currentSet := by
  have hholds : sampleNode.holds (fun r => decide (r.2.store.length = 2 ∧
      r.2.engine.registry.changes = [⟨[2], [], 3⟩] ∧
      r.2.engine.currentSet.validators = [1, 2]) &&
      r.2.store.all fun b => (r.2.engine.registry.activeSet b.header.height).holds fun set =>
        set.contains 1) = true := by decide +kernel
  rcases Exec.holds_iff.mp hholds with ⟨⟨n₀, n⟩, hnode, hcond⟩
  rw [Bool.and_eq_true, decide_eq_true_eq, List.all_eq_true] at hcond
  rcases hcond with ⟨⟨hlength, hchanges, hset⟩, hall⟩
  unfold sampleNode at hnode
  simp only [Exec.bind_eq_ok] at hnode
  rcases hnode with ⟨m₀, hnew, ⟨m₁, a₁⟩, hbegin, ⟨m₂, a₂⟩, hsubmit, ⟨m₃, a₃⟩, hchange, hres⟩
  rcases Exec.ok_pair hres with ⟨rfl, rfl⟩
  have hrun : NodeRun n₀ n := NodeRun.step (NodeRun.step (NodeRun.start hbegin) hsubmit) hchange
  rcases replay_reconstructs hnew hrun with
    ⟨⟨e', hrebuild, hheight, htip, hreg, hcurrent, _⟩, hcatchup⟩
  -- validator 1 is in the set of either height
  have hmember : ∀ b ∈ n.store, ∃ set, n.engine.registry.activeSet b.header.height = .ok set ∧
      (1 : UInt8) ∈ set.validators := by
    intro b hb
    rcases Exec.holds_iff.mp (hall b hb) with ⟨set, hset, hin⟩
    exact ⟨set, hset, (set.contains_iff 1).mp hin⟩
  have hfresh : (rebuild (C := sample) [1] (2 : UInt8) 2 []).holds (fun _ => true) = true := by
    decide +kernel
  rcases Exec.holds_iff.mp hfresh with ⟨f₀, hf₀, _⟩
  rcases hcatchup (sample_matching 1) hmember (2 : UInt8) 2 f₀ hf₀ with
    ⟨f', hfeed, hfheight, hftip, _, hfcurrent, _⟩
  exact ⟨n₀, n, hnew, hrun, hlength, hchanges, hset,
    ⟨e', hrebuild, hheight, htip, hreg, hcurrent⟩, f₀, f', hf₀, hfeed, hfheight, hftip, hfcurrent⟩

end SmartLedger
