import SmartLedger.Consensus.Runs

/-! # An engine grows a chain

The refinement of `Chain` by the engine: along every run the blocks an engine
committed or applied form a chain from where it was built, and the engine
stands at its end with the set in force loaded (`OnChain`).

* `chain_integrity`: what that says about each block and about the state.
* `past_sets_immutable`: every recorded change came with a block that had the
  authority for it, and no set in force changes afterwards.
-/

namespace SmartLedger

open Engine

variable {C : Crypto} {ord : IterOrder} {e e' : Engine C}

/-- Where an engine's chain stands. -/
def Engine.chainState (e : Engine C) : ChainState C :=
  { registry := e.registry, tip := e.tip, height := e.height.toNat }

/-- The engine stands at the end of `bs`, a chain from `s₀`. -/
structure OnChain (s₀ : ChainState C) (bs : List (Block C)) (e : Engine C) : Prop where
  chain : Chain s₀ bs
  state : s₀.pushAll bs = e.chainState
  set : e.registry.activeSet e.height = .ok e.currentSet
  roster : e.validatorsSorted = sortById e.currentSet.validators

namespace OnChain

variable {s₀ : ChainState C} {bs : List (Block C)}

/-- The state of the chain is only what `chainState` and the loaded set say. -/
theorem congr (h : OnChain s₀ bs e) (hstate : e'.chainState = e.chainState)
    (hset : e'.currentSet = e.currentSet)
    (hroster : e'.validatorsSorted = e.validatorsSorted) : OnChain s₀ bs e' := by
  have hreg : e'.registry = e.registry := congrArg ChainState.registry hstate
  have hheight : e'.height = e.height := UInt64.toNat_inj.mp (congrArg ChainState.height hstate)
  refine ⟨h.chain, h.state.trans hstate.symm, ?_, ?_⟩
  · rw [hreg, hheight, hset]
    exact h.set
  · rw [hroster, hset]
    exact h.roster

/-- Rolling over a valid value extends the chain, whichever way the block was
certified. -/
theorem roll (h : OnChain s₀ bs e) {b : Block C} (pool : List (SignedValidatorChange C))
    {height : UInt64} {set : ValidatorSet C}
    (hvalid : b.value.isValid e.tip e.height e.currentSet = true)
    (hheight : checkedAdd e.height 1 = .ok height)
    (hset : (e.registry.recordAll b.governance).activeSet height = .ok set) :
    OnChain s₀ (bs ++ [b]) (e.rolled b.value pool height set) := by
  have hbheight : b.header.height = e.height := ((Proposed.isValid_iff _ _ _ _).mp hvalid).height_eq
  refine ⟨h.chain.snoc ?_, ?_, hset, rfl⟩
  · rw [h.state]
    refine ⟨congrArg UInt64.toNat hbheight, e.currentSet, ?_, ?_⟩
    · rw [hbheight]
      exact h.set
    · rw [hbheight]
      exact hvalid
  · rw [ChainState.pushAll_append, h.state]
    have hnat : height.toNat = e.height.toNat + 1 := checkedAdd_eq_ok hheight
    exact ChainState.ext rfl rfl hnat.symm

theorem sameHeight (h : OnChain s₀ bs e) (hsame : SameHeight e e') : OnChain s₀ bs e' := by
  apply h.congr _ hsame.currentSet hsame.validatorsSorted
  exact ChainState.ext hsame.registry hsame.tip (congrArg UInt64.toNat hsame.height)

/-- Every internal step keeps the engine at the end of its chain; only a
commit grows it. -/
theorem internal {out : List (Effect C)} (h : OnChain s₀ bs e) (hi : Internal ord e out e') :
    OnChain s₀ (bs ++ finalized (effects out)) e' := by
  rcases hi.height_cases with ⟨hsame, hnone⟩ | hcommit
  · rw [hnone, List.append_nil]
    exact h.sameHeight hsame
  · rcases hcommit with ⟨r, pm, height, set, _, _, hvalid, hheight, hset, hsame, hone⟩
    rw [hone]
    have hroll := h.roll (b := e.assembleBlock ord r pm.value.id pm.value)
      (dropEnacted pm.value.governance e.govMempool) hvalid hheight hset
    exact hroll.sameHeight hsame

/-- So does every change of the inputs; only an applied block grows it. -/
theorem enter {ev : Event C} {out : List (Output C)} (h : OnChain s₀ bs e)
    (hent : Enter ev e out e') : OnChain s₀ (bs ++ finalized out) e' := by
  rcases hent.height_cases with ⟨hsame, hnone⟩ | hsync
  · rw [hnone, List.append_nil]
    exact h.sameHeight hsame
  · rcases hsync with ⟨b, height, set, _, hvalid, _, hheight, hset, rfl, rfl⟩
    exact (h.roll e.govMempool hvalid hheight hset).congr rfl rfl rfl

/-- An engine is built at the start of its chain. -/
theorem withRegistry {registry : ValidatorRegistry C} {meSk : C.SigningKey}
    {mePk : C.VerifyingKey} {tip : Hash} {startHeight : UInt64}
    (h : Engine.withRegistry registry meSk mePk tip startHeight = .ok e) :
    OnChain ⟨registry, tip, startHeight.toNat⟩ [] e := by
  rcases withRegistry_eq_ok h with ⟨set, hset, rfl⟩
  exact ⟨trivial, rfl, hset, rfl⟩

/-- Along every trace, and so along every run. -/
theorem trace {guard : Engine C → Event C → Prop} {e₀ : Engine C} {evs : List (Event C)}
    {log : List (Output C)} (h₀ : OnChain s₀ bs e₀) (htrace : Trace guard e₀ evs log e) :
    OnChain s₀ (bs ++ finalized log) e := by
  induction htrace with
  | init => simpa using h₀
  | enter _ _ hent ih =>
      rw [finalized_append, ← List.append_assoc]
      exact ih.enter hent
  | internal _ hi ih =>
      rw [finalized_append, ← List.append_assoc]
      exact ih.internal hi

theorem run {guard : Engine C → Event C → Prop} {e₀ : Engine C} {evs : List (Event C)}
    {log : List (Output C)} (h₀ : OnChain s₀ bs e₀) (hrun : Run guard e₀ evs log e) :
    OnChain s₀ (bs ++ finalized log) e := h₀.trace hrun.trace

end OnChain

/-! ## Sets in force -/

/-- The set in force at a past height survives the roll over a valid value. -/
theorem activeSet_rolled {v : Proposed C} {h : UInt64}
    (hvalid : v.isValid e.tip e.height e.currentSet = true) (hle : h ≤ e.height) :
    (e.registry.recordAll v.governance).activeSet h = e.registry.activeSet h := by
  apply ValidatorRegistry.activeSet_recordAll
  intro g hg
  have hlater := ((Proposed.isValid_iff _ _ _ _).mp hvalid).activates_later g hg
  rw [UInt64.lt_iff_toNat_lt] at hlater ⊢
  rw [UInt64.le_iff_toNat_le] at hle
  omega

/-- No internal step changes the set in force at a height up to the current
one. -/
theorem Engine.Internal.activeSet_eq {out : List (Effect C)} (hi : Internal ord e out e')
    {h : UInt64} (hle : h ≤ e.height) : e'.registry.activeSet h = e.registry.activeSet h := by
  rcases hi.height_cases with ⟨hsame, _⟩ | ⟨r, pm, _, _, _, _, hvalid, _, _, hsame, _⟩
  · rw [hsame.registry]
  · rw [hsame.registry]
    exact activeSet_rolled hvalid hle

theorem Engine.Enter.activeSet_eq {ev : Event C} {out : List (Output C)} (hent : Enter ev e out e')
    {h : UInt64} (hle : h ≤ e.height) : e'.registry.activeSet h = e.registry.activeSet h := by
  rcases hent.height_cases with ⟨hsame, _⟩ | ⟨b, _, _, _, hvalid, _, _, _, rfl, _⟩
  · rw [hsame.registry]
  · exact activeSet_rolled hvalid hle

/-- Heights only grow. -/
theorem Engine.Internal.height_le {out : List (Effect C)} (hi : Internal ord e out e') :
    e.height ≤ e'.height := by
  rcases hi.height_cases with ⟨hsame, _⟩ | ⟨_, _, _, _, _, _, _, hheight, _, hsame, _⟩
  · rw [hsame.height]
    exact UInt64.le_refl _
  · rw [hsame.height, UInt64.le_iff_toNat_le]
    have hadd := checkedAdd_eq_ok hheight
    exact hadd ▸ Nat.le_add_right _ _

theorem Engine.Enter.height_le {ev : Event C} {out : List (Output C)} (hent : Enter ev e out e') :
    e.height ≤ e'.height := by
  rcases hent.height_cases with ⟨hsame, _⟩ | ⟨_, _, _, _, _, _, hheight, _, rfl, _⟩
  · rw [hsame.height]
    exact UInt64.le_refl _
  · rw [UInt64.le_iff_toNat_le]
    have hadd := checkedAdd_eq_ok hheight
    exact hadd ▸ Nat.le_add_right _ _

/-- The sets in force up to an engine's height stay the same along its
trace. -/
theorem Trace.activeSet_eq {guard : Engine C → Event C → Prop} {e₀ : Engine C}
    {evs : List (Event C)} {log : List (Output C)} (htrace : Trace guard e₀ evs log e) :
    e₀.height ≤ e.height ∧
      ∀ h ≤ e₀.height, e.registry.activeSet h = e₀.registry.activeSet h := by
  induction htrace with
  | init => exact ⟨UInt64.le_refl _, fun _ _ => rfl⟩
  | enter _ _ hent ih =>
      refine ⟨UInt64.le_trans ih.1 hent.height_le, ?_⟩
      intro h hle
      rw [hent.activeSet_eq (UInt64.le_trans hle ih.1)]
      exact ih.2 h hle
  | internal _ hi ih =>
      refine ⟨UInt64.le_trans ih.1 hi.height_le, ?_⟩
      intro h hle
      rw [hi.activeSet_eq (UInt64.le_trans hle ih.1)]
      exact ih.2 h hle

/-! ## Chain integrity -/

variable {registry : ValidatorRegistry C} {meSk : C.SigningKey} {mePk : C.VerifyingKey}
  {tip₀ : Hash} {h₀ : UInt64} {e₀ : Engine C} {evs : List (Event C)} {log : List (Output C)}

/-- The blocks of a run, in order: each has the next height, points at the
block before it (the first at the initial tip), and is well formed under the
set in force at its height. The engine stands right after them. -/
theorem chain_integrity (hnew : withRegistry registry meSk mePk tip₀ h₀ = .ok e₀)
    (hrun : Run anyEvent e₀ evs log e) :
    (∀ i b, (finalized log)[i]? = some b →
      b.header.height.toNat = h₀.toNat + i ∧
      b.header.prevHash =
        (((finalized log).take i).getLast?.map fun p => p.header.id C).getD tip₀ ∧
      (b.attestations ≠ [] ∨ b.governance ≠ []) ∧
      b.header.txCount.toNat = b.attestations.length ∧
      b.header.merkleRoot =
        (MerkleTree.build C (b.attestations.map (·.leafHash))).root C ∧
      b.header.govRoot = governanceRoot b.governance ∧
      (∀ a ∈ b.attestations, a.verify = true) ∧
      ∃ set, e.registry.activeSet b.header.height = .ok set ∧
        ∀ g ∈ b.governance, g.isAuthorized set = true ∧
          b.header.height < g.change.activationHeight) ∧
    e.height.toNat = h₀.toNat + (finalized log).length ∧
    e.tip = ((finalized log).getLast?.map fun b => b.header.id C).getD tip₀ ∧
    e.registry.activeSet e.height = .ok e.currentSet := by
  have hon := (OnChain.withRegistry hnew).run hrun
  rw [List.nil_append] at hon
  have hstate := hon.state
  refine ⟨?_, ?_, ?_, hon.set⟩
  · intro i b hb
    rcases Chain.block_at hon.chain hb with ⟨hheight, set, _, hset, hwf⟩
    rw [hstate] at hset
    -- the tip along the way is the block before it
    have hprev : b.header.prevHash = _ := hwf.prevHash_eq
    rw [ChainState.pushAll_tip] at hprev
    exact ⟨hheight, hprev, hwf.nonempty, hwf.txCount_eq, hwf.merkleRoot_eq.symm,
      hwf.govRoot_eq.symm, hwf.attestations_verify, set, hset,
      fun g hg => ⟨hwf.authorized g hg, hwf.activates_later g hg⟩⟩
  · have hlen := ChainState.pushAll_height (C := C) ⟨registry, tip₀, h₀.toNat⟩ (finalized log)
    rw [hstate] at hlen
    exact hlen
  · have htip := ChainState.pushAll_tip (C := C) ⟨registry, tip₀, h₀.toNat⟩ (finalized log)
    rw [hstate] at htip
    exact htip

/-- A lone validator seals one attestation: height 2, on top of its block. -/
theorem chain_integrity_lone :
    ∃ (e₀ e : Engine sample) (log : List (Output sample)),
      sampleEngine [1] 1 = .ok e₀ ∧
      Run anyEvent e₀ [.start, .attestation (sampleAttestation 1 7)] log e ∧
      (finalized log).length = 1 ∧
      e.height.toNat = (1 : UInt64).toNat + (finalized log).length ∧
      e.tip = ((finalized log).getLast?.map fun b => b.header.id sample).getD Hash.zero := by
  have hholds : (sampleRun [1] 1 [.start, .attestation (sampleAttestation 1 7)]).holds
      (fun r => (finalized r.2).length = 1) = true := by decide +kernel
  rcases Run.of_sampleRun (fun _ _ _ => trivial) hholds with ⟨e₀, e, log, hnew, hrun, hone⟩
  have hchain := chain_integrity hnew hrun
  exact ⟨e₀, e, log, hnew, hrun, of_decide_eq_true hone, hchain.2.1, hchain.2.2.1⟩

/-! ## Past sets -/

/-- From a registry without changes, every recorded change came with a block
of the run, authorized by the set in force at the block's height and ahead of
its activation; and the set at a height the engine reached is the same at
every later point: as it was in the block-by-block registry when the engine
got there, and along every continuation. -/
theorem past_sets_immutable {genesis : List C.VerifyingKey}
    (hnew : withRegistry (ValidatorRegistry.new genesis) meSk mePk tip₀ h₀ = .ok e₀)
    (hrun : Run anyEvent e₀ evs log e) :
    (∀ c ∈ e.registry.changes, ∃ b ∈ finalized log, ∃ g ∈ b.governance, ∃ set,
      g.change = c ∧ e.registry.activeSet b.header.height = .ok set ∧
      g.isAuthorized set = true ∧ b.header.height < c.activationHeight) ∧
    (∀ i ≤ (finalized log).length, ∀ h : UInt64, h.toNat ≤ h₀.toNat + i →
      e.registry.activeSet h =
        ((ValidatorRegistry.new genesis).recordAll
          (((finalized log).take i).flatMap (·.governance))).activeSet h) ∧
    ∀ evs' log' e', Run anyEvent e evs' log' e' → ∀ h ≤ e.height,
      e'.registry.activeSet h = e.registry.activeSet h := by
  have hon := (OnChain.withRegistry hnew).run hrun
  rw [List.nil_append] at hon
  have hstate := hon.state
  refine ⟨?_, ?_, ?_⟩
  · intro c hc
    have hc' : c ∈ (ChainState.pushAll (C := C) ⟨ValidatorRegistry.new genesis, tip₀, h₀.toNat⟩
        (finalized log)).registry.changes := by
      rw [hstate]
      exact hc
    rcases Chain.change_origin hon.chain hc' with hold | hnew
    · cases hold
    · rwa [hstate] at hnew
  · intro i hi h hle
    have hlen : ((finalized log).take i).length = i := List.length_take_of_le hi
    have htake := Chain.activeSet_take hon.chain i (h := h) (by
      rw [ChainState.pushAll_height, hlen]
      exact hle)
    rw [hstate] at htake
    -- the registry after the first blocks, written out
    have hreg : (ChainState.pushAll (C := C) ⟨ValidatorRegistry.new genesis, tip₀, h₀.toNat⟩
        ((finalized log).take i)).registry = (ValidatorRegistry.new genesis).recordAll
          (((finalized log).take i).flatMap (·.governance)) := by
      apply ValidatorRegistry.ext
      · rw [ChainState.pushAll_genesis, ValidatorRegistry.recordAll_genesis]
      · rw [ChainState.pushAll_changes, ValidatorRegistry.recordAll_changes]
    rw [← hreg]
    exact htake
  · intro evs' log' e' hrun' h hle
    -- the continuation is a chain of its own, from where the run ended
    have hsnd : OnChain e.chainState [] e := ⟨trivial, rfl, hon.set, hon.roster⟩
    have hon' := hsnd.run hrun'
    rw [List.nil_append] at hon'
    have hstable := Chain.activeSet_stable hon'.chain (UInt64.le_iff_toNat_le.mp hle)
    rw [hon'.state] at hstable
    exact hstable

/-- A lone validator seals a change that adds a second one at height 5; the
set at height 2 stays what it is. -/
theorem past_sets_immutable_lone :
    ∃ (e₀ e : Engine sample) (log : List (Output sample)),
      sampleEngine [1] 1 = .ok e₀ ∧
      Run anyEvent e₀ [.start, .governance (sampleChange [2] [] 5 [1])] log e ∧
      e.height = 2 ∧ e.registry.changes = [(sampleChange [2] [] 5 [1]).change] ∧
      (∀ c ∈ e.registry.changes, ∃ b ∈ finalized log, b.header.height < c.activationHeight) ∧
      ∀ evs' log' e', Run anyEvent e evs' log' e' →
        e'.registry.activeSet 2 = e.registry.activeSet 2 := by
  have hholds : (sampleRun [1] 1 [.start, .governance (sampleChange [2] [] 5 [1])]).holds
      (fun r => r.1.height = 2 ∧
        r.1.registry.changes = [(sampleChange [2] [] 5 [1]).change]) = true := by decide +kernel
  rcases Run.of_sampleRun (fun _ _ _ => trivial) hholds with ⟨e₀, e, log, hnew, hrun, hp⟩
  have hres := of_decide_eq_true hp
  have hpast := past_sets_immutable hnew hrun
  refine ⟨e₀, e, log, hnew, hrun, hres.1, hres.2, ?_, ?_⟩
  · intro c hc
    rcases hpast.1 c hc with ⟨b, hb, g, _, set, _, _, _, hlater⟩
    exact ⟨b, hb, hlater⟩
  · intro evs' log' e' hrun'
    exact hpast.2.2 evs' log' e' hrun' 2 (UInt64.le_of_eq hres.1.symm)

end SmartLedger
