import SmartLedger.Lib.StableSort
import SmartLedger.Consensus.Runs

/-! # Who is left in the roster

`activeKeys` recomputes the roster of a height by filtering, sorting and
folding the recorded changes. `mem_activeKeys_iff` says what comes out in
terms of the changes alone: a key is in the roster when it came in last
(`LeftIn`). Nothing in the validation of blocks keeps a roster from running
empty; `roster_nonempty_iff` is the exact condition under which none does.
-/

namespace SmartLedger

variable {C : Crypto}

/-- `k` is in at height `h`: a genesis key that no change in force removes,
or a key that some change in force adds and none that applies after it
removes. Changes apply in order of activation, then of recording. -/
def LeftIn (genesis : List C.VerifyingKey) (changes : List (ValidatorChange C)) (h : UInt64)
    (k : C.VerifyingKey) : Prop :=
  (k ∈ genesis ∧ ∀ c ∈ changes, c.activationHeight ≤ h → k ∉ c.removes) ∨
  ∃ before c after, changes = before ++ c :: after ∧ c.activationHeight ≤ h ∧ k ∈ c.adds ∧
    (∀ d ∈ before, d.activationHeight ≤ h → c.activationHeight < d.activationHeight →
      k ∉ d.removes) ∧
    ∀ d ∈ after, d.activationHeight ≤ h → c.activationHeight ≤ d.activationHeight →
      k ∉ d.removes

namespace ValidatorRegistry

theorem mem_removeAll {keys removes : List C.VerifyingKey} {k : C.VerifyingKey} :
    k ∈ removes.foldl (fun keys r => keys.filter fun k => k ≠ r) keys ↔
      k ∈ keys ∧ k ∉ removes := by
  induction removes generalizing keys with
  | nil => simp
  | cons r removes ih =>
      rw [List.foldl_cons, ih, List.mem_filter, List.mem_cons, not_or, decide_eq_true_eq]
      tauto

theorem mem_addAll {keys adds : List C.VerifyingKey} {k : C.VerifyingKey} :
    k ∈ adds.foldl (fun keys a => if a ∈ keys then keys else keys ++ [a]) keys ↔
      k ∈ keys ∨ k ∈ adds := by
  induction adds generalizing keys with
  | nil => simp
  | cons a adds ih =>
      rw [List.foldl_cons, ih, List.mem_cons]
      by_cases ha : a ∈ keys
      · rw [if_pos ha]
        constructor
        · tauto
        · rintro (hk | rfl | hk)
          · exact Or.inl hk
          · exact Or.inl ha
          · exact Or.inr hk
      · rw [if_neg ha, List.mem_append, List.mem_singleton]
        tauto

theorem mem_applyChange {keys : List C.VerifyingKey} {c : ValidatorChange C}
    {k : C.VerifyingKey} : k ∈ applyChange keys c ↔ (k ∈ keys ∧ k ∉ c.removes) ∨ k ∈ c.adds := by
  unfold applyChange
  rw [mem_addAll, mem_removeAll]

/-- The fold over the changes in force keeps the keys that came in last. -/
theorem mem_foldl_applyChange {l : List (ValidatorChange C)} {keys : List C.VerifyingKey}
    {k : C.VerifyingKey} :
    k ∈ l.foldl applyChange keys ↔
      (k ∈ keys ∧ ∀ c ∈ l, k ∉ c.removes) ∨
      ∃ c, k ∈ c.adds ∧ ∃ pre post, l = pre ++ c :: post ∧ ∀ d ∈ post, k ∉ d.removes := by
  induction l generalizing keys with
  | nil => simp
  | cons a l ih =>
      rw [List.foldl_cons, ih, mem_applyChange]
      constructor
      -- from `a` on, or added by a later change
      · rintro (⟨hin | hadd, hrest⟩ | ⟨c, hadd, pre, post, rfl, hpost⟩)
        · refine Or.inl ⟨hin.1, ?_⟩
          intro c hc
          rcases List.mem_cons.mp hc with rfl | hc
          · exact hin.2
          · exact hrest c hc
        · exact Or.inr ⟨a, hadd, [], l, rfl, hrest⟩
        · exact Or.inr ⟨c, hadd, a :: pre, post, rfl, hpost⟩
      · rintro (⟨hin, hall⟩ | ⟨c, hadd, pre, post, hsplit, hpost⟩)
        · have ha : k ∉ a.removes := hall a List.mem_cons_self
          exact Or.inl ⟨Or.inl ⟨hin, ha⟩, fun c hc => hall c (List.mem_cons_of_mem _ hc)⟩
        -- the change that added the key is `a`, or comes after it
        · cases pre with
          | nil =>
              rw [List.nil_append, List.cons.injEq] at hsplit
              rcases hsplit with ⟨rfl, rfl⟩
              exact Or.inl ⟨Or.inr hadd, hpost⟩
          | cons a' pre =>
              rw [List.cons_append, List.cons.injEq] at hsplit
              exact Or.inr ⟨c, hadd, pre, post, hsplit.2, hpost⟩

/-- A split of the changes in force is a split of all changes at one in
force. -/
theorem filter_split_iff {changes : List (ValidatorChange C)} {p : ValidatorChange C → Bool}
    {c : ValidatorChange C} {P Q : ValidatorChange C → Prop} :
    (∃ before after, changes.filter p = before ++ c :: after ∧
      (∀ d ∈ before, P d) ∧ ∀ d ∈ after, Q d) ↔
    ∃ before after, changes = before ++ c :: after ∧ p c = true ∧
      (∀ d ∈ before, p d = true → P d) ∧ ∀ d ∈ after, p d = true → Q d := by
  constructor
  · rintro ⟨before, after, hsplit, hP, hQ⟩
    rcases List.filter_eq_append_iff.mp hsplit with ⟨l₁, l₂, rfl, hl₁, hl₂⟩
    rcases List.filter_eq_cons_iff.mp hl₂ with ⟨l₃, l₄, rfl, hskip, hc, hl₄⟩
    -- `l₃` holds what the filter drops right before `c`
    refine ⟨l₁ ++ l₃, l₄, by rw [List.append_assoc], hc, ?_, ?_⟩
    · intro d hd hp
      rcases List.mem_append.mp hd with hd | hd
      · exact hP d (hl₁ ▸ List.mem_filter.mpr ⟨hd, hp⟩)
      · exact absurd hp (hskip d hd)
    · intro d hd hp
      exact hQ d (hl₄ ▸ List.mem_filter.mpr ⟨hd, hp⟩)
  · rintro ⟨before, after, rfl, hc, hP, hQ⟩
    refine ⟨before.filter p, after.filter p, by rw [List.filter_append, List.filter_cons, if_pos hc],
      ?_, ?_⟩
    · intro d hd
      exact hP d (List.mem_filter.mp hd).1 (List.mem_filter.mp hd).2
    · intro d hd
      exact hQ d (List.mem_filter.mp hd).1 (List.mem_filter.mp hd).2

/-- The roster of a height, in terms of genesis and the recorded changes. -/
theorem mem_activeKeys_iff {reg : ValidatorRegistry C} {h : UInt64} {k : C.VerifyingKey} :
    k ∈ reg.activeKeys h ↔ LeftIn reg.genesis reg.changes h k := by
  unfold activeKeys LeftIn
  rw [mem_foldl_applyChange]
  apply or_congr
  · apply and_congr_right
    intro _
    simp only [activeChanges, List.mem_insertionSort, List.mem_filter, decide_eq_true_eq, and_imp]
  · unfold activeChanges
    constructor
    · rintro ⟨c, hadd, hsplit⟩
      -- undo the sort, then the filter
      rw [StableSort.insertionSort_split_iff, filter_split_iff] at hsplit
      rcases hsplit with ⟨before, after, heq, hc, hbefore, hafter⟩
      refine ⟨before, c, after, heq, of_decide_eq_true hc, hadd, ?_, ?_⟩
      · intro d hd hact hlt
        exact hbefore d hd (decide_eq_true hact) (UInt64.lt_iff_toNat_lt.mp hlt)
      · intro d hd hact hle
        exact hafter d hd (decide_eq_true hact) (UInt64.le_iff_toNat_le.mp hle)
    · rintro ⟨before, c, after, heq, hc, hadd, hbefore, hafter⟩
      refine ⟨c, hadd, ?_⟩
      rw [StableSort.insertionSort_split_iff, filter_split_iff]
      refine ⟨before, after, heq, decide_eq_true hc, ?_, ?_⟩
      · intro d hd hact hlt
        exact hbefore d hd (of_decide_eq_true hact) (UInt64.lt_iff_toNat_lt.mpr hlt)
      · intro d hd hact hle
        exact hafter d hd (of_decide_eq_true hact) (UInt64.le_iff_toNat_le.mpr hle)

theorem activeKeys_ne_nil_iff {reg : ValidatorRegistry C} {h : UInt64} :
    reg.activeKeys h ≠ [] ↔ ∃ k, LeftIn reg.genesis reg.changes h k := by
  simp only [← mem_activeKeys_iff]
  constructor
  · exact List.exists_mem_of_ne_nil _
  · rintro ⟨k, hk⟩
    exact List.ne_nil_of_mem hk

/-- The roster only changes at activation heights: at any height it is what
it was at the last activation before it, or genesis. -/
theorem activeKeys_eq_genesis_or (reg : ValidatorRegistry C) (h : UInt64) :
    reg.activeKeys h = reg.genesis ∨
    ∃ c ∈ reg.changes, reg.activeKeys h = reg.activeKeys c.activationHeight := by
  by_cases hnone : (reg.changes.filter fun c => c.activationHeight ≤ h) = []
  · left
    unfold activeKeys activeChanges
    rw [hnone]
    rfl
  · right
    have hne : (reg.changes.filter fun c => c.activationHeight ≤ h).toFinset.Nonempty :=
      List.toFinset_nonempty_iff _ |>.mpr hnone
    -- the last activation up to `h`
    rcases Finset.exists_max_image _ (fun c => c.activationHeight.toNat) hne with ⟨c, hc, hmax⟩
    rw [List.mem_toFinset, List.mem_filter, decide_eq_true_eq] at hc
    refine ⟨c, hc.1, ?_⟩
    have hsame : (reg.changes.filter fun d => d.activationHeight ≤ h) =
        reg.changes.filter fun d => d.activationHeight ≤ c.activationHeight := by
      apply List.filter_congr
      intro d hd
      rw [decide_eq_decide]
      constructor
      · intro hle
        apply UInt64.le_iff_toNat_le.mpr
        apply hmax d
        rw [List.mem_toFinset, List.mem_filter]
        exact ⟨hd, decide_eq_true hle⟩
      · intro hle
        exact UInt64.le_trans hle hc.2
    unfold activeKeys activeChanges
    rw [hsame]

end ValidatorRegistry

open ValidatorRegistry Engine

/-- Along a chain from genesis, the roster is non-empty at every height, so
that neither `activeSet` nor `reloadSet` panics, exactly when genesis is
non-empty and at the activation height of every recorded change some key is
left in. -/
theorem roster_nonempty_iff {genesis : List C.VerifyingKey} {tip : Hash} {h₀ : Nat}
    {bs : List (Block C)} (hchain : Chain ⟨ValidatorRegistry.new genesis, tip, h₀⟩ bs) :
    (∀ h, ((ChainState.pushAll ⟨ValidatorRegistry.new genesis, tip, h₀⟩ bs).registry.activeKeys h
        ≠ []) ∧
      (∃ set, (ChainState.pushAll ⟨ValidatorRegistry.new genesis, tip, h₀⟩ bs).registry.activeSet h
        = .ok set) ∧
      ∀ e : Engine C, e.height = h →
        e.registry = (ChainState.pushAll ⟨ValidatorRegistry.new genesis, tip, h₀⟩ bs).registry →
        ∃ e', e.reloadSet = .ok e') ↔
    genesis ≠ [] ∧ ∀ c ∈ (bs.flatMap (·.governance)).map (·.change),
      ∃ k, LeftIn genesis ((bs.flatMap (·.governance)).map (·.change)) c.activationHeight k := by
  have hgen : (ChainState.pushAll ⟨ValidatorRegistry.new genesis, tip, h₀⟩ bs).registry.genesis =
      genesis := ChainState.pushAll_genesis _ bs
  have hchanges := ChainState.pushAll_changes (C := C) ⟨ValidatorRegistry.new genesis, tip, h₀⟩ bs
  rw [show (ValidatorRegistry.new genesis).changes = [] from rfl, List.nil_append] at hchanges
  -- a block activates its changes after its own height, so none is in force at 0
  have hlater : ∀ c ∈ (ChainState.pushAll ⟨ValidatorRegistry.new genesis, tip, h₀⟩
      bs).registry.changes, ¬ c.activationHeight ≤ 0 := by
    intro c hc hle
    rcases Chain.change_origin hchain hc with hold | ⟨b, _, _, _, _, _, _, _, hlt⟩
    · cases hold
    · rw [UInt64.lt_iff_toNat_lt] at hlt
      rw [UInt64.le_iff_toNat_le] at hle
      simp at hle
      omega
  generalize (ChainState.pushAll ⟨ValidatorRegistry.new genesis, tip, h₀⟩ bs).registry = reg at *
  rw [← hchanges, ← hgen]
  constructor
  · intro hall
    constructor
    · intro hnil
      -- at height 0 only genesis keys can be in
      rcases activeKeys_ne_nil_iff.mp (hall 0).1 with ⟨k, ⟨hin, _⟩ | ⟨before, c, after, heq, hact, _⟩⟩
      · rw [hnil] at hin
        cases hin
      · have hc : c ∈ reg.changes := by
          rw [heq]
          exact List.mem_append_right _ List.mem_cons_self
        exact hlater c hc hact
    · intro c _
      exact activeKeys_ne_nil_iff.mp (hall c.activationHeight).1
  · rintro ⟨hne, hsome⟩ h
    have hkeys : reg.activeKeys h ≠ [] := by
      rcases activeKeys_eq_genesis_or reg h with heq | ⟨c, hc, heq⟩
      · rw [heq]
        exact hne
      · rw [heq]
        exact activeKeys_ne_nil_iff.mpr (hsome c hc)
    have hset : ∃ set, reg.activeSet h = .ok set := (ValidatorSet.bft_isOk_iff _).mpr hkeys
    refine ⟨hkeys, hset, ?_⟩
    rintro e rfl rfl
    rcases hset with ⟨set, hset⟩
    exact ⟨_, by rw [reloadSet, hset]; rfl⟩

/-- The start of the sample chain. -/
def sampleChain (genesis : List UInt8) : ChainState sample :=
  { registry := ValidatorRegistry.new genesis, tip := Hash.zero, height := 1 }

/-- A block of the sample chain at height 1 that carries one change. -/
def changeBlock (change : SignedValidatorChange sample) : Block sample where
  header := {
    height := 1
    prevHash := Hash.zero
    merkleRoot := emptyRoot sample
    txCount := 0
    timestamp := 0
    govRoot := governanceRoot [change] }
  attestations := []
  governance := [change]
  qc := { blockId := Hash.zero, signatures := [] }

/-- A replacement of the lone validator at height 2 leaves one in. -/
theorem roster_nonempty_replaced :
    Chain (sampleChain [1]) [changeBlock (sampleChange [2] [1] 2 [1])] ∧
    ∀ h, ((sampleChain [1]).pushAll
      [changeBlock (sampleChange [2] [1] 2 [1])]).registry.activeKeys h ≠ [] := by
  have hchain : Chain (sampleChain [1]) [changeBlock (sampleChange [2] [1] 2 [1])] := by
    decide +kernel
  refine ⟨hchain, fun h => ((roster_nonempty_iff hchain).mpr ⟨List.cons_ne_nil _ _, ?_⟩ h).1⟩
  intro c hc
  obtain rfl : c = (sampleChange [2] [1] 2 [1]).change := List.mem_singleton.mp hc
  have hadds : (2 : UInt8) ∈ (sampleChange [2] [1] 2 [1]).change.adds := List.mem_singleton_self _
  exact ⟨(2 : UInt8), Or.inr ⟨[], _, [], rfl, by decide, hadds, by simp, by simp⟩⟩

/-- The lone validator approves its own removal at height 2: the block passes
validation, no key is left, and the engine that commits it panics on the
threshold assertion, as does every rebuild of the set. -/
theorem roster_runs_empty :
    (¬ ∀ (genesis : List UInt8) (bs : List (Block sample)), genesis ≠ [] →
      Chain (sampleChain genesis) bs →
      ∀ h, ((sampleChain genesis).pushAll bs).registry.activeKeys h ≠ []) ∧
    ((sampleChain [1]).pushAll
      [changeBlock (sampleChange [] [1] 2 [1])]).registry.activeSet 2 = .error .zeroThreshold ∧
    (match sampleRun [1] 1 [.start, .governance (sampleChange [] [1] 2 [1])] with
      | .ok _ => none
      | .error p => some p) = some Panic.zeroThreshold := by
  refine ⟨?_, by rfl, by decide +kernel⟩
  intro hall
  exact hall [1] [changeBlock (sampleChange [] [1] 2 [1])] (by decide) (by decide +kernel) 2
    (by decide +kernel)

end SmartLedger
