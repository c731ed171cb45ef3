import SmartLedger.Ledger.Binding
import SmartLedger.Consensus.Roster

/-! # Recording a change twice

`record` only appends, so a change that is recorded again applies again,
behind everything of its own activation height. Seen from one key, the roster
is a number (how often the key is listed) that each change in force updates in
turn (`ValidatorChange.tally`). `record_again_iff` reads off when the second
copy leaves every such number alone.
-/

namespace SmartLedger

variable {C : Crypto} {c d : ValidatorChange C} {k : C.VerifyingKey}

namespace ValidatorChange

/-- The change adds or removes `k`. -/
def Mentions (c : ValidatorChange C) (k : C.VerifyingKey) : Prop := k ∈ c.adds ∨ k ∈ c.removes

instance (c : ValidatorChange C) (k : C.VerifyingKey) : Decidable (c.Mentions k) :=
  inferInstanceAs (Decidable (_ ∨ _))

local instance lawfulKeys : LawfulBEq C.VerifyingKey := inferInstance

/-- How often `k` is listed after the change, when it was listed `n` times. -/
def tally (c : ValidatorChange C) (k : C.VerifyingKey) (n : Nat) : Nat :=
  if k ∈ c.removes then if k ∈ c.adds then 1 else 0
  else if k ∈ c.adds then max n 1 else n

theorem tally_of_not_mentions (h : ¬ c.Mentions k) (n : Nat) : c.tally k n = n := by
  unfold Mentions at h
  rw [not_or] at h
  simp [tally, h.1, h.2]

theorem tally_le_one {n : Nat} (h : n ≤ 1) : c.tally k n ≤ 1 := by
  unfold tally
  split
  · split <;> omega
  · split <;> omega

/-- Whether a mentioned key is in depends on the change alone. -/
theorem tally_pos_iff (h : c.Mentions k) (n : Nat) : 0 < c.tally k n ↔ k ∈ c.adds := by
  unfold tally
  by_cases hadd : k ∈ c.adds
  · by_cases hrem : k ∈ c.removes <;> simp [hadd, hrem]
  · have hrem : k ∈ c.removes := h.resolve_left hadd
    simp [hadd, hrem]

/-- So does the number itself, once it is at most one. -/
theorem tally_eq_of_mentions (h : c.Mentions k) {n m : Nat} (hn : n ≤ 1) (hm : m ≤ 1) :
    c.tally k n = c.tally k m := by
  have hn' := tally_le_one (c := c) (k := k) hn
  have hm' := tally_le_one (c := c) (k := k) hm
  have hpos : 0 < c.tally k n ↔ 0 < c.tally k m := by rw [tally_pos_iff h, tally_pos_iff h]
  omega

/-- A change that does not fix the number leaves it at most one. -/
theorem tally_eq_or_le_one {n : Nat} (h : k ∈ c.removes → n ≤ 1) :
    c.tally k n = n ∨ (n ≤ 1 ∧ c.tally k n ≤ 1) := by
  by_cases hn : n ≤ 1
  · exact Or.inr ⟨hn, tally_le_one hn⟩
  · left
    have hrem : k ∉ c.removes := fun hk => hn (h hk)
    unfold tally
    rw [if_neg hrem]
    split <;> omega

/-- The number after a list of changes. -/
def tallyAll (k : C.VerifyingKey) (l : List (ValidatorChange C)) (n : Nat) : Nat :=
  l.foldl (fun n c => c.tally k n) n

theorem tallyAll_append (l l' : List (ValidatorChange C)) (n : Nat) :
    tallyAll k (l ++ l') n = tallyAll k l' (tallyAll k l n) := List.foldl_append

theorem tallyAll_cons (c : ValidatorChange C) (l : List (ValidatorChange C)) (n : Nat) :
    tallyAll k (c :: l) n = tallyAll k l (c.tally k n) := rfl

theorem tallyAll_le_one (l : List (ValidatorChange C)) {n : Nat} (h : n ≤ 1) :
    tallyAll k l n ≤ 1 := by
  induction l generalizing n with
  | nil => exact h
  | cons c l ih => exact ih (tally_le_one h)

theorem tallyAll_of_not_mentions {l : List (ValidatorChange C)} (h : ∀ c ∈ l, ¬ c.Mentions k)
    (n : Nat) : tallyAll k l n = n := by
  induction l generalizing n with
  | nil => rfl
  | cons c l ih =>
      rw [tallyAll_cons, tally_of_not_mentions (h c List.mem_cons_self)]
      exact ih (fun d hd => h d (List.mem_cons_of_mem _ hd)) n

/-- A later mention wipes out any difference. -/
theorem tallyAll_eq_of_mem {l : List (ValidatorChange C)} (hd : d ∈ l) (hmention : d.Mentions k)
    {n m : Nat} (hn : n ≤ 1) (hm : m ≤ 1) : tallyAll k l n = tallyAll k l m := by
  rcases List.append_of_mem hd with ⟨pre, post, rfl⟩
  rw [tallyAll_append, tallyAll_append, tallyAll_cons, tallyAll_cons,
    tally_eq_of_mentions hmention (tallyAll_le_one pre hn) (tallyAll_le_one pre hm)]

end ValidatorChange

open ValidatorChange

namespace ValidatorRegistry

variable {reg : ValidatorRegistry C} {h : UInt64}

theorem count_applyChange (keys : List C.VerifyingKey) (c : ValidatorChange C)
    (k : C.VerifyingKey) : (applyChange keys c).count k = c.tally k (keys.count k) := by
  unfold applyChange tally
  rw [removeAll_eq_filter, count_addAll]
  by_cases hrem : k ∈ c.removes
  · simp [hrem]
  · have hcount : (keys.filter fun k => decide (k ∉ c.removes)).count k = keys.count k :=
      List.count_filter (by simpa using hrem)
    rw [if_neg hrem, hcount]
    by_cases hk : k ∈ keys
    · have hpos : 0 < keys.count k := List.count_pos_iff.mpr hk
      rw [if_pos (List.mem_filter.mpr ⟨hk, by simpa using hrem⟩)]
      split <;> omega
    · rw [if_neg fun hmem => hk (List.mem_filter.mp hmem).1, List.count_eq_zero_of_not_mem hk]
      rfl

theorem count_activeKeys (reg : ValidatorRegistry C) (h : UInt64) (k : C.VerifyingKey) :
    (reg.activeKeys h).count k = tallyAll k (reg.activeChanges h) (reg.genesis.count k) := by
  unfold activeKeys
  generalize reg.genesis = keys
  generalize reg.activeChanges h = l
  induction l generalizing keys with
  | nil => rfl
  | cons c l ih => rw [List.foldl_cons, ih, count_applyChange, tallyAll_cons]

/-- The last recorded change with activation height `h` that mentions `k`. -/
def lastWord (reg : ValidatorRegistry C) (h : UInt64) (k : C.VerifyingKey) :
    Option (ValidatorChange C) :=
  reg.changes.reverse.find? fun d => decide (d.activationHeight = h ∧ d.Mentions k)

/-- The roster of `h` has nothing to gain from a second copy of `c`: for every
key that `c` mentions, the last change of its activation height to mention the
key agrees with `c` on it, or a change that activates later has its say. -/
def Settled (reg : ValidatorRegistry C) (c : ValidatorChange C) (h : UInt64) : Prop :=
  c.activationHeight ≤ h → ∀ k ∈ c.adds ++ c.removes,
    (∃ d ∈ reg.changes, c.activationHeight < d.activationHeight ∧ d.activationHeight ≤ h ∧
      d.Mentions k) ∨
    ∀ d ∈ reg.lastWord c.activationHeight k, (k ∈ d.adds ↔ k ∈ c.adds)

theorem lastWord_eq_some {height : UInt64} (hd : reg.lastWord height k = some d) :
    d.activationHeight = height ∧ d.Mentions k ∧ ∃ before after, reg.changes = before ++ d :: after ∧
      ∀ x ∈ after, x.activationHeight = height → ¬ x.Mentions k := by
  rcases List.find?_eq_some_iff_append.mp hd with ⟨hprop, after, before, hsplit, hafter⟩
  rw [decide_eq_true_eq] at hprop
  refine ⟨hprop.1, hprop.2, before.reverse, after.reverse, ?_, ?_⟩
  · rw [← List.reverse_reverse reg.changes, hsplit]
    simp
  · intro x hx hheight hmention
    have hnot := hafter x (List.mem_reverse.mp hx)
    simp [hheight, hmention] at hnot

theorem lastWord_isSome (hc : c ∈ reg.changes) (hk : c.Mentions k) :
    ∃ d, reg.lastWord c.activationHeight k = some d := by
  apply Option.isSome_iff_exists.mp
  unfold lastWord
  rw [List.find?_isSome]
  exact ⟨c, List.mem_reverse.mpr hc, by simpa using hk⟩

/-- The second copy comes right behind the changes that activate no later
than it. -/
theorem activeChanges_record (reg : ValidatorRegistry C) (hle : c.activationHeight ≤ h) :
    ∃ low high, reg.activeChanges h = low ++ high ∧
      (reg.record c).activeChanges h = low ++ c :: high ∧
      (∀ d ∈ low, d.activationHeight ≤ c.activationHeight) ∧
      ∀ d ∈ high, c.activationHeight < d.activationHeight := by
  have hfilter : (reg.record c).changes.filter (fun d => decide (d.activationHeight ≤ h)) =
      reg.changes.filter (fun d => decide (d.activationHeight ≤ h)) ++ [c] := by
    unfold record
    rw [List.filter_append, List.filter_cons_of_pos (by simpa using hle), List.filter_nil]
  rcases @StableSort.insertionSort_concat _ (fun d : ValidatorChange C => d.activationHeight.toNat)
    (reg.changes.filter fun d => d.activationHeight ≤ h) c with
    ⟨low, high, hsort, hsort', hlow, hhigh⟩
  refine ⟨low, high, hsort, ?_, ?_, ?_⟩
  · unfold activeChanges
    rw [hfilter]
    exact hsort'
  · intro d hd
    exact UInt64.le_iff_toNat_le.mpr (hlow d hd)
  · intro d hd
    exact UInt64.lt_iff_toNat_lt.mpr (hhigh d hd)

theorem mem_activeChanges {d : ValidatorChange C} :
    d ∈ reg.activeChanges h ↔ d ∈ reg.changes ∧ d.activationHeight ≤ h := by
  unfold activeChanges
  rw [List.mem_insertionSort, List.mem_filter, decide_eq_true_eq]

section SecondCopy

variable {low high : List (ValidatorChange C)} (hle : c.activationHeight ≤ h)
  (hsplit : reg.activeChanges h = low ++ high)
  (hhigh : ∀ d ∈ high, c.activationHeight < d.activationHeight)
include hle hsplit hhigh

/-- The first copy is among the changes that the second one follows. -/
theorem mem_low (hc : c ∈ reg.changes) : c ∈ low := by
  have hmem : c ∈ low ++ high := hsplit ▸ mem_activeChanges.mpr ⟨hc, hle⟩
  rcases List.mem_append.mp hmem with hin | hin
  · exact hin
  · exact absurd (hhigh c hin) (UInt64.lt_irrefl _)

/-- The last word on `k` at the activation height of `c` is the last one in
the order of application up to the second copy. -/
theorem low_split (hlow : ∀ d ∈ low, d.activationHeight ≤ c.activationHeight)
    (hd : reg.lastWord c.activationHeight k = some d) :
    ∃ pre post, low = pre ++ d :: post ∧ ∀ x ∈ post, ¬ x.Mentions k := by
  rcases lastWord_eq_some hd with ⟨hheight, _, before, after, hchanges, hafter⟩
  -- sorting keeps what stands behind `d` at its own height
  have hsorted : ∃ pre post, reg.activeChanges h = pre ++ d :: post ∧
      ∀ x ∈ post, x.activationHeight ≤ c.activationHeight → ¬ x.Mentions k := by
    unfold activeChanges
    rw [StableSort.insertionSort_split_iff, filter_split_iff]
    refine ⟨before, after, hchanges, by simpa [hheight] using hle, ?_, ?_⟩
    · intro x _ _ hlt hxle
      rw [← hheight] at hxle
      exact absurd (UInt64.le_iff_toNat_le.mp hxle) (not_le.mpr hlt)
    · intro x hx _ hge hxle
      rw [hheight] at hge
      exact hafter x hx (UInt64.le_antisymm hxle (UInt64.le_iff_toNat_le.mpr hge))
  rcases hsorted with ⟨pre, post, heq, hpost⟩
  rw [hsplit] at heq
  have hnot : d ∉ high := by
    intro hin
    have hlt := hhigh d hin
    rw [hheight] at hlt
    exact UInt64.lt_irrefl _ hlt
  rcases List.append_eq_append_iff.mp heq with ⟨mid, rfl, htail⟩ | ⟨mid, rfl, htail⟩
  · exact absurd (htail ▸ List.mem_append_right _ List.mem_cons_self) hnot
  · cases mid with
    | nil =>
        rw [List.nil_append] at htail
        exact absurd (htail ▸ List.mem_cons_self) hnot
    | cons x mid =>
        rw [List.cons_append, List.cons.injEq] at htail
        rcases htail with ⟨rfl, rfl⟩
        refine ⟨pre, mid, rfl, ?_⟩
        intro x hx
        exact hpost x (List.mem_append_left _ hx)
          (hlow x (List.mem_append_right _ (List.mem_cons_of_mem _ hx)))

/-- A key that `c` mentions is in, when the second copy applies, if the last
word on it was to add it. -/
theorem tallyAll_low_pos_iff (hlow : ∀ d ∈ low, d.activationHeight ≤ c.activationHeight)
    (hd : reg.lastWord c.activationHeight k = some d) (n : Nat) :
    0 < tallyAll k low n ↔ k ∈ d.adds := by
  rcases low_split hle hsplit hhigh hlow hd with ⟨pre, post, rfl, hpost⟩
  rw [tallyAll_append, tallyAll_cons, tallyAll_of_not_mentions hpost,
    tally_pos_iff (lastWord_eq_some hd).2.1]

/-- The first copy has left a key that it removes at most once. -/
theorem tallyAll_low_le_one (hc : c ∈ reg.changes) (hk : k ∈ c.removes) (n : Nat) :
    tallyAll k low n ≤ 1 := by
  rcases List.append_of_mem (mem_low hle hsplit hhigh hc) with ⟨pre, post, rfl⟩
  rw [tallyAll_append, tallyAll_cons]
  apply tallyAll_le_one
  unfold tally
  rw [if_pos hk]
  split <;> omega

end SecondCopy

theorem new_threshold (keys : List C.VerifyingKey) (t : Nat) :
    (ValidatorSet.new keys t).map (·.threshold) =
      if 1 ≤ t then if t ≤ keys.length then .ok t else .error .thresholdExceedsValidators
      else .error .zeroThreshold := by
  unfold ValidatorSet.new
  by_cases hpos : 1 ≤ t
  · by_cases hle : t ≤ keys.length
    · simp [hpos, hle, Except.map]
    · simp [hpos, hle, Except.map]
  · simp [hpos, Except.map]

/-- The quorum of a roster depends on its length alone. -/
theorem bft_threshold_congr {keys keys' : List C.VerifyingKey} (h : keys.length = keys'.length) :
    (ValidatorSet.bft keys).map (·.threshold) = (ValidatorSet.bft keys').map (·.threshold) := by
  unfold ValidatorSet.bft
  dsimp only
  rw [new_threshold, new_threshold, h]

end ValidatorRegistry

open ValidatorRegistry

/-- Recording a change again, over every registry, every change recorded in it
and every height: the roster of the height keeps its keys and its quorum
exactly when the last word of that activation height on each key of the change
was the change's own, or a later activation overrules it. -/
theorem record_again_iff (reg : ValidatorRegistry C) (c : ValidatorChange C)
    (hc : c ∈ reg.changes) (h : UInt64) :
    (((reg.record c).activeKeys h).toFinset = (reg.activeKeys h).toFinset ∧
      ((reg.record c).activeSet h).map (·.threshold) = (reg.activeSet h).map (·.threshold)) ↔
    reg.Settled c h := by
  by_cases hle : c.activationHeight ≤ h
  swap
  · -- not in force yet
    have hsame : (reg.record c).activeKeys h = reg.activeKeys h := by
      unfold activeKeys activeChanges record
      rw [List.filter_append, List.filter_cons_of_neg (by simpa using hle), List.filter_nil,
        List.append_nil]
    simp only [activeSet, hsame, and_self, true_iff]
    exact fun hle' => absurd hle' hle
  rcases activeChanges_record reg hle with ⟨low, high, hsplit, hsplit', hlow, hhigh⟩
  -- how often a key is listed, without and with the second copy
  have hcount : ∀ k, (reg.activeKeys h).count k =
      tallyAll k high (tallyAll k low (reg.genesis.count k)) := by
    intro k
    rw [count_activeKeys, hsplit, tallyAll_append]
  have hcount' : ∀ k, ((reg.record c).activeKeys h).count k =
      tallyAll k high (c.tally k (tallyAll k low (reg.genesis.count k))) := by
    intro k
    rw [count_activeKeys, hsplit', tallyAll_append, tallyAll_cons]
    rfl
  constructor
  · rintro ⟨hkeys, _⟩ _ k hk
    have hmention : c.Mentions k := List.mem_append.mp hk
    by_cases hlater : ∃ d ∈ reg.changes, c.activationHeight < d.activationHeight ∧
        d.activationHeight ≤ h ∧ d.Mentions k
    · exact Or.inl hlater
    right
    intro d hd
    have hsilent : ∀ x ∈ high, ¬ x.Mentions k := by
      intro x hx hxk
      have hmem : x ∈ reg.activeChanges h := hsplit ▸ List.mem_append_right _ hx
      rw [mem_activeChanges] at hmem
      exact hlater ⟨x, hmem.1, hhigh x hx, hmem.2, hxk⟩
    have hin : k ∈ (reg.record c).activeKeys h ↔ k ∈ reg.activeKeys h := by
      rw [← List.mem_toFinset, hkeys, List.mem_toFinset]
    rw [← List.count_pos_iff, ← List.count_pos_iff, hcount, hcount',
      tallyAll_of_not_mentions hsilent, tallyAll_of_not_mentions hsilent, tally_pos_iff hmention,
      tallyAll_low_pos_iff hle hsplit hhigh hlow hd] at hin
    exact hin.symm
  · intro hsettled
    have hperm : ((reg.record c).activeKeys h).Perm (reg.activeKeys h) := by
      rw [List.perm_iff_count]
      intro k
      rw [hcount, hcount']
      by_cases hmention : c.Mentions k
      swap
      · rw [tally_of_not_mentions hmention]
      rcases tally_eq_or_le_one (tallyAll_low_le_one hle hsplit hhigh hc (k := k) ·
        (reg.genesis.count k)) with heq | ⟨hone, hone'⟩
      · rw [heq]
      rcases hsettled hle k (List.mem_append.mpr hmention) with ⟨d, hd, hlt, hdle, hdk⟩ | hword
      · -- a later activation decides
        have hmem : d ∈ low ++ high := hsplit ▸ mem_activeChanges.mpr ⟨hd, hdle⟩
        have hin : d ∈ high := by
          rcases List.mem_append.mp hmem with hin | hin
          · exact absurd (hlow d hin) (UInt64.not_le.mpr hlt)
          · exact hin
        exact tallyAll_eq_of_mem hin hdk hone' hone
      · rcases lastWord_isSome hc hmention with ⟨d, hd⟩
        have hpos : 0 < c.tally k (tallyAll k low (reg.genesis.count k)) ↔
            0 < tallyAll k low (reg.genesis.count k) := by
          rw [tally_pos_iff hmention, tallyAll_low_pos_iff hle hsplit hhigh hlow hd]
          exact (hword d hd).symm
        have heq : c.tally k (tallyAll k low (reg.genesis.count k)) =
            tallyAll k low (reg.genesis.count k) := by omega
        rw [heq]
    constructor
    · ext k
      rw [List.mem_toFinset, List.mem_toFinset, hperm.mem_iff]
    · exact bft_threshold_congr hperm.length_eq

/-- 5 replaces 1 at height 9, where 6 replaces 2 as well, and leaves again at
height 12. Recording the first of these changes after the others changes
nothing: they leave key 1 alone, and overrule it on key 5. -/
theorem record_again_iff_overruled :
    let c : ValidatorChange sample := ⟨[5], [1], 9⟩
    let reg : ValidatorRegistry sample := ⟨[1, 2, 3, 4], [c, ⟨[6], [2], 9⟩, ⟨[], [5], 12⟩]⟩
    ((reg.record c).activeKeys 12).toFinset = (reg.activeKeys 12).toFinset ∧
      ((reg.record c).activeSet 12).map (·.threshold) = (reg.activeSet 12).map (·.threshold) := by
  intro c reg
  apply (record_again_iff reg c List.mem_cons_self 12).mpr
  unfold ValidatorRegistry.Settled
  decide +kernel

/-- The fifth validator is added, then removed for the same height; recording
the addition again brings it back. -/
theorem record_again_restores :
    ¬ ∀ (reg : ValidatorRegistry sample) (c : ValidatorChange sample), c ∈ reg.changes →
      ∀ h, ((reg.record c).activeKeys h).toFinset = (reg.activeKeys h).toFinset ∧
        ((reg.record c).activeSet h).map (·.threshold) =
          (reg.activeSet h).map (·.threshold) := by
  intro hall
  have hkeys := (hall ⟨[1, 2, 3, 4], [⟨[5], [], 9⟩, ⟨[], [5], 9⟩]⟩ ⟨[5], [], 9⟩
    List.mem_cons_self 9).1
  revert hkeys
  decide +kernel

end SmartLedger
