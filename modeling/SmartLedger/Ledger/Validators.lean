import Mathlib.Data.Finset.Card
import SmartLedger.Crypto
import SmartLedger.Lib.Quorum

/-! # Validator sets and the counting of their signatures

A `ValidatorSet` can only be built with a threshold between 1 and the number
of validators: the two `assert!`s of `ValidatorSet::new` are its fields. The
quorum rule is `n - f` for the largest `f` with `3 f < n` (`bft`).

`countSigned` is the loop that both the quorum certificate and the governance
authorization run over a list of signatures: non-members are skipped, a
second entry of one validator is skipped, and only verifying entries count.
-/

namespace SmartLedger

variable {C : Crypto}

/-- The validator roster and its quorum threshold. -/
structure ValidatorSet (C : Crypto) where
  validators : List C.VerifyingKey
  threshold : Nat
  threshold_pos : 1 ≤ threshold
  threshold_le : threshold ≤ validators.length

namespace ValidatorSet

/-- Build a set with an explicit threshold; panics on a nonsensical one. -/
def new (validators : List C.VerifyingKey) (threshold : Nat) : Exec (ValidatorSet C) :=
  if hpos : 1 ≤ threshold then
    if hle : threshold ≤ validators.length then .ok ⟨validators, threshold, hpos, hle⟩
    else .error .thresholdExceedsValidators
  else .error .zeroThreshold

/-- The standard Byzantine quorum `n - f`. -/
def bft (validators : List C.VerifyingKey) : Exec (ValidatorSet C) :=
  let n := validators.length
  let f := (n - 1) / 3
  new validators (n - f)

/-- Is `key` a member? -/
def contains (set : ValidatorSet C) (key : C.VerifyingKey) : Bool :=
  set.validators.any fun v => v = key

@[simp] theorem contains_iff (set : ValidatorSet C) (key : C.VerifyingKey) :
    set.contains key = true ↔ key ∈ set.validators := by
  simp [contains]

/-- The distinct members. -/
def members (set : ValidatorSet C) : Finset C.VerifyingKey := set.validators.toFinset

@[simp] theorem mem_members (set : ValidatorSet C) (key : C.VerifyingKey) :
    key ∈ set.members ↔ key ∈ set.validators := List.mem_toFinset

theorem card_members_le (set : ValidatorSet C) : set.members.card ≤ set.validators.length :=
  List.toFinset_card_le _

/-- The number of faults the set tolerates. -/
def f (set : ValidatorSet C) : Nat := set.validators.length - set.threshold

theorem bft_eq_ok {keys : List C.VerifyingKey} {set : ValidatorSet C} (h : bft keys = .ok set) :
    set.validators = keys ∧ set.threshold = keys.length - (keys.length - 1) / 3 := by
  simp only [bft, new] at h
  split at h
  · split at h
    · obtain rfl := Except.ok.inj h
      exact ⟨rfl, rfl⟩
    · cases h
  · cases h

/-- The constructor panics exactly on the empty roster. -/
theorem bft_isOk_iff (keys : List C.VerifyingKey) : (∃ set, bft keys = .ok set) ↔ keys ≠ [] := by
  constructor
  · intro hok hnil
    rcases hok with ⟨set, hset⟩
    have hpos := set.threshold_pos
    have hle := set.threshold_le
    rw [(bft_eq_ok hset).1, hnil] at hle
    simp at hle
    omega
  · intro hne
    have hpos : 0 < keys.length := List.length_pos_iff.mpr hne
    have h1 : 1 ≤ keys.length - (keys.length - 1) / 3 := by omega
    have h2 : keys.length - (keys.length - 1) / 3 ≤ keys.length := by omega
    exact ⟨⟨keys, _, h1, h2⟩, by simp only [bft, new, dif_pos h1, dif_pos h2]⟩

/-- A set built by `bft` is more than three times as large as its fault
bound, and its threshold is the rest. -/
theorem bft_bounds {keys : List C.VerifyingKey} {set : ValidatorSet C} (h : bft keys = .ok set) :
    3 * set.f < set.validators.length ∧ set.threshold = set.validators.length - set.f := by
  rcases bft_eq_ok h with ⟨hv, ht⟩
  have hpos := set.threshold_pos
  have hle := set.threshold_le
  simp only [f, hv] at hle ⊢
  omega

end ValidatorSet

/-- A single validator's signature over some message. -/
structure ValidatorSig (C : Crypto) where
  validator : C.VerifyingKey
  signature : C.Signature
deriving DecidableEq

/-- Count the distinct, in-set, valid signatures over `message`, given the
ids already seen. The first in-set entry of an id decides for that id. -/
def countSigned (set : ValidatorSet C) (message context : List UInt8) :
    Finset Hash → List (ValidatorSig C) → Nat
  | _, [] => 0
  | seen, vs :: rest =>
      if set.contains vs.validator = false then countSigned set message context seen rest
      else if vs.validator.id ∈ seen then countSigned set message context seen rest
      else (if C.verify vs.validator message vs.signature context then 1 else 0) +
        countSigned set message context (insert vs.validator.id seen) rest

/-- What a count of `n` means: there are `n` distinct members, none of them
seen before, each with a verifying entry in the list. -/
theorem exists_signers_of_countSigned (set : ValidatorSet C) (message context : List UInt8)
    (seen : Finset Hash) (sigs : List (ValidatorSig C)) :
    ∃ signers : Finset C.VerifyingKey,
      signers.card = countSigned set message context seen sigs ∧
      ∀ k ∈ signers, k ∈ set.validators ∧ k.id ∉ seen ∧
        ∃ vs ∈ sigs, vs.validator = k ∧ C.verify k message vs.signature context = true := by
  induction sigs generalizing seen with
  | nil => exact ⟨∅, rfl, by simp⟩
  | cons vs rest ih =>
      by_cases hin : set.contains vs.validator = true
      swap
      · -- an outsider's entry is skipped
        rcases ih seen with ⟨signers, hcard, hsigners⟩
        refine ⟨signers, by simp [countSigned, hin, hcard], ?_⟩
        intro k hk
        rcases hsigners k hk with ⟨hmem, hseen, vs', hvs', hver⟩
        exact ⟨hmem, hseen, vs', List.mem_cons_of_mem _ hvs', hver⟩
      by_cases hseen : vs.validator.id ∈ seen
      · -- so is a second entry of one validator
        rcases ih seen with ⟨signers, hcard, hsigners⟩
        refine ⟨signers, by simp [countSigned, hin, hseen, hcard], ?_⟩
        intro k hk
        rcases hsigners k hk with ⟨hmem, hns, vs', hvs', hver⟩
        exact ⟨hmem, hns, vs', List.mem_cons_of_mem _ hvs', hver⟩
      rcases ih (insert vs.validator.id seen) with ⟨signers, hcard, hsigners⟩
      have hrest : ∀ k ∈ signers, k ∈ set.validators ∧ k.id ∉ seen ∧
          ∃ vs' ∈ vs :: rest, vs'.validator = k ∧
            C.verify k message vs'.signature context = true := by
        intro k hk
        rcases hsigners k hk with ⟨hmem, hns, vs', hvs', hver⟩
        exact ⟨hmem, fun h => hns (Finset.mem_insert_of_mem h), vs',
          List.mem_cons_of_mem _ hvs', hver⟩
      by_cases hver : C.verify vs.validator message vs.signature context = true
      -- the id is marked as seen, so the rest cannot count it again
      · have hfresh : vs.validator ∉ signers := by
          intro hk
          exact (hsigners _ hk).2.1 (Finset.mem_insert_self _ _)
        refine ⟨insert vs.validator signers, ?_, ?_⟩
        · rw [Finset.card_insert_of_notMem hfresh, hcard]
          simp [countSigned, hin, hseen, hver, Nat.add_comm]
        · intro k hk
          rcases Finset.mem_insert.mp hk with rfl | hk
          · exact ⟨by simpa using hin, hseen, vs, List.mem_cons_self, rfl, hver⟩
          · exact hrest k hk
      · exact ⟨signers, by simp [countSigned, hin, hseen, hver, hcard], hrest⟩

/-- When every entry verifies and no id repeats, the count is the number of
members among the entries. -/
theorem countSigned_of_verified (set : ValidatorSet C) (message context : List UInt8)
    (seen : Finset Hash) (sigs : List (ValidatorSig C))
    (hver : ∀ vs ∈ sigs, C.verify vs.validator message vs.signature context = true)
    (hnodup : (sigs.map fun vs => vs.validator.id).Nodup)
    (hseen : ∀ vs ∈ sigs, vs.validator.id ∉ seen) :
    countSigned set message context seen sigs =
      (sigs.filter fun vs => set.contains vs.validator).length := by
  induction sigs generalizing seen with
  | nil => rfl
  | cons vs rest ih =>
      rw [List.map_cons, List.nodup_cons] at hnodup
      have hver' : ∀ x ∈ rest, C.verify x.validator message x.signature context = true :=
        fun x hx => hver x (List.mem_cons_of_mem _ hx)
      have hseen' : ∀ x ∈ rest, x.validator.id ∉ seen :=
        fun x hx => hseen x (List.mem_cons_of_mem _ hx)
      by_cases hin : set.contains vs.validator = true
      -- no later entry has the id that is marked now
      · have hstep : ∀ x ∈ rest, x.validator.id ∉ insert vs.validator.id seen := by
          intro x hx hmem
          rcases Finset.mem_insert.mp hmem with heq | hold
          · exact hnodup.1 (heq ▸ List.mem_map_of_mem hx)
          · exact hseen' x hx hold
        have hrec := ih (insert vs.validator.id seen) hver' hnodup.2 hstep
        simp [countSigned, hin, hseen vs List.mem_cons_self, hver vs List.mem_cons_self, hrec,
          Nat.add_comm]
      · simp [countSigned, hin, ih seen hver' hnodup.2 hseen']

/-- Only membership counts, not how the set lists its members. -/
theorem countSigned_congr {set set' : ValidatorSet C} (hmembers : set.members = set'.members)
    (message context : List UInt8) (seen : Finset Hash) (sigs : List (ValidatorSig C)) :
    countSigned set message context seen sigs = countSigned set' message context seen sigs := by
  have hcontains : ∀ k, set.contains k = set'.contains k := by
    intro k
    rw [Bool.eq_iff_iff, ValidatorSet.contains_iff, ValidatorSet.contains_iff,
      ← ValidatorSet.mem_members, ← ValidatorSet.mem_members, hmembers]
  induction sigs generalizing seen with
  | nil => rfl
  | cons vs rest ih => simp only [countSigned, hcontains, ih]

end SmartLedger
