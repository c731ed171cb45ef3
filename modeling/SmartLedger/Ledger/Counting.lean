import SmartLedger.Ledger.Block

/-! # Which entries the counting loop counts

The loop marks a member as seen before it verifies the entry at hand, so of
all entries of one member only the first decides (`countSigned_eq_card`). The
count is the number of members with a valid entry exactly when no member's
valid entry stands behind an invalid one of its own (`Unshadowed`); on such
lists the order, the repetitions and the junk make no difference.
-/

namespace SmartLedger

variable {C : Crypto} {set : ValidatorSet C} {message context : List UInt8}
  {sigs sigs' : List (ValidatorSig C)}

/-- Some entry of `key` verifies. -/
def HasValid (message context : List UInt8) (sigs : List (ValidatorSig C))
    (key : C.VerifyingKey) : Prop :=
  ∃ vs ∈ sigs, vs.validator = key ∧ C.verify key message vs.signature context = true

/-- The first entry of `key` verifies. -/
def LeadsValid (message context : List UInt8) (sigs : List (ValidatorSig C))
    (key : C.VerifyingKey) : Prop :=
  ∃ vs ∈ sigs.find? (fun vs => vs.validator = key),
    C.verify key message vs.signature context = true

instance (message context : List UInt8) (sigs : List (ValidatorSig C)) (key : C.VerifyingKey) :
    Decidable (HasValid message context sigs key) :=
  inferInstanceAs (Decidable (∃ vs ∈ sigs, _))

instance (message context : List UInt8) (sigs : List (ValidatorSig C)) (key : C.VerifyingKey) :
    Decidable (LeadsValid message context sigs key) :=
  match h : sigs.find? (fun vs => vs.validator = key) with
  | none => isFalse fun ⟨_, hvs, _⟩ => by rw [h] at hvs; cases hvs
  | some vs =>
      decidable_of_iff (C.verify key message vs.signature context = true)
        ⟨fun hver => ⟨vs, h, hver⟩, fun ⟨vs', hvs', hver⟩ => by
          rw [h] at hvs'
          cases hvs'
          exact hver⟩

/-- The members with a valid entry. -/
def validSigners (set : ValidatorSet C) (message context : List UInt8)
    (sigs : List (ValidatorSig C)) : Finset C.VerifyingKey :=
  set.members.filter fun k => HasValid message context sigs k

/-- The members whose first entry is valid. -/
def leadSigners (set : ValidatorSet C) (message context : List UInt8)
    (sigs : List (ValidatorSig C)) : Finset C.VerifyingKey :=
  set.members.filter fun k => LeadsValid message context sigs k

/-- A member with a valid entry has one as its first. -/
def Unshadowed (set : ValidatorSet C) (message context : List UInt8)
    (sigs : List (ValidatorSig C)) : Prop :=
  ∀ k ∈ set.validators, HasValid message context sigs k → LeadsValid message context sigs k

theorem LeadsValid.hasValid {k : C.VerifyingKey} (h : LeadsValid message context sigs k) :
    HasValid message context sigs k := by
  rcases h with ⟨vs, hvs, hver⟩
  have hkey : vs.validator = k := by simpa using List.find?_some hvs
  exact ⟨vs, List.mem_of_find?_eq_some hvs, hkey, hver⟩

theorem leadsValid_cons {vs : ValidatorSig C} {k : C.VerifyingKey} :
    LeadsValid message context (vs :: sigs) k ↔
      (vs.validator = k ∧ C.verify k message vs.signature context = true) ∨
      (vs.validator ≠ k ∧ LeadsValid message context sigs k) := by
  unfold LeadsValid
  by_cases hk : vs.validator = k
  · simp [hk]
  · simp [hk]

theorem leadSigners_subset : leadSigners set message context sigs ⊆
    validSigners set message context sigs := by
  intro k hk
  rcases Finset.mem_filter.mp hk with ⟨hmem, hlead⟩
  exact Finset.mem_filter.mpr ⟨hmem, hlead.hasValid⟩

/-- The loop counts the members it has not seen whose first entry is valid. -/
theorem countSigned_eq_card
    (hids : ∀ a ∈ set.validators, ∀ b ∈ set.validators, a.id = b.id → a = b)
    (seen : Finset Hash) :
    countSigned set message context seen sigs =
      ((leadSigners set message context sigs).filter fun k => k.id ∉ seen).card := by
  induction sigs generalizing seen with
  | nil => simp [countSigned, leadSigners, LeadsValid]
  | cons vs rest ih =>
      unfold countSigned
      by_cases hin : vs.validator ∈ set.validators
      swap
      · -- an outsider is nobody's first entry
        rw [if_pos (Bool.eq_false_iff.mpr (by simpa using hin)), ih]
        congr 1
        ext k
        simp only [leadSigners, Finset.mem_filter, ValidatorSet.mem_members, leadsValid_cons]
        constructor
        · rintro ⟨⟨hmem, hlead⟩, hns⟩
          exact ⟨⟨hmem, Or.inr ⟨fun heq => hin (heq ▸ hmem), hlead⟩⟩, hns⟩
        · rintro ⟨⟨hmem, ⟨heq, _⟩ | ⟨_, hlead⟩⟩, hns⟩
          · exact absurd (heq ▸ hmem) hin
          · exact ⟨⟨hmem, hlead⟩, hns⟩
      rw [if_neg (by simpa using hin)]
      by_cases hseen : vs.validator.id ∈ seen
      · -- a member seen before is left out on both sides
        rw [if_pos hseen, ih]
        congr 1
        ext k
        simp only [leadSigners, Finset.mem_filter, ValidatorSet.mem_members, leadsValid_cons]
        constructor
        · rintro ⟨⟨hmem, hlead⟩, hns⟩
          exact ⟨⟨hmem, Or.inr ⟨fun heq => hns (heq ▸ hseen), hlead⟩⟩, hns⟩
        · rintro ⟨⟨hmem, ⟨heq, _⟩ | ⟨_, hlead⟩⟩, hns⟩
          · exact absurd (heq ▸ hseen) hns
          · exact ⟨⟨hmem, hlead⟩, hns⟩
      rw [if_neg hseen, ih]
      -- the members left to count after this entry
      have hrest : ((leadSigners set message context rest).filter
          fun k => k.id ∉ insert vs.validator.id seen) =
          ((leadSigners set message context (vs :: rest)).filter fun k => k.id ∉ seen).erase
            vs.validator := by
        ext k
        simp only [leadSigners, Finset.mem_filter, ValidatorSet.mem_members, leadsValid_cons,
          Finset.mem_erase, Finset.mem_insert, not_or]
        constructor
        · rintro ⟨⟨hmem, hlead⟩, hne, hns⟩
          have hk : vs.validator ≠ k := fun heq => hne (heq ▸ rfl)
          exact ⟨hk.symm, ⟨hmem, Or.inr ⟨hk, hlead⟩⟩, hns⟩
        · rintro ⟨hk, ⟨hmem, ⟨heq, _⟩ | ⟨_, hlead⟩⟩, hns⟩
          · exact absurd heq.symm hk
          · exact ⟨⟨hmem, hlead⟩, fun hid => hk (hids k hmem _ hin hid), hns⟩
      rw [hrest]
      by_cases hver : C.verify vs.validator message vs.signature context = true
      · have hmem : vs.validator ∈
            (leadSigners set message context (vs :: rest)).filter fun k => k.id ∉ seen := by
          simp [leadSigners, leadsValid_cons, hin, hseen, hver]
        rw [if_pos hver, Finset.card_erase_of_mem hmem]
        have hpos := Finset.card_pos.mpr ⟨_, hmem⟩
        omega
      · have hnot : vs.validator ∉
            (leadSigners set message context (vs :: rest)).filter fun k => k.id ∉ seen := by
          simp [leadSigners, leadsValid_cons, hver]
        rw [if_neg hver, Finset.erase_eq_of_notMem hnot, Nat.zero_add]

theorem leadSigners_eq_iff :
    (leadSigners set message context sigs).card = (validSigners set message context sigs).card ↔
      Unshadowed set message context sigs := by
  constructor
  · intro hcard k hk hvalid
    have hsub : leadSigners set message context sigs ⊆ validSigners set message context sigs :=
      leadSigners_subset
    have heq := Finset.eq_of_subset_of_card_le hsub (le_of_eq hcard.symm)
    have hmem : k ∈ validSigners set message context sigs :=
      Finset.mem_filter.mpr ⟨(set.mem_members k).mpr hk, hvalid⟩
    rw [← heq] at hmem
    exact (Finset.mem_filter.mp hmem).2
  · intro h
    congr 1
    apply Finset.Subset.antisymm leadSigners_subset
    intro k hk
    rcases Finset.mem_filter.mp hk with ⟨hmem, hvalid⟩
    exact Finset.mem_filter.mpr ⟨hmem, h k ((set.mem_members k).mp hmem) hvalid⟩

/-- The valid signers do not depend on the order, on repetitions or on any
entry that is invalid or of an outsider. -/
theorem validSigners_congr
    (hsame : ∀ vs : ValidatorSig C, vs.validator ∈ set.validators →
      C.verify vs.validator message vs.signature context = true → (vs ∈ sigs ↔ vs ∈ sigs')) :
    validSigners set message context sigs = validSigners set message context sigs' := by
  apply Finset.filter_congr
  intro k hk
  rw [ValidatorSet.mem_members] at hk
  constructor
  · rintro ⟨vs, hvs, rfl, hver⟩
    exact ⟨vs, (hsame vs hk hver).mp hvs, rfl, hver⟩
  · rintro ⟨vs, hvs, rfl, hver⟩
    exact ⟨vs, (hsame vs hk hver).mpr hvs, rfl, hver⟩

/-! ## Certificates and approvals -/

theorem countSigned_eq_leadSigners
    (hids : ∀ a ∈ set.validators, ∀ b ∈ set.validators, a.id = b.id → a = b) :
    countSigned set message context ∅ sigs = (leadSigners set message context sigs).card := by
  rw [countSigned_eq_card hids]
  simp

/-- A non-empty change is authorized when the members that lead with a valid
approval are a quorum. -/
theorem SignedValidatorChange.isAuthorized_iff
    (hids : ∀ a ∈ set.validators, ∀ b ∈ set.validators, a.id = b.id → a = b)
    {s : SignedValidatorChange C} (hne : s.change.isEmpty = false) :
    s.isAuthorized set = true ↔ set.threshold ≤
      (leadSigners set s.change.signingBytes Context.governance s.approvals).card := by
  unfold SignedValidatorChange.isAuthorized
  rw [hne, countSigned_eq_leadSigners hids]
  simp

/-- Quorum counting, over every set with distinct key ids and every list of
entries. A certificate's count is the number of members with a valid entry
exactly when none of them is shadowed; a non-empty change is authorized exactly
when a quorum of members has a valid approval, unless it takes a shadowed one
to make up that quorum; and two unshadowed lists with the same valid entries of
members give the same count and the same verdict. -/
theorem quorum_count_exact_iff_unshadowed (set : ValidatorSet C)
    (hids : ∀ a ∈ set.validators, ∀ b ∈ set.validators, a.id = b.id → a = b) :
    (∀ qc : QuorumCertificate C,
      qc.countValid set =
          (validSigners set qc.blockId.asBytes Context.block qc.signatures).card ↔
        Unshadowed set qc.blockId.asBytes Context.block qc.signatures) ∧
    (∀ s : SignedValidatorChange C, s.change.isEmpty = false →
      ((s.isAuthorized set = true ↔ set.threshold ≤
          (validSigners set s.change.signingBytes Context.governance s.approvals).card) ↔
        (set.threshold ≤
            (validSigners set s.change.signingBytes Context.governance s.approvals).card →
          set.threshold ≤
            (leadSigners set s.change.signingBytes Context.governance s.approvals).card)) ∧
      (Unshadowed set s.change.signingBytes Context.governance s.approvals →
        (s.isAuthorized set = true ↔ set.threshold ≤
          (validSigners set s.change.signingBytes Context.governance s.approvals).card))) ∧
    (∀ (blockId : Hash) (sigs sigs' : List (ValidatorSig C)),
      (∀ vs : ValidatorSig C, vs.validator ∈ set.validators →
        C.verify vs.validator blockId.asBytes vs.signature Context.block = true →
        (vs ∈ sigs ↔ vs ∈ sigs')) →
      Unshadowed set blockId.asBytes Context.block sigs →
      Unshadowed set blockId.asBytes Context.block sigs' →
      QuorumCertificate.countValid ⟨blockId, sigs⟩ set =
        QuorumCertificate.countValid ⟨blockId, sigs'⟩ set) ∧
    ∀ (change : ValidatorChange C) (sigs sigs' : List (ValidatorSig C)),
      (∀ vs : ValidatorSig C, vs.validator ∈ set.validators →
        C.verify vs.validator change.signingBytes vs.signature Context.governance = true →
        (vs ∈ sigs ↔ vs ∈ sigs')) →
      Unshadowed set change.signingBytes Context.governance sigs →
      Unshadowed set change.signingBytes Context.governance sigs' →
      SignedValidatorChange.isAuthorized ⟨change, sigs⟩ set =
        SignedValidatorChange.isAuthorized ⟨change, sigs'⟩ set := by
  -- on unshadowed lists the loop counts the valid signers
  have hcount : ∀ {message context : List UInt8} {sigs : List (ValidatorSig C)},
      Unshadowed set message context sigs →
      countSigned set message context ∅ sigs = (validSigners set message context sigs).card := by
    intro message context sigs h
    rw [countSigned_eq_leadSigners hids, leadSigners_eq_iff.mpr h]
  refine ⟨?_, ?_, ?_, ?_⟩
  · intro qc
    unfold QuorumCertificate.countValid
    rw [countSigned_eq_leadSigners hids]
    exact leadSigners_eq_iff
  · intro s hne
    have hauth := SignedValidatorChange.isAuthorized_iff hids hne
    have hsub := Finset.card_le_card (leadSigners_subset (C := C) : leadSigners set
      s.change.signingBytes Context.governance s.approvals ⊆ _)
    constructor
    · rw [hauth]
      constructor
      · intro hiff
        exact hiff.mpr
      · intro hlead
        exact ⟨fun h => le_trans h hsub, hlead⟩
    · intro h
      rw [hauth, leadSigners_eq_iff.mpr h]
  · intro blockId sigs sigs' hsame h h'
    unfold QuorumCertificate.countValid
    rw [hcount h, hcount h', validSigners_congr hsame]
  · intro change sigs sigs' hsame h h'
    unfold SignedValidatorChange.isAuthorized
    rw [hcount h, hcount h', validSigners_congr hsame]

/-- An entry of `key` whose signature does not verify. -/
def junkEntry (key : UInt8) : ValidatorSig sample := ⟨key, Hash.zero⟩

/-- Four members that all signed, with junk of outsiders behind them. -/
theorem quorum_count_exact_iff_unshadowed_four :
    ∃ set : ValidatorSet sample, ValidatorSet.bft (C := sample) [1, 2, 3, 4] = .ok set ∧
      (sampleCertificate 0 [1, 2, 3, 4, 9]).countValid set = (validSigners set
        ((sampleHeader 0).id sample).asBytes Context.block
        (sampleCertificate 0 [1, 2, 3, 4, 9]).signatures).card := by
  refine ⟨⟨[1, 2, 3, 4], 3, by decide, by decide⟩, rfl, ?_⟩
  refine ((quorum_count_exact_iff_unshadowed _ ?_).1 _).mpr ?_
  · decide +kernel
  · unfold Unshadowed
    decide +kernel

/-- One junk entry in front of the first signer: a member less is counted, and
three valid approvals out of four members no longer authorize a change. -/
theorem junk_entry_shadows :
    ¬ (∀ (set : ValidatorSet sample),
      (∀ a ∈ set.validators, ∀ b ∈ set.validators, a.id = b.id → a = b) →
      (∀ qc : QuorumCertificate sample, qc.countValid set =
        (validSigners set qc.blockId.asBytes Context.block qc.signatures).card)) ∧
    ¬ (∀ (set : ValidatorSet sample),
      (∀ a ∈ set.validators, ∀ b ∈ set.validators, a.id = b.id → a = b) →
      (∀ s : SignedValidatorChange sample, s.change.isEmpty = false →
        (s.isAuthorized set = true ↔ set.threshold ≤
          (validSigners set s.change.signingBytes Context.governance s.approvals).card))) := by
  have hids : ∀ a ∈ ([1, 2, 3, 4] : List sample.VerifyingKey), ∀ b ∈
      ([1, 2, 3, 4] : List sample.VerifyingKey), a.id = b.id → a = b := by decide +kernel
  constructor
  · intro h
    -- two of the three signers are counted
    have hqc := h ⟨[1, 2, 3, 4], 3, by decide, by decide⟩ hids
      { sampleCertificate 0 [1, 2, 3] with
        signatures := junkEntry 1 :: (sampleCertificate 0 [1, 2, 3]).signatures }
    revert hqc
    decide +kernel
  · intro h
    let change : ValidatorChange sample := ⟨[5], [], 9⟩
    have hs := h ⟨[1, 2, 3, 4], 3, by decide, by decide⟩ hids
      { change
        approvals := junkEntry 1 :: [1, 2, 3].map fun k =>
          ⟨k, sampleSign k change.signingBytes Context.governance⟩ } rfl
    revert hs
    decide +kernel

end SmartLedger
