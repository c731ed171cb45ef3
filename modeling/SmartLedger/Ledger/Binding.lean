import SmartLedger.Lib.StableSort
import SmartLedger.Ledger.Merkle
import SmartLedger.Ledger.Block

/-! # What the bytes of the ledger determine

The header encoding is injective. The commitments to governance changes are
not: a change is signed with its keys sorted, and committed to with the
sorted ids of its approvers and without their signatures. `SameChange` is
what is left over, and `ValidatorRegistry.activeKeys_perm` says that the
rosters computed from such changes are rearrangements of each other.
-/

namespace SmartLedger

variable {C : Crypto}

/-! ## Headers -/

theorem BlockHeader.signingBytes_injective : Function.Injective BlockHeader.signingBytes := by
  intro a b h
  unfold signingBytes at h
  -- the fixed-width fields come off the front one by one
  rcases List.append_inj h (by simp) with ⟨hheight, h⟩
  rcases List.append_inj h (by simp) with ⟨hprev, h⟩
  rcases List.append_inj h (by simp) with ⟨hroot, h⟩
  rcases List.append_inj h (by simp) with ⟨hcount, h⟩
  rcases List.append_inj h (by simp) with ⟨htime, hgov⟩
  cases a
  cases b
  rw [BlockHeader.mk.injEq]
  exact ⟨beBytes64_inj hheight, Hash.asBytes_inj hprev, Hash.asBytes_inj hroot,
    beBytes32_inj hcount, beBytes64_inj htime, Hash.asBytes_inj hgov⟩

/-! ## Governance changes -/

/-- The byte string behind a commitment. -/
def SignedValidatorChange.commitmentInput (s : SignedValidatorChange C) : List UInt8 :=
  let approverIds := (s.approvals.map fun a => a.validator.id).insertionSort
    fun a b => a.rank ≤ b.rank
  s.change.id.asBytes ++ (beBytes32 (UInt32.ofNat approverIds.length) ++
    (approverIds.map Hash.asBytes).flatten)

/-- The byte string behind a governance root. -/
def govRootInput (changes : List (SignedValidatorChange C)) : List UInt8 :=
  Bytes.ascii ['S', 'L', 'C', '-', 'g', 'o', 'v', 'r', 'o', 'o', 't', '-', 'v', '1'] ++
    (beBytes32 (UInt32.ofNat changes.length) ++
      (changes.map fun c => c.commitment.asBytes).flatten)

/-- Everything hashed for the governance root of some changes. -/
def govInputs (changes : List (SignedValidatorChange C)) : List (List UInt8) :=
  govRootInput changes ::
    (changes.map (·.commitmentInput) ++ changes.map (·.change.signingBytes))

/-- The sorted ids of a change's approvers. -/
def SignedValidatorChange.approverIds (s : SignedValidatorChange C) : List Hash :=
  (s.approvals.map fun a => a.validator.id).insertionSort fun a b => a.rank ≤ b.rank

/-- The same change up to the order of its keys. -/
structure ValidatorChange.Same (c c' : ValidatorChange C) : Prop where
  activationHeight : c.activationHeight = c'.activationHeight
  adds : c.adds.Perm c'.adds
  removes : c.removes.Perm c'.removes

/-- The same change, approved by the same validators. -/
structure SameChange (s s' : SignedValidatorChange C) : Prop where
  change : s.change.Same s'.change
  approvers : s.approverIds = s'.approverIds

/-- The lists of keys fit the 32-bit counters in front of them. -/
def ValidatorChange.Small (c : ValidatorChange C) : Prop :=
  c.adds.length < 2 ^ 32 ∧ c.removes.length < 2 ^ 32

/-- Digests behind each other are determined by their concatenation. -/
theorem flatten_asBytes_inj {l l' : List Hash}
    (h : (l.map Hash.asBytes).flatten = (l'.map Hash.asBytes).flatten) : l = l' := by
  have hwidth : ∀ k : List Hash, ∀ x ∈ k.map Hash.asBytes, x.length = Hash.len := by
    intro k x hx
    rcases List.mem_map.mp hx with ⟨d, _, rfl⟩
    exact d.length_asBytes
  have hlen : (l.map Hash.asBytes).length = (l'.map Hash.asBytes).length := by
    have htotal := congrArg List.length h
    rw [Bytes.length_flatten_width (hwidth l), Bytes.length_flatten_width (hwidth l')] at htotal
    exact Nat.eq_of_mul_eq_mul_right (by decide) htotal
  have hbytes := Bytes.flatten_inj (hwidth l) (hwidth l') hlen h
  exact List.map_injective_iff.mpr (fun _ _ => Hash.asBytes_inj) hbytes

namespace ValidatorChange

/-- A counted, sorted list of keys comes off the front of a byte string up to
its order. -/
theorem sortedKeyBytes_append_inj {keys keys' : List C.VerifyingKey} {rest rest' : List UInt8}
    (hsmall : keys.length < 2 ^ 32) (hsmall' : keys'.length < 2 ^ 32)
    (h : sortedKeyBytes keys ++ rest = sortedKeyBytes keys' ++ rest') :
    keys.Perm keys' ∧ rest = rest' := by
  have hsort : ∀ k : List C.VerifyingKey,
      ((k.map C.keyBytes).insertionSort fun a b => a ≤ b).Perm (k.map C.keyBytes) :=
    fun k => List.perm_insertionSort _ _
  have hlength : ∀ k : List C.VerifyingKey,
      ((k.map C.keyBytes).insertionSort fun a b => a ≤ b).length = k.length := by
    intro k
    rw [(hsort k).length_eq, List.length_map]
  have hwidth : ∀ k : List C.VerifyingKey,
      ∀ x ∈ (k.map C.keyBytes).insertionSort fun a b => a ≤ b, x.length = C.pubkeyLen := by
    intro k x hx
    rcases List.mem_map.mp ((hsort k).mem_iff.mp hx) with ⟨key, _, rfl⟩
    exact C.length_keyBytes key
  simp only [sortedKeyBytes, List.append_assoc] at h
  rcases List.append_inj h (by simp) with ⟨hcount, h⟩
  -- the counters agree, so do the numbers of keys, so the keys end at one place
  have hnum : keys.length = keys'.length := by
    have hnat := congrArg UInt32.toNat (beBytes32_inj hcount)
    rw [hlength, hlength, UInt32.toNat_ofNat', UInt32.toNat_ofNat', Nat.mod_eq_of_lt hsmall,
      Nat.mod_eq_of_lt hsmall'] at hnat
    exact hnat
  have htotal : ((keys.map C.keyBytes).insertionSort fun a b => a ≤ b).flatten.length =
      ((keys'.map C.keyBytes).insertionSort fun a b => a ≤ b).flatten.length := by
    rw [Bytes.length_flatten_width (hwidth keys), Bytes.length_flatten_width (hwidth keys'),
      hlength, hlength, hnum]
  rcases List.append_inj h htotal with ⟨hkeys, hrest⟩
  refine ⟨?_, hrest⟩
  have hsorted := Bytes.flatten_inj (hwidth keys) (hwidth keys')
    (by rw [hlength, hlength, hnum]) hkeys
  rw [← List.map_perm_map_iff C.keyBytes_inj]
  exact (hsort keys).symm.trans (hsorted ▸ hsort keys')

/-- What approving validators sign determines the change up to the order of
its keys. -/
theorem same_of_signingBytes_eq {c c' : ValidatorChange C} (hsmall : c.Small)
    (hsmall' : c'.Small) (h : c.signingBytes = c'.signingBytes) : c.Same c' := by
  unfold signingBytes at h
  rcases List.append_inj h rfl with ⟨_, h⟩
  rcases List.append_inj h (by simp) with ⟨hheight, h⟩
  rcases sortedKeyBytes_append_inj hsmall.1 hsmall'.1 h with ⟨hadds, h⟩
  have hnil : sortedKeyBytes c.removes ++ [] = sortedKeyBytes c'.removes ++ [] := by rw [h]
  exact ⟨beBytes64_inj hheight, hadds,
    (sortedKeyBytes_append_inj hsmall.2 hsmall'.2 hnil).1⟩

/-- The order of the keys does not show in their sorted bytes. -/
theorem sortedKeyBytes_eq_of_perm {keys keys' : List C.VerifyingKey} (h : keys.Perm keys') :
    sortedKeyBytes keys = sortedKeyBytes keys' := by
  have hsorted : (keys.map C.keyBytes).insertionSort (fun a b => a ≤ b) =
      (keys'.map C.keyBytes).insertionSort (fun a b => a ≤ b) := by
    apply List.Perm.eq_of_pairwise' (List.pairwise_insertionSort _ _)
      (List.pairwise_insertionSort _ _)
    exact (List.perm_insertionSort _ _).trans
      ((h.map C.keyBytes).trans (List.perm_insertionSort _ _).symm)
  unfold sortedKeyBytes
  rw [hsorted]

theorem signingBytes_eq_of_same {c c' : ValidatorChange C} (h : c.Same c') :
    c.signingBytes = c'.signingBytes := by
  unfold signingBytes
  rw [h.activationHeight, sortedKeyBytes_eq_of_perm h.adds, sortedKeyBytes_eq_of_perm h.removes]

end ValidatorChange

/-- A governance root determines the commitments of its changes. -/
theorem commitments_eq_of_governanceRoot_eq {inputs : Set (List UInt8)}
    (hinj : Set.InjOn C.digest inputs) {changes changes' : List (SignedValidatorChange C)}
    (hin : ∀ x ∈ govInputs changes, x ∈ inputs) (hin' : ∀ x ∈ govInputs changes', x ∈ inputs)
    (h : governanceRoot changes = governanceRoot changes') :
    changes.map (·.commitment) = changes'.map (·.commitment) := by
  have hroot : govRootInput changes = govRootInput changes' :=
    hinj (hin _ List.mem_cons_self) (hin' _ List.mem_cons_self) h
  rcases List.append_inj hroot rfl with ⟨_, hroot⟩
  rcases List.append_inj hroot (by simp) with ⟨_, hflat⟩
  apply flatten_asBytes_inj
  rw [List.map_map, List.map_map]
  exact hflat

/-- A governance root determines its changes up to what the commitments
leave open. -/
theorem sameChanges_of_governanceRoot_eq {inputs : Set (List UInt8)}
    (hinj : Set.InjOn C.digest inputs) {changes changes' : List (SignedValidatorChange C)}
    (hin : ∀ x ∈ govInputs changes, x ∈ inputs) (hin' : ∀ x ∈ govInputs changes', x ∈ inputs)
    (hsmall : ∀ s ∈ changes, s.change.Small) (hsmall' : ∀ s ∈ changes', s.change.Small)
    (h : governanceRoot changes = governanceRoot changes') :
    List.Forall₂ SameChange changes changes' := by
  have hcommit := commitments_eq_of_governanceRoot_eq hinj hin hin' h
  rw [List.forall₂_iff_get]
  have hlen : changes.length = changes'.length := by
    simpa using congrArg List.length hcommit
  refine ⟨hlen, ?_⟩
  intro i hi hi'
  have hmem : changes.get ⟨i, hi⟩ ∈ changes := List.get_mem _ _
  have hmem' : changes'.get ⟨i, hi'⟩ ∈ changes' := List.get_mem _ _
  have hdigest : C.digest (changes.get ⟨i, hi⟩).commitmentInput =
      C.digest (changes'.get ⟨i, hi'⟩).commitmentInput := by
    have hget := congrArg (fun l => l[i]?) hcommit
    simp only [List.getElem?_map, List.getElem?_eq_getElem hi, List.getElem?_eq_getElem hi',
      Option.map_some, Option.some.injEq] at hget
    exact hget
  have hinput := hinj
    (hin _ (List.mem_cons_of_mem _ (List.mem_append_left _ (List.mem_map_of_mem hmem))))
    (hin' _ (List.mem_cons_of_mem _ (List.mem_append_left _ (List.mem_map_of_mem hmem')))) hdigest
  -- a commitment fixes the change's id and its approvers
  rcases List.append_inj hinput (by simp) with ⟨hid, hids⟩
  rcases List.append_inj hids (by simp) with ⟨_, happrovers⟩
  refine ⟨?_, flatten_asBytes_inj happrovers⟩
  apply ValidatorChange.same_of_signingBytes_eq (hsmall _ hmem) (hsmall' _ hmem')
  exact hinj
    (hin _ (List.mem_cons_of_mem _ (List.mem_append_right _ (List.mem_map_of_mem hmem))))
    (hin' _ (List.mem_cons_of_mem _ (List.mem_append_right _ (List.mem_map_of_mem hmem'))))
    (Hash.asBytes_inj hid)

/-! ## The roster fold -/

namespace ValidatorRegistry

theorem removeAll_eq_filter (keys removes : List C.VerifyingKey) :
    removes.foldl (fun keys r => keys.filter fun k => k ≠ r) keys =
      keys.filter fun k => k ∉ removes := by
  induction removes generalizing keys with
  | nil => simp
  | cons r removes ih =>
      rw [List.foldl_cons, ih, List.filter_filter]
      apply List.filter_congr
      intro k _
      simp [List.mem_cons, not_or, Bool.and_comm]

/-- How often a key is in the roster after some additions. -/
theorem count_addAll (keys adds : List C.VerifyingKey) (k : C.VerifyingKey) :
    (adds.foldl (fun keys a => if a ∈ keys then keys else keys ++ [a]) keys).count k =
      if k ∈ keys then keys.count k else if k ∈ adds then 1 else 0 := by
  induction adds generalizing keys with
  | nil =>
      by_cases hk : k ∈ keys
      · simp [hk]
      · simp [hk, List.count_eq_zero_of_not_mem]
  | cons a adds ih =>
      rw [List.foldl_cons, ih]
      by_cases ha : a ∈ keys
      -- a key that is there already is not added again
      · rw [if_pos ha]
        by_cases hk : k ∈ keys
        · simp [hk]
        · have hne : k ≠ a := fun h => hk (h ▸ ha)
          simp [hk, hne]
      · rw [if_neg ha]
        by_cases hk : k ∈ keys
        · have hne : a ≠ k := fun h => ha (h ▸ hk)
          simp [hk, hne]
        · by_cases hka : k = a
          · subst hka
            simp [hk, List.count_eq_zero_of_not_mem]
          · simp [hk, hka]

theorem applyChange_perm {keys keys' : List C.VerifyingKey} {c c' : ValidatorChange C}
    (hkeys : keys.Perm keys') (hc : c.Same c') :
    (applyChange keys c).Perm (applyChange keys' c') := by
  unfold applyChange
  rw [removeAll_eq_filter, removeAll_eq_filter]
  have hkept : (keys.filter fun k => k ∉ c.removes).Perm (keys'.filter fun k => k ∉ c'.removes) := by
    have hmem : ∀ k, k ∈ c.removes ↔ k ∈ c'.removes := fun k => hc.removes.mem_iff
    simp only [hmem]
    exact hkeys.filter _
  rw [List.perm_iff_count]
  intro k
  rw [count_addAll, count_addAll]
  simp only [hkept.mem_iff, hkept.count_eq, hc.adds.mem_iff]

/-- Registries with the same changes up to the order of their keys give, at
every height, the same roster up to its order. -/
theorem activeKeys_perm {reg reg' : ValidatorRegistry C} (hgenesis : reg.genesis = reg'.genesis)
    (hchanges : List.Forall₂ ValidatorChange.Same reg.changes reg'.changes) (h : UInt64) :
    (reg.activeKeys h).Perm (reg'.activeKeys h) := by
  have hactive : List.Forall₂ ValidatorChange.Same (reg.activeChanges h) (reg'.activeChanges h) := by
    apply StableSort.forall₂_insertionSort
    · intro c c' hc
      rw [hc.activationHeight]
    · apply List.rel_filter _ hchanges
      intro c c' hc
      simp only [hc.activationHeight]
  unfold activeKeys
  apply List.rel_foldl (P := List.Perm) _ _ hactive
  · intro keys keys' hkeys c c' hc
    exact applyChange_perm hkeys hc
  · rw [hgenesis]

end ValidatorRegistry

end SmartLedger
