import Mathlib.Tactic
import Mathlib.Data.Finmap
import Mathlib.Data.List.Sort

/-! # Hash maps with an unspecified iteration order

A hash map is a finite map (`Finmap`); the order in which its entries are
visited is not part of its value. Code that iterates takes a `KeyOrder`, an
arbitrary way of listing a finite set of keys, and a statement that holds
"whatever the iteration order" quantifies over it.
-/

/-- A map from keys to values, as a value: equal lookups, equal maps. -/
abbrev KeyMap (κ ν : Type) := Finmap fun _ : κ => ν

/-- One way to list every finite set of keys. -/
structure KeyOrder (κ : Type) where
  order : Finset κ → List κ
  perm : ∀ s, (order s : Multiset κ) = s.val

namespace KeyOrder

variable {κ : Type}

@[simp] theorem mem_order (ord : KeyOrder κ) (s : Finset κ) (k : κ) :
    k ∈ ord.order s ↔ k ∈ s := by
  rw [← Multiset.mem_coe, ord.perm s, Finset.mem_val]

theorem nodup_order (ord : KeyOrder κ) (s : Finset κ) : (ord.order s).Nodup := by
  rw [← Multiset.coe_nodup, ord.perm s]
  exact s.nodup

section Ascending

variable (rank : κ → Nat)

/-- Sorting by an injective rank does not depend on how the set was listed. -/
theorem insertionSort_rank_congr (hrank : Function.Injective rank) {l₁ l₂ : List κ}
    (h : l₁.Perm l₂) :
    l₁.insertionSort (fun a b => rank a ≤ rank b) =
      l₂.insertionSort (fun a b => rank a ≤ rank b) := by
  have htrans : IsTrans κ (fun a b => rank a ≤ rank b) := ⟨fun _ _ _ => le_trans⟩
  have htotal : Std.Total (fun a b : κ => rank a ≤ rank b) := ⟨fun a b => le_total _ _⟩
  have hanti : Std.Antisymm (fun a b : κ => rank a ≤ rank b) :=
    ⟨fun a b hab hba => hrank (le_antisymm hab hba)⟩
  have hperm := ((List.perm_insertionSort (fun a b => rank a ≤ rank b) l₁).trans h).trans
    (List.perm_insertionSort (fun a b => rank a ≤ rank b) l₂).symm
  exact hperm.eq_of_pairwise' (List.pairwise_insertionSort _ l₁) (List.pairwise_insertionSort _ l₂)

/-- Keys in ascending order of an injective rank. -/
def ascending (hrank : Function.Injective rank) : KeyOrder κ where
  order s := Quot.liftOn s.val (fun l => l.insertionSort fun a b => rank a ≤ rank b)
    fun _ _ h => insertionSort_rank_congr rank hrank h
  perm s := by
    obtain ⟨⟨l⟩, _⟩ := s
    exact Multiset.coe_eq_coe.mpr (List.perm_insertionSort _ l)

end Ascending

end KeyOrder

namespace KeyMap

variable {κ ν : Type} [DecidableEq κ]

/-- `entry(k).or_insert(v)`: an existing entry wins. -/
def orInsert (m : KeyMap κ ν) (k : κ) (v : ν) : KeyMap κ ν :=
  match m.lookup k with
  | some _ => m
  | none => m.insert k v

theorem lookup_orInsert_self (m : KeyMap κ ν) (k : κ) (v : ν) :
    (orInsert m k v).lookup k = some ((m.lookup k).getD v) := by
  unfold orInsert
  split
  · next w h => simp [h]
  · next h => simp [h]

theorem lookup_orInsert_ne (m : KeyMap κ ν) {k k' : κ} (v : ν) (h : k' ≠ k) :
    (orInsert m k v).lookup k' = m.lookup k' := by
  unfold orInsert
  split
  · rfl
  · exact Finmap.lookup_insert_of_ne m h

theorem lookup_orInsert_of_some {m : KeyMap κ ν} {k k' : κ} {v w : ν} (h : m.lookup k' = some w) :
    (orInsert m k v).lookup k' = some w := by
  by_cases hk : k' = k
  · subst hk
    rw [lookup_orInsert_self, h]
    rfl
  · rwa [lookup_orInsert_ne m v hk]

/-- What `or_insert` leaves in the map was there before, or is the new entry
at a key that was free. -/
theorem lookup_orInsert_cases {m : KeyMap κ ν} {k k' : κ} {v w : ν}
    (h : (orInsert m k v).lookup k' = some w) :
    m.lookup k' = some w ∨ (k' = k ∧ w = v ∧ m.lookup k = none) := by
  by_cases hk : k' = k
  · subst hk
    rw [lookup_orInsert_self] at h
    cases hm : m.lookup k' with
    | none => right; simpa [hm, eq_comm] using h
    | some u => left; simpa [hm] using h
  · left
    rwa [lookup_orInsert_ne m v hk] at h

/-- `entry(k).insert(v)`: what is in the map afterwards. -/
theorem lookup_insert_cases {m : KeyMap κ ν} {k k' : κ} {v w : ν}
    (h : Finmap.lookup k' (m.insert k v) = some w) :
    (k' = k ∧ w = v) ∨ (k' ≠ k ∧ m.lookup k' = some w) := by
  by_cases hk : k' = k
  · subst hk
    left
    simpa [eq_comm] using h
  · right
    rw [Finmap.lookup_insert_of_ne m hk] at h
    exact ⟨hk, h⟩

/-- How many values satisfy `p`. -/
def countValues (p : ν → Bool) (m : KeyMap κ ν) : Nat :=
  m.entries.countP fun s => p s.2 = true

/-- The keys whose value satisfies `p`. -/
def keysWith (p : ν → Bool) (m : KeyMap κ ν) : Finset κ :=
  m.keys.filter fun k => (m.lookup k).any p = true

theorem mem_keysWith {p : ν → Bool} {m : KeyMap κ ν} {k : κ} :
    k ∈ keysWith p m ↔ ∃ v, m.lookup k = some v ∧ p v = true := by
  unfold keysWith
  rw [Finset.mem_filter, Finmap.mem_keys]
  constructor
  · rintro ⟨hk, hany⟩
    obtain ⟨v, hv⟩ := Finmap.mem_iff.mp hk
    rw [hv] at hany
    exact ⟨v, hv, hany⟩
  · rintro ⟨v, hv, hp⟩
    refine ⟨Finmap.mem_of_lookup_eq_some hv, ?_⟩
    rw [hv]
    exact hp

/-- Counting values is counting keys: every entry has its own key. -/
theorem countValues_eq_card (p : ν → Bool) (m : KeyMap κ ν) :
    countValues p m = (keysWith p m).card := by
  -- an entry is what the lookup of its key finds
  have hlook : ∀ s ∈ m.entries, (p s.2 = true ↔ (m.lookup s.1).any p = true) := by
    rintro ⟨k, v⟩ hs
    rw [Finmap.lookup_eq_some_iff.mpr hs]
    rfl
  have hkeys : m.keys.val = m.entries.map Sigma.fst := rfl
  unfold countValues keysWith
  rw [Finset.card_def, Finset.filter_val, hkeys, Multiset.filter_map, Multiset.card_map,
    Multiset.countP_eq_card_filter]
  exact congrArg Multiset.card (Multiset.filter_congr fun s hs => hlook s hs)

theorem countValues_mono {p q : ν → Bool} {m m' : KeyMap κ ν}
    (h : ∀ k v, m.lookup k = some v → p v = true → ∃ w, m'.lookup k = some w ∧ q w = true) :
    countValues p m ≤ countValues q m' := by
  rw [countValues_eq_card, countValues_eq_card]
  apply Finset.card_le_card
  intro k hk
  obtain ⟨v, hv, hp⟩ := mem_keysWith.mp hk
  exact mem_keysWith.mpr (h k v hv hp)

/-- The entries in the order the keys are visited. -/
def iter (ord : KeyOrder κ) (m : KeyMap κ ν) : List (κ × ν) :=
  (ord.order m.keys).filterMap fun k => (m.lookup k).map fun v => (k, v)

theorem mem_iter {ord : KeyOrder κ} {m : KeyMap κ ν} {k : κ} {v : ν} :
    (k, v) ∈ iter ord m ↔ m.lookup k = some v := by
  unfold iter
  rw [List.mem_filterMap]
  constructor
  · rintro ⟨k', _, h⟩
    rw [Option.map_eq_some_iff] at h
    obtain ⟨w, hw, heq⟩ := h
    obtain ⟨rfl, rfl⟩ := Prod.mk.injEq .. ▸ heq
    exact hw
  · intro h
    refine ⟨k, ?_, by rw [h]; rfl⟩
    rw [KeyOrder.mem_order, Finmap.mem_keys]
    exact Finmap.mem_of_lookup_eq_some h

/-- The keys come out as they were listed. -/
theorem map_fst_iter (ord : KeyOrder κ) (m : KeyMap κ ν) :
    (iter ord m).map Prod.fst = ord.order m.keys := by
  unfold iter
  rw [List.map_filterMap]
  conv_rhs => rw [← List.filterMap_some (l := ord.order m.keys)]
  apply List.filterMap_congr
  intro k hk
  rw [KeyOrder.mem_order, Finmap.mem_keys] at hk
  obtain ⟨v, hv⟩ := Finmap.mem_iff.mp hk
  simp [hv]

/-- Two orders visit the same entries. -/
theorem iter_perm (ord ord' : KeyOrder κ) (m : KeyMap κ ν) : (iter ord m).Perm (iter ord' m) := by
  apply List.Perm.filterMap
  rw [← Multiset.coe_eq_coe, ord.perm, ord'.perm]

theorem nodup_map_fst_iter (ord : KeyOrder κ) (m : KeyMap κ ν) :
    ((iter ord m).map Prod.fst).Nodup := by
  rw [map_fst_iter]
  exact ord.nodup_order _

/-- A pass over the values meets as many `p`s as the map holds. -/
theorem length_filter_iter (ord : KeyOrder κ) (m : KeyMap κ ν) (p : ν → Bool) :
    ((iter ord m).filter fun e => p e.2).length = countValues p m := by
  have hnodup : (((iter ord m).filter fun e => p e.2).map Prod.fst).Nodup :=
    (nodup_map_fst_iter ord m).sublist (List.filter_sublist.map _)
  rw [countValues_eq_card, ← List.length_map (f := Prod.fst), ← List.toFinset_card_of_nodup hnodup]
  congr 1
  ext k
  rw [List.mem_toFinset, mem_keysWith, List.mem_map]
  constructor
  · rintro ⟨⟨k', v⟩, he, rfl⟩
    rw [List.mem_filter] at he
    exact ⟨v, mem_iter.mp he.1, he.2⟩
  · rintro ⟨v, hv, hp⟩
    exact ⟨(k, v), List.mem_filter.mpr ⟨mem_iter.mpr hv, hp⟩, rfl⟩

end KeyMap
