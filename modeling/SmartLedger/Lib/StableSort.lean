import Mathlib.Data.List.Sort
import Mathlib.Tactic

/-! # What comes after an element in a stable sort

Sorting by a rank is stable: after an occurrence of `x` come the elements of
higher rank, and those of the same rank that were after it already
(`insertionSort_split_iff`); an element added at the end of the list goes
behind all of its own rank (`insertionSort_concat`).
-/

namespace StableSort

variable {α : Type*} (rank : α → Nat)

/-- Insertion into a sorted list: right after the elements of lower rank. -/
theorem orderedInsert_split (a : α) {l : List α} (hl : l.Pairwise fun x y => rank x ≤ rank y) :
    ∃ low high, l = low ++ high ∧
      l.orderedInsert (fun x y => rank x ≤ rank y) a = low ++ a :: high ∧
      (∀ b ∈ low, rank b < rank a) ∧ ∀ b ∈ high, rank a ≤ rank b := by
  induction l with
  | nil => exact ⟨[], [], rfl, rfl, by simp, by simp⟩
  | cons b l ih =>
      rcases List.pairwise_cons.mp hl with ⟨hb, hl'⟩
      by_cases hab : rank a ≤ rank b
      · refine ⟨[], b :: l, rfl, by simp [hab], by simp, ?_⟩
        intro y hy
        rcases List.mem_cons.mp hy with rfl | hy
        · exact hab
        · exact hab.trans (hb y hy)
      · rcases ih hl' with ⟨low, high, rfl, hins, hlow, hhigh⟩
        refine ⟨b :: low, high, rfl, by simp [hab, hins], ?_, hhigh⟩
        intro y hy
        rcases List.mem_cons.mp hy with rfl | hy
        · exact not_le.mp hab
        · exact hlow y hy

theorem pairwise_sort (l : List α) :
    (l.insertionSort fun x y => rank x ≤ rank y).Pairwise fun x y => rank x ≤ rank y := by
  have htrans : IsTrans α (fun x y => rank x ≤ rank y) := ⟨fun _ _ _ => le_trans⟩
  have htotal : Std.Total (fun x y : α => rank x ≤ rank y) := ⟨fun x y => le_total _ _⟩
  exact List.pairwise_insertionSort _ l

variable {rank} {P : α → Prop} {x : α}

/-- An occurrence in the sorted list with only `P`s after it comes from one
in the original list. -/
theorem split_of_sort_split {l pre post : List α}
    (h : (l.insertionSort fun a b => rank a ≤ rank b) = pre ++ x :: post)
    (hP : ∀ y ∈ post, P y) :
    ∃ before after, l = before ++ x :: after ∧
      (∀ y ∈ before, rank x < rank y → P y) ∧ ∀ y ∈ after, rank x ≤ rank y → P y := by
  induction l generalizing pre post with
  | nil => simp at h
  | cons a l ih =>
      rcases orderedInsert_split rank a (pairwise_sort rank l) with
        ⟨low, high, hsort, hins, hlow, hhigh⟩
      rw [List.insertionSort_cons, hins] at h
      -- where the new element `a` stands relative to the occurrence of `x`
      have hself : a = x → (∀ y ∈ high, P y) → ∃ before after, a :: l = before ++ x :: after ∧
          (∀ y ∈ before, rank x < rank y → P y) ∧ ∀ y ∈ after, rank x ≤ rank y → P y := by
        intro hax hhighP
        refine ⟨[], l, by rw [hax, List.nil_append], by simp, ?_⟩
        intro y hy hle
        have hmem : y ∈ low ++ high := by
          rw [← hsort, List.mem_insertionSort]
          exact hy
        rcases List.mem_append.mp hmem with hy | hy
        · have := hlow y hy
          rw [hax] at this
          omega
        · exact hhighP y hy
      rcases List.append_eq_append_iff.mp h with ⟨mid, hpre, htail⟩ | ⟨mid, hlowEq, htail⟩
      · cases mid with
        | nil =>
            rw [List.nil_append, List.cons.injEq] at htail
            rcases htail with ⟨hax, rfl⟩
            exact hself hax hP
        | cons a' mid =>
            rw [List.cons_append, List.cons.injEq] at htail
            rcases htail with ⟨_, rfl⟩
            rw [← List.append_assoc] at hsort
            -- `a` went before `x`, so the later part is as it was
            rcases ih hsort hP with ⟨before, after, rfl, hbefore, hafter⟩
            refine ⟨a :: before, after, rfl, ?_, hafter⟩
            intro y hy hlt
            rcases List.mem_cons.mp hy with rfl | hy
            · have := hhigh x (List.mem_append_right _ List.mem_cons_self)
              omega
            · exact hbefore y hy hlt
      · cases mid with
        | nil =>
            rw [List.nil_append, List.cons.injEq] at htail
            rcases htail with ⟨hxa, rfl⟩
            exact hself hxa.symm hP
        | cons x' mid =>
            rw [List.cons_append, List.cons.injEq] at htail
            rcases htail with ⟨rfl, rfl⟩
            rw [hlowEq, List.append_assoc, List.cons_append] at hsort
            -- `a` went after `x`; without it the later part is `mid ++ high`
            have hrest : ∀ y ∈ mid ++ high, P y := by
              intro y hy
              rcases List.mem_append.mp hy with hy | hy
              · exact hP y (List.mem_append_left _ hy)
              · exact hP y (List.mem_append_right _ (List.mem_cons_of_mem _ hy))
            have ha : P a := hP a (List.mem_append_right _ List.mem_cons_self)
            rcases ih hsort hrest with ⟨before, after, rfl, hbefore, hafter⟩
            refine ⟨a :: before, after, rfl, ?_, hafter⟩
            intro y hy hlt
            rcases List.mem_cons.mp hy with rfl | hy
            · exact ha
            · exact hbefore y hy hlt

/-- And back. -/
theorem sort_split_of_split {before after : List α}
    (hbefore : ∀ y ∈ before, rank x < rank y → P y)
    (hafter : ∀ y ∈ after, rank x ≤ rank y → P y) :
    ∃ pre post,
      ((before ++ x :: after).insertionSort fun a b => rank a ≤ rank b) = pre ++ x :: post ∧
      ∀ y ∈ post, P y := by
  induction before with
  | nil =>
      rcases orderedInsert_split rank x (pairwise_sort rank after) with
        ⟨low, high, hsort, hins, _, hhigh⟩
      refine ⟨low, high, hins, ?_⟩
      intro y hy
      have hmem : y ∈ after.insertionSort fun a b => rank a ≤ rank b := by
        rw [hsort]
        exact List.mem_append_right _ hy
      exact hafter y ((List.mem_insertionSort _).mp hmem) (hhigh y hy)
  | cons a before ih =>
      have hbefore' : ∀ y ∈ before, rank x < rank y → P y :=
        fun y hy => hbefore y (List.mem_cons_of_mem _ hy)
      rcases ih hbefore' with ⟨pre, post, hsplit, hpost⟩
      rcases orderedInsert_split rank a (pairwise_sort rank (before ++ x :: after)) with
        ⟨low, high, hsort, hins, hlow, _⟩
      rw [List.cons_append, List.insertionSort_cons, hins]
      rw [hsplit] at hsort
      rcases List.append_eq_append_iff.mp hsort with ⟨mid, hlowEq, htail⟩ | ⟨mid, hpre, htail⟩
      · cases mid with
        | nil =>
            refine ⟨low ++ [a], post, ?_, hpost⟩
            rw [List.nil_append] at htail
            rw [← htail, List.append_assoc, List.singleton_append]
        | cons x' mid =>
            -- `a` was put after `x`, so it has a higher rank
            rw [List.cons_append, List.cons.injEq] at htail
            rcases htail with ⟨rfl, rfl⟩
            refine ⟨pre, mid ++ a :: high, by rw [hlowEq, List.append_assoc, List.cons_append], ?_⟩
            intro y hy
            rcases List.mem_append.mp hy with hy | hy
            · exact hpost y (List.mem_append_left _ hy)
            · rcases List.mem_cons.mp hy with rfl | hy
              · apply hbefore y List.mem_cons_self
                apply hlow
                rw [hlowEq]
                exact List.mem_append_right _ List.mem_cons_self
              · exact hpost y (List.mem_append_right _ hy)
      · refine ⟨low ++ a :: mid, post, ?_, hpost⟩
        rw [htail, List.append_assoc, List.cons_append]

theorem insertionSort_split_iff {l : List α} :
    (∃ pre post, (l.insertionSort fun a b => rank a ≤ rank b) = pre ++ x :: post ∧
      ∀ y ∈ post, P y) ↔
    ∃ before after, l = before ++ x :: after ∧
      (∀ y ∈ before, rank x < rank y → P y) ∧ ∀ y ∈ after, rank x ≤ rank y → P y := by
  constructor
  · rintro ⟨pre, post, hsplit, hpost⟩
    exact split_of_sort_split hsplit hpost
  · rintro ⟨before, after, rfl, hbefore, hafter⟩
    exact sort_split_of_split hbefore hafter

/-! ## One more element at the end -/

theorem orderedInsert_append_of_lt {a : α} {low high : List α} (h : ∀ b ∈ low, rank b < rank a) :
    (low ++ high).orderedInsert (fun x y => rank x ≤ rank y) a =
      low ++ high.orderedInsert (fun x y => rank x ≤ rank y) a := by
  induction low with
  | nil => rfl
  | cons b low ih =>
      have hb : ¬ rank a ≤ rank b := not_le.mpr (h b List.mem_cons_self)
      rw [List.cons_append, List.orderedInsert_cons, if_neg hb,
        ih fun y hy => h y (List.mem_cons_of_mem _ hy), List.cons_append]

theorem orderedInsert_append_of_le {a : α} {low high : List α} (h : ∀ b ∈ high, rank a ≤ rank b) :
    (low ++ high).orderedInsert (fun x y => rank x ≤ rank y) a =
      low.orderedInsert (fun x y => rank x ≤ rank y) a ++ high := by
  induction low with
  | nil =>
      cases high with
      | nil => rfl
      | cons b high =>
          rw [List.nil_append, List.orderedInsert_cons, if_pos (h b List.mem_cons_self)]
          rfl
  | cons b low ih =>
      rw [List.cons_append, List.orderedInsert_cons, List.orderedInsert_cons]
      by_cases hab : rank a ≤ rank b
      · rw [if_pos hab, if_pos hab]
        rfl
      · rw [if_neg hab, if_neg hab, ih, List.cons_append]

/-- An element added at the end of a list is sorted right behind the elements
of its own or a lower rank. -/
theorem insertionSort_concat (l : List α) (x : α) :
    ∃ low high, (l.insertionSort fun a b => rank a ≤ rank b) = low ++ high ∧
      ((l ++ [x]).insertionSort fun a b => rank a ≤ rank b) = low ++ x :: high ∧
      (∀ b ∈ low, rank b ≤ rank x) ∧ ∀ b ∈ high, rank x < rank b := by
  induction l with
  | nil => exact ⟨[], [], rfl, rfl, by simp, by simp⟩
  | cons a l ih =>
      rcases ih with ⟨low, high, hsort, hsort', hlow, hhigh⟩
      rw [List.cons_append, List.insertionSort_cons, List.insertionSort_cons, hsort, hsort']
      by_cases hax : rank a ≤ rank x
      · -- `a` goes into the lower part, with or without `x`
        have hle : ∀ b ∈ high, rank a ≤ rank b := fun b hb => hax.trans (hhigh b hb).le
        refine ⟨low.orderedInsert (fun a b => rank a ≤ rank b) a, high,
          orderedInsert_append_of_le hle, orderedInsert_append_of_le ?_, ?_, hhigh⟩
        · intro b hb
          rcases List.mem_cons.mp hb with rfl | hb
          · exact hax
          · exact hle b hb
        · intro b hb
          rcases (List.mem_orderedInsert _).mp hb with rfl | hb
          · exact hax
          · exact hlow b hb
      · have hlt : ∀ b ∈ low, rank b < rank a :=
          fun b hb => lt_of_le_of_lt (hlow b hb) (not_le.mp hax)
        refine ⟨low, high.orderedInsert (fun a b => rank a ≤ rank b) a,
          orderedInsert_append_of_lt hlt, ?_, hlow, ?_⟩
        · rw [orderedInsert_append_of_lt hlt, List.orderedInsert_cons, if_neg hax]
        · intro b hb
          rcases (List.mem_orderedInsert _).mp hb with rfl | hb
          · exact not_le.mp hax
          · exact hhigh b hb

/-! ## Related lists -/

/-- Inserting related elements into related lists, when related elements have
one rank. -/
theorem forall₂_orderedInsert {R : α → α → Prop} (hR : ∀ a b, R a b → rank a = rank b) {a b : α}
    (hab : R a b) {l l' : List α} (h : List.Forall₂ R l l') :
    List.Forall₂ R (l.orderedInsert (fun x y => rank x ≤ rank y) a)
      (l'.orderedInsert (fun x y => rank x ≤ rank y) b) := by
  induction h with
  | nil => exact List.Forall₂.cons hab List.Forall₂.nil
  | @cons x y l l' hxy hrest ih =>
      have hle : rank a ≤ rank x ↔ rank b ≤ rank y := by rw [hR a b hab, hR x y hxy]
      by_cases hax : rank a ≤ rank x
      · rw [List.orderedInsert, List.orderedInsert, if_pos hax, if_pos (hle.mp hax)]
        exact List.Forall₂.cons hab (List.Forall₂.cons hxy hrest)
      · rw [List.orderedInsert, List.orderedInsert, if_neg hax,
          if_neg fun hby => hax (hle.mpr hby)]
        exact List.Forall₂.cons hxy ih

theorem forall₂_insertionSort {R : α → α → Prop} (hR : ∀ a b, R a b → rank a = rank b)
    {l l' : List α} (h : List.Forall₂ R l l') :
    List.Forall₂ R (l.insertionSort fun x y => rank x ≤ rank y)
      (l'.insertionSort fun x y => rank x ≤ rank y) := by
  induction h with
  | nil => exact List.Forall₂.nil
  | cons hxy _ ih => exact forall₂_orderedInsert hR hxy ih

/-- Rearrangements sort to one list where the rank tells elements apart. -/
theorem insertionSort_eq_of_perm {l l' : List α} (hperm : l.Perm l')
    (hinj : ∀ a ∈ l, ∀ b ∈ l, rank a = rank b → a = b) :
    (l.insertionSort fun x y => rank x ≤ rank y) = l'.insertionSort fun x y => rank x ≤ rank y := by
  have hsort : ∀ k : List α, (k.insertionSort fun x y => rank x ≤ rank y).Perm k :=
    fun k => List.perm_insertionSort _ k
  apply List.Perm.eq_of_pairwise _ (pairwise_sort rank l) (pairwise_sort rank l')
  · exact ((hsort l).trans hperm).trans (hsort l').symm
  · intro a b ha hb hab hba
    exact hinj a ((hsort l).mem_iff.mp ha) b (hperm.mem_iff.mpr ((hsort l').mem_iff.mp hb))
      (le_antisymm hab hba)

end StableSort
