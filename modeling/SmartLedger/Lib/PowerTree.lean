import Mathlib.Tactic
import Mathlib.Data.Nat.Log

/-! # Trees over lists: level by level, and split at a power of two

Combine neighbours in a list, promoting a lone last node, and repeat until one
node is left. The same value comes of cutting the list at the largest power of
two below its length, doing the same with both parts and combining the two
(`iterate_pass`); and the siblings met on the way up from a node are those of
the cuts (`climb_eq_siblings`).

A pass never mixes the nodes on both sides of an even boundary, so as long as
the first part has a power of two of nodes the passes work on both parts by
themselves.
-/

namespace PowerTree

variable {α : Type}

/-! ## Level by level -/

/-- One pass: combine neighbours, and promote a lone last node. -/
def pass (f : α → α → α) : List α → List α
  | left :: right :: rest => f left right :: pass f rest
  | [lone] => [lone]
  | [] => []

/-- The sibling of the node at `idx` of a level, and whether it is on the left;
a lone last node has none. -/
def hop (nodes : List α) (idx : Nat) : List (Bool × α) :=
  if idx % 2 = 0 then (nodes[idx + 1]?.map (false, ·)).toList
  else (nodes[idx - 1]?.map (true, ·)).toList

/-- The siblings met in a number of passes. -/
def climb (f : α → α → α) : Nat → List α → Nat → List (Bool × α)
  | 0, _, _ => []
  | m + 1, nodes, idx => hop nodes idx ++ climb f m (pass f nodes) (idx / 2)

variable (f : α → α → α)

theorem length_pass (l : List α) : (pass f l).length = (l.length + 1) / 2 := by
  fun_induction pass f l with
  | case1 left right rest ih => simp only [List.length_cons, ih]; omega
  | case2 lone => simp
  | case3 => simp

/-- A pass does not combine across an even boundary. -/
theorem pass_append {as : List α} (heven : 2 ∣ as.length) (bs : List α) :
    pass f (as ++ bs) = pass f as ++ pass f bs := by
  fun_induction pass f as with
  | case1 left right rest ih =>
      have hrest : 2 ∣ rest.length := by
        simp only [List.length_cons] at heven
        omega
      simp only [List.cons_append, pass, ih hrest]
  | case2 lone => simp at heven
  | case3 => rfl

/-- A pass takes one of the twos out of the length. -/
theorem pass_dvd {j : Nat} {as : List α} (hdvd : 2 ^ (j + 1) ∣ as.length) :
    2 ∣ as.length ∧ 2 ^ j ∣ (pass f as).length := by
  rcases hdvd with ⟨c, hc⟩
  have hdouble : as.length = 2 * (2 ^ j * c) := by
    rw [hc, Nat.pow_succ]
    ring
  constructor
  · exact Dvd.intro _ hdouble.symm
  · refine ⟨c, ?_⟩
    rw [length_pass]
    omega

/-- As many passes as its length has twos keep both parts apart. -/
theorem iterate_pass_append {j : Nat} {as : List α} (hdvd : 2 ^ j ∣ as.length) (bs : List α) :
    (pass f)^[j] (as ++ bs) = (pass f)^[j] as ++ (pass f)^[j] bs := by
  induction j generalizing as bs with
  | zero => rfl
  | succ j ih =>
      rcases pass_dvd f hdvd with ⟨heven, hhalf⟩
      rw [Function.iterate_succ_apply, pass_append f heven, ih hhalf]
      rfl

theorem iterate_pass_singleton (m : Nat) (a : α) : (pass f)^[m] [a] = [a] :=
  Function.iterate_fixed rfl m

theorem hop_append_left {as : List α} (heven : 2 ∣ as.length) (bs : List α) {idx : Nat}
    (hlt : idx < as.length) : hop (as ++ bs) idx = hop as idx := by
  unfold hop
  by_cases hleft : idx % 2 = 0
  · rw [if_pos hleft, if_pos hleft, List.getElem?_append_left (by omega)]
  · rw [if_neg hleft, if_neg hleft, List.getElem?_append_left (by omega)]

theorem hop_append_right {as : List α} (heven : 2 ∣ as.length) (bs : List α) {idx : Nat}
    (hle : as.length ≤ idx) : hop (as ++ bs) idx = hop bs (idx - as.length) := by
  unfold hop
  have hparity : (idx - as.length) % 2 = idx % 2 := by omega
  rw [hparity]
  by_cases hleft : idx % 2 = 0
  · rw [if_pos hleft, if_pos hleft, List.getElem?_append_right (by omega),
      show idx + 1 - as.length = idx - as.length + 1 by omega]
  · rw [if_neg hleft, if_neg hleft, List.getElem?_append_right (by omega),
      show idx - 1 - as.length = idx - as.length - 1 by omega]

theorem climb_append_left {j : Nat} {as : List α} (hdvd : 2 ^ j ∣ as.length) (bs : List α)
    {idx : Nat} (hlt : idx < as.length) : climb f j (as ++ bs) idx = climb f j as idx := by
  induction j generalizing as bs idx with
  | zero => rfl
  | succ j ih =>
      rcases pass_dvd f hdvd with ⟨heven, hhalf⟩
      have hlen := length_pass f as
      rw [climb, climb, hop_append_left heven bs hlt, pass_append f heven,
        ih hhalf (pass f bs) (by omega)]

theorem climb_append_right {j : Nat} {as : List α} (hdvd : 2 ^ j ∣ as.length) (bs : List α)
    {idx : Nat} (hle : as.length ≤ idx) :
    climb f j (as ++ bs) idx = climb f j bs (idx - as.length) := by
  induction j generalizing as bs idx with
  | zero => rfl
  | succ j ih =>
      rcases pass_dvd f hdvd with ⟨heven, hhalf⟩
      have hlen := length_pass f as
      rw [climb, climb, hop_append_right heven bs hle, pass_append f heven,
        ih hhalf (pass f bs) (by omega),
        show idx / 2 - (pass f as).length = (idx - as.length) / 2 by omega]

theorem climb_add (j m : Nat) (l : List α) (idx : Nat) :
    climb f (j + m) l idx = climb f j l idx ++ climb f m ((pass f)^[j] l) (idx / 2 ^ j) := by
  induction j generalizing l idx with
  | zero => simp [climb]
  | succ j ih =>
      rw [Nat.succ_add, climb, climb, ih, List.append_assoc, Function.iterate_succ_apply,
        Nat.div_div_eq_div_mul, Nat.pow_succ, Nat.mul_comm 2 (2 ^ j)]

theorem climb_singleton (m : Nat) (a : α) : climb f m [a] 0 = [] := by
  induction m with
  | zero => rfl
  | succ m ih => exact ih

/-- One hop a pass at most. -/
theorem length_climb_le (m : Nat) (l : List α) (idx : Nat) : (climb f m l idx).length ≤ m := by
  induction m generalizing l idx with
  | zero => exact le_rfl
  | succ m ih =>
      have hhop : (hop l idx).length ≤ 1 := by
        unfold hop
        split
        · exact Option.length_toList_le
        · exact Option.length_toList_le
      have hrest := ih (pass f l) (idx / 2)
      rw [climb, List.length_append]
      omega

/-! ## Split at a power of two -/

/-- The largest power of two below `n`. -/
def cut (n : Nat) : Nat := 2 ^ Nat.log 2 (n - 1)

theorem cut_lt {n : Nat} (h : 2 ≤ n) : cut n < n := by
  have hle : cut n ≤ n - 1 := Nat.pow_log_le_self 2 (by omega)
  omega

theorem le_two_mul_cut (n : Nat) : n ≤ 2 * cut n := by
  have hlt : n - 1 < 2 ^ (Nat.log 2 (n - 1) + 1) := Nat.lt_pow_succ_log_self (by omega) _
  rw [Nat.pow_succ] at hlt
  unfold cut
  omega

theorem cut_pos (n : Nat) : 0 < cut n := Nat.pow_pos (by omega)

/-- Every power of two below `n` is at most the cut. -/
theorem le_cut {n j : Nat} (h : 2 ^ j < n) : 2 ^ j ≤ cut n := by
  have hle : 2 ^ j ≤ n - 1 := by omega
  exact Nat.pow_le_pow_right (by omega) (Nat.le_log_of_pow_le (by omega) hle)

/-- The value of a list: that of nothing, the only element, or the values of
the parts before and behind the cut combined. -/
def fold (f : α → α → α) (empty : α) (l : List α) : α :=
  if 2 ≤ l.length then
    f (fold f empty (l.take (cut l.length))) (fold f empty (l.drop (cut l.length)))
  else l.head?.getD empty
termination_by l.length
decreasing_by
  · have := cut_lt ‹_›
    simp only [List.length_take]
    omega
  · have := cut_pos l.length
    simp only [List.length_drop]
    omega

/-- The values of the parts cut off on the way to an element, from the element
up, and whether they are in front. -/
def siblings (f : α → α → α) (empty : α) (idx : Nat) (l : List α) : List (Bool × α) :=
  if 2 ≤ l.length then
    if idx < cut l.length then
      siblings f empty idx (l.take (cut l.length)) ++
        [(false, fold f empty (l.drop (cut l.length)))]
    else
      siblings f empty (idx - cut l.length) (l.drop (cut l.length)) ++
        [(true, fold f empty (l.take (cut l.length)))]
  else []
termination_by l.length
decreasing_by
  · have := cut_lt ‹_›
    simp only [List.length_take]
    omega
  · have := cut_pos l.length
    simp only [List.length_drop]
    omega

/-! ## They agree -/

/-- The parts of a list around the cut: the first has a power of two of
elements, the second is not longer, and the passes that are left are more than
its exponent. -/
theorem exists_cut {l : List α} {m : Nat} (hlong : 2 ≤ l.length) (hle : l.length ≤ 2 ^ m) :
    ∃ j r, m = j + 1 + r ∧ (l.take (cut l.length)).length = 2 ^ j ∧
      l.drop (cut l.length) ≠ [] ∧ (l.drop (cut l.length)).length ≤ 2 ^ j := by
  have hlt := cut_lt hlong
  have htwice := le_two_mul_cut l.length
  have hexp : Nat.log 2 (l.length - 1) < m :=
    (Nat.pow_lt_pow_iff_right (show 1 < 2 by omega)).mp (lt_of_lt_of_le hlt hle)
  refine ⟨Nat.log 2 (l.length - 1), m - (Nat.log 2 (l.length - 1) + 1), by omega, ?_, ?_, ?_⟩
  · exact List.length_take_of_le hlt.le
  · intro hnil
    have hlen := congrArg List.length hnil
    simp only [List.length_drop, List.length_nil] at hlen
    omega
  · show (l.drop (cut l.length)).length ≤ cut l.length
    rw [List.length_drop]
    omega

variable (empty : α)

/-- Enough passes leave the value of the list alone. -/
theorem iterate_pass {l : List α} {m : Nat} (hne : l ≠ []) (hle : l.length ≤ 2 ^ m) :
    (pass f)^[m] l = [fold f empty l] := by
  induction m using Nat.strong_induction_on generalizing l with
  | _ m ih =>
      unfold fold
      by_cases hlong : 2 ≤ l.length
      · rw [if_pos hlong]
        rcases exists_cut hlong hle with ⟨j, r, rfl, hfirst, hrest, hshort⟩
        have hne₁ : l.take (cut l.length) ≠ [] := by
          intro hnil
          rw [hnil, List.length_nil] at hfirst
          exact absurd hfirst.symm (Nat.pow_pos (by omega)).ne'
        -- both parts come down to their values in `j` passes, and combine in the next
        have h₁ := ih j (by omega) hne₁ hfirst.le
        have h₂ := ih j (by omega) hrest hshort
        have hboth : (pass f)^[j] l = [fold f empty (l.take (cut l.length)),
            fold f empty (l.drop (cut l.length))] := by
          conv_lhs => rw [← List.take_append_drop (cut l.length) l]
          rw [iterate_pass_append f (Dvd.intro_left 1 (by omega)), h₁, h₂]
          rfl
        rw [show j + 1 + r = r + (1 + j) by omega, Function.iterate_add_apply,
          Function.iterate_add_apply, hboth]
        exact iterate_pass_singleton f r _
      · rw [if_neg hlong]
        match l, hne with
        | [a], _ => exact iterate_pass_singleton f m a
        | _ :: _ :: _, _ => simp at hlong

/-- And the siblings met are those of the cuts. -/
theorem climb_eq_siblings {l : List α} {m idx : Nat} (hlt : idx < l.length)
    (hle : l.length ≤ 2 ^ m) : climb f m l idx = siblings f empty idx l := by
  induction m using Nat.strong_induction_on generalizing l idx with
  | _ m ih =>
      unfold siblings
      by_cases hlong : 2 ≤ l.length
      · rw [if_pos hlong]
        rcases exists_cut hlong hle with ⟨j, r, rfl, hfirst, hrest, hshort⟩
        have hne₁ : l.take (cut l.length) ≠ [] := by
          intro hnil
          rw [hnil, List.length_nil] at hfirst
          exact absurd hfirst.symm (Nat.pow_pos (by omega)).ne'
        have h₁ := iterate_pass f empty hne₁ hfirst.le
        have h₂ := iterate_pass f empty hrest hshort
        have hdvd : 2 ^ j ∣ (l.take (cut l.length)).length := Dvd.intro_left 1 (by omega)
        -- after `j` passes only the values of the two parts are left
        have hboth : (pass f)^[j] l = [fold f empty (l.take (cut l.length)),
            fold f empty (l.drop (cut l.length))] := by
          conv_lhs => rw [← List.take_append_drop (cut l.length) l]
          rw [iterate_pass_append f hdvd, h₁, h₂]
          rfl
        have hcut : cut l.length = 2 ^ j := by
          rw [← hfirst, List.length_take_of_le (cut_lt hlong).le]
        have htotal : l.length ≤ 2 ^ j + 2 ^ j := by
          have := le_two_mul_cut l.length
          omega
        rw [Nat.add_assoc, climb_add, hboth, Nat.add_comm 1 r, climb]
        by_cases hside : idx < cut l.length
        · -- the first part, then the value of the second on the right
          have hzero : idx / 2 ^ j = 0 := Nat.div_eq_of_lt (by omega)
          have hpart : climb f j l idx = climb f j (l.take (cut l.length)) idx := by
            conv_lhs => rw [← List.take_append_drop (cut l.length) l]
            exact climb_append_left f hdvd _ (by omega)
          rw [if_pos hside, hpart, ih j (by omega) (by omega) hfirst.le, hzero]
          congr 1
          exact congrArg _ (climb_singleton f r _)
        · -- the second part, then the value of the first on the left
          have hone : idx / 2 ^ j = 1 := by
            apply Nat.div_eq_of_lt_le <;> omega
          have hpart : climb f j l idx =
              climb f j (l.drop (cut l.length)) (idx - cut l.length) := by
            conv_lhs => rw [← List.take_append_drop (cut l.length) l]
            rw [climb_append_right f hdvd _ (by omega), hfirst, hcut]
          rw [if_neg hside, hpart, ih j (by omega) (by rw [List.length_drop]; omega) hshort, hone]
          congr 1
          exact congrArg _ (climb_singleton f r _)
      · rw [if_neg hlong]
        match l, hlt with
        | [a], hlt =>
            obtain rfl : idx = 0 := by simpa using hlt
            exact climb_singleton f m a
        | _ :: _ :: _, _ => simp at hlong

end PowerTree
