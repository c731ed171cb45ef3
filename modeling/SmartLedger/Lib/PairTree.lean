import Mathlib.Data.Set.Function
import Mathlib.Data.List.Induction
import Mathlib.Data.Prod.Basic

/-! # Binary trees over a combining function

A tree has values at its leaves, and `f` combines the values of two subtrees
into the value above them. `climb` walks from a value up along a list of
neighbours. If `f` is injective on the pairs that were combined, and no leaf
is itself such a combination, then a climb that ends in the value of a tree
started at one of its leaves (`mem_leaves_of_climb`), whatever its length and
whatever the shape of the tree.

`pairUp` is one pass of building a tree level by level: neighbours are
combined, a lone last tree is passed on as it is. `collapse` repeats it.
-/

/-- A binary tree with values at its leaves. -/
inductive PairTree (α : Type) where
  | leaf (a : α)
  | node (l r : PairTree α)

namespace PairTree

variable {α : Type} (f : α → α → α)

/-- The value of a tree. -/
def eval : PairTree α → α
  | .leaf a => a
  | .node l r => f (eval l) (eval r)

def leaves : PairTree α → List α
  | .leaf a => [a]
  | .node l r => leaves l ++ leaves r

/-- The pairs of values combined inside a tree. -/
def pairs : PairTree α → List (α × α)
  | .leaf _ => []
  | .node l r => (eval f l, eval f r) :: (pairs l ++ pairs r)

/-! ## Climbing -/

/-- One step up, next to a neighbour on the left (`true`) or on the right. -/
def turn (acc : α) (step : Bool × α) : α × α :=
  if step.1 then (step.2, acc) else (acc, step.2)

/-- The value reached from `acc` along a list of neighbours. -/
def climb (acc : α) (steps : List (Bool × α)) : α :=
  steps.foldl (fun acc step => f (turn acc step).1 (turn acc step).2) acc

/-- The pairs of values combined on the way. -/
def climbPairs : α → List (Bool × α) → List (α × α)
  | _, [] => []
  | acc, step :: rest => turn acc step :: climbPairs (f (turn acc step).1 (turn acc step).2) rest

theorem climb_snoc (acc : α) (steps : List (Bool × α)) (step : Bool × α) :
    climb f acc (steps ++ [step]) =
      f (turn (climb f acc steps) step).1 (turn (climb f acc steps) step).2 := by
  simp [climb]

theorem climbPairs_snoc (acc : α) (steps : List (Bool × α)) (step : Bool × α) :
    climbPairs f acc (steps ++ [step]) =
      climbPairs f acc steps ++ [turn (climb f acc steps) step] := by
  induction steps generalizing acc with
  | nil => rfl
  | cons s steps ih =>
      simp only [List.cons_append, climbPairs, ih]
      rfl

theorem mem_leaves_of_climb {S : Set (α × α)} (hinj : Set.InjOn (Function.uncurry f) S)
    {acc : α} (hacc : ∀ p ∈ S, Function.uncurry f p ≠ acc) {steps : List (Bool × α)}
    (hsteps : ∀ p ∈ climbPairs f acc steps, p ∈ S) {t : PairTree α}
    (ht : ∀ p ∈ pairs f t, p ∈ S) (hleaves : ∀ a ∈ leaves t, ∀ p ∈ S, Function.uncurry f p ≠ a)
    (h : climb f acc steps = eval f t) : acc ∈ leaves t := by
  -- the last step of the climb against the root of the tree, then downwards
  induction steps using List.reverseRecOn generalizing t with
  | nil =>
      cases t with
      | leaf a =>
          obtain rfl : acc = a := h
          exact List.mem_singleton_self _
      | node l r => exact absurd h.symm (hacc _ (ht _ List.mem_cons_self))
  | append_singleton steps step ih =>
      rw [climbPairs_snoc] at hsteps
      rw [climb_snoc] at h
      have hlast := hsteps _ (List.mem_append_right _ List.mem_cons_self)
      have hrest : ∀ p ∈ climbPairs f acc steps, p ∈ S :=
        fun p hp => hsteps p (List.mem_append_left _ hp)
      cases t with
      | leaf a => exact absurd h (hleaves a List.mem_cons_self _ hlast)
      | node l r =>
          have hpair := hinj hlast (ht _ List.mem_cons_self) h
          have hl : ∀ p ∈ pairs f l, p ∈ S :=
            fun p hp => ht p (List.mem_cons_of_mem _ (List.mem_append_left _ hp))
          have hr : ∀ p ∈ pairs f r, p ∈ S :=
            fun p hp => ht p (List.mem_cons_of_mem _ (List.mem_append_right _ hp))
          -- the climb came up from the left or from the right subtree
          rcases step with ⟨left, sibling⟩
          cases left with
          | false =>
              have hval : climb f acc steps = eval f l := congrArg Prod.fst hpair
              exact List.mem_append_left _
                (ih hrest hl (fun a ha => hleaves a (List.mem_append_left _ ha)) hval)
          | true =>
              have hval : climb f acc steps = eval f r := congrArg Prod.snd hpair
              exact List.mem_append_right _
                (ih hrest hr (fun a ha => hleaves a (List.mem_append_right _ ha)) hval)

/-! ## Building level by level -/

/-- Combine neighbours; a lone last tree is promoted. -/
def pairUp : List (PairTree α) → List (PairTree α)
  | l :: r :: rest => node l r :: pairUp rest
  | [lone] => [lone]
  | [] => []

theorem leaves_pairUp (ts : List (PairTree α)) :
    (pairUp ts).flatMap leaves = ts.flatMap leaves := by
  fun_induction pairUp ts with
  | case1 l r rest ih => simp [leaves, ih]
  | case2 lone => rfl
  | case3 => rfl

/-- Passes until one tree is left, at most `fuel` of them. -/
def collapse : Nat → List (PairTree α) → List (PairTree α)
  | 0, ts => ts
  | fuel + 1, ts => if 1 < ts.length then collapse fuel (pairUp ts) else ts

theorem leaves_collapse (fuel : Nat) (ts : List (PairTree α)) :
    (collapse fuel ts).flatMap leaves = ts.flatMap leaves := by
  induction fuel generalizing ts with
  | zero => rfl
  | succ fuel ih =>
      unfold collapse
      split
      · rw [ih, leaves_pairUp]
      · rfl

end PairTree
