import Mathlib.Data.List.Basic
import Mathlib.Data.List.Range
import Mathlib.Algebra.Order.BigOperators.Group.List
import Mathlib.Algebra.Order.Group.Nat
import Mathlib.Algebra.GroupWithZero.Nat

/-! Linked lists of nodes, and sums over the owners of nodes. A node that is in one place
counts once there and not at all elsewhere, so that moving it is arithmetic. -/

namespace CloudCryptFS.Util.Linked

section Chain
variable {ν : Type} {next next' : ν → Option ν} {head : Option ν} {l : List ν} {n : ν}

/-- The nodes from `head` on, each with its next node. -/
inductive Chain (next : ν → Option ν) : Option ν → List ν → Prop where
  | nil : Chain next none []
  | cons {n : ν} {l : List ν} (rest : Chain next (next n) l) : Chain next (some n) (n :: l)

theorem Chain.of_none (chain : Chain next none l) : l = [] := by
  cases chain
  rfl

theorem Chain.of_some (chain : Chain next (some n) l) : ∃ rest, l = n :: rest ∧ Chain next (next n) rest := by
  cases chain with
  | cons rest => exact ⟨_, rfl, rest⟩

theorem Chain.of_nil (chain : Chain next head []) : head = none := by
  cases chain
  rfl

theorem Chain.congr (chain : Chain next head l) (same : ∀ n ∈ l, next' n = next n) : Chain next' head l := by
  induction chain with
  | nil => exact .nil
  | cons rest ih =>
    have here := same _ List.mem_cons_self
    refine .cons ?_
    rw [here]
    exact ih (fun n member => same n (List.mem_cons_of_mem _ member))

/-- A chain is determined by its first node. -/
theorem Chain.unique {m : List ν} (chain : Chain next head l) (other : Chain next head m) : l = m := by
  induction chain generalizing m with
  | nil => exact other.of_none.symm
  | cons rest ih =>
    obtain ⟨tail, rfl, later⟩ := other.of_some
    rw [ih later]

theorem Chain.range' (first count : Nat) {next : Nat → Option Nat}
    (linked : ∀ n, first ≤ n → n < first + count → next n = if n + 1 < first + count then some (n + 1) else none) :
    Chain next (if 0 < count then some first else none) (List.range' first count) := by
  induction count generalizing first with
  | zero => exact .nil
  | succ count ih =>
    rw [if_pos (Nat.succ_pos count), List.range'_succ]
    refine .cons ?_
    have here := linked first le_rfl (by omega)
    have rest := ih (first + 1) (fun n above below => by
      rw [linked n (by omega) (by omega)]
      congr 1
      exact propext (by omega))
    rw [here]
    by_cases more : 0 < count
    · rw [if_pos more] at rest
      rw [if_pos (by omega)]
      exact rest
    · rw [if_neg more] at rest
      rw [if_neg (by omega)]
      exact rest

end Chain

section Sum
variable {α : Type} {l : List α} {k : Nat} {x : α} {f g : α → Nat}

/-- One place of the list changes, and so does what is counted there. -/
theorem sum_set (here : l[k]? = some x) (y : α) (others : ∀ j z, j ≠ k → l[j]? = some z → g z = f z) :
    ((l.set k y).map g).sum + f x = (l.map f).sum + g y := by
  induction l generalizing k with
  | nil => cases here
  | cons first rest ih =>
    cases k with
    | zero =>
      cases here
      have same : rest.map g = rest.map f := by
        apply List.map_congr_left
        intro z member
        obtain ⟨j, there⟩ := List.mem_iff_getElem?.mp member
        exact others (j + 1) z (Nat.succ_ne_zero j) there
      rw [List.set_cons_zero, List.map_cons, List.map_cons, List.sum_cons, List.sum_cons, same]
      omega
    | succ k =>
      have before := ih here (fun j z different there => others (j + 1) z (fun same => different (Nat.succ.inj same)) there)
      have same := others 0 first (Nat.succ_ne_zero k).symm rfl
      rw [List.set_cons_succ, List.map_cons, List.map_cons, List.sum_cons, List.sum_cons, same]
      omega

theorem le_sum (here : l[k]? = some x) : f x ≤ (l.map f).sum :=
  List.single_le_sum (fun _ _ => Nat.zero_le _) _ (List.mem_map_of_mem (List.mem_of_getElem? here))

/-- Two places of the list count at most together. -/
theorem add_le_sum {j : Nat} {y : α} (here : l[k]? = some x) (there : l[j]? = some y) (different : j ≠ k) :
    f x + f y ≤ (l.map f).sum := by
  induction l generalizing j k with
  | nil => cases here
  | cons first rest ih =>
    rw [List.map_cons, List.sum_cons]
    cases k with
    | zero =>
      cases here
      cases j with
      | zero => exact absurd rfl different
      | succ j => exact Nat.add_le_add_left (le_sum (l := rest) there) _
    | succ k =>
      cases j with
      | zero =>
        cases there
        rw [Nat.add_comm]
        exact Nat.add_le_add_left (le_sum (l := rest) here) _
      | succ j => exact (ih here there (fun same => different (congrArg Nat.succ same))).trans (Nat.le_add_left _ _)

theorem exists_of_sum_pos (positive : 0 < (l.map f).sum) : ∃ x ∈ l, 0 < f x := by
  by_contra none
  push Not at none
  have zero : (l.map f).sum = 0 := by
    apply List.sum_eq_zero
    intro n member
    obtain ⟨x, inside, rfl⟩ := List.mem_map.mp member
    exact Nat.le_zero.mp (none x inside)
  omega

end Sum

end CloudCryptFS.Util.Linked
