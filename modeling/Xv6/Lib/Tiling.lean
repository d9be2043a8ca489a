import Mathlib.Algebra.BigOperators.Group.List.Basic
import Mathlib.Algebra.Order.BigOperators.Group.List
import Mathlib.Algebra.Order.Monoid.Defs
import Mathlib.Data.List.GetD

/-! Consecutive intervals laid end to end: the `i`-th weight of a list owns the points
after the sum of the earlier weights, up to and including the sum with its own. -/
namespace Tiling
open List

def before {α : Type*} [AddCommMonoid α] (ws : List α) (i : ℕ) : α := (ws.take i).sum

def Owns {α : Type*} [AddCommMonoid α] [LT α] [LE α] (ws : List α) (i : ℕ) (x : α) : Prop :=
  i < ws.length ∧ before ws i < x ∧ x ≤ before ws (i + 1)

section Sums
variable {α : Type*} [AddCommMonoid α]

theorem before_zero (ws : List α) : before ws 0 = 0 := by simp [before]

theorem before_cons_succ (w : α) (ws : List α) (i : ℕ) :
    before (w :: ws) (i + 1) = w + before ws i := by
  simp only [before, take_succ_cons, sum_cons]

theorem before_length (ws : List α) : before ws ws.length = ws.sum := by
  simp only [before, take_length]

theorem before_succ (ws : List α) (i : ℕ) : before ws (i + 1) = before ws i + ws.getD i 0 := by
  induction ws generalizing i with
  | nil => simp [before]
  | cons w ws ih =>
    cases i with
    | zero => simp [before]
    | succ i => rw [before_cons_succ, before_cons_succ, ih, getD_cons_succ, add_assoc]

end Sums

section Order
variable {α : Type*} [AddCommMonoid α] [LinearOrder α] [IsOrderedAddMonoid α] {ws : List α}

theorem before_mono (hw : ∀ w ∈ ws, 0 ≤ w) : Monotone (before ws) := by
  refine monotone_nat_of_le_succ fun i => ?_
  rw [before_succ]
  refine le_add_of_nonneg_right ?_
  rcases lt_or_ge i ws.length with hi | hi
  · rw [getD_eq_getElem _ _ hi]
    exact hw _ (getElem_mem hi)
  · rw [getD_eq_default _ _ hi]

theorem before_le_sum (hw : ∀ w ∈ ws, 0 ≤ w) {i : ℕ} (hi : i ≤ ws.length) :
    before ws i ≤ ws.sum := (before_mono hw hi).trans_eq (before_length ws)

theorem before_nonneg (hw : ∀ w ∈ ws, 0 ≤ w) (i : ℕ) : 0 ≤ before ws i :=
  (before_zero ws).ge.trans (before_mono hw (Nat.zero_le i))

theorem owns_unique (hw : ∀ w ∈ ws, 0 ≤ w) {i j : ℕ} {x : α}
    (hi : Owns ws i x) (hj : Owns ws j x) : i = j := by
  rcases lt_trichotomy i j with h | h | h
  · exact absurd (hi.2.2.trans (before_mono hw h)) (not_le.mpr hj.2.1)
  · exact h
  · exact absurd (hj.2.2.trans (before_mono hw h)) (not_le.mpr hi.2.1)

omit [IsOrderedAddMonoid α] in
theorem exists_owns {x : α} (hx : 0 < x) (hs : x ≤ ws.sum) : ∃ i, Owns ws i x := by
  have key : ∀ n, n ≤ ws.length → x ≤ before ws n → ∃ i, Owns ws i x := by
    intro n
    induction n with
    | zero =>
      intro _ h
      exact absurd (hx.trans_le h) (by rw [before_zero]; exact lt_irrefl 0)
    | succ n ih =>
      intro hn h
      rcases lt_or_ge (before ws n) x with hlt | hge
      · exact ⟨n, hn, hlt, h⟩
      · exact ih (Nat.le_of_succ_le hn) hge
  exact key ws.length le_rfl (hs.trans_eq (before_length ws).symm)

end Order

end Tiling
