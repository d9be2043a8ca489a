import Mathlib.Algebra.BigOperators.Group.Finset.Piecewise
import Mathlib.Data.Finset.Card
import Mathlib.Data.Set.Card

/-! How often a table holds a value, and how that number changes with one entry. -/
namespace Count
open Function Finset
variable {ι β : Type*} [DecidableEq β]

/-- The number of indices in `S` at which the table `f` holds `b`. -/
def occ (S : Finset ι) (f : ι → β) (b : β) : ℕ := (S.filter fun i => f i = b).card

variable {S : Finset ι} {f g : ι → β} {b : β}

theorem occ_congr (h : ∀ i ∈ S, f i = g i) : occ S f b = occ S g b := by
  unfold occ
  rw [filter_congr fun i hi => by rw [h i hi]]

theorem occ_eq_zero : occ S f b = 0 ↔ ∀ i ∈ S, f i ≠ b := by
  rw [occ, card_eq_zero, filter_eq_empty_iff]

theorem occ_pos : 0 < occ S f b ↔ ∃ i ∈ S, f i = b := by
  rw [occ, card_pos]
  simp only [Finset.Nonempty, mem_filter]

theorem occ_le_one : occ S f b ≤ 1 ↔ ∀ i ∈ S, ∀ j ∈ S, f i = b → f j = b → i = j := by
  rw [occ, card_le_one]
  simp only [mem_filter]
  exact ⟨fun h i hi j hj hib hjb => h i ⟨hi, hib⟩ j ⟨hj, hjb⟩,
    fun h i hi j hj => h i hi.1 j hj.1 hi.2 hj.2⟩

variable [DecidableEq ι]

theorem occ_update {i : ι} (hi : i ∈ S) (x : β) :
    occ S (update f i x) b + (if f i = b then 1 else 0) =
      occ S f b + (if x = b then 1 else 0) := by
  have hrest : ∀ j ∈ S.erase i, (if update f i x j = b then 1 else 0) =
      if f j = b then 1 else 0 := fun j hj => by
    rw [update_of_ne (ne_of_mem_erase hj)]
  rw [occ, occ, card_filter, card_filter, ← add_sum_erase S _ hi,
    ← add_sum_erase S (fun j => if f j = b then 1 else 0) hi, sum_congr rfl hrest,
    update_self]
  omega

/-- The indices at which the table `f` holds `b`. -/
def fiber {ι β : Type*} (f : ι → β) (b : β) : Set ι := {i | f i = b}

section
variable {ι β : Type*} [DecidableEq ι] {f : ι → β} {a : ι} {b x : β}

theorem fiber_update_self (f : ι → β) (a : ι) (b : β) :
    fiber (update f a b) b = insert a (fiber f b) := by
  ext i
  rcases eq_or_ne i a with rfl | hi
  · simp [fiber]
  · simp [fiber, hi]

theorem fiber_update_of_ne (h : x ≠ b) :
    fiber (update f a x) b = fiber f b \ {a} := by
  ext i
  rcases eq_or_ne i a with rfl | hi
  · simp [fiber, h]
  · simp [fiber, hi]

theorem fiber_update_same (ha : f a ≠ b) (h : x ≠ b) :
    fiber (update f a x) b = fiber f b := by
  rw [fiber_update_of_ne h]
  exact Set.sdiff_singleton_eq_self ha

theorem ncard_fiber_insert (ha : f a ≠ b) (hfin : (fiber f b).Finite) :
    (fiber (update f a b) b).ncard = (fiber f b).ncard + 1 := by
  rw [fiber_update_self]
  exact Set.ncard_insert_of_notMem ha hfin

theorem ncard_fiber_erase (ha : f a = b) (h : x ≠ b) (hfin : (fiber f b).Finite) :
    (fiber (update f a x) b).ncard + 1 = (fiber f b).ncard := by
  rw [fiber_update_of_ne h]
  exact Set.ncard_sdiff_singleton_add_one ha hfin

end

end Count
