import Mathlib.Algebra.Order.BigOperators.Group.Finset
import Mathlib.Algebra.Order.Floor.Div
import Mathlib.Data.BitVec
import Mathlib.Data.Int.CardIntervalMod
import Mathlib.Data.Set.Card

/-! How many of the first `N` numbers have their remainder modulo `n` in a given set. -/
namespace Residue
open BitVec Finset

/-- Each remainder is hit `N / n` times, or once more. -/
theorem card_mod_eq (N : ℕ) {n r : ℕ} (hr : r < n) :
    N / n ≤ ((Finset.range N).filter (· % n = r)).card ∧
      ((Finset.range N).filter (· % n = r)).card ≤ N ⌈/⌉ n := by
  have hn : 0 < n := by omega
  have hcount : ((Finset.range N).filter (· % n = r)).card = N / n + if r < N % n then 1 else 0 := by
    have h := Nat.count_modEq_card N hn r
    rw [Nat.count_eq_card_filter_range, Nat.mod_eq_of_lt hr] at h
    rw [← h]
    congr 1
    refine filter_congr fun x _ => ?_
    rw [Nat.ModEq, Nat.mod_eq_of_lt hr]
  rw [hcount]
  refine ⟨Nat.le_add_right _ _, ?_⟩
  split_ifs with h
  · rw [Nat.ceilDiv_eq_add_pred_div, Nat.le_div_iff_mul_le hn, Nat.add_mul, Nat.one_mul]
    have := Nat.div_add_mod' N n
    omega
  · exact Nat.div_le_div_right (by omega)

theorem card_mod_mem (N : ℕ) {n : ℕ} {R : Finset ℕ} (hR : ∀ r ∈ R, r < n) :
    R.card * (N / n) ≤ ((Finset.range N).filter (· % n ∈ R)).card ∧
      ((Finset.range N).filter (· % n ∈ R)).card ≤ R.card * (N ⌈/⌉ n) := by
  have hfiber : ((Finset.range N).filter (· % n ∈ R)).card =
      ∑ r ∈ R, ((Finset.range N).filter (· % n = r)).card := by
    have hmaps : ∀ x ∈ (Finset.range N).filter (· % n ∈ R), x % n ∈ R := fun x hx =>
      (mem_filter.mp hx).2
    refine (card_eq_sum_card_fiberwise hmaps).trans (sum_congr rfl fun r hr => ?_)
    rw [filter_filter]
    congr 1
    refine filter_congr fun x _ => ⟨fun h => h.2, fun h => ⟨h ▸ hr, h⟩⟩
  rw [hfiber]
  constructor
  · rw [← smul_eq_mul]
    exact card_nsmul_le_sum _ _ _ fun r hr => (card_mod_eq N (hR r hr)).1
  · rw [← smul_eq_mul]
    exact sum_le_card_nsmul _ _ _ fun r hr => (card_mod_eq N (hR r hr)).2

theorem ncard_mod_mem {w n : ℕ} {R : Finset ℕ} (hR : ∀ r ∈ R, r < n) :
    R.card * (2 ^ w / n) ≤ {x : BitVec w | x.toNat % n ∈ R}.ncard ∧
      {x : BitVec w | x.toNat % n ∈ R}.ncard ≤ R.card * (2 ^ w ⌈/⌉ n) := by
  have himage : BitVec.toNat '' {x : BitVec w | x.toNat % n ∈ R} =
      ((Finset.range (2 ^ w)).filter (· % n ∈ R) : Finset ℕ) := by
    ext y
    simp only [Set.mem_image, Set.mem_ofPred_eq, coe_filter, mem_range]
    constructor
    · rintro ⟨x, hx, rfl⟩
      exact ⟨x.isLt, hx⟩
    · rintro ⟨hy, hr⟩
      exact ⟨BitVec.ofNat w y, by rwa [toNat_ofNat, Nat.mod_eq_of_lt hy], by
        rw [toNat_ofNat, Nat.mod_eq_of_lt hy]⟩
  have hinj : Function.Injective (BitVec.toNat : BitVec w → ℕ) := fun _ _ => eq_of_toNat_eq
  rw [← Set.ncard_image_of_injective _ hinj, himage, Set.ncard_coe_finset]
  exact card_mod_mem _ hR

end Residue
