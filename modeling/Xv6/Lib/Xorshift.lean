import Mathlib.Data.BitVec
import Mathlib.Dynamics.PeriodicPts.Lemmas

/-! Words xored with a shift of themselves. -/
namespace Xorshift
open BitVec
variable {w : ℕ}

theorem finite_word : Finite (BitVec w) :=
  Finite.of_injective BitVec.toFin fun _ _ h => eq_of_toFin_eq h

/-- The low bits that a shift to the left brings in are known, and each bit gives the one `k`
places above it. -/
theorem shiftLeft_injective {k : ℕ} (hk : 0 < k) :
    Function.Injective fun x : BitVec w => x ^^^ x <<< k := by
  intro x y h
  apply eq_of_getLsbD_eq
  intro i hi
  induction i using Nat.strong_induction_on with
  | _ i ih =>
    have hbit := congrArg (fun v => BitVec.getLsbD v i) h
    simp only [getLsbD_xor, getLsbD_shiftLeft, hi, decide_true,
      Bool.true_and] at hbit
    by_cases hik : i < k
    · simpa [hik] using hbit
    · have hlow := ih (i - k) (by omega) (by omega)
      rw [hlow] at hbit
      exact Bool.xor_left_inj.mp hbit

theorem ushiftRight_injective {k : ℕ} (hk : 0 < k) :
    Function.Injective fun x : BitVec w => x ^^^ x >>> k := by
  intro x y h
  have hbits : ∀ j i, w ≤ i + j → x.getLsbD i = y.getLsbD i := by
    intro j
    induction j with
    | zero =>
      intro i hi
      rw [getLsbD_of_ge x i hi, getLsbD_of_ge y i hi]
    | succ j ih =>
      intro i hi
      have hbit := congrArg (fun v => BitVec.getLsbD v i) h
      simp only [getLsbD_xor, getLsbD_ushiftRight] at hbit
      rw [ih (k + i) (by omega)] at hbit
      exact Bool.xor_left_inj.mp hbit
  apply eq_of_getLsbD_eq
  exact fun i hi => hbits w i (by omega)

end Xorshift
