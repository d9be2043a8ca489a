import Xv6.Lib.Xorshift

/-! The random numbers of the lottery scheduler. -/
namespace Xv6.Sched
open Function List

def seed : BitVec 32 := 37

def nextRand (r_x : BitVec 32) : BitVec 32 :=
  let r_x := r_x ^^^ r_x <<< 13
  let r_x := r_x ^^^ r_x >>> 17
  r_x ^^^ r_x <<< 5

def randInt : StateM (BitVec 32) (BitVec 32) := do
  modify nextRand
  get

def draws : ℕ → StateM (BitVec 32) (List (BitVec 32))
  | 0 => return []
  | n + 1 => do
    let random ← randInt
    let rest ← draws n
    return random :: rest

def randState (n : ℕ) : BitVec 32 := ((draws n).run seed).2

theorem nextRand_injective : Injective nextRand :=
  (Xorshift.shiftLeft_injective (by decide : 0 < 5)).comp
    ((Xorshift.ushiftRight_injective (by decide : 0 < 17)).comp
      (Xorshift.shiftLeft_injective (by decide : 0 < 13)))

theorem draws_run (n : ℕ) (x : BitVec 32) :
    (draws n).run x = ((List.range n).map fun i => nextRand^[i + 1] x, nextRand^[n] x) := by
  induction n generalizing x with
  | zero => rfl
  | succ n ih =>
    have hrun : (draws (n + 1)).run x =
        (nextRand x :: ((draws n).run (nextRand x)).1, ((draws n).run (nextRand x)).2) := rfl
    rw [hrun, ih, range_succ_eq_map, map_cons, map_map]
    rfl

theorem randState_eq (n : ℕ) : randState n = nextRand^[n] seed := by
  rw [randState, draws_run]

theorem iterate_ne_zero {x : BitVec 32} (hx : x ≠ 0) (n : ℕ) : nextRand^[n] x ≠ 0 := by
  have hzero : nextRand^[n] 0 = 0 := iterate_fixed (by decide) n
  intro h
  exact hx (nextRand_injective.iterate n (h.trans hzero.symm))

/-- The update of `rand_int` is a bijection that fixes 0. From the seed the state never is 0, the
values drawn repeat from the first on, and the seed is reached again from every state. -/
theorem rand_periodic :
    Bijective nextRand ∧ nextRand 0 = 0 ∧ (∀ n, randState n ≠ 0) ∧
    (∃ p > 0, ∀ n, ((draws (n + p)).run seed).1.drop p = ((draws n).run seed).1 ∧
      randState (n + p) = randState n) ∧
    ∀ n, ∃ k, ((draws k).run (randState n)).2 = seed := by
  have := Xorshift.finite_word (w := 32)
  refine ⟨Finite.injective_iff_bijective.mp nextRand_injective, by decide, fun n => ?_, ?_, ?_⟩
  · rw [randState_eq]
    exact iterate_ne_zero (by decide) n
  · obtain ⟨p, hp, hperiod⟩ := nextRand_injective.mem_periodicPts seed
    refine ⟨p, hp, fun n => ⟨?_, ?_⟩⟩
    · rw [draws_run, draws_run, Nat.add_comm n p, range_add, map_append,
        drop_left' (by rw [length_map, length_range]), map_map]
      refine map_congr_left fun i _ => ?_
      rw [comp_apply, Nat.add_assoc, Nat.add_comm, iterate_add_apply, hperiod.eq]
    · rw [randState_eq, randState_eq, iterate_add_apply, hperiod.eq]
  · intro n
    obtain ⟨p, hp, hperiod⟩ := nextRand_injective.mem_periodicPts seed
    -- go on to the next multiple of the period
    refine ⟨p * n - n, ?_⟩
    have hle : n ≤ p * n := Nat.le_mul_of_pos_left n hp
    rw [draws_run, randState_eq, ← iterate_add_apply, Nat.sub_add_cancel hle]
    exact hperiod.mul_const n

end Xv6.Sched
