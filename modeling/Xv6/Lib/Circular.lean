import Mathlib.Data.BitVec
import Mathlib.Data.List.Basic
import Mathlib.Logic.Basic

/-! A queue in a circular array of `N` cells. The two counters run freely and wrap at `2 ^ k`;
counter `c` stands for cell `c % N`. -/
namespace Circular
open Function List BitVec
variable {α : Type*} {N k : ℕ} [NeZero N]

def cell (N : ℕ) [NeZero N] (c : BitVec k) : Fin N := Fin.ofNat N c.toNat

/-- The array holds the queue `l`, from counter `r` up to counter `w`. -/
structure Holds (data : Fin N → α) (r w : BitVec k) (l : List α) : Prop where
  length_le : l.length ≤ N
  tail : w = r + BitVec.ofNat k l.length
  data : ∀ i x, l[i]? = some x → data (cell N (r + BitVec.ofNat k i)) = x

variable {data : Fin N → α} {r w : BitVec k} {l : List α} {x : α}

theorem cell_val (hN : N ∣ 2 ^ k) (c : BitVec k) (i : ℕ) :
    (cell N (c + BitVec.ofNat k i)).val = (c.toNat + i) % N := by
  rw [cell, Fin.val_ofNat, toNat_add, toNat_ofNat, Nat.mod_mod_of_dvd _ hN,
    Nat.add_mod, Nat.mod_mod_of_dvd _ hN, ← Nat.add_mod]

theorem cell_ne (hN : N ∣ 2 ^ k) (c : BitVec k) {i j : ℕ} (hij : i < j) (hj : j < i + N) :
    cell N (c + BitVec.ofNat k i) ≠ cell N (c + BitVec.ofNat k j) := by
  intro he
  have hv := congrArg Fin.val he
  rw [cell_val hN, cell_val hN] at hv
  have hmod : c.toNat + i ≡ c.toNat + j [MOD N] := hv
  obtain ⟨q, hq⟩ := (Nat.modEq_iff_dvd' hij.le).mp (Nat.ModEq.add_left_cancel' _ hmod)
  have hpos : 0 < q := Nat.pos_of_ne_zero fun h => by subst h; omega
  have := Nat.le_mul_of_pos_right N hpos
  omega

theorem holds_nil (data : Fin N → α) (c : BitVec k) : Holds data c c [] :=
  ⟨Nat.zero_le N, by simp, by simp⟩

theorem Holds.count (h : Holds data r w l) (hlt : N < 2 ^ k) : (w - r).toNat = l.length := by
  have hl := h.length_le
  rw [h.tail, BitVec.add_comm, BitVec.add_sub_cancel, toNat_ofNat, Nat.mod_eq_of_lt (by omega)]

theorem Holds.empty_iff (h : Holds data r w l) (hlt : N < 2 ^ k) : r = w ↔ l = [] := by
  rw [← length_eq_zero_iff, ← h.count hlt]
  constructor
  · rintro rfl
    simp
  · intro hz
    have hsub : w - r = 0 := eq_of_toNat_eq (by simpa using hz)
    exact (sub_eq_zero.mp hsub).symm

theorem Holds.full_iff (h : Holds data r w l) (hlt : N < 2 ^ k) :
    w = r + BitVec.ofNat k N ↔ l.length = N := by
  rw [← h.count hlt]
  constructor
  · rintro rfl
    rw [BitVec.add_comm, BitVec.add_sub_cancel, toNat_ofNat, Nat.mod_eq_of_lt hlt]
  · intro hn
    rw [← hn, ofNat_toNat, setWidth_eq, BitVec.add_comm, BitVec.sub_add_cancel]

theorem Holds.push (h : Holds data r w l) (hN : N ∣ 2 ^ k) (hl : l.length < N) (x : α) :
    Holds (update data (cell N w) x) r (w + 1) (l ++ [x]) := by
  refine ⟨by rw [length_append]; exact hl, ?_, fun i y hy => ?_⟩
  · rw [h.tail, length_append, length_singleton, ofNat_add, BitVec.add_assoc]
    rfl
  · rw [getElem?_append] at hy
    split_ifs at hy with hi
    · rw [update_of_ne, h.data i y hy]
      rw [h.tail]
      exact cell_ne hN r hi (by omega)
    · obtain ⟨hz, rfl⟩ : i - l.length = 0 ∧ x = y := by
        rcases Nat.eq_zero_or_pos (i - l.length) with hz | hz
        · rw [hz] at hy
          exact ⟨hz, by simpa using hy⟩
        · rw [List.getElem?_eq_none (show [x].length ≤ _ from hz)] at hy
          cases hy
      rw [show i = l.length by omega, ← h.tail, update_self]

theorem Holds.pop (h : Holds data r w (x :: l)) :
    data (cell N r) = x ∧ Holds data (r + 1) w l := by
  have hlen := h.length_le
  rw [length_cons] at hlen
  refine ⟨by simpa using h.data 0 x rfl, by omega, ?_, fun i y hy => ?_⟩
  · rw [h.tail, length_cons, Nat.add_comm, ofNat_add, BitVec.add_assoc]
    rfl
  · rw [← h.data (i + 1) y (by simpa using hy), Nat.add_comm i 1, ofNat_add, ← BitVec.add_assoc]
    rfl

theorem Holds.unpush (h : Holds data r w (l ++ [x])) :
    data (cell N (w - 1)) = x ∧ Holds data r (w - 1) l := by
  have hlen := h.length_le
  rw [length_append, length_singleton] at hlen
  have hw : w - 1 = r + BitVec.ofNat k l.length := by
    rw [h.tail, length_append, length_singleton, ofNat_add, ← BitVec.add_assoc]
    exact add_sub_cancel_right _ _
  refine ⟨?_, by omega, hw, fun i y hy => h.data i y ?_⟩
  · rw [hw]
    exact h.data l.length x (by simp)
  · obtain ⟨hi, -⟩ := List.getElem?_eq_some_iff.mp hy
    rw [getElem?_append_left hi, hy]

end Circular
