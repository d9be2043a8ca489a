import Mathlib.Data.BitVec
import Mathlib.Logic.Basic
import Mathlib.Tactic.Ring

/-! Copies of a range of cells onto a range that may overlap it, cell by cell in either
direction. -/
namespace Move
open Function BitVec
variable {w : ℕ} {β : Type*}

def forward (m : BitVec w → β) (d s : BitVec w) : ℕ → BitVec w → β
  | 0 => m
  | n + 1 => forward (update m d (m s)) (d + 1) (s + 1) n

def backward (m : BitVec w → β) (d s : BitVec w) : ℕ → BitVec w → β
  | 0 => m
  | n + 1 => backward (update m (d - 1) (m (s - 1))) (d - 1) (s - 1) n

def moved (m : BitVec w → β) (d s : BitVec w) (n : ℕ) (x : BitVec w) : β :=
  if d.toNat ≤ x.toNat ∧ x.toNat < d.toNat + n then m (s + (x - d)) else m x

variable {m : BitVec w → β} {d s x : BitVec w} {n : ℕ}

theorem moved_in (h : d.toNat ≤ x.toNat) (hx : x.toNat < d.toNat + n) :
    moved m d s n x = m (s + (x - d)) := if_pos ⟨h, hx⟩

theorem moved_out (h : x.toNat < d.toNat ∨ d.toNat + n ≤ x.toNat) : moved m d s n x = m x :=
  if_neg (by omega)

theorem toNat_source (hs : s.toNat + n ≤ 2 ^ w) (h : d.toNat ≤ x.toNat)
    (hx : x.toNat < d.toNat + n) : (s + (x - d)).toNat = s.toNat + (x.toNat - d.toNat) := by
  rw [toNat_add, toNat_sub_of_le h, Nat.mod_eq_of_lt (by omega)]

theorem toNat_add_ofNat (h : x.toNat + n < 2 ^ w) : (x + BitVec.ofNat w n).toNat = x.toNat + n := by
  rw [toNat_add, toNat_ofNat, Nat.add_mod_mod, Nat.mod_eq_of_lt h]

theorem forward_eq (hd : d.toNat + n ≤ 2 ^ w) (hs : s.toNat + n ≤ 2 ^ w)
    (h : d.toNat ≤ s.toNat ∨ s.toNat + n ≤ d.toNat) : forward m d s n = moved m d s n := by
  induction n generalizing m d s with
  | zero => exact funext fun x => (moved_out (by omega)).symm
  | succ n ih =>
    -- the cell written is not among the source cells that are still to be read
    have hrest : ∀ x, d.toNat < x.toNat → x.toNat < d.toNat + (n + 1) →
        update m d (m s) (s + (x - d)) = m (s + (x - d)) := by
      intro x hlt hx
      refine update_of_ne (fun heq => ?_) _ _
      have hsrc := toNat_source hs hlt.le hx
      rw [heq] at hsrc
      omega
    have hfirst : moved m d s (n + 1) d = m s := by
      rw [moved_in (le_refl _) (by omega), BitVec.sub_self, BitVec.add_zero]
    rw [forward]
    cases n with
    | zero =>
      funext x
      by_cases hx : x = d
      · rw [hx, hfirst]
        exact update_self ..
      · have hne : x.toNat ≠ d.toNat := fun h => hx (eq_of_toNat_eq h)
        rw [moved_out (by omega)]
        exact update_of_ne hx ..
    | succ n =>
      have hd1 : (d + 1).toNat = d.toNat + 1 := toNat_add_ofNat (n := 1) (by omega)
      have hs1 : (s + 1).toNat = s.toNat + 1 := toNat_add_ofNat (n := 1) (by omega)
      rw [ih (by omega) (by omega) (by omega)]
      funext x
      by_cases hx : x = d
      · rw [hx, hfirst, moved_out (by omega)]
        exact update_self ..
      · have hne : x.toNat ≠ d.toNat := fun h => hx (eq_of_toNat_eq h)
        by_cases hin : d.toNat ≤ x.toNat ∧ x.toNat < d.toNat + (n + 1 + 1)
        · have hsum : s + 1 + (x - (d + 1)) = s + (x - d) := by ring
          rw [moved_in hin.1 hin.2, moved_in (by omega) (by omega), hsum,
            hrest x (by omega) hin.2]
        · rw [moved_out (by omega), moved_out (by omega)]
          exact update_of_ne hx ..

theorem backward_eq (hd : d.toNat + n ≤ 2 ^ w) (hs : s.toNat + n ≤ 2 ^ w)
    (h : s.toNat ≤ d.toNat ∨ d.toNat + n ≤ s.toNat) :
    backward m (d + BitVec.ofNat w n) (s + BitVec.ofNat w n) n = moved m d s n := by
  induction n generalizing m with
  | zero => exact funext fun x => (moved_out (by omega)).symm
  | succ n ih =>
    have hpred : ∀ p : BitVec w, p + BitVec.ofNat w (n + 1) - 1 = p + BitVec.ofNat w n := by
      intro p
      rw [ofNat_add]
      change p + (BitVec.ofNat w n + 1) - 1 = _
      ring
    have hlast : (d + BitVec.ofNat w n).toNat = d.toNat + n := toNat_add_ofNat (by omega)
    rw [backward, hpred, hpred, ih (by omega) (by omega) (by omega)]
    funext x
    by_cases hx : x = d + BitVec.ofNat w n
    · have hsub : s + (x - d) = s + BitVec.ofNat w n := by
        rw [hx]
        ring
      rw [moved_out (by rw [hx, hlast]; omega), moved_in (by rw [hx, hlast]; omega)
        (by rw [hx, hlast]; omega), hsub, hx]
      exact update_self ..
    · have hne : x.toNat ≠ d.toNat + n := fun h => hx (eq_of_toNat_eq (h.trans hlast.symm))
      by_cases hin : d.toNat ≤ x.toNat ∧ x.toNat < d.toNat + n
      · rw [moved_in hin.1 hin.2, moved_in hin.1 (by omega)]
        refine update_of_ne (fun heq => ?_) _ _
        have hsrc := toNat_source (s := s) (n := n) (by omega) hin.1 hin.2
        rw [heq, hlast] at hsrc
        omega
      · rw [moved_out (by omega), moved_out (by omega)]
        exact update_of_ne hx ..

end Move
