import Mathlib.Data.List.Basic
import Mathlib.Data.List.Nodup
import Mathlib.Logic.Basic

/-! A store after a list of writes, applied in order. -/
namespace Writes
open Function List
variable {ι β : Type*} [DecidableEq ι]

def apply (d : ι → β) (ws : List (ι × β)) : ι → β :=
  ws.foldl (fun d w => update d w.1 w.2) d

@[simp] theorem apply_nil (d : ι → β) : apply d [] = d := rfl

@[simp] theorem apply_cons (d : ι → β) (w : ι × β) (ws : List (ι × β)) :
    apply d (w :: ws) = apply (update d w.1 w.2) ws := rfl

theorem apply_append (d : ι → β) (ws vs : List (ι × β)) :
    apply d (ws ++ vs) = apply (apply d ws) vs := foldl_append

variable {ws : List (ι × β)} {i : ι}

theorem apply_of_notMem (d : ι → β) (h : i ∉ ws.map Prod.fst) : apply d ws i = d i := by
  induction ws generalizing d with
  | nil => rfl
  | cons w ws ih =>
    simp only [map_cons, mem_cons, not_or] at h
    rw [apply_cons, ih _ h.2, update_of_ne h.1]

theorem apply_congr {d e : ι → β}
    (h : i ∉ ws.map Prod.fst → d i = e i) : apply d ws i = apply e ws i := by
  induction ws generalizing d e with
  | nil => exact h not_mem_nil
  | cons w ws ih =>
    rw [apply_cons, apply_cons]
    apply ih
    intro hi
    rcases eq_or_ne i w.1 with rfl | hw
    · rw [update_self, update_self]
    · rw [update_of_ne hw, update_of_ne hw]
      exact h (by simpa [hw] using hi)

theorem apply_of_agree (d : ι → β) {s : ι → β} (hs : ∀ w ∈ ws, w.2 = s w.1)
    (hi : i ∈ ws.map Prod.fst) : apply d ws i = s i := by
  induction ws generalizing d with
  | nil => cases hi
  | cons w ws ih =>
    rw [apply_cons]
    by_cases h : i ∈ ws.map Prod.fst
    · exact ih _ (fun v hv => hs v (mem_cons_of_mem _ hv)) h
    · have hw : i = w.1 := by simpa [h] using hi
      rw [apply_of_notMem _ h, hw, update_self, hs w mem_cons_self]

theorem apply_of_mem (d : ι → β) (hn : (ws.map Prod.fst).Nodup) {w : ι × β}
    (hw : w ∈ ws) : apply d ws w.1 = w.2 := by
  induction ws generalizing d with
  | nil => cases hw
  | cons v ws ih =>
    rw [map_cons, nodup_cons] at hn
    rcases mem_cons.mp hw with rfl | hw
    · rw [apply_cons, apply_of_notMem _ hn.1, update_self]
    · exact ih _ hn.2 hw

omit [DecidableEq ι] in
theorem notMem_take (k : ℕ) (h : i ∉ ws.map Prod.fst) : i ∉ (ws.take k).map Prod.fst := by
  rw [map_take]
  exact fun hi => h (mem_of_mem_take hi)

end Writes
