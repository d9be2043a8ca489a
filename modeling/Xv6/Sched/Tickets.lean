import Mathlib.Data.BitVec
import Xv6.Lib.Tiling
import Xv6.Sched.Proc

/-! `calculate_procs_ticket` in exact integers: slot `i` gets the stretch after the tickets of
the slots before it, everything reduced to 32 bits. -/
namespace Xv6.Sched
open Tiling

structure Lot where
  live : Bool
  tickets : BitVec 32
  beginning : BitVec 32
  last : BitVec 32
  deriving DecidableEq, Repr

def Proc.lot (p : Proc) : Lot :=
  ⟨p.state ≠ .unused, p.tickets, p.ticketsWinningRangeBeginning, p.ticketsWinningRangeEnd⟩

def Lot.weight (l : Lot) : ℤ := if l.live then l.tickets.toInt else 0

def Lot.counted (l : Lot) : Bool := l.live && l.tickets ≠ 0

def Proc.weight (p : Proc) : ℤ := if p.state = .unused then 0 else p.tickets.toInt

def ticketSum (ps : List Proc) : ℤ := (ps.map Proc.weight).sum

theorem lot_weight (p : Proc) : p.lot.weight = p.weight := by
  by_cases h : p.state = .unused <;> simp [Lot.weight, Proc.lot, Proc.weight, h]

theorem lot_counted (p : Proc) : p.lot.counted = p.counted := rfl

theorem ticketSum_eq (ps : List Proc) : ticketSum ps = ((ps.map Proc.lot).map Lot.weight).sum := by
  simp only [ticketSum, List.map_map, Function.comp_def, lot_weight]

theorem Lot.weight_of_not_counted {l : Lot} (h : l.counted = false) : l.weight = 0 := by
  simp only [Lot.counted, Bool.and_eq_false_iff, decide_eq_false_iff_not, not_not] at h
  rcases h with h | h <;> simp [Lot.weight, h]

theorem Lot.weight_of_counted {l : Lot} (h : l.counted = true) : l.weight = l.tickets.toInt := by
  simp only [Lot.counted, Bool.and_eq_true] at h
  simp [Lot.weight, h.1]

def Lot.ranged (t : ℤ) (l : Lot) : Lot :=
  if l.counted then
    { l with beginning := BitVec.ofInt 32 (t + 1), last := BitVec.ofInt 32 (t + l.weight) }
  else l

@[simp] theorem Lot.ranged_live (t : ℤ) (l : Lot) : (l.ranged t).live = l.live := by
  unfold Lot.ranged; split <;> rfl

@[simp] theorem Lot.ranged_tickets (t : ℤ) (l : Lot) : (l.ranged t).tickets = l.tickets := by
  unfold Lot.ranged; split <;> rfl

@[simp] theorem Lot.ranged_weight (t : ℤ) (l : Lot) : (l.ranged t).weight = l.weight := by
  simp [Lot.weight]

@[simp] theorem Lot.ranged_counted (t : ℤ) (l : Lot) : (l.ranged t).counted = l.counted := by
  simp [Lot.counted]

def rangeAll (t : ℤ) (ls : List Lot) : List Lot :=
  ls.mapIdx fun i l => l.ranged (t + before (ls.map Lot.weight) i)

theorem rangeAll_cons (t : ℤ) (l : Lot) (ls : List Lot) :
    rangeAll t (l :: ls) = l.ranged t :: rangeAll (t + l.weight) ls := by
  simp only [rangeAll, List.mapIdx_cons, List.map_cons, before_zero, add_zero, before_cons_succ,
    add_assoc]

theorem rangeAll_weight (t : ℤ) (ls : List Lot) :
    (rangeAll t ls).map Lot.weight = ls.map Lot.weight := by
  induction ls generalizing t with
  | nil => rfl
  | cons l ls ih => rw [rangeAll_cons, List.map_cons, List.map_cons, Lot.ranged_weight, ih]

theorem calculateProcsTicket_lot (t : ℤ) (ps : List Proc) :
    (calculateProcsTicket (BitVec.ofInt 32 t) ps).1.map Proc.lot = rangeAll t (ps.map Proc.lot) ∧
      (calculateProcsTicket (BitVec.ofInt 32 t) ps).2 = BitVec.ofInt 32 (t + ticketSum ps) := by
  induction ps generalizing t with
  | nil => simp [calculateProcsTicket, rangeAll, ticketSum]
  | cons p ps ih =>
    have hsum : ticketSum (p :: ps) = p.weight + ticketSum ps := by
      simp only [ticketSum, List.map_cons, List.sum_cons]
    rw [List.map_cons, rangeAll_cons, lot_weight, hsum, ← add_assoc]
    unfold calculateProcsTicket
    split
    · rename_i hc
      have hc' : p.lot.counted = true := hc
      have hw : p.tickets = BitVec.ofInt 32 p.weight := by
        rw [← lot_weight, Lot.weight_of_counted hc']
        exact (BitVec.ofInt_toInt).symm
      have hadd : BitVec.ofInt 32 t + p.tickets = BitVec.ofInt 32 (t + p.weight) := by
        rw [BitVec.ofInt_add, ← hw]
      obtain ⟨h₁, h₂⟩ := ih (t + p.weight)
      simp only [hadd]
      refine ⟨?_, h₂⟩
      rw [List.map_cons, h₁]
      congr 1
      rw [Lot.ranged, if_pos hc', lot_weight, BitVec.ofInt_add t 1]
      rfl
    · rename_i hc
      have hc' : p.lot.counted = false := by simpa only [lot_counted, Bool.not_eq_true] using hc
      have hw : p.weight = 0 := by rw [← lot_weight, Lot.weight_of_not_counted hc']
      obtain ⟨h₁, h₂⟩ := ih t
      simp only [hw, add_zero]
      refine ⟨?_, h₂⟩
      rw [List.map_cons, h₁]
      simp [Lot.ranged, hc']

theorem map_lot_modify {ps : List Proc} {i : ℕ} {f : Proc → Proc}
    (h : ∀ p, ps[i]? = some p → (f p).lot = p.lot) : (ps.modify i f).map Proc.lot = ps.map Proc.lot := by
  induction ps generalizing i with
  | nil => simp
  | cons q ps ih =>
    cases i with
    | zero => simp [h q (by simp)]
    | succ i => simpa using ih fun p hp => h p (by simpa using hp)

theorem clearSchedCnt_lot (s : Table) :
    (clearSchedCnt s).proc.map Proc.lot = s.proc.map Proc.lot ∧
      (clearSchedCnt s).totalTickets = s.totalTickets := by
  unfold clearSchedCnt
  split
  · refine ⟨?_, rfl⟩
    rw [List.map_map]
    refine List.map_congr_left fun p _ => ?_
    simp only [Function.comp_def]
    split <;> rfl
  · exact ⟨rfl, rfl⟩

theorem setProcTickets_lot (s : Table) (i : ℕ) (n : BitVec 32) :
    let ls := (s.proc.modify i fun p => { p with tickets := n }).map Proc.lot
    (setProcTickets .lottery s i n).proc.map Proc.lot = rangeAll 0 ls ∧
      (setProcTickets .lottery s i n).totalTickets = BitVec.ofInt 32 (ls.map Lot.weight).sum := by
  obtain ⟨h₁, h₂⟩ := calculateProcsTicket_lot 0 (s.proc.modify i fun p => { p with tickets := n })
  rw [ticketSum_eq, zero_add] at h₂
  refine ⟨?_, ?_⟩
  · rw [← h₁]
    exact (clearSchedCnt_lot _).1
  · rw [← h₂]
    exact (clearSchedCnt_lot _).2

end Xv6.Sched
