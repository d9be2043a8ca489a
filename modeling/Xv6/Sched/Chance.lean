import Xv6.Lib.Residue
import Xv6.Sched.Lottery

/-! The lottery right after `calculate_procs_ticket`: every process holds as many tickets as it
has, and wins in proportion to them over all values of `random`. -/
namespace Xv6.Sched.Lottery
open Tiling List

def recounted (s : Table) : Table :=
  { s with
    proc := (calculateProcsTicket 0 s.proc).1
    totalTickets := (calculateProcsTicket 0 s.proc).2 }

def winningRange (p : Proc) : Finset ℕ :=
  Finset.Icc p.ticketsWinningRangeBeginning.toNat p.ticketsWinningRangeEnd.toNat

def HasTickets (p : Proc) : Prop := p.state ≠ .unused ∧ 0 < p.tickets.toInt

theorem HasTickets.counted {p : Proc} (h : HasTickets p) : p.counted = true := by
  have hne : p.tickets ≠ 0 := by
    intro h₀
    have := h.2
    simp [h₀] at this
  simpa [Proc.counted, h.1] using hne

theorem hasTickets_of_weight {p : Proc} (h : 0 < p.weight) : HasTickets p := by
  unfold Proc.weight at h
  split_ifs at h with hu
  · exact absurd h (lt_irrefl 0)
  · exact ⟨hu, h⟩

structure Proportional (s : Table) : Prop where
  total : (s.totalTickets.toNat : ℤ) = ticketSum s.proc
  disjoint : ∀ (i j : ℕ) (p q : Proc), s.proc[i]? = some p → s.proc[j]? = some q → HasTickets p → HasTickets q →
    i ≠ j → Disjoint (winningRange p) (winningRange q)
  card : ∀ p ∈ s.proc, HasTickets p → ((winningRange p).card : ℤ) = p.tickets.toInt
  cover : ∀ w, (∃ p ∈ s.proc, HasTickets p ∧ w ∈ winningRange p) ↔
    w ∈ Finset.Icc 1 s.totalTickets.toNat
  chance : ∀ (old : Option ℕ) (i : ℕ) (p : Proc), s.proc[i]? = some p → p.state ≠ .unused →
    p.tickets.toNat * (2 ^ 32 / s.totalTickets.toNat) ≤
        {random | drawWinner s old random = some i}.ncard ∧
      {random | drawWinner s old random = some i}.ncard ≤
        p.tickets.toNat * (2 ^ 32 ⌈/⌉ s.totalTickets.toNat)

structure Ranged (ws : List ℤ) (s : Table) : Prop where
  weights : ws = s.proc.map Proc.weight
  nonneg : ∀ w ∈ ws, 0 ≤ w
  pos : 1 ≤ ws.sum
  small : ws.sum < 2 ^ 31
  total : (s.totalTickets.toNat : ℤ) = ws.sum
  slot : ∀ i p, s.proc[i]? = some p → p.counted →
    (p.ticketsWinningRangeBeginning.toNat : ℤ) = before ws i + 1 ∧
      (p.ticketsWinningRangeEnd.toNat : ℤ) = before ws (i + 1)

theorem recounted_lot (s : Table) :
    (recounted s).proc.map Proc.lot = rangeAll 0 (s.proc.map Proc.lot) ∧
      (recounted s).totalTickets = BitVec.ofInt 32 (ticketSum s.proc) := by
  obtain ⟨h₁, h₂⟩ := calculateProcsTicket_lot 0 s.proc
  rw [zero_add] at h₂
  exact ⟨h₁, h₂⟩

theorem weight_nonneg {ps : List Proc} (h : ∀ p ∈ ps, p.state ≠ .unused → 0 ≤ p.tickets.toInt) :
    ∀ w ∈ ps.map Proc.weight, 0 ≤ w := by
  intro w hw
  obtain ⟨p, hp, rfl⟩ := mem_map.mp hw
  unfold Proc.weight
  split_ifs with hu
  · exact le_rfl
  · exact h p hp hu

theorem ranged_recounted {s : Table}
    (hnonneg : ∀ p ∈ s.proc, p.state ≠ .unused → 0 ≤ p.tickets.toInt)
    (hpos : 1 ≤ ticketSum s.proc) (hsmall : ticketSum s.proc < 2 ^ 31) :
    Ranged (s.proc.map Proc.weight) (recounted s) := by
  obtain ⟨hlot, htotal⟩ := recounted_lot s
  have hnn := weight_nonneg hnonneg
  have hws : (s.proc.map Proc.lot).map Lot.weight = s.proc.map Proc.weight := by
    simp only [map_map, Function.comp_def, lot_weight]
  refine ⟨?_, hnn, hpos, hsmall, ?_, ?_⟩
  · have h := congrArg (List.map Lot.weight) hlot
    rw [rangeAll_weight, hws] at h
    rw [← h]
    simp only [map_map, Function.comp_def, lot_weight]
  · rw [htotal]
    exact toNat_ofInt_small (by omega) (by omega)
  · intro i p hp hc
    have hl : (rangeAll 0 (s.proc.map Proc.lot))[i]? = some p.lot := by
      rw [← hlot, getElem?_map, hp]
      rfl
    rw [rangeAll, getElem?_mapIdx, Option.map_eq_some_iff, hws] at hl
    obtain ⟨m, hm, hml⟩ := hl
    have hmc : m.counted = true := by
      rw [← Lot.ranged_counted, hml]
      exact hc
    obtain ⟨hi, -⟩ := List.getElem?_eq_some_iff.mp hm
    have hi' : i < (s.proc.map Proc.weight).length := by simpa using hi
    have hmw : m.weight = (s.proc.map Proc.weight).getD i 0 := by
      rw [← hws, getD_eq_getElem?_getD, getElem?_map, hm]
      rfl
    have h₀ := before_nonneg hnn i
    have h₁ := before_nonneg hnn (i + 1)
    have h₂ : before (s.proc.map Proc.weight) (i + 1) < 2 ^ 31 :=
      (before_le_sum hnn hi').trans_lt hsmall
    have h₃ : before (s.proc.map Proc.weight) i ≤ before (s.proc.map Proc.weight) (i + 1) :=
      before_mono hnn (Nat.le_succ i)
    rw [Lot.ranged, if_pos hmc, zero_add, hmw, ← before_succ] at hml
    have hb := congrArg Lot.beginning hml
    have he := congrArg Lot.last hml
    simp only [Proc.lot] at hb he
    rw [← hb, ← he]
    exact ⟨toNat_ofInt_small (by omega) (by omega), toNat_ofInt_small h₁ (by omega)⟩

section
variable {ws : List ℤ} {s : Table} (h : Ranged ws s)
include h

variable {p : Proc} {i : ℕ}

theorem Ranged.weight_eq (hp : s.proc[i]? = some p) :
    before ws (i + 1) = before ws i + p.weight := by
  rw [before_succ, h.weights, getD_eq_getElem?_getD, getElem?_map, hp]
  rfl

/-- The slots that hold a ticket are those that own it in the tiling by the weights; a slot
that is not counted has weight zero and owns nothing. -/
theorem Ranged.holds_iff (w : BitVec 32) (i : ℕ) : Holds s w i ↔ Owns ws i (w.toNat : ℤ) := by
  have hlen : ws.length = s.proc.length := by rw [h.weights, length_map]
  constructor
  · rintro ⟨p, hp, hs, ht, hb, he⟩
    obtain ⟨hi, -⟩ := List.getElem?_eq_some_iff.mp hp
    obtain ⟨h₁, h₂⟩ := h.slot i p hp (by simpa [Proc.counted, hs] using ht)
    exact ⟨hlen ▸ hi, by omega, by omega⟩
  · rintro ⟨hi, hlt, hle⟩
    have hp := getElem?_eq_getElem (hlen ▸ hi)
    have hw := h.weight_eq hp
    have hc : s.proc[i].counted = true := (hasTickets_of_weight (by omega)).counted
    obtain ⟨h₁, h₂⟩ := h.slot i _ hp hc
    simp only [Proc.counted, Bool.and_eq_true, decide_eq_true_eq] at hc
    exact ⟨_, hp, hc.1, hc.2, by omega, by omega⟩

theorem Ranged.winner (old : Option ℕ) (random : BitVec 32) (i : ℕ) :
    drawWinner s old random = some i ↔ Owns ws i ((random.toNat % s.totalTickets.toNat : ℕ) + 1) := by
  have htot := h.total
  have hpos := h.pos
  have hsmall := h.small
  have hmod := Nat.mod_lt random.toNat (y := s.totalTickets.toNat) (by omega)
  have ht₀ : 0 < s.totalTickets.toNat := by omega
  have hw := winnerTicket_toNat ht₀ (by omega) random
  have hcast : ((winnerTicket s.totalTickets random).toNat : ℤ) =
      (random.toNat % s.totalTickets.toNat : ℕ) + 1 := by rw [hw, Nat.cast_add, Nat.cast_one]
  rw [← hcast]
  have hle : ((winnerTicket s.totalTickets random).toNat : ℤ) ≤ ws.sum := by omega
  obtain ⟨j, hj⟩ := exists_owns (by omega) hle
  have huniq : ∀ k, Owns ws k ((winnerTicket s.totalTickets random).toNat : ℤ) → k = j := fun k hk =>
    owns_unique h.nonneg hk hj
  have hdraw := drawWinner_of_unique ((h.holds_iff _ j).mpr hj)
    (fun k hk => huniq k ((h.holds_iff _ k).mp hk)) old
  rw [hdraw]
  exact ⟨fun hij => Option.some.inj hij ▸ hj, fun hi => by rw [huniq i hi]⟩

theorem Ranged.mem_winningRange (hp : s.proc[i]? = some p) (ht : HasTickets p)
    (w : ℕ) : w ∈ winningRange p ↔ Owns ws i (w : ℤ) := by
  obtain ⟨hi, -⟩ := List.getElem?_eq_some_iff.mp hp
  obtain ⟨h₁, h₂⟩ := h.slot i p hp ht.counted
  rw [winningRange, Finset.mem_Icc, Owns, h.weights, length_map, ← h.weights]
  omega

theorem Ranged.winner_iff_mem (old : Option ℕ) (random : BitVec 32)
    (hp : s.proc[i]? = some p) :
    drawWinner s old random = some i ↔ random.toNat % s.totalTickets.toNat ∈
      Finset.Ico (before ws i).toNat (before ws (i + 1)).toNat := by
  obtain ⟨hi, -⟩ := List.getElem?_eq_some_iff.mp hp
  have h₀ := before_nonneg h.nonneg i
  have h₁ := before_nonneg h.nonneg (i + 1)
  rw [h.winner, Finset.mem_Ico, Owns, h.weights, length_map, ← h.weights]
  omega

theorem Ranged.chance (old : Option ℕ) (hp : s.proc[i]? = some p) (hs : p.state ≠ .unused) :
    p.tickets.toNat * (2 ^ 32 / s.totalTickets.toNat) ≤
        {random | drawWinner s old random = some i}.ncard ∧
      {random | drawWinner s old random = some i}.ncard ≤
        p.tickets.toNat * (2 ^ 32 ⌈/⌉ s.totalTickets.toNat) := by
  obtain ⟨hi, -⟩ := List.getElem?_eq_some_iff.mp hp
  have htot := h.total
  have hwt := h.weight_eq hp
  have hw : p.weight = p.tickets.toInt := if_neg hs
  have hw₀ : 0 ≤ p.weight := h.nonneg _ (by
    rw [h.weights]
    exact mem_map_of_mem (mem_of_getElem? hp))
  have h₀ := before_nonneg h.nonneg i
  have hle : before ws (i + 1) ≤ ws.sum := before_le_sum h.nonneg (by
    rw [h.weights, length_map]
    exact hi)
  have htickets : (p.tickets.toNat : ℤ) = p.weight := by
    have := BitVec.toInt_eq_toNat_bmod p.tickets
    have := p.tickets.isLt
    rw [Int.bmod_def] at *
    omega
  have hcard : (Finset.Ico (before ws i).toNat (before ws (i + 1)).toNat).card = p.tickets.toNat := by
    rw [Nat.card_Ico]
    omega
  have hset : {random | drawWinner s old random = some i} = {random : BitVec 32 |
      random.toNat % s.totalTickets.toNat ∈
        Finset.Ico (before ws i).toNat (before ws (i + 1)).toNat} :=
    Set.ext fun random => h.winner_iff_mem old random hp
  rw [hset, ← hcard]
  refine Residue.ncard_mod_mem fun r hr => ?_
  have := (Finset.mem_Ico.mp hr).2
  omega

theorem Ranged.proportional : Proportional s := by
  have hsum : ws.sum = ticketSum s.proc := by rw [h.weights, ticketSum]
  refine ⟨h.total.trans hsum, ?_, ?_, ?_, fun old i p hp hs => h.chance old hp hs⟩
  · intro i j p q hp hq hpt hqt hij
    refine Finset.disjoint_left.mpr fun w hwp hwq => hij ?_
    exact owns_unique h.nonneg ((h.mem_winningRange hp hpt w).mp hwp)
      ((h.mem_winningRange hq hqt w).mp hwq)
  · intro p hp ht
    obtain ⟨i, hi⟩ := mem_iff_getElem?.mp hp
    obtain ⟨h₁, h₂⟩ := h.slot i p hi ht.counted
    have hw := h.weight_eq hi
    have hpw : p.weight = p.tickets.toInt := if_neg ht.1
    have := ht.2
    rw [winningRange, Nat.card_Icc]
    omega
  · intro w
    have htot := h.total
    rw [Finset.mem_Icc]
    constructor
    · rintro ⟨p, hp, ht, hw⟩
      obtain ⟨i, hi⟩ := mem_iff_getElem?.mp hp
      obtain ⟨hlt, hb, he⟩ := (h.mem_winningRange hi ht w).mp hw
      have h₀ := before_nonneg h.nonneg i
      have h₁ := before_le_sum h.nonneg (i := i + 1) hlt
      omega
    · rintro ⟨hw₁, hw₂⟩
      have hle : (w : ℤ) ≤ ws.sum := by omega
      obtain ⟨i, ho⟩ := exists_owns (by omega) hle
      have hlt : i < s.proc.length := by simpa [h.weights] using ho.1
      have hp := getElem?_eq_getElem hlt
      have hlt₂ := ho.2.1.trans_le ho.2.2
      have ht : HasTickets s.proc[i] := hasTickets_of_weight (by rw [h.weight_eq hp] at hlt₂; omega)
      exact ⟨_, getElem_mem hlt, ht, (h.mem_winningRange hp ht w).mpr ho⟩

end

theorem lottery_proportional {s : Table}
    (hnonneg : ∀ p ∈ s.proc, p.state ≠ .unused → 0 ≤ p.tickets.toInt)
    (hpos : 1 ≤ ticketSum s.proc) (hsmall : ticketSum s.proc ≤ 2 ^ 31 - 1) :
    Proportional (recounted s) :=
  (ranged_recounted hnonneg hpos (by omega)).proportional

/-- Two processes with 30 and 10 tickets, one between them with none, and a free slot. -/
theorem lottery_proportional_table :
    let s : Table := { proc := [{ state := .runnable, tickets := 30 }, { state := .zombie },
      { tickets := 7 }, { state := .sleeping, tickets := 10 }] }
    (recounted s).totalTickets = 40 ∧ Proportional (recounted s) :=
  ⟨by decide, lottery_proportional (by decide) (by decide) (by decide)⟩

end Xv6.Sched.Lottery
