import Xv6.Sched.LotteryRun

/-! The 32-bit arithmetic of `total_tickets` for arbitrary arguments of `sys_tickets`: the
exact running totals for which no wrap is visible. -/
namespace Xv6.Sched.Lottery
open Tiling PartialRun List Option BitVec

/-- The total is the exact sum and a divisor, and every counted range is non-empty in the
unsigned comparison of `scheduler()`. -/
def TotalExact (s : Table) : Prop :=
  s.totalTickets.toInt = ticketSum s.proc ∧ 1 ≤ s.totalTickets.toInt ∧
    ∀ p ∈ s.proc, p.counted →
      p.ticketsWinningRangeBeginning.toNat ≤ p.ticketsWinningRangeEnd.toNat

/-- The exact sum is a positive `int`; a process with positive tickets keeps the running total
inside one window of `2^32`, and one with negative tickets takes it down into the window below. -/
def NoWrap (ws : List ℤ) : Prop :=
  1 ≤ ws.sum ∧ ws.sum ≤ 2 ^ 31 - 1 ∧
    ∀ i w, ws[i]? = some w →
      (0 < w → (before ws i + 1) / 2 ^ 32 = before ws (i + 1) / 2 ^ 32) ∧
      (w < 0 → before ws (i + 1) / 2 ^ 32 < (before ws i + 1) / 2 ^ 32)

theorem toInt_ofInt_eq_iff (x : ℤ) :
    (BitVec.ofInt 32 x).toInt = x ↔ -2 ^ 31 ≤ x ∧ x ≤ 2 ^ 31 - 1 := by
  rw [toInt_ofInt, Int.bmod_def]
  split <;> omega

/-- Two reduced ends of a range compare as they should exactly inside one window. -/
theorem reduced_le_iff {b w : ℤ} (h₀ : -2 ^ 31 ≤ w) (h₁ : w < 2 ^ 31) (hw : w ≠ 0) :
    (BitVec.ofInt 32 (b + 1)).toNat ≤ (BitVec.ofInt 32 (b + w)).toNat ↔
      (0 < w → (b + 1) / 2 ^ 32 = (b + w) / 2 ^ 32) ∧
      (w < 0 → (b + w) / 2 ^ 32 < (b + 1) / 2 ^ 32) := by
  rw [toNat_ofInt, toNat_ofInt]
  omega

theorem weight_bounds (l : Lot) : -2 ^ 31 ≤ l.weight ∧ l.weight < 2 ^ 31 := by
  unfold Lot.weight
  split
  · exact ⟨by simpa using le_toInt l.tickets, by simpa using toInt_lt (x := l.tickets)⟩
  · exact ⟨by decide, by decide⟩

theorem counted_iff_weight (l : Lot) : l.counted = true ↔ l.weight ≠ 0 := by
  constructor
  · intro h
    rw [Lot.weight_of_counted h]
    simp only [Lot.counted, Bool.and_eq_true, decide_eq_true_eq] at h
    exact fun h0 => h.2 (eq_of_toInt_eq (by simpa using h0))
  · intro h
    by_contra hc
    exact h (Lot.weight_of_not_counted (by simpa using hc))

theorem ranges_iff (ls : List Lot) :
    (∀ l ∈ rangeAll 0 ls, l.counted → l.beginning.toNat ≤ l.last.toNat) ↔
      ∀ i w, (ls.map Lot.weight)[i]? = some w →
        (0 < w → (before (ls.map Lot.weight) i + 1) / 2 ^ 32 =
          before (ls.map Lot.weight) (i + 1) / 2 ^ 32) ∧
        (w < 0 → before (ls.map Lot.weight) (i + 1) / 2 ^ 32 <
          (before (ls.map Lot.weight) i + 1) / 2 ^ 32) := by
  set ws := ls.map Lot.weight with hws
  have key : ∀ i m, ls[i]? = some m → m.counted →
      (((m.ranged (before ws i)).beginning.toNat ≤ (m.ranged (before ws i)).last.toNat) ↔
        (0 < m.weight → (before ws i + 1) / 2 ^ 32 = before ws (i + 1) / 2 ^ 32) ∧
        (m.weight < 0 → before ws (i + 1) / 2 ^ 32 < (before ws i + 1) / 2 ^ 32)) := by
    intro i m hm hc
    have hb : before ws (i + 1) = before ws i + m.weight := by
      rw [before_succ, getD_eq_getElem?_getD, hws, getElem?_map, hm]
      rfl
    obtain ⟨h₀, h₁⟩ := weight_bounds m
    rw [Lot.ranged, if_pos hc, hb]
    exact reduced_le_iff h₀ h₁ ((counted_iff_weight m).mp hc)
  constructor
  · intro h i w hw
    rw [hws, getElem?_map, map_eq_some_iff] at hw
    obtain ⟨m, hm, rfl⟩ := hw
    by_cases hc : m.counted = true
    · refine (key i m hm hc).mp (h _ ?_ (by simpa using hc))
      refine mem_of_getElem? (i := i) ?_
      rw [rangeAll, getElem?_mapIdx, hm, map_some, zero_add]
    · have h0 := Lot.weight_of_not_counted (l := m) (by simpa using hc)
      exact ⟨fun h => absurd h (by omega), fun h => absurd h (by omega)⟩
  · intro h l hl hc
    obtain ⟨i, hi⟩ := mem_iff_getElem?.mp hl
    rw [rangeAll, getElem?_mapIdx, map_eq_some_iff] at hi
    obtain ⟨m, hm, rfl⟩ := hi
    rw [zero_add] at hc ⊢
    refine (key i m hm (by simpa using hc)).mpr (h i m.weight ?_)
    rw [hws, getElem?_map, hm]
    rfl

/-- After every `set_proc_tickets` of every run. -/
theorem totalExact_iff {es : List Event} {e : Event} {s : Table}
    (hr : run step boot (es ++ [e]) = some s)
    (he : e = .call .allocproc ∨ ∃ p n, e = .call (.tickets p n)) :
    TotalExact s ↔ NoWrap (s.proc.map Proc.weight) := by
  obtain ⟨u, -, hs⟩ := run_concat_eq_some.mp hr
  have hfresh : ∀ es, freedSinceRecount (es ++ [e]) = false := by
    intro es
    rw [freed_concat]
    rcases he with rfl | ⟨p, n, rfl⟩ <;> rfl
  cases step_lot hs with
  | recount i n ls hn hls hlen hproc htot hev =>
    have hws : s.proc.map Proc.weight = ls.map Lot.weight := by
      rw [← rangeAll_weight 0 ls, ← hproc, List.map_map]
      exact map_congr_left fun p _ => (lot_weight p).symm
    have hranges : (∀ p ∈ s.proc, p.counted →
        p.ticketsWinningRangeBeginning.toNat ≤ p.ticketsWinningRangeEnd.toNat) ↔
        ∀ l ∈ rangeAll 0 ls, l.counted → l.beginning.toNat ≤ l.last.toNat := by
      rw [← hproc, List.forall_mem_map]
      rfl
    have hsum : s.totalTickets.toInt = ticketSum s.proc ↔
        -2 ^ 31 ≤ (ls.map Lot.weight).sum ∧ (ls.map Lot.weight).sum ≤ 2 ^ 31 - 1 := by
      rw [htot, ticketSum, hws]
      exact toInt_ofInt_eq_iff _
    have hts : ticketSum s.proc = (ls.map Lot.weight).sum := by rw [ticketSum, hws]
    rw [TotalExact, NoWrap, hranges, hws, ranges_iff]
    constructor
    · rintro ⟨h₁, h₂, h₃⟩
      rw [h₁, hts] at h₂
      exact ⟨h₂, (hsum.mp h₁).2, h₃⟩
    · rintro ⟨h₁, h₂, h₃⟩
      have h₄ := hsum.mpr ⟨by omega, h₂⟩
      exact ⟨h₄, by rw [h₄, hts]; exact h₁, h₃⟩
  | free i l m hl hv hm hproc htot hev => exact absurd (hev es) (by simp [hfresh es])
  | same hproc htot hev => exact absurd (hev [.call (.wait 0)]) (by rw [hfresh]; decide)

theorem noWrap_of_nonneg {ws : List ℤ} (hw : ∀ w ∈ ws, 0 ≤ w) (h₁ : 1 ≤ ws.sum)
    (h₂ : ws.sum ≤ 2 ^ 31 - 1) : NoWrap ws := by
  refine ⟨h₁, h₂, fun i w hi => ⟨fun hpos => ?_, fun hneg => ?_⟩⟩
  · obtain ⟨hlt, -⟩ := List.getElem?_eq_some_iff.mp hi
    have hb := before_nonneg hw i
    have hs := before_le_sum hw (i := i + 1) hlt
    have hsucc : before ws (i + 1) = before ws i + w := by
      rw [before_succ, getD_eq_getElem?_getD, hi]
      rfl
    omega
  · exact absurd (hw w (mem_of_getElem? hi)) (by omega)

def noTickets : List Event := [.draw 0 3, .dispatch 0]

theorem not_totalExact_noTickets :
    ∃ s, run step boot (noTickets ++ [.call (.tickets 0 0)]) = some s ∧
      s.totalTickets = 0 ∧ ¬ TotalExact s := by
  have hs : ((run step boot (noTickets ++ [.call (.tickets 0 0)])).map (·.totalTickets)) = some 0 := by
    decide +kernel
  obtain ⟨s, hs, ht⟩ := map_eq_some_iff.mp hs
  refine ⟨s, hs, ht, fun h => ?_⟩
  have := h.2.1
  rw [ht] at this
  exact absurd this (by decide)

theorem totalExact_someRun : ∃ s, run step boot someRun = some s ∧ TotalExact s := by
  have hs : ((run step boot someRun).map fun s => s.proc.map Proc.weight) =
      some ([7, 10] ++ List.replicate 62 0) := by
    decide +kernel
  obtain ⟨s, hs, hw⟩ := map_eq_some_iff.mp hs
  have hr : run step boot ([.draw 0 3, .dispatch 0, .call .allocproc, .call (.forkDone 0 1)] ++
      [.call (.tickets 0 7)]) = some s := hs
  refine ⟨s, hs, (totalExact_iff hr (Or.inr ⟨0, 7, rfl⟩)).mpr ?_⟩
  rw [hw]
  exact noWrap_of_nonneg (by decide) (by decide) (by decide)

end Xv6.Sched.Lottery
