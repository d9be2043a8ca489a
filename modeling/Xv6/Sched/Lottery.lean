import Mathlib.Algebra.Order.Ring.Int
import Mathlib.Logic.Function.Basic
import Xv6.Sched.Tickets

/-! The lottery branch of `scheduler()`. The ranges are recomputed by `set_proc_tickets`
alone, so a draw finds its winner exactly until the next slot is freed. -/
namespace Xv6.Sched
open Tiling PartialRun

def winnerTicket (total random : BitVec 32) : BitVec 32 := random % total + 1

def Proc.wins (w : BitVec 32) (p : Proc) : Bool :=
  p.counted && p.ticketsWinningRangeBeginning ≤ w && w ≤ p.ticketsWinningRangeEnd

/-- The scan keeps the old `p` when no slot holds the winning ticket. -/
def drawWinner (s : Table) (p : Option ℕ) (random : BitVec 32) : Option ℕ :=
  match s.proc.findIdx? (Proc.wins (winnerTicket s.totalTickets random)) with
  | some i => some i
  | none => p

namespace Lottery

inductive Event where
  | call (c : Call)
  | draw (cpu : ℕ) (random : BitVec 32)
  | dispatch (cpu : ℕ)
  deriving DecidableEq, Repr

/-- `acquire(&p->lock)` on a null `p` has no successor. -/
def step (s : Table) : Event → Option Table
  | .call c => callStep .lottery s c
  | .draw cpu random =>
    some { s with schedP := Function.update s.schedP cpu (drawWinner s (s.schedP cpu) random) }
  | .dispatch cpu => (s.schedP cpu).map fun i =>
    if s.inState i .runnable then
      s.modify i fun p => { p with state := .running, schedCnt := p.schedCnt + 1 }
    else s

def boot : Table := userinit .lottery

/-- Every call `tickets(n)` has `n ≥ 1`, and the tickets in the table stay below `2^31`. -/
def TicketsOk (s : Table) (e : Event) : Prop :=
  (∀ p n, e = .call (.tickets p n) → 0 < n.toInt) ∧
    ∀ t, step s e = some t → ticketSum t.proc < 2 ^ 31

def freedSinceRecount : List Event → Bool :=
  List.foldl (fun freed e => match e with
    | .call .allocproc | .call (.tickets _ _) => false
    | .call (.forkFail _) | .call (.wait _) => true
    | _ => freed) false

def Holds (s : Table) (w : BitVec 32) (i : ℕ) : Prop :=
  ∃ p, s.proc[i]? = some p ∧ p.state ≠ .unused ∧ p.tickets ≠ 0 ∧
    p.ticketsWinningRangeBeginning.toNat ≤ w.toNat ∧ w.toNat ≤ p.ticketsWinningRangeEnd.toNat

/-- Whatever is drawn, one slot holds the ticket, and it is the `p` that is locked and run. -/
def DrawsWinner (s : Table) : Prop :=
  ∀ (old : Option ℕ) (random : BitVec 32), ∃ i,
    Holds s (winnerTicket s.totalTickets random) i ∧
    (∀ j, Holds s (winnerTicket s.totalTickets random) j → j = i) ∧
    drawWinner s old random = some i

/-- The ranges in the table are those of the weights `ws`, which were its tickets when they
were last counted; slots freed since then still have their weight in `ws`. -/
structure Tiled (ws : List ℤ) (total : BitVec 32) (ls : List Lot) : Prop where
  length : ws.length = ls.length
  nonneg : ∀ w ∈ ws, 0 ≤ w
  small : ws.sum < 2 ^ 31
  total : total = BitVec.ofInt 32 ws.sum
  slot : ∀ i l, ls[i]? = some l → l.live → 0 < l.tickets.toInt ∧ ws.getD i 0 = l.tickets.toInt ∧
    l.beginning = BitVec.ofInt 32 (before ws i + 1) ∧ l.last = BitVec.ofInt 32 (before ws (i + 1))

/-- Some slot still has its weight in `ws` but is no longer in use. -/
def Stale (ws : List ℤ) (ls : List Lot) : Prop :=
  ∃ i l, ls[i]? = some l ∧ l.live = false ∧ 0 < ws.getD i 0

theorem toNat_ofInt_small {x : ℤ} (h₀ : 0 ≤ x) (h₁ : x < 2 ^ 32) :
    ((BitVec.ofInt 32 x).toNat : ℤ) = x := by
  rw [BitVec.toNat_ofInt]
  omega

variable {ws : List ℤ} {total : BitVec 32} {ls : List Lot} {i : ℕ}

theorem Tiled.before_lt
    (h : Tiled ws total ls) (hi : i ≤ ls.length) : before ws i < 2 ^ 31 :=
  (before_le_sum h.nonneg (h.length ▸ hi)).trans_lt h.small

theorem Tiled.toNat_total (h : Tiled ws total ls) : (total.toNat : ℤ) = ws.sum := by
  have h₀ := List.sum_nonneg h.nonneg
  have h₁ := h.small
  rw [h.total]
  exact toNat_ofInt_small h₀ (by omega)

theorem Tiled.range_iff
    (h : Tiled ws total ls) {l : Lot} (hl : ls[i]? = some l) (hv : l.live) (w : BitVec 32) :
    (l.beginning.toNat ≤ w.toNat ∧ w.toNat ≤ l.last.toNat) ↔ Owns ws i (w.toNat : ℤ) := by
  obtain ⟨hi, -⟩ := List.getElem?_eq_some_iff.mp hl
  obtain ⟨-, -, hb, he⟩ := h.slot i l hl hv
  have h₁ := h.before_lt hi.le
  have h₂ := h.before_lt (i := i + 1) hi
  have h₃ := before_nonneg h.nonneg i
  have h₄ := before_nonneg h.nonneg (i + 1)
  have hb' : (l.beginning.toNat : ℤ) = before ws i + 1 := by
    rw [hb]; exact toNat_ofInt_small (by omega) (by omega)
  have he' : (l.last.toNat : ℤ) = before ws (i + 1) := by
    rw [he]; exact toNat_ofInt_small (by omega) (by omega)
  unfold Owns
  rw [h.length]
  omega

theorem tiled_rangeAll (hpos : ∀ l ∈ ls, l.live → 0 < l.tickets.toInt)
    (hsum : (ls.map Lot.weight).sum < 2 ^ 31) :
    Tiled (ls.map Lot.weight) (BitVec.ofInt 32 (ls.map Lot.weight).sum) (rangeAll 0 ls) ∧
      ¬ Stale (ls.map Lot.weight) (rangeAll 0 ls) := by
  have hslot : ∀ i l, (rangeAll 0 ls)[i]? = some l → ∃ m : Lot, ls[i]? = some m ∧
      l = m.ranged (before (ls.map Lot.weight) i) := by
    intro i l hl
    rw [rangeAll, List.getElem?_mapIdx, Option.map_eq_some_iff] at hl
    obtain ⟨m, hm, rfl⟩ := hl
    exact ⟨m, hm, by rw [zero_add]⟩
  have hget : ∀ i m, ls[i]? = some m → (ls.map Lot.weight).getD i 0 = m.weight := by
    intro i m hm
    rw [List.getD_eq_getElem?_getD, List.getElem?_map, hm]
    rfl
  refine ⟨⟨by simp [rangeAll], ?_, hsum, rfl, ?_⟩, ?_⟩
  · intro w hw
    obtain ⟨l, hl, rfl⟩ := List.mem_map.mp hw
    unfold Lot.weight
    split
    · exact (hpos l hl (by assumption)).le
    · exact le_rfl
  · intro i l hl hv
    obtain ⟨m, hm, rfl⟩ := hslot i l hl
    rw [Lot.ranged_live] at hv
    have hp := hpos m (List.mem_of_getElem? hm) hv
    have hc : m.counted = true := by
      simp only [Lot.counted, hv, Bool.true_and, decide_eq_true_eq]
      rintro h
      simp [h] at hp
    rw [Lot.ranged_tickets, before_succ, hget i m hm, Lot.weight_of_counted hc]
    refine ⟨hp, rfl, ?_, ?_⟩
    · rw [Lot.ranged, if_pos hc]
    · rw [Lot.ranged, if_pos hc, Lot.weight_of_counted hc]
  · rintro ⟨i, l, hl, hv, hw⟩
    obtain ⟨m, hm, rfl⟩ := hslot i l hl
    rw [Lot.ranged_live] at hv
    rw [hget i m hm, Lot.weight, hv] at hw
    exact absurd hw (by simp)

theorem Tiled.free (h : Tiled ws total ls)
    {l m : Lot} (hl : ls[i]? = some l) (hv : l.live) (hm : m.live = false) :
    Tiled ws total (ls.set i m) ∧ Stale ws (ls.set i m) := by
  obtain ⟨hi, -⟩ := List.getElem?_eq_some_iff.mp hl
  refine ⟨⟨by simpa using h.length, h.nonneg, h.small, h.total, ?_⟩, ?_⟩
  · intro j k hk hkv
    rcases eq_or_ne i j with rfl | hij
    · rw [List.getElem?_set_self hi] at hk
      cases hk
      simp [hm] at hkv
    · rw [List.getElem?_set_ne hij] at hk
      exact h.slot j k hk hkv
  · obtain ⟨hp, hw, -⟩ := h.slot i l hl hv
    exact ⟨i, m, List.getElem?_set_self hi, hm, hw ▸ hp⟩

variable {s : Table}

theorem wins_iff {w : BitVec 32} {p : Proc} (hp : s.proc[i]? = some p) :
    p.wins w = true ↔ Holds s w i := by
  simp only [Proc.wins, Proc.counted, Bool.and_eq_true, decide_eq_true_eq, BitVec.le_def, Holds, hp,
    Option.some.injEq, exists_eq_left', and_assoc]

theorem holds_iff (h : Tiled ws s.totalTickets (s.proc.map Proc.lot)) (w : BitVec 32) (i : ℕ) :
    Holds s w i ↔ (∃ p, s.proc[i]? = some p ∧ p.state ≠ .unused) ∧ Owns ws i (w.toNat : ℤ) := by
  constructor
  · rintro ⟨p, hp, hs, ht, hr⟩
    have hl : (s.proc.map Proc.lot)[i]? = some p.lot := by rw [List.getElem?_map, hp]; rfl
    exact ⟨⟨p, hp, hs⟩, (h.range_iff hl (by simpa [Proc.lot] using hs) w).mp hr⟩
  · rintro ⟨⟨p, hp, hs⟩, ho⟩
    have hl : (s.proc.map Proc.lot)[i]? = some p.lot := by rw [List.getElem?_map, hp]; rfl
    have hv : p.lot.live := by simpa [Proc.lot] using hs
    refine ⟨p, hp, hs, ?_, (h.range_iff hl hv w).mpr ho⟩
    rintro ht
    have := (h.slot i p.lot hl hv).1
    simp [Proc.lot, ht] at this

theorem drawWinner_of_unique {random : BitVec 32}
    (hi : Holds s (winnerTicket s.totalTickets random) i)
    (hu : ∀ j, Holds s (winnerTicket s.totalTickets random) j → j = i) (old : Option ℕ) :
    drawWinner s old random = some i := by
  unfold drawWinner
  split
  · rename_i j hj
    obtain ⟨hlt, hw, -⟩ := List.findIdx?_eq_some_iff_getElem.mp hj
    rw [hu j ((wins_iff (List.getElem?_eq_getElem hlt)).mp hw)]
  · rename_i hn
    obtain ⟨p, hp, hr⟩ := hi
    have := List.findIdx?_eq_none_iff.mp hn p (List.mem_of_getElem? hp)
    rw [(wins_iff hp).mpr ⟨p, hp, hr⟩] at this
    cases this

theorem winnerTicket_toNat (h₀ : 0 < total.toNat) (h₁ : total.toNat < 2 ^ 31) (random : BitVec 32) :
    (winnerTicket total random).toNat = random.toNat % total.toNat + 1 := by
  have := Nat.mod_lt random.toNat h₀
  rw [winnerTicket, BitVec.toNat_add, BitVec.toNat_umod]
  exact Nat.mod_eq_of_lt (by simp; omega)

theorem drawsWinner_iff_not_stale
    (h : Tiled ws s.totalTickets (s.proc.map Proc.lot)) (hpos : 0 < ws.sum) :
    DrawsWinner s ↔ ¬ Stale ws (s.proc.map Proc.lot) := by
  have htot := h.toNat_total
  have hsmall := h.small
  have ht₀ : 0 < s.totalTickets.toNat := by omega
  have hw := winnerTicket_toNat ht₀ (by omega)
  constructor
  · rintro hd ⟨i, l, hl, hv, hi⟩
    obtain ⟨hlt, -⟩ := List.getElem?_eq_some_iff.mp hl
    have hle : before ws (i + 1) ≤ ws.sum := before_le_sum h.nonneg (h.length ▸ hlt)
    have hbi := before_nonneg h.nonneg i
    have hown : Owns ws i (before ws (i + 1)) :=
      ⟨h.length ▸ hlt, by rw [before_succ]; omega, le_rfl⟩
    -- the last ticket of the freed slot
    obtain ⟨j, hj, -, -⟩ := hd none (BitVec.ofNat 32 (before ws (i + 1) - 1).toNat)
    have hx : ((winnerTicket s.totalTickets
        (BitVec.ofNat 32 (before ws (i + 1) - 1).toNat)).toNat : ℤ) = before ws (i + 1) := by
      have := hown.2.1
      rw [hw, BitVec.toNat_ofNat, Nat.mod_eq_of_lt (by omega), Nat.mod_eq_of_lt (by omega)]
      omega
    rw [holds_iff h, hx] at hj
    obtain ⟨⟨p, hp, hs⟩, hoj⟩ := hj
    cases owns_unique h.nonneg hown hoj
    rw [List.getElem?_map, hp] at hl
    cases hl
    simp [Proc.lot, hs] at hv
  · intro hst old random
    have hr := Nat.mod_lt random.toNat (y := s.totalTickets.toNat) (by omega)
    have hx : ((winnerTicket s.totalTickets random).toNat : ℤ) ≤ ws.sum := by rw [hw]; omega
    obtain ⟨i, hlt, hb⟩ := exists_owns (by rw [hw]; omega) hx
    have hlt' : i < s.proc.length := by simpa [h.length] using hlt
    have hp := List.getElem?_eq_getElem hlt'
    have hlive : s.proc[i].state ≠ .unused := by
      intro hs
      refine hst ⟨i, s.proc[i].lot, by rw [List.getElem?_map, hp]; rfl, by simp [Proc.lot, hs], ?_⟩
      rw [before_succ] at hb
      omega
    have hh : Holds s (winnerTicket s.totalTickets random) i :=
      (holds_iff h _ i).mpr ⟨⟨_, hp, hlive⟩, hlt, hb⟩
    have hu : ∀ j, Holds s (winnerTicket s.totalTickets random) j → j = i := fun j hj =>
      owns_unique h.nonneg ((holds_iff h _ j).mp hj).2 ⟨hlt, hb⟩
    exact ⟨i, hh, hu, drawWinner_of_unique hh hu old⟩

end Lottery
end Xv6.Sched
