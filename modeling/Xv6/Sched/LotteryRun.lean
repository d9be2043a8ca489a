import Xv6.Sched.Kill
import Xv6.Sched.Lottery

/-! Runs of the lottery build: what each step does to the ranges, and the draws after it. -/
namespace Xv6.Sched.Lottery
open Tiling PartialRun List Option

inductive LotStep (s t : Table) (e : Event) : Prop
  | recount (i : ℕ) (n : BitVec 32) (ls : List Lot) (hn : TicketsOk s e → 0 < n.toInt)
      (hls : ∀ j l, ls[j]? = some l → l.live → (j = i ∧ l.tickets = n) ∨
        ∃ m, (s.proc.map Proc.lot)[j]? = some m ∧ m.live ∧ l.tickets = m.tickets)
      (hlen : ls.length = s.proc.length)
      (hproc : t.proc.map Proc.lot = rangeAll 0 ls)
      (htot : t.totalTickets = BitVec.ofInt 32 (ls.map Lot.weight).sum)
      (hev : ∀ es, freedSinceRecount (es ++ [e]) = false)
  | free (i : ℕ) (l m : Lot) (hl : (s.proc.map Proc.lot)[i]? = some l) (hv : l.live)
      (hm : m.live = false) (hproc : t.proc.map Proc.lot = (s.proc.map Proc.lot).set i m)
      (htot : t.totalTickets = s.totalTickets)
      (hev : ∀ es, freedSinceRecount (es ++ [e]) = true)
  | same (hproc : t.proc.map Proc.lot = s.proc.map Proc.lot)
      (htot : t.totalTickets = s.totalTickets)
      (hev : ∀ es, freedSinceRecount (es ++ [e]) = freedSinceRecount es)

variable {s : Table} {i : ℕ} {st : ProcState}

variable {ps : List Proc} {f : Proc → Proc}

theorem modify_live_lot (hi : ∀ p, ps[i]? = some p → p.state ≠ .unused)
    (hf : ∀ p, (f p).state ≠ .unused ∧ (f p).tickets = p.tickets ∧
      (f p).ticketsWinningRangeBeginning = p.ticketsWinningRangeBeginning ∧
      (f p).ticketsWinningRangeEnd = p.ticketsWinningRangeEnd) :
    (ps.modify i f).map Proc.lot = ps.map Proc.lot := by
  refine map_lot_modify fun p hp => ?_
  obtain ⟨h₁, h₂, h₃, h₄⟩ := hf p
  simp [Proc.lot, h₁, h₂, h₃, h₄, hi p hp]

theorem inState_live (h : s.inState i st)
    (hst : st ≠ .unused) (p : Proc) (hp : s.proc[i]? = some p) : p.state ≠ .unused := by
  obtain ⟨q, hq, rfl⟩ := Table.inState_iff.mp h
  rw [hp] at hq
  cases hq
  exact hst

theorem map_wakeup_lot (chan : ℕ) (ps : List Proc) :
    (ps.map (wakeup chan)).map Proc.lot = ps.map Proc.lot := by
  rw [List.map_map]
  refine map_congr_left fun p _ => ?_
  simp only [Function.comp_def, wakeup]
  split
  · rename_i h
    simp [Proc.lot, h.1]
  · rfl

theorem reparent_lot (p : ℕ) (ps : List Proc) :
    (reparent p ps).map Proc.lot = ps.map Proc.lot := by
  have h : (ps.map fun pp => if pp.parent = some p then { pp with parent := some initproc }
      else pp).map Proc.lot = ps.map Proc.lot := by
    rw [List.map_map]
    refine map_congr_left fun q _ => ?_
    simp only [Function.comp_def]
    split <;> rfl
  unfold reparent
  split
  · rw [map_wakeup_lot, h]
  · exact h

theorem exit_lot (hi : s.inState i .running) {status : BitVec 32} (q : Proc) :
    (exit s i status q).proc.map Proc.lot = s.proc.map Proc.lot := by
  have key : ∀ ps : List Proc, ps.map Proc.lot = s.proc.map Proc.lot →
      (ps.modify i fun p => { p with xstate := status, state := .zombie }).map Proc.lot =
        s.proc.map Proc.lot := by
    intro ps hps
    refine Eq.trans (modify_live_lot ?_ fun p => ⟨nofun, rfl, rfl, rfl⟩) hps
    intro p hp hs
    obtain ⟨r, hr, hrs⟩ := Table.inState_iff.mp hi
    have := congrArg (fun ls : List Lot => ls[i]?) hps
    simp [getElem?_map, hp, hr, Proc.lot, hs, hrs] at this
  unfold exit
  cases q.parent with
  | none => exact key _ (reparent_lot i s.proc)
  | some pp => exact key _ ((map_wakeup_lot _ _).trans (reparent_lot i s.proc))

variable {e : Event}

theorem recount_of_setProcTickets {s u : Table} (i : ℕ) (n : BitVec 32)
    (hn : TicketsOk s e → 0 < n.toInt) (hlen : u.proc.length = s.proc.length)
    (hu : ∀ j, j ≠ i → u.proc[j]? = s.proc[j]?)
    (hev : ∀ es, freedSinceRecount (es ++ [e]) = false) :
    LotStep s (setProcTickets .lottery u i n) e := by
  obtain ⟨hproc, htot⟩ := setProcTickets_lot u i n
  refine .recount i n _ hn ?_ (by simpa using hlen) hproc htot hev
  intro j l hl hv
  rw [getElem?_map, map_eq_some_iff] at hl
  obtain ⟨p, hp, rfl⟩ := hl
  rcases eq_or_ne i j with rfl | hij
  · rw [getElem?_modify_eq] at hp
    obtain ⟨q, -, rfl⟩ := map_eq_some_iff.mp hp
    exact Or.inl ⟨rfl, rfl⟩
  · rw [getElem?_modify_ne _ _ hij, hu j hij.symm] at hp
    exact Or.inr ⟨p.lot, by rw [getElem?_map, hp]; rfl, hv, rfl⟩

theorem free_of_freeproc {p : Proc} (hp : s.proc[i]? = some p)
    (hs : p.state ≠ .unused) (hev : ∀ es, freedSinceRecount (es ++ [e]) = true) :
    LotStep s (s.modify i freeproc) e := by
  refine .free i p.lot (freeproc p).lot ?_ (by simpa [Proc.lot] using hs)
    (by simp [Proc.lot, freeproc]) ?_ rfl hev
  · rw [getElem?_map, hp]; rfl
  · refine ext_getElem? fun j => ?_
    rw [Table.modify, getElem?_map, getElem?_set]
    rcases eq_or_ne i j with rfl | hij
    · obtain ⟨hi, rfl⟩ := List.getElem?_eq_some_iff.mp hp
      simp [hi]
    · simp [hij]

theorem freed_concat (es : List Event) (e : Event) :
    freedSinceRecount (es ++ [e]) = match e with
      | .call .allocproc | .call (.tickets _ _) => false
      | .call (.forkFail _) | .call (.wait _) => true
      | _ => freedSinceRecount es := by
  rw [freedSinceRecount, foldl_append]
  rfl

theorem step_lot {s t : Table} (h : step s e = some t) : LotStep s t e := by
  cases e with
  | draw cpu random =>
    cases h
    exact .same rfl rfl fun es => freed_concat es _
  | dispatch cpu =>
    obtain ⟨i, -, rfl⟩ := map_eq_some_iff.mp h
    split
    · rename_i hi
      exact .same (modify_live_lot (inState_live hi (by decide)) fun p => ⟨by simp, rfl, rfl, rfl⟩) rfl
        fun es => freed_concat es _
    · exact .same rfl rfl fun es => freed_concat es _
  | call c =>
    cases c with
    | allocproc =>
      obtain ⟨r, hr, rfl⟩ := map_eq_some_iff.mp h
      obtain ⟨i, -, rfl⟩ := map_eq_some_iff.mp hr
      refine recount_of_setProcTickets i 10 (fun _ => by decide) (by simp [Table.modify]) ?_
        fun es => freed_concat es _
      intro j hj
      simp [Table.modify, hj.symm]
    | tickets p n =>
      simp only [step, callStep, guard_iff] at h
      obtain ⟨-, rfl⟩ := h
      exact recount_of_setProcTickets p n (fun ho => ho.1 p n rfl) rfl (fun _ _ => rfl)
        fun es => freed_concat es _
    | forkFail np =>
      simp only [step, callStep, guard_iff] at h
      obtain ⟨hi, rfl⟩ := h
      obtain ⟨p, hp, hs⟩ := Table.inState_iff.mp hi
      exact free_of_freeproc hp (by simp [hs]) fun es => freed_concat es _
    | wait p =>
      simp only [step, callStep, ite_none_right_eq_some] at h
      obtain ⟨-, h⟩ := h
      obtain ⟨np, hz, rfl⟩ := map_eq_some_iff.mp h
      obtain ⟨hlt, hw, -⟩ := findIdx?_eq_some_iff_getElem.mp hz
      simp only [Bool.decide_and, Bool.and_eq_true, decide_eq_true_eq] at hw
      exact free_of_freeproc (getElem?_eq_getElem hlt) (by simp [hw.2])
        fun es => freed_concat es _
    | forkDone p np =>
      simp only [step, callStep, guard_iff] at h
      obtain ⟨⟨-, hi⟩, rfl⟩ := h
      exact .same (modify_live_lot (inState_live hi (by decide)) fun p => ⟨by simp, rfl, rfl, rfl⟩) rfl
        fun es => freed_concat es _
    | exit p status =>
      simp only [step, callStep, ite_none_right_eq_some] at h
      obtain ⟨⟨hi, -⟩, h⟩ := h
      obtain ⟨q, hq, rfl⟩ := map_eq_some_iff.mp h
      exact .same (exit_lot hi q) rfl fun es => freed_concat es _
    | yield p =>
      simp only [step, callStep, guard_iff] at h
      obtain ⟨hi, rfl⟩ := h
      exact .same (modify_live_lot (inState_live hi (by decide)) fun p => ⟨by simp, rfl, rfl, rfl⟩) rfl
        fun es => freed_concat es _
    | sleep p chan =>
      simp only [step, callStep, guard_iff] at h
      obtain ⟨hi, rfl⟩ := h
      exact .same (modify_live_lot (inState_live hi (by decide)) fun p => ⟨by simp, rfl, rfl, rfl⟩) rfl
        fun es => freed_concat es _
    | wakeup p chan =>
      simp only [step, callStep, guard_iff] at h
      obtain ⟨-, rfl⟩ := h
      exact .same (map_wakeup_lot chan s.proc) rfl fun es => freed_concat es _

def Awake (p : Proc) : Prop :=
  p.state = .sleeping ∨ p.state = .runnable ∨ p.state = .running

def InitAwake (ps : List Proc) : Prop := ∃ p, ps[initproc]? = some p ∧ Awake p

theorem InitAwake.map (h : InitAwake ps)
    (hf : ∀ p, Awake p → Awake (f p)) : InitAwake (ps.map f) := by
  obtain ⟨p, hp, ha⟩ := h
  exact ⟨f p, by rw [getElem?_map, hp]; rfl, hf p ha⟩

theorem InitAwake.modify (h : InitAwake ps)
    (hf : i ≠ initproc ∨ ∀ p, Awake p → Awake (f p)) : InitAwake (ps.modify i f) := by
  obtain ⟨p, hp, ha⟩ := h
  rcases eq_or_ne i initproc with rfl | hi
  · exact ⟨f p, by simp [hp], (hf.resolve_left (· rfl)) p ha⟩
  · exact ⟨p, by rwa [getElem?_modify_ne _ _ hi], ha⟩

theorem InitAwake.ne (h : InitAwake s.proc)
    (hi : s.inState i st) (hst : st = .unused ∨ st = .used ∨ st = .zombie) : i ≠ initproc := by
  rintro rfl
  obtain ⟨p, hp, ha⟩ := h
  obtain ⟨q, hq, rfl⟩ := Table.inState_iff.mp hi
  rw [hp] at hq
  cases hq
  rcases ha with h | h | h <;> simp [h] at hst

theorem InitAwake.of_core {ps qs : List Proc} (h : InitAwake ps)
    (hs : qs.map Proc.core = ps.map Proc.core) : InitAwake qs := by
  obtain ⟨p, hp, ha⟩ := h
  have := congrArg (fun l : List Core => l[initproc]?) hs
  simp only [getElem?_map, hp, map_some, map_eq_some_iff] at this
  obtain ⟨q, hq, hqs⟩ := this
  have hstate : q.state = p.state := congrArg Core.state hqs
  exact ⟨q, hq, by rwa [Awake, hstate]⟩

theorem awake_wakeup (chan : ℕ) (p : Proc) (h : Awake p) : Awake (wakeup chan p) := by
  unfold wakeup
  split
  · exact Or.inr (Or.inl rfl)
  · exact h

theorem InitAwake.reparent (h : InitAwake ps) (i : ℕ) : InitAwake (reparent i ps) := by
  have h' := h.map (f := fun pp =>
    if pp.parent = some i then { pp with parent := some initproc } else pp)
    fun p hp => by split <;> exact hp
  unfold Sched.reparent
  split
  · exact h'.map (awake_wakeup _)
  · exact h'

theorem InitAwake.exit (h : InitAwake s.proc) (hi : i ≠ initproc)
    (status : BitVec 32) (q : Proc) : InitAwake (exit s i status q).proc := by
  have h' := h.reparent i
  unfold Sched.exit
  cases q.parent with
  | none => exact h'.modify (Or.inl hi)
  | some pp => exact (h'.map (awake_wakeup (procChan pp))).modify (Or.inl hi)

theorem initAwake_step {s t : Table} (h : InitAwake s.proc) (he : step s e = some t) :
    InitAwake t.proc := by
  cases e with
  | draw cpu random => cases he; exact h
  | dispatch cpu =>
    obtain ⟨i, -, rfl⟩ := map_eq_some_iff.mp he
    split
    · exact h.modify (Or.inr fun p _ => Or.inr (Or.inr rfl))
    · exact h
  | call c =>
    cases c <;> simp only [step, callStep, ite_none_right_eq_some, Option.some.injEq] at he
    case allocproc =>
      obtain ⟨r, hr, rfl⟩ := map_eq_some_iff.mp he
      obtain ⟨i, hi, rfl⟩ := map_eq_some_iff.mp hr
      obtain ⟨hlt, hu, -⟩ := findIdx?_eq_some_iff_getElem.mp hi
      have hne : i ≠ initproc := h.ne (Table.inState_iff.mpr
        ⟨_, getElem?_eq_getElem hlt, by simpa using hu⟩) (Or.inl rfl)
      exact InitAwake.of_core (h.modify (Or.inl hne)) (setProcTickets_core _ _ _ _)
    case forkFail np =>
      obtain ⟨hi, rfl⟩ := he
      exact h.modify (Or.inl (h.ne hi (Or.inr (Or.inl rfl))))
    case forkDone p np =>
      obtain ⟨⟨-, hi⟩, rfl⟩ := he
      exact h.modify (Or.inl (h.ne hi (Or.inr (Or.inl rfl))))
    case exit p status =>
      obtain ⟨⟨-, hi⟩, he⟩ := he
      obtain ⟨q, -, rfl⟩ := map_eq_some_iff.mp he
      exact h.exit hi status q
    case wait p =>
      obtain ⟨-, he⟩ := he
      obtain ⟨np, hz, rfl⟩ := map_eq_some_iff.mp he
      obtain ⟨hlt, hw, -⟩ := findIdx?_eq_some_iff_getElem.mp hz
      simp only [Bool.decide_and, Bool.and_eq_true, decide_eq_true_eq] at hw
      exact h.modify (Or.inl (h.ne (Table.inState_iff.mpr
        ⟨_, getElem?_eq_getElem hlt, hw.2⟩) (Or.inr (Or.inr rfl))))
    case tickets p n =>
      obtain ⟨-, rfl⟩ := he
      exact h.of_core (setProcTickets_core .lottery s p n)
    case yield p =>
      obtain ⟨-, rfl⟩ := he
      exact h.modify (Or.inr fun p _ => Or.inr (Or.inl rfl))
    case sleep p chan =>
      obtain ⟨-, rfl⟩ := he
      exact h.modify (Or.inr fun p _ => Or.inl rfl)
    case wakeup p chan =>
      obtain ⟨-, rfl⟩ := he
      exact h.map (awake_wakeup chan)

/-- The invariant of a run: the ranges tile the tickets of the last recount, and they are
stale exactly when a slot was freed after it. -/
structure Inv (es : List Event) (s : Table) : Prop where
  tiled : ∃ ws, Tiled ws s.totalTickets (s.proc.map Proc.lot) ∧
    (freedSinceRecount es = true ↔ Stale ws (s.proc.map Proc.lot))
  init : InitAwake s.proc

def bootLots : List Lot := ⟨true, 10, 0, 0⟩ :: List.replicate 63 ⟨false, 0, 0, 0⟩

theorem inv_boot : Inv [] boot := by
  have hinit : boot.inState initproc .runnable := by decide +kernel
  obtain ⟨p, hp, hs⟩ := Table.inState_iff.mp hinit
  refine ⟨⟨bootLots.map Lot.weight, ?_⟩, ⟨p, hp, Or.inr (Or.inl hs)⟩⟩
  have hproc : boot.proc.map Proc.lot = rangeAll 0 bootLots := by decide +kernel
  have htot : boot.totalTickets = BitVec.ofInt 32 (bootLots.map Lot.weight).sum := by
    decide +kernel
  have hpos : ∀ l ∈ bootLots, l.live → 0 < l.tickets.toInt := by decide +kernel
  obtain ⟨h₁, h₂⟩ := tiled_rangeAll hpos (by decide +kernel)
  rw [hproc, htot]
  exact ⟨h₁, by simpa [freedSinceRecount] using h₂⟩

theorem inv_step {es : List Event} {s t : Table} (h : Inv es s) (ho : TicketsOk s e)
    (he : step s e = some t) : Inv (es ++ [e]) t := by
  obtain ⟨ws, hws, hst⟩ := h.tiled
  refine ⟨?_, initAwake_step h.init he⟩
  cases step_lot he with
  | recount i n ls hn hls hlen hproc htot hev =>
    have hpos : ∀ l ∈ ls, l.live → 0 < l.tickets.toInt := by
      intro l hl hv
      obtain ⟨j, hj⟩ := mem_iff_getElem?.mp hl
      rcases hls j l hj hv with ⟨-, rfl⟩ | ⟨m, hm, hmv, hlm⟩
      · exact hn ho
      · exact hlm ▸ (hws.slot j m hm hmv).1
    have hsum : (ls.map Lot.weight).sum < 2 ^ 31 := by
      have := ho.2 t he
      rwa [ticketSum_eq, hproc, rangeAll_weight] at this
    obtain ⟨h₁, h₂⟩ := tiled_rangeAll hpos hsum
    rw [hproc, htot]
    exact ⟨_, h₁, by simpa [hev es] using h₂⟩
  | free i l m hl hv hm hproc htot hev =>
    obtain ⟨h₁, h₂⟩ := hws.free hl hv hm
    rw [hproc, htot]
    exact ⟨ws, h₁, by simpa [hev es] using h₂⟩
  | same hproc htot hev =>
    rw [hproc, htot, hev es]
    exact ⟨ws, hws, hst⟩

theorem Inv.sum_pos {ws : List ℤ} (hi : InitAwake s.proc)
    (hws : Tiled ws s.totalTickets (s.proc.map Proc.lot)) : 0 < ws.sum := by
  obtain ⟨p, hp, ha⟩ := hi
  have hl : (s.proc.map Proc.lot)[initproc]? = some p.lot := by rw [getElem?_map, hp]; rfl
  have hv : p.lot.live := by rcases ha with h | h | h <;> simp [Proc.lot, h]
  obtain ⟨hlt, -⟩ := List.getElem?_eq_some_iff.mp hl
  obtain ⟨ht, hw, -⟩ := hws.slot _ _ hl hv
  have h₁ := before_le_sum hws.nonneg (i := initproc + 1) (hws.length ▸ hlt)
  have h₂ := before_nonneg hws.nonneg initproc
  rw [before_succ, hw] at h₁
  omega

/-- In every run the draws of a state all have their winner if and only if no slot was freed
since the last `set_proc_tickets`. -/
theorem drawsWinner_iff {es : List Event} {s : Table} (hok : Along step TicketsOk boot es)
    (hr : run step boot es = some s) : DrawsWinner s ↔ freedSinceRecount es = false := by
  have hinv : Inv es s :=
    run_history inv_boot (fun es t e u _ hi ho he => inv_step hi ho he) hok hr
  obtain ⟨ws, hws, hst⟩ := hinv.tiled
  rw [drawsWinner_iff_not_stale hws (Inv.sum_pos hinv.init hws), ← hst, Bool.not_eq_true]

instance (s : Table) (e : Event) : Decidable (TicketsOk s e) :=
  have h₁ : Decidable (∀ p n, e = .call (.tickets p n) → 0 < n.toInt) := match e with
    | .call (.tickets p n) => decidable_of_iff (0 < n.toInt) (by simp)
    | .call .allocproc | .call (.forkFail _) | .call (.forkDone _ _) | .call (.exit _ _)
    | .call (.wait _) | .call (.yield _) | .call (.sleep _ _) | .call (.wakeup _ _)
    | .draw _ _ | .dispatch _ => isTrue (by simp)
  have h₂ : Decidable (∀ t, step s e = some t → ticketSum t.proc < 2 ^ 31) :=
    match h : step s e with
    | none => isTrue (by simp)
    | some t => decidable_of_iff (ticketSum t.proc < 2 ^ 31) (by simp)
  inferInstanceAs (Decidable (_ ∧ _))

def someRun : List Event :=
  [.draw 0 3, .dispatch 0, .call .allocproc, .call (.forkDone 0 1), .call (.tickets 0 7)]

theorem drawsWinner_someRun : ∃ s, run step boot someRun = some s ∧ DrawsWinner s := by
  have hs : (run step boot someRun).isSome := by decide +kernel
  obtain ⟨s, hs⟩ := isSome_iff_exists.mp hs
  exact ⟨s, hs, (drawsWinner_iff (by decide +kernel) hs).mpr (by decide +kernel)⟩

/-- `init` runs and its fork fails for lack of memory. -/
def failedFork : List Event :=
  [.draw 0 3, .dispatch 0, .call .allocproc, .call (.forkFail 1)]

/-- After a failed fork the ticket 11 of 20 belongs to nobody: the scheduler keeps its old `p`. -/
theorem not_drawsWinner_failedFork : Along step TicketsOk boot failedFork ∧
    ∃ s, run step boot failedFork = some s ∧ drawWinner s none 10 = none ∧ ¬ DrawsWinner s := by
  refine ⟨by decide +kernel, ?_⟩
  have hs : ((run step boot failedFork).map fun s => drawWinner s none 10) = some none := by
    decide +kernel
  obtain ⟨s, hs, hd⟩ := map_eq_some_iff.mp hs
  refine ⟨s, hs, hd, fun h => ?_⟩
  obtain ⟨i, -, -, hi⟩ := h none 10
  rw [hd] at hi
  cases hi

end Xv6.Sched.Lottery
