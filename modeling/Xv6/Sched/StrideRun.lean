import Xv6.Sched.Stride
import Xv6.Sched.Kill

/-! Runs of the stride build: how the passes of the processes move, and what `set_proc_tickets`
does to their order. -/
namespace Xv6.Sched.Stride
open PartialRun Function List Option BitVec

/-- One iteration of `scheduler()` is a `select`, without locks, and a `dispatch`. -/
inductive Event where
  | call (c : Call)
  | kill (pid : BitVec 32)
  | select (cpu : ℕ)
  | dispatch (cpu : ℕ)
  deriving DecidableEq

def step (s : Table) : Event → Option Table
  | .call c => callStep .stride s c
  | .kill pid => some (kill s pid).2
  | .select cpu => some { s with schedP := update s.schedP cpu (findMinStride s.proc) }
  | .dispatch cpu => (s.schedP cpu).map fun i =>
    { s with proc := dispatch i s.proc, schedP := update s.schedP cpu none }

def boot : Table := userinit .stride

def chosen (s : Table) (cpu : ℕ) : Option Proc :=
  (s.schedP cpu).bind fun i => s.proc[i]?.filter fun p => p.state = .runnable

def setTickets (s : Table) : Event → Option (ℕ × BitVec 32)
  | .call (.tickets p n) => some (p, n)
  | .call .allocproc => (allocproc .stride s).map fun r => (r.1, 60)
  | _ => none

def switchesTo (s : Table) : Event → Option ℕ
  | .dispatch cpu => if (chosen s cpu).isSome then s.schedP cpu else none
  | _ => none

inductive SlotStep (s : Table) (e : Event) (j : ℕ) (p q : Proc) : Prop
  | keep (hu : p.state = .unused → q.state = .unused) (ht : q.tickets = p.tickets)
      (hp : q.stridePass = p.stridePass) (hs : ∀ n, setTickets s e ≠ some (j, n))
      (hd : switchesTo s e ≠ some j)
  | set (hs : setTickets s e = some (j, q.tickets)) (hp : q.stridePass = divw STRIDE_NUM q.tickets)
  | free (hu : q.state = .unused) (hp : q.stridePass = 0)
  | dispatch (hd : switchesTo s e = some j) (hr : p.state = .runnable) (ht : q.tickets = p.tickets)
      (hp : q.stridePass = p.stridePass + divw STRIDE_NUM p.tickets)

variable {s t : Table} {e : Event} {j : ℕ} {p q : Proc}

theorem SlotStep.refl (hs : setTickets s e = none) (hd : switchesTo s e = none) (p : Proc) :
    SlotStep s e j p p :=
  .keep id rfl rfl (fun n => by rw [hs]; exact nofun) (by rw [hd]; exact nofun)

variable {i : ℕ}

theorem modify_slot {ps : List Proc} {f : Proc → Proc} {R : Proc → Proc → Prop}
    (h : (ps.modify i f)[j]? = some q) (hf : i = j → ∀ p, ps[j]? = some p → R p (f p))
    (hne : i ≠ j → ∀ p, ps[j]? = some p → R p p) : ∃ p, ps[j]? = some p ∧ R p q := by
  rcases eq_or_ne i j with rfl | hij
  · rw [getElem?_modify_eq] at h
    obtain ⟨p, hp, rfl⟩ := map_eq_some_iff.mp h
    exact ⟨p, hp, hf rfl p hp⟩
  · rw [getElem?_modify_ne _ _ hij] at h
    exact ⟨q, h, hne hij q h⟩

theorem clearSchedCnt_slot (h : (clearSchedCnt s).proc[j]? = some q) :
    ∃ p, s.proc[j]? = some p ∧ q.state = p.state ∧ q.tickets = p.tickets ∧
      q.stridePass = p.stridePass := by
  unfold clearSchedCnt at h
  split at h
  · rw [getElem?_map] at h
    obtain ⟨p, hp, rfl⟩ := map_eq_some_iff.mp h
    exact ⟨p, hp, by split <;> rfl, by split <;> rfl, by split <;> rfl⟩
  · exact ⟨q, h, rfl, rfl, rfl⟩

variable {n : BitVec 32}

theorem setProcTickets_slot (h : (setProcTickets .stride s i n).proc[j]? = some q) :
    ∃ p, s.proc[j]? = some p ∧ q.state = p.state ∧
      (i = j → q.tickets = n ∧ q.stridePass = divw STRIDE_NUM n) ∧
      (i ≠ j → q.tickets = p.tickets ∧ q.stridePass = p.stridePass) := by
  obtain ⟨r, hr, h1, h2, h3⟩ := clearSchedCnt_slot h
  rw [h1, h2, h3]
  simp only [Table.modify] at hr
  rcases eq_or_ne i j with rfl | hij
  · rw [getElem?_modify_eq, getElem?_modify_eq] at hr
    simp only [Option.map_eq_map, Option.map_map, map_eq_some_iff] at hr
    obtain ⟨p, hp, rfl⟩ := hr
    exact ⟨p, hp, rfl, fun _ => ⟨rfl, rfl⟩, fun hne => absurd rfl hne⟩
  · rw [getElem?_modify_ne _ _ hij, getElem?_modify_ne _ _ hij] at hr
    exact ⟨r, hr, rfl, fun he => absurd he hij, fun _ => ⟨rfl, rfl⟩⟩

theorem allocproc_slot (ha : allocproc .stride s = some (i, t))
    (h : t.proc[j]? = some q) : ∃ p, s.proc[j]? = some p ∧
      (i = j → q.tickets = 60 ∧ q.stridePass = divw STRIDE_NUM 60) ∧
      (i ≠ j → q.state = p.state ∧ q.tickets = p.tickets ∧ q.stridePass = p.stridePass) := by
  obtain ⟨k, -, heq⟩ := map_eq_some_iff.mp ha
  simp only [Prod.mk.injEq] at heq
  obtain ⟨rfl, rfl⟩ := heq
  obtain ⟨r, hr, h1, h2⟩ := modify_slot (R := fun r q => (k = j → q.tickets = r.tickets ∧
    q.stridePass = divw STRIDE_NUM r.tickets) ∧ (k ≠ j → q = r)) h
    (fun he _ _ => ⟨fun _ => ⟨rfl, rfl⟩, fun hne => absurd he hne⟩)
    fun hne _ _ => ⟨fun he => absurd he hne, fun _ => rfl⟩
  obtain ⟨p', hp', h3, h4, h5⟩ := setProcTickets_slot hr
  obtain ⟨p, hp, h6⟩ := modify_slot (R := fun p q => k ≠ j → q = p) hp'
    (fun he _ _ hne => absurd he hne) fun _ _ _ _ => rfl
  refine ⟨p, hp, fun he => ?_, fun hne => ?_⟩
  · obtain ⟨h7, h8⟩ := h1 he
    rw [h7, h8, (h4 he).1]
    exact ⟨rfl, rfl⟩
  · obtain ⟨h7, h8⟩ := h5 hne
    rw [h2 hne, h3, h7, h8, h6 hne]
    exact ⟨rfl, rfl, rfl⟩

def Quiet (ps qs : List Proc) : Prop :=
  ∀ (j : ℕ) (q : Proc), qs[j]? = some q → ∃ p, ps[j]? = some p ∧
    (q.state = .unused ↔ p.state = .unused) ∧ q.tickets = p.tickets ∧ q.stridePass = p.stridePass

namespace Quiet
variable {ps qs rs : List Proc} {f : Proc → Proc}

theorem trans (h : Quiet ps qs) (h' : Quiet qs rs) : Quiet ps rs := by
  intro j r hr
  obtain ⟨q, hq, h1, h2, h3⟩ := h' j r hr
  obtain ⟨p, hp, h4, h5, h6⟩ := h j q hq
  exact ⟨p, hp, h1.trans h4, h2.trans h5, h3.trans h6⟩

theorem map (hf : ∀ p, ((f p).state = .unused ↔ p.state = .unused) ∧
    (f p).tickets = p.tickets ∧ (f p).stridePass = p.stridePass) : Quiet ps (ps.map f) := by
  intro j q hq
  rw [getElem?_map] at hq
  obtain ⟨p, hp, rfl⟩ := map_eq_some_iff.mp hq
  exact ⟨p, hp, hf p⟩

theorem modify {i : ℕ} (hu : ∀ p, ps[i]? = some p → p.state ≠ .unused)
    (hf : ∀ p, (f p).state ≠ .unused ∧ (f p).tickets = p.tickets ∧
      (f p).stridePass = p.stridePass) : Quiet ps (ps.modify i f) := by
  intro j q hq
  refine modify_slot (R := fun p q => (q.state = .unused ↔ p.state = .unused) ∧
    q.tickets = p.tickets ∧ q.stridePass = p.stridePass) hq (fun he p hp => ?_)
    fun _ p _ => ⟨Iff.rfl, rfl, rfl⟩
  subst he
  exact ⟨⟨fun h => absurd h (hf p).1, fun h => absurd h (hu p hp)⟩, (hf p).2⟩

theorem wakeup (ps : List Proc) (chan : ℕ) : Quiet ps (ps.map (wakeup chan)) := by
  refine .map fun p => ?_
  unfold Sched.wakeup
  split
  · rename_i h
    exact ⟨⟨nofun, fun hu => by rw [h.1] at hu; cases hu⟩, rfl, rfl⟩
  · exact ⟨Iff.rfl, rfl, rfl⟩

theorem reparent (i : ℕ) (ps : List Proc) : Quiet ps (reparent i ps) := by
  have h : Quiet ps (ps.map fun pp =>
      if pp.parent = some i then { pp with parent := some initproc } else pp) :=
    .map fun p => by split <;> exact ⟨Iff.rfl, rfl, rfl⟩
  unfold Sched.reparent
  split
  · exact h.trans (.wakeup _ _)
  · exact h

theorem slotStep (h : Quiet ps qs) (hs : setTickets s e = none) (hd : switchesTo s e = none)
    (hq : qs[j]? = some q) : ∃ p, ps[j]? = some p ∧ SlotStep s e j p q := by
  obtain ⟨p, hp, h1, h2, h3⟩ := h j q hq
  exact ⟨p, hp, .keep h1.mpr h2 h3 (fun n => by rw [hs]; exact nofun) (by rw [hd]; exact nofun)⟩

end Quiet

theorem freeproc_slot (hs : setTickets s e = none) (hd : switchesTo s e = none)
    (h : (s.modify i freeproc).proc[j]? = some q) :
    ∃ p, s.proc[j]? = some p ∧ SlotStep s e j p q :=
  modify_slot h (fun _ _ _ => .free rfl rfl) fun _ p _ => .refl hs hd p

theorem inState_ne {st : ProcState} (h : s.inState i st) (hst : st ≠ .unused) :
    ∀ p, s.proc[i]? = some p → p.state ≠ .unused := by
  intro p hp hu
  rw [Table.inState, hp] at h
  exact hst (by rw [← Option.some.inj h]; exact hu)

theorem state_slot {st : ProcState} {f : Proc → Proc} (hi : s.inState i st)
    (hst : st ≠ .unused) (hs : setTickets s e = none) (hd : switchesTo s e = none)
    (hq : (s.modify i f).proc[j]? = some q) (hf : ∀ p, (f p).state ≠ .unused ∧
      (f p).tickets = p.tickets ∧ (f p).stridePass = p.stridePass) :
    ∃ p, s.proc[j]? = some p ∧ SlotStep s e j p q :=
  (Quiet.modify (inState_ne hi hst) hf).slotStep hs hd hq

theorem exit_quiet (hi : s.inState i .running) (status : BitVec 32) (r : Proc) :
    Quiet s.proc (exit s i status r).proc := by
  have hend : ∀ ps, Quiet s.proc ps →
      Quiet s.proc (ps.modify i fun p => { p with xstate := status, state := .zombie }) := by
    intro ps h
    refine h.trans (.modify (fun p hp hu => ?_) fun _ => ⟨nofun, rfl, rfl⟩)
    obtain ⟨q, hq, hqu, -⟩ := h i p hp
    exact inState_ne hi (by decide) q hq (hqu.mp hu)
  unfold exit
  cases r.parent with
  | none => exact hend _ (.reparent i s.proc)
  | some pp => exact hend _ ((Quiet.reparent i s.proc).trans (.wakeup _ _))

theorem callStep_slot {c : Call} (h : callStep .stride s c = some t) (hq : t.proc[j]? = some q) :
    ∃ p, s.proc[j]? = some p ∧ SlotStep s (.call c) j p q := by
  cases c <;> simp only [callStep, ite_none_right_eq_some, Option.some.injEq] at h
  case allocproc =>
    obtain ⟨⟨i, u⟩, ha, rfl⟩ := map_eq_some_iff.mp h
    obtain ⟨p, hp, h1, h2⟩ := allocproc_slot ha hq
    have hset : setTickets s (.call .allocproc) = some (i, 60) := by rw [setTickets, ha]; rfl
    refine ⟨p, hp, ?_⟩
    rcases eq_or_ne i j with rfl | hij
    · obtain ⟨h3, h4⟩ := h1 rfl
      exact .set (by rw [hset, h3]) (by rw [h3, h4])
    · obtain ⟨h3, h4, h5⟩ := h2 hij
      refine .keep (fun hu => h3.trans hu) h4 h5 (fun n he => hij ?_) (by rintro ⟨⟩)
      rw [hset, Option.some.injEq, Prod.mk.injEq] at he
      exact he.1
  case tickets i n =>
    obtain ⟨-, rfl⟩ := h
    obtain ⟨p, hp, h1, h2, h3⟩ := setProcTickets_slot hq
    refine ⟨p, hp, ?_⟩
    rcases eq_or_ne i j with rfl | hij
    · obtain ⟨h4, h5⟩ := h2 rfl
      exact .set (by rw [h4]; rfl) (by rw [h4, h5])
    · obtain ⟨h4, h5⟩ := h3 hij
      refine .keep (fun hu => h1.trans hu) h4 h5 (fun m he => hij ?_) (by rintro ⟨⟩)
      rw [setTickets, Option.some.injEq, Prod.mk.injEq] at he
      exact he.1
  case forkFail np =>
    obtain ⟨-, rfl⟩ := h
    exact freeproc_slot rfl rfl hq
  case wait p =>
    obtain ⟨-, h⟩ := h
    obtain ⟨np, -, rfl⟩ := map_eq_some_iff.mp h
    exact freeproc_slot rfl rfl hq
  case forkDone p np =>
    obtain ⟨⟨-, hi⟩, rfl⟩ := h
    exact state_slot hi (by decide) rfl rfl hq fun _ => ⟨by rintro ⟨⟩, rfl, rfl⟩
  case exit i status =>
    obtain ⟨⟨hi, -⟩, h⟩ := h
    obtain ⟨r, -, rfl⟩ := map_eq_some_iff.mp h
    exact (exit_quiet hi status r).slotStep rfl rfl hq
  case yield i =>
    obtain ⟨hi, rfl⟩ := h
    exact state_slot hi (by decide) rfl rfl hq fun _ => ⟨by rintro ⟨⟩, rfl, rfl⟩
  case sleep i chan =>
    obtain ⟨hi, rfl⟩ := h
    exact state_slot hi (by decide) rfl rfl hq fun _ => ⟨by rintro ⟨⟩, rfl, rfl⟩
  case wakeup i chan =>
    obtain ⟨-, rfl⟩ := h
    exact (Quiet.wakeup s.proc chan).slotStep rfl rfl hq

theorem kill_slot {pid : BitVec 32} (hq : (kill s pid).2.proc[j]? = some q) :
    ∃ p, s.proc[j]? = some p ∧ SlotStep s (.kill pid) j p q := by
  unfold kill at hq
  split at hq
  · refine modify_slot hq (fun _ p _ => ?_) fun _ p _ => .refl rfl rfl p
    refine .keep (fun hu => ?_) rfl rfl nofun nofun
    simp only [killProc, hu]
    rfl
  · exact ⟨q, hq, .refl rfl rfl q⟩

theorem dispatch_slot {cpu i : ℕ} (hi : s.schedP cpu = some i)
    (hq : (dispatch i s.proc)[j]? = some q) :
    ∃ p, s.proc[j]? = some p ∧ SlotStep s (.dispatch cpu) j p q := by
  refine modify_slot hq (fun he p hp => ?_) fun hne p _ => ?_
  · subst he
    have hch : chosen s cpu = if p.state = .runnable then some p else none := by
      simp only [chosen, hi, bind_some, hp, filter_some, decide_eq_true_eq]
    split
    · rename_i hr
      exact .dispatch (by rw [switchesTo, hch, if_pos hr]; exact hi) hr rfl rfl
    · rename_i hr
      refine .refl rfl ?_ p
      rw [switchesTo, hch, if_neg hr]
      rfl
  · refine .keep id rfl rfl nofun fun he => hne ?_
    rw [switchesTo, hi] at he
    split at he
    · exact Option.some.inj he
    · cases he

theorem step_slot (h : step s e = some t) (hq : t.proc[j]? = some q) :
    ∃ p, s.proc[j]? = some p ∧ SlotStep s e j p q := by
  cases e with
  | call c => exact callStep_slot h hq
  | kill pid =>
    cases h
    exact kill_slot hq
  | select cpu =>
    cases h
    exact ⟨q, hq, .refl rfl rfl q⟩
  | dispatch cpu =>
    obtain ⟨i, hi, rfl⟩ := map_eq_some_iff.mp h
    exact dispatch_slot hi hq

def divisors (s : Table) : Event → List (BitVec 32)
  | .call (.tickets _ n) => [n]
  | .call .allocproc => if (allocproc .stride s).isSome then [60, 60] else []
  | .dispatch cpu => (chosen s cpu).toList.map Proc.tickets
  | _ => []

/-- The step divides by no zero, and a process that it switches to gets a larger pass. -/
def Progresses (s : Table) (e : Event) : Prop :=
  (∀ d ∈ divisors s e, d ≠ 0) ∧ ∀ i p t q, switchesTo s e = some i → s.proc[i]? = some p →
    step s e = some t → t.proc[i]? = some q → p.stridePass.toInt < q.stridePass.toInt

/-- `tickets(0)` is not called, and a process is switched to only with 1 to 60 tickets and a pass
that its stride does not carry beyond `2^31 - 1`. -/
def InBounds (s : Table) : Event → Prop
  | .call (.tickets _ n) => n ≠ 0
  | .dispatch cpu => ∀ p, chosen s cpu = some p → 1 ≤ p.tickets.toInt ∧ p.tickets.toInt ≤ 60 ∧
      p.stridePass.toInt + 60 / p.tickets.toInt < 2 ^ 31
  | _ => True

theorem divw_bounds (n : BitVec 32) :
    -60 ≤ (divw STRIDE_NUM n).toInt ∧ (divw STRIDE_NUM n).toInt ≤ 60 := by
  unfold divw
  split
  · decide
  · have h := Int.natAbs_tdiv_le_natAbs 60 n.toInt
    rw [toInt_sdiv, show STRIDE_NUM.toInt = 60 from rfl, Int.bmod_def]
    omega

theorem divw_nonpos (hn : n ≠ 0) (h : n.toInt < 1 ∨ 60 < n.toInt) :
    (divw STRIDE_NUM n).toInt ≤ 0 := by
  have hq : Int.tdiv 60 n.toInt ≤ 0 := by
    rcases h with h | h
    · exact Int.tdiv_nonpos_of_nonneg_of_nonpos (by decide) (by omega)
    · rw [Int.tdiv_eq_zero_of_lt (by decide) h]
  have hb := Int.natAbs_tdiv_le_natAbs 60 n.toInt
  rw [divw, if_neg hn, toInt_sdiv, show STRIDE_NUM.toInt = 60 from rfl, Int.bmod_def]
  omega

/-- The pass grows exactly when the stride is positive and the sum does not wrap. -/
theorem pass_lt_iff {v n : BitVec 32} (hv : -60 ≤ v.toInt) (hn : n ≠ 0) :
    v.toInt < (v + divw STRIDE_NUM n).toInt ↔
      1 ≤ n.toInt ∧ n.toInt ≤ 60 ∧ v.toInt + 60 / n.toInt < 2 ^ 31 := by
  have hb := divw_bounds n
  have hlt := toInt_lt (x := v)
  rw [toInt_add, Int.bmod_def]
  by_cases h : 1 ≤ n.toInt ∧ n.toInt ≤ 60
  · have hs : (divw STRIDE_NUM n).toInt = 60 / n.toInt := divw_toInt h.1
    have hpos : 1 ≤ 60 / n.toInt := (Int.le_ediv_iff_mul_le (by omega)).mpr (by omega)
    rw [hs] at hb ⊢
    omega
  · have := divw_nonpos hn (by omega)
    omega

theorem chosen_eq_some {cpu : ℕ} : chosen s cpu = some p ↔
    ∃ i, s.schedP cpu = some i ∧ s.proc[i]? = some p ∧ p.state = .runnable := by
  simp only [chosen, bind_eq_some_iff, filter_eq_some_iff, decide_eq_true_eq]

theorem dispatch_self (hp : s.proc[i]? = some p) (hr : p.state = .runnable) :
    (dispatch i s.proc)[i]? = some { p with
      state := .running, schedCnt := p.schedCnt + 1
      stridePass := p.stridePass + divw STRIDE_NUM p.tickets } := by
  rw [dispatch, getElem?_modify_eq, hp]
  exact congrArg some (if_pos hr)

theorem progresses_iff (hlow : ∀ p ∈ s.proc, -60 ≤ p.stridePass.toInt) :
    Progresses s e ↔ InBounds s e := by
  have hquiet : switchesTo s e = none → ((∀ d ∈ divisors s e, d ≠ 0) ↔ InBounds s e) →
      (Progresses s e ↔ InBounds s e) := by
    intro hd hdiv
    refine ⟨fun h => hdiv.mp h.1, fun h => ⟨hdiv.mpr h, fun i _ _ _ hi => ?_⟩⟩
    rw [hd] at hi
    cases hi
  cases e with
  | call c =>
    cases c with
    | tickets p n => exact hquiet rfl (by simp [divisors, InBounds])
    | allocproc =>
      refine hquiet rfl ⟨fun _ => trivial, fun _ d hd => ?_⟩
      have h60 : d = 60 := by
        rw [divisors] at hd
        split at hd
        · simpa using hd
        · cases hd
      rw [h60]
      decide
    | _ => exact hquiet rfl ⟨fun _ => trivial, fun _ => nofun⟩
  | kill pid => exact hquiet rfl ⟨fun _ => trivial, fun _ => nofun⟩
  | select cpu => exact hquiet rfl ⟨fun _ => trivial, fun _ => nofun⟩
  | dispatch cpu =>
    cases hch : chosen s cpu with
    | none =>
      refine hquiet (by rw [switchesTo, hch]; rfl) ⟨fun _ p hp => ?_, fun _ d hd => ?_⟩
      · rw [hch] at hp
        cases hp
      · rw [divisors, hch] at hd
        cases hd
    | some p =>
      obtain ⟨i, hi, hp, hr⟩ := chosen_eq_some.mp hch
      have hsw : switchesTo s (.dispatch cpu) = some i := by rw [switchesTo, hch]; exact hi
      have hdiv : divisors s (.dispatch cpu) = [p.tickets] := by rw [divisors, hch]; rfl
      have hstep : step s (.dispatch cpu) = some { s with
          proc := dispatch i s.proc, schedP := update s.schedP cpu none } := by
        rw [step, hi, map_some]
      have hself := dispatch_self hp hr
      have hv := hlow p (mem_of_getElem? hp)
      have hbound : InBounds s (.dispatch cpu) ↔ 1 ≤ p.tickets.toInt ∧ p.tickets.toInt ≤ 60 ∧
          p.stridePass.toInt + 60 / p.tickets.toInt < 2 ^ 31 := by
        simp only [InBounds, hch, Option.some.injEq, forall_eq']
      rw [hbound]
      constructor
      · rintro ⟨h0, hlt⟩
        rw [hdiv] at h0
        have hgrow := hlt i p _ _ hsw hp hstep hself
        exact (pass_lt_iff hv (h0 _ (mem_singleton_self _))).mp hgrow
      · intro h
        have hne : p.tickets ≠ 0 := by
          intro h0
          rw [h0] at h
          exact absurd h.1 (by decide)
        refine ⟨by rw [hdiv]; simpa using hne, fun k r t q hk hr' ht hq => ?_⟩
        obtain rfl : i = k := by rw [hsw] at hk; exact Option.some.inj hk
        rw [hp] at hr'
        cases hr'
        rw [hstep] at ht
        cases ht
        rw [hself] at hq
        cases hq
        exact (pass_lt_iff hv hne).mpr h

theorem lowPass_step (hlow : ∀ p ∈ s.proc, -60 ≤ p.stridePass.toInt) (hb : InBounds s e)
    (hs : step s e = some t) : ∀ p ∈ t.proc, -60 ≤ p.stridePass.toInt := by
  intro q hq
  obtain ⟨j, hj⟩ := mem_iff_getElem?.mp hq
  obtain ⟨p, hp, hstep⟩ := step_slot hs hj
  have hv := hlow p (mem_of_getElem? hp)
  cases hstep with
  | keep _ _ h => rwa [h]
  | set _ h =>
    rw [h]
    exact (divw_bounds _).1
  | free _ h =>
    rw [h]
    decide
  | dispatch hd =>
    have := ((progresses_iff hlow).mpr hb).2 j p t q hd hp hs hj
    omega

theorem lowPass_boot : ∀ p ∈ boot.proc, -60 ≤ p.stridePass.toInt := by decide +kernel

/-- In every run, all steps make progress if and only if all are within bounds. -/
theorem progresses_iff_inBounds {es : List Event} (hr : run step boot es = some s) :
    Along step Progresses boot es ↔ Along step InBounds boot es := by
  induction es using List.reverseRecOn generalizing s with
  | nil => exact Iff.rfl
  | append_singleton es e ih =>
    obtain ⟨u, hu, -⟩ := run_concat_eq_some.mp hr
    rw [along_concat, along_concat, ih hu]
    refine and_congr_right fun hb => ?_
    have hlow : ∀ p ∈ u.proc, -60 ≤ p.stridePass.toInt :=
      run_invariant (I := fun s => ∀ p ∈ s.proc, -60 ≤ p.stridePass.toInt) lowPass_boot
        (fun _ _ _ h hb hs => lowPass_step h hb hs) hb hu
    rw [hu]
    simp only [Option.some.injEq, forall_eq']
    exact progresses_iff hlow

def someRun : List Event :=
  [.select 0, .dispatch 0, .call (.tickets 0 30), .call (.yield 0), .select 0, .dispatch 0]

instance (s : Table) (e : Event) : Decidable (InBounds s e) :=
  match e with
  | .call (.tickets _ n) => inferInstanceAs (Decidable (n ≠ 0))
  | .dispatch cpu => match h : chosen s cpu with
    | none => isTrue fun p hp => by rw [h] at hp; cases hp
    | some p => decidable_of_iff (1 ≤ p.tickets.toInt ∧ p.tickets.toInt ≤ 60 ∧
        p.stridePass.toInt + 60 / p.tickets.toInt < 2 ^ 31) (by simp [InBounds, h])
  | .call .allocproc | .call (.forkFail _) | .call (.forkDone _ _) | .call (.exit _ _)
  | .call (.wait _) | .call (.yield _) | .call (.sleep _ _) | .call (.wakeup _ _)
  | .kill _ | .select _ => isTrue trivial

theorem progresses_someRun : ∃ s, run step boot someRun = some s ∧
    Along step Progresses boot someRun := by
  have hs : (run step boot someRun).isSome := by decide +kernel
  obtain ⟨s, hs⟩ := isSome_iff_exists.mp hs
  exact ⟨s, hs, (progresses_iff_inBounds hs).mpr (by decide +kernel)⟩

def askFor (n : BitVec 32) : List Event :=
  [.select 0, .dispatch 0, .call (.tickets 0 n), .call (.yield 0), .select 0]

/-- `tickets(0)` divides by zero, and with 61 tickets the pass stands still. -/
theorem not_progresses_askFor :
    (∃ s, run step boot [.select 0, .dispatch 0] = some s ∧
      ¬ Progresses s (.call (.tickets 0 0))) ∧
    ∃ s, run step boot (askFor 61) = some s ∧ ¬ Progresses s (.dispatch 0) := by
  constructor
  · have hs : (run step boot [.select 0, .dispatch 0]).isSome := by decide +kernel
    obtain ⟨s, hs⟩ := isSome_iff_exists.mp hs
    exact ⟨s, hs, fun h => h.1 0 (mem_singleton_self _) rfl⟩
  · have hs : ((run step boot (askFor 61)).bind fun s => (step s (.dispatch 0)).map fun t =>
        (switchesTo s (.dispatch 0), s.proc[0]?.map Proc.stridePass,
          t.proc[0]?.map Proc.stridePass)) = some (some 0, some 0, some 0) := by decide +kernel
    obtain ⟨s, hs, h⟩ := bind_eq_some_iff.mp hs
    obtain ⟨t, ht, h⟩ := map_eq_some_iff.mp h
    simp only [Prod.mk.injEq, map_eq_some_iff] at h
    obtain ⟨hsw, ⟨p, hp, hp0⟩, q, hq, hq0⟩ := h
    refine ⟨s, hs, fun hprog => ?_⟩
    have := hprog.2 0 p t q hsw hp ht hq
    rw [hp0, hq0] at this
    exact absurd this (lt_irrefl _)

def NotAhead (t : Table) (i : ℕ) : Prop :=
  ∀ q, t.proc[i]? = some q → (∃ r ∈ t.proc, r.state = .runnable) →
    ∃ r ∈ t.proc, r.state = .runnable ∧ r.stridePass.toInt ≤ q.stridePass.toInt

/-- A step that sets tickets does not put the process ahead of the others. -/
def KeepsOrder (s : Table) (e : Event) : Prop :=
  ∀ i n t, setTickets s e = some (i, n) → step s e = some t → NotAhead t i

/-- A table with the number of times each slot was switched to since its tickets were set. -/
structure Traced where
  tab : Table
  turns : ℕ → ℕ := fun _ => 0

def nextTurns (s : Table) (e : Event) (turns : ℕ → ℕ) : ℕ → ℕ :=
  match setTickets s e, switchesTo s e with
  | some (i, _), _ => update turns i 0
  | none, some i => update turns i (turns i + 1)
  | none, none => turns

def Traced.step (x : Traced) (e : Event) : Option Traced :=
  (Stride.step x.tab e).map fun t => ⟨t, nextTurns x.tab e x.turns⟩

def passAfter (n : BitVec 32) (k : ℕ) : BitVec 32 := divw STRIDE_NUM n * BitVec.ofNat 32 (k + 1)

/-- No process is runnable when the tickets are set to `n`, or one of the runnable processes has
had no more turns than its stride allows below `60 / n`. -/
def Level (x : Traced) (e : Event) : Prop :=
  ∀ i n, setTickets x.tab e = some (i, n) → (∀ r ∈ x.tab.proc, r.state ≠ .runnable) ∨
    ∃ j r, x.tab.proc[j]? = some r ∧ r.state = .runnable ∧
      (passAfter r.tickets (x.turns j)).toInt ≤ (divw STRIDE_NUM n).toInt

theorem passAfter_zero (n : BitVec 32) : passAfter n 0 = divw STRIDE_NUM n :=
  BitVec.mul_one _

theorem passAfter_succ (n : BitVec 32) (k : ℕ) :
    passAfter n (k + 1) = passAfter n k + divw STRIDE_NUM n := by
  rw [passAfter, passAfter, ofNat_add (k + 1) 1, BitVec.mul_add, BitVec.mul_one]

def Counts (x : Traced) : Prop :=
  ∀ (j : ℕ) (q : Proc), x.tab.proc[j]? = some q → q.state ≠ .unused →
    q.stridePass = passAfter q.tickets (x.turns j)

theorem switchesTo_setTickets (h : switchesTo s e = some j) : setTickets s e = none := by
  cases e with
  | call | kill | select => cases h
  | dispatch => rfl

theorem nextTurns_of_ne {turns : ℕ → ℕ} (hset : ∀ n, setTickets s e ≠ some (j, n))
    (hsw : switchesTo s e ≠ some j) : nextTurns s e turns j = turns j := by
  rcases h1 : setTickets s e with _ | ⟨i, n⟩
  · rcases h2 : switchesTo s e with _ | i
    · simp only [nextTurns, h1, h2]
    · simp only [nextTurns, h1, h2]
      exact update_of_ne (fun hji : j = i => hsw (hji ▸ h2)) _ _
  · simp only [nextTurns, h1]
    exact update_of_ne (fun hji : j = i => hset n (hji ▸ h1)) _ _

theorem Counts.step {x y : Traced} (h : Counts x) (hs : x.step e = some y) : Counts y := by
  obtain ⟨t, ht, rfl⟩ := map_eq_some_iff.mp hs
  intro j q hq hu
  obtain ⟨p, hp, hstep⟩ := step_slot ht hq
  dsimp only
  cases hstep with
  | keep hpu htk hps hset hsw =>
    rw [nextTurns_of_ne hset hsw, hps, htk]
    exact h j p hp fun hp0 => hu (hpu hp0)
  | set hset hps =>
    rw [hps, nextTurns, hset]
    simp only [update_self, passAfter_zero]
  | free hu' => exact absurd hu' hu
  | dispatch hsw hr htk hps =>
    rw [hps, htk, nextTurns, switchesTo_setTickets hsw, hsw]
    simp only [update_self, passAfter_succ]
    rw [h j p hp (by rw [hr]; decide)]

theorem counts_boot : Counts ⟨boot, fun _ => 0⟩ := by
  have hall : ∀ q ∈ boot.proc, q.state ≠ .unused → q.stridePass = passAfter q.tickets 0 := by
    decide +kernel
  intro j q hq hu
  exact hall q (mem_of_getElem? hq) hu

theorem run_counts {es : List Event} {x : Traced}
    (hr : run Traced.step ⟨boot, fun _ => 0⟩ es = some x) : Counts x :=
  run_invariant (C := fun _ _ => True) counts_boot (fun _ _ _ h _ hs => h.step hs)
    (along_true _ es) hr

theorem setTickets_cases (hs : setTickets s e = some (i, n)) : e = .call (.tickets i n) ∨
      e = .call .allocproc ∧ n = 60 ∧ ∃ u, allocproc .stride s = some (i, u) := by
  unfold setTickets at hs
  split at hs
  · cases hs
    exact .inl rfl
  · obtain ⟨⟨k, u⟩, ha, heq⟩ := map_eq_some_iff.mp hs
    cases heq
    exact .inr ⟨rfl, rfl, u, ha⟩
  · cases hs

theorem setTickets_slot (hs : setTickets s e = some (i, n))
    (ht : step s e = some t) : (∃ q, t.proc[i]? = some q) ∧ t.proc.length = s.proc.length ∧
    ∀ (j : ℕ) (q : Proc), t.proc[j]? = some q → ∃ p, s.proc[j]? = some p ∧
      (i = j → p.state ≠ .runnable ∧ q.state ≠ .runnable ∧ q.stridePass = divw STRIDE_NUM n) ∧
      (i ≠ j → q.state = p.state ∧ q.stridePass = p.stridePass) := by
  rcases setTickets_cases hs with rfl | ⟨rfl, rfl, u, ha⟩
  · simp only [step, callStep, guard_iff] at ht
    obtain ⟨hrun, rfl⟩ := ht
    have hlen : (setProcTickets .stride s i n).proc.length = s.proc.length := by
      simpa using congrArg List.length (setProcTickets_core .stride s i n)
    obtain ⟨p₀, hp₀, hst⟩ := map_eq_some_iff.mp hrun
    refine ⟨?_, hlen, fun j q hq => ?_⟩
    · exact ⟨_, List.getElem?_eq_getElem (hlen ▸ (List.getElem?_eq_some_iff.mp hp₀).1)⟩
    obtain ⟨p, hp, h1, h2, h3⟩ := setProcTickets_slot hq
    refine ⟨p, hp, fun hij => ?_, fun hij => ⟨h1, (h3 hij).2⟩⟩
    subst hij
    rw [hp₀] at hp
    cases hp
    rw [h1, hst]
    exact ⟨by rintro ⟨⟩, by rintro ⟨⟩, (h2 rfl).2⟩
  · rw [step, callStep, ha] at ht
    cases ht
    obtain ⟨⟨p₀, hp₀, hu⟩, hcore⟩ := allocproc_core ha
    have hlen : u.proc.length = s.proc.length := by simpa using congrArg List.length hcore
    refine ⟨?_, hlen, fun j q hq => ?_⟩
    · exact ⟨_, List.getElem?_eq_getElem (hlen ▸ (List.getElem?_eq_some_iff.mp hp₀).1)⟩
    obtain ⟨p, hp, h1, h2⟩ := allocproc_slot ha hq
    refine ⟨p, hp, fun hij => ?_, fun hij => ⟨(h2 hij).1, (h2 hij).2.2⟩⟩
    subst hij
    have hq' := congrArg (·[i]?) hcore
    simp only [getElem?_map, hq, getElem?_modify_eq, hp] at hq'
    have hused : q.state = .used := congrArg Core.state (Option.some.inj hq')
    rw [hp₀] at hp
    cases hp
    rw [hu, hused]
    exact ⟨by rintro ⟨⟩, by rintro ⟨⟩, (h1 rfl).2⟩

theorem setTickets_runnable (hs : setTickets s e = some (i, n))
    (ht : step s e = some t) (P : BitVec 32 → Prop) :
    (∃ r ∈ t.proc, r.state = .runnable ∧ P r.stridePass) ↔
      ∃ r ∈ s.proc, r.state = .runnable ∧ P r.stridePass := by
  obtain ⟨-, hlen, hslot⟩ := setTickets_slot hs ht
  constructor
  · rintro ⟨r, hr, hrun, hP⟩
    obtain ⟨j, hj⟩ := mem_iff_getElem?.mp hr
    obtain ⟨p, hp, h1, h2⟩ := hslot j r hj
    obtain ⟨h3, h4⟩ := h2 fun hij => (h1 hij).2.1 hrun
    exact ⟨p, mem_of_getElem? hp, h3 ▸ hrun, h4 ▸ hP⟩
  · rintro ⟨r, hr, hrun, hP⟩
    obtain ⟨j, hj⟩ := mem_iff_getElem?.mp hr
    have hjt : j < t.proc.length := hlen ▸ (List.getElem?_eq_some_iff.mp hj).1
    obtain ⟨p, hp, h1, h2⟩ := hslot j _ (List.getElem?_eq_getElem hjt)
    rw [hj] at hp
    cases hp
    obtain ⟨h3, h4⟩ := h2 fun hij => (h1 hij).1 hrun
    exact ⟨_, getElem_mem hjt, h3.trans hrun, h4 ▸ hP⟩

/-- After every run, a step that sets tickets leaves the process behind some runnable process
exactly when such a process has had few enough turns. -/
theorem keepsOrder_iff_level {es : List Event} {x : Traced}
    (hr : run Traced.step ⟨boot, fun _ => 0⟩ es = some x) (ht : step x.tab e = some t) :
    KeepsOrder x.tab e ↔ Level x e := by
  have hcount := run_counts hr
  constructor
  · intro h i n hs
    obtain ⟨⟨q, hq⟩, -, hslot⟩ := setTickets_slot hs ht
    obtain ⟨p, hp, hset, -⟩ := hslot i q hq
    by_cases hrun : ∀ r ∈ x.tab.proc, r.state ≠ .runnable
    · exact .inl hrun
    push Not at hrun
    right
    obtain ⟨r, hr, hrr⟩ := hrun
    obtain ⟨r', hr', hrr', -⟩ := (setTickets_runnable hs ht fun _ => True).mpr ⟨r, hr, hrr, trivial⟩
    obtain ⟨r₁, hr₁⟩ := h i n t hs ht q hq ⟨r', hr', hrr'⟩
    obtain ⟨r₂, hr₂, hrr₂, hle⟩ := (setTickets_runnable hs ht
      fun v => v.toInt ≤ q.stridePass.toInt).mp ⟨r₁, hr₁⟩
    obtain ⟨j, hj⟩ := mem_iff_getElem?.mp hr₂
    refine ⟨j, r₂, hj, hrr₂, ?_⟩
    rwa [(hset rfl).2.2, hcount j r₂ hj (by rw [hrr₂]; decide)] at hle
  · intro h i n u hs hu q hq hrun
    rw [ht] at hu
    cases hu
    obtain ⟨-, -, hslot⟩ := setTickets_slot hs ht
    obtain ⟨p, hp, hset, -⟩ := hslot i q hq
    rcases h i n hs with hnone | ⟨j, r, hj, hrr, hle⟩
    · obtain ⟨r, hr, hrr⟩ := hrun
      obtain ⟨r', hr', hrr', -⟩ := (setTickets_runnable hs ht fun _ => True).mp
        ⟨r, hr, hrr, trivial⟩
      exact absurd hrr' (hnone r' hr')
    · refine (setTickets_runnable hs ht fun v => v.toInt ≤ q.stridePass.toInt).mpr
        ⟨r, mem_of_getElem? hj, hrr, ?_⟩
      rw [(hset rfl).2.2, hcount j r hj (by rw [hrr]; decide)]
      exact hle

def forkRun : List Event :=
  [.select 0, .dispatch 0, .call .allocproc, .call (.forkDone 0 1), .call (.yield 0), .select 0,
    .dispatch 0]

theorem keepsOrder_forkRun : ∃ x, run Traced.step ⟨boot, fun _ => 0⟩ forkRun = some x ∧
    KeepsOrder x.tab (.call (.tickets 1 10)) := by
  have hx : ((run Traced.step ⟨boot, fun _ => 0⟩ forkRun).bind fun x =>
      (step x.tab (.call (.tickets 1 10))).bind fun _ => x.tab.proc[0]?.filter fun r =>
        r.state = .runnable ∧ (passAfter r.tickets (x.turns 0)).toInt ≤
          (divw STRIDE_NUM 10).toInt).isSome := by decide +kernel
  obtain ⟨r, hr⟩ := isSome_iff_exists.mp hx
  obtain ⟨x, hx, hr⟩ := bind_eq_some_iff.mp hr
  obtain ⟨t, ht, hr⟩ := bind_eq_some_iff.mp hr
  obtain ⟨hr, hle⟩ := filter_eq_some_iff.mp hr
  refine ⟨x, hx, (keepsOrder_iff_level hx ht).mpr fun i n hs => .inr ?_⟩
  cases hs
  exact ⟨0, r, hr, of_decide_eq_true hle⟩

/-- A running process that asks for 60 tickets again goes ahead of `init`, which waits. -/
theorem not_keepsOrder_forkRun : ∃ s, run step boot forkRun = some s ∧
    ¬ KeepsOrder s (.call (.tickets 1 60)) := by
  have hs : ((run step boot forkRun).bind fun s => (step s (.call (.tickets 1 60))).bind fun t =>
      t.proc[1]?.filter fun q => (∃ r ∈ t.proc, r.state = .runnable) ∧
        ∀ r ∈ t.proc, r.state = .runnable → q.stridePass.toInt < r.stridePass.toInt).isSome := by
    decide +kernel
  obtain ⟨q, hq⟩ := isSome_iff_exists.mp hs
  obtain ⟨s, hs, hq⟩ := bind_eq_some_iff.mp hq
  obtain ⟨t, ht, hq⟩ := bind_eq_some_iff.mp hq
  obtain ⟨hq, hlt⟩ := filter_eq_some_iff.mp hq
  obtain ⟨hrun, hlt⟩ := of_decide_eq_true hlt
  refine ⟨s, hs, fun hk => ?_⟩
  obtain ⟨r, hr, hrr, hle⟩ := hk 1 60 t rfl ht q hq hrun
  exact absurd hle (not_le.mpr (hlt r hr hrr))

end Xv6.Sched.Stride
