import Xv6.Sched.Family

/-! Several CPUs over one process table. A step is a section of `scheduler()`, of a call or of an
interrupt handler under `p->lock` or `wait_lock`; the sections of `sched()` are split where
`swtch` leaves the process, with `p->lock` held in between. -/
namespace Xv6.Sched
open PartialRun Function List Option

structure Smp where
  tab : Table
  cpuProc : ℕ → Option ℕ := fun _ => none
  lock : ℕ → Option ℕ := fun _ => none
  task : ℕ → Task := fun _ => .user
  waitLock : Option ℕ := none

/-- The argument of `wait`: no address, or one where `copyout` succeeds or fails. -/
inductive Addr where
  | null
  | good
  | bad
  deriving DecidableEq, Repr

namespace Smp

/-- The sections of the calls of a process. `yield` also stands for the timer interrupt. -/
inductive Call where
  | yield
  | sleep (chan : ℕ)
  | tickets (n : BitVec 32)
  | forkAlloc (np : ℕ) (ok : Bool)
  | forkParent
  | forkRun
  | exitBegin (status : BitVec 32)
  | exitEnd
  | waitBegin
  | reap (addr : Addr)
  | waitNone
  | waitSleep
  deriving DecidableEq, Repr

/-- `dispatch` and `swtch` are the two halves of an iteration of `scheduler()` on CPU `c`, with
slot `i` chosen in any way; `wake` and `kill` are the sections on slot `i` of those calls, made by
any process or interrupt handler. -/
inductive Event where
  | dispatch (c i : ℕ)
  | swtch (c : ℕ)
  | wake (chan i : ℕ)
  | kill (pid : BitVec 32) (i : ℕ)
  | call (c : ℕ) (x : Call)
  deriving DecidableEq, Repr

def cur (s : Smp) (c : ℕ) : Option ℕ := (s.cpuProc c).filter fun i => s.lock i = none

def setTab (s : Smp) (i : ℕ) (f : Proc → Proc) : Smp := { s with tab := s.tab.modify i f }
def setTask (s : Smp) (i : ℕ) (t : Task) : Smp := { s with task := update s.task i t }

def sched (s : Smp) (c i : ℕ) (f : Proc → Proc) : Smp :=
  { s.setTab i f with lock := update s.lock i (some c) }

def reparent (i : ℕ) (pp : Proc) : Proc :=
  if pp.parent = some i then { pp with parent := some initproc } else pp

def havekids (s : Smp) (i : ℕ) : Bool := s.tab.proc.any fun np => np.parent = some i

def killed (s : Smp) (i : ℕ) : Bool := (s.tab.proc[i]?.map (·.killed)).any (· ≠ 0)

def callStep (b : Build) (s : Smp) (c i : ℕ) : Call → Option Smp
  | .yield =>
    if s.waitLock ≠ some i then some (s.sched c i fun p => { p with state := .runnable }) else none
  | .sleep chan =>
    if s.task i = .user then
      some (s.sched c i fun p => { p with chan := chan, state := .sleeping })
    else none
  | .tickets n =>
    if s.task i = .user then some { s with tab := setProcTickets b s.tab i n } else none
  | .forkAlloc np ok =>
    if s.task i = .user ∧ s.lock np = none ∧ s.tab.inState np .unused then
      let t := { s with tab := found b s.tab np }
      some (if ok then t.setTask i (.forking np) else t.setTab np freeproc)
    else none
  | .forkParent => match s.task i with
    | .forking np =>
      if s.waitLock = none then
        some ((s.setTab np fun q => { q with parent := some i }).setTask i (.forked np))
      else none
    | _ => none
  | .forkRun => match s.task i with
    | .forked np =>
      if s.lock np = none then
        some ((s.setTab np fun q => { q with state := .runnable }).setTask i .user)
      else none
    | _ => none
  | .exitBegin status =>
    if s.task i = .user ∧ i ≠ initproc ∧ s.waitLock = none then
      some ({ s with
        tab := { s.tab with proc := s.tab.proc.map (reparent i) }
        waitLock := some i }.setTask i (.exiting status))
    else none
  | .exitEnd => match s.task i with
    | .exiting status =>
      some (({ s with waitLock := none }.sched c i fun p =>
        { p with xstate := status, state := .zombie }).setTask i .user)
    | _ => none
  | .waitBegin =>
    if (s.task i = .user ∨ s.task i = .waitAgain) ∧ s.waitLock = none then
      some ({ s with waitLock := some i }.setTask i .waiting)
    else none
  | .reap addr =>
    if s.task i = .waiting then (zombieChild s.tab i).bind fun np =>
      if s.lock np = none then
        let t := { s with waitLock := none }.setTask i .user
        some (if addr = .bad then t else t.setTab np freeproc)
      else none
    else none
  | .waitNone =>
    if s.task i = .waiting ∧ zombieChild s.tab i = none ∧ (¬ s.havekids i ∨ s.killed i) then
      some ({ s with waitLock := none }.setTask i .user)
    else none
  | .waitSleep =>
    if s.task i = .waiting ∧ zombieChild s.tab i = none ∧ s.havekids i ∧ ¬ s.killed i then
      some (({ s with waitLock := none }.sched c i fun p =>
        { p with chan := procChan i, state := .sleeping }).setTask i .waitAgain)
    else none

/-- A process that is switched to resumes in `sleep`, which clears `chan`, or in `yield` or
`forkret`, where `chan` is 0. -/
def step (b : Build) (s : Smp) : Event → Option Smp
  | .dispatch c i =>
    if s.cpuProc c = none ∧ s.lock i = none then
      some (if s.tab.inState i .runnable then
        { s.setTab i fun p => { dispatchProc b p with chan := 0 } with
          cpuProc := update s.cpuProc c (some i) }
      else s)
    else none
  | .swtch c => (s.cpuProc c).bind fun i =>
    if s.lock i = some c then
      some { s with
        cpuProc := update s.cpuProc c none, lock := update s.lock i none }
    else none
  | .wake chan i => if s.lock i = none then some (s.setTab i (wakeup chan)) else none
  | .kill pid i =>
    if s.lock i = none then some (s.setTab i fun p => if p.pid = pid then killProc p else p)
    else none
  | .call c x => (s.cur c).bind fun i => callStep b s c i x

def boot (b : Build) : Smp := { tab := userinit b }

def recycled (s : Smp) : Event → Option ℕ
  | .call _ (.forkAlloc np _) => some np
  | .call c (.reap addr) => if addr = .bad then none else (s.cur c).bind (zombieChild s.tab)
  | _ => none

def coreAt (ps : List Proc) (j : ℕ) : Core := (ps[j]?.map Proc.core).getD .freed

def life (s : Smp) : Life where
  core := coreAt s.tab.proc
  nextpid := s.tab.nextpid
  cpuProc := s.cpuProc
  lock := s.lock
  task := s.task
  waitLock := s.waitLock

def callAct (s : Smp) (i : ℕ) : Call → Option Act
  | .forkParent =>
    (s.task i).child.map fun np => .forked (s.life.core i).pid (s.life.core np).pid
  | .exitEnd => match s.task i with
    | .exiting status => some (.exited (s.life.core i).pid status)
    | _ => none
  | .reap addr =>
    if addr = .bad then none else (zombieChild s.tab i).map fun np =>
      .waited (s.life.core i).pid (s.life.core np).pid
        (if addr = .null then none else some (s.life.core np).xstate)
  | _ => none

def act (s : Smp) : Event → Option Act
  | .call c x => (s.cur c).bind fun i => s.callAct i x
  | _ => none

variable {b : Build} {s t : Smp} {ps qs : List Proc} {c i j np : ℕ} {p : Proc} {f : Proc → Proc}

theorem coreAt_of_some (h : ps[i]? = some p) : coreAt ps i = p.core := by
  rw [coreAt, h]
  rfl

theorem coreAt_of_map (h : ps.map Proc.core = qs.map Proc.core) : coreAt ps = coreAt qs := by
  funext j
  rw [coreAt, coreAt, ← getElem?_map, ← getElem?_map, h]

theorem exists_of_core (h : (s.life.core i).state ≠ .unused) : ∃ p, s.tab.proc[i]? = some p := by
  simp only [life, coreAt] at h
  cases hp : s.tab.proc[i]? with
  | none =>
    rw [hp] at h
    exact absurd rfl h
  | some p => exact ⟨p, rfl⟩

theorem coreAt_modify (h : ps[i]? = some p) :
    coreAt (ps.modify i f) = update (coreAt ps) i (f p).core := by
  funext j
  rcases eq_or_ne i j with rfl | hij
  · rw [update_self, coreAt, getElem?_modify_eq, h]
    rfl
  · rw [update_of_ne hij.symm, coreAt, coreAt, getElem?_modify_ne _ _ hij]

theorem life_setTab {k : Core} (h : s.tab.proc[i]? = some p) (hk : (f p).core = k) :
    (s.setTab i f).life = s.life.setCore i k := by
  simp only [life, setTab, Table.modify, Life.setCore, coreAt_modify h, hk]

theorem life_sched {k : Core} (h : s.tab.proc[i]? = some p) (hk : (f p).core = k) :
    (s.sched c i f).life = (s.life.setCore i k).setLock i (some c) := by
  rw [← life_setTab h hk]
  rfl

theorem life_setTask {tk : Task} : (s.setTask i tk).life = s.life.setTask i tk := rfl

theorem core_of_some (h : s.tab.proc[i]? = some p) : s.life.core i = p.core := coreAt_of_some h

theorem nudge_setTab (hl : s.lock i = none) (hf : ∀ p, Life.SameProc p.core (f p).core ∧
    ((f p).state = p.state ∨ p.state = .sleeping ∧ (f p).state = .runnable)) :
    Life.Step s.life none (s.setTab i f).life := by
  cases hp : s.tab.proc[i]? with
  | none =>
    have hsame : s.setTab i f = s := by
      rw [setTab, Table.modify, modify_eq_self (List.getElem?_eq_none_iff.mp hp)]
    rw [hsame]
    exact .idle
  | some p =>
    rw [life_setTab hp rfl]
    refine .nudge i _ hl ?_ ?_ <;> rw [core_of_some hp]
    · exact (hf p).1
    · exact (hf p).2

theorem simulates_dispatch (h : step b s (.dispatch c i) = some t) :
    Life.Step s.life none t.life := by
  simp only [step, guard_iff] at h
  obtain ⟨⟨hc, hl⟩, rfl⟩ := h
  split
  · rename_i hr
    obtain ⟨p, hp, hst⟩ := Table.inState_iff.mp hr
    have hlife := life_setTab (f := fun p => { dispatchProc b p with chan := 0 }) hp rfl
    have hstep : Life.Step s.life none ((s.life.setCore i
        ({ dispatchProc b p with chan := 0 } : Proc).core).setCpu c (some i)) := by
      refine .dispatch c i _ hc hl ?_ ?_ ?_
      · rw [core_of_some hp]
        exact hst
      · rw [core_of_some hp]
        cases b <;> exact ⟨rfl, rfl, rfl⟩
      · cases b <;> rfl
    rw [← hlife] at hstep
    exact hstep
  · exact .idle

theorem simulates_wake {chan : ℕ} (h : step b s (.wake chan i) = some t) :
    Life.Step s.life none t.life := by
  simp only [step, guard_iff] at h
  obtain ⟨hl, rfl⟩ := h
  refine nudge_setTab hl fun p => ?_
  unfold wakeup
  split
  · rename_i hs
    exact ⟨⟨rfl, rfl, rfl⟩, .inr ⟨hs.1, rfl⟩⟩
  · exact ⟨⟨rfl, rfl, rfl⟩, .inl rfl⟩

theorem simulates_kill {pid : BitVec 32} (h : step b s (.kill pid i) = some t) :
    Life.Step s.life none t.life := by
  simp only [step, guard_iff] at h
  obtain ⟨hl, rfl⟩ := h
  refine nudge_setTab hl fun p => ?_
  split
  · refine ⟨⟨rfl, rfl, rfl⟩, ?_⟩
    by_cases hs : p.state = .sleeping
    · exact .inr ⟨hs, if_pos hs⟩
    · exact .inl (if_neg hs)
  · exact ⟨⟨rfl, rfl, rfl⟩, .inl rfl⟩

theorem simulates_swtch (h : step b s (.swtch c) = some t) : Life.Step s.life none t.life := by
  obtain ⟨i, -, h⟩ := bind_eq_some_iff.mp h
  simp only [guard_iff] at h
  obtain ⟨hl, rfl⟩ := h
  exact .swtch c i hl

theorem coreAt_found (b : Build) (h : s.tab.proc[np]? = some p) :
    coreAt (found b s.tab np).proc = update (coreAt s.tab.proc) np
      { p.core with pid := s.tab.nextpid, state := .used } := by
  rw [coreAt_of_map (found_core b s.tab np), coreAt_modify h]
  rfl

theorem coreAt_reparent (i j : ℕ) : coreAt (ps.map (reparent i)) j =
    if (coreAt ps j).parent = some i then { coreAt ps j with parent := some initproc }
    else coreAt ps j := by
  rw [coreAt, getElem?_map]
  cases hp : ps[j]? with
  | none =>
    rw [coreAt, hp]
    rfl
  | some p =>
    rw [coreAt_of_some hp, map_some, map_some, getD_some, reparent]
    exact apply_ite Proc.core _ _ _

theorem zombieChild_spec (h : zombieChild s.tab i = some np) :
    ∃ q, s.tab.proc[np]? = some q ∧ q.parent = some i ∧ q.state = .zombie := by
  obtain ⟨hlt, hq, -⟩ := findIdx?_eq_some_iff_getElem.mp h
  exact ⟨_, getElem?_eq_getElem hlt, of_decide_eq_true hq⟩

theorem cur_eq_some : s.cur c = some i ↔ s.life.Runs c i := by
  rw [cur, filter_eq_some_iff]
  simp only [decide_eq_true_eq]
  rfl

theorem exists_of_used (hpl : s.life.Placed) {tk : Task} (ht : s.task i = tk)
    (hm : tk.child = some np) : ∃ q, s.tab.proc[np]? = some q := by
  refine exists_of_core (s := s) ?_
  rw [hpl.used (i := i) (by rw [show s.life.task i = tk from ht]; exact hm)]
  exact nofun

theorem simulates_call {x : Call} (hpl : s.life.Placed) (hr : s.life.Runs c i)
    (h : callStep b s c i x = some t) : Life.Step s.life (s.callAct i x) t.life := by
  obtain ⟨p, hp⟩ := exists_of_core (s := s) (i := i) (by rw [hpl.runs hr]; rintro ⟨⟩)
  have hcore := core_of_some hp
  cases x with
  | yield =>
    simp only [callStep, guard_iff] at h
    obtain ⟨-, rfl⟩ := h
    rw [life_sched hp rfl]
    exact .leave c i _ hr (hcore ▸ ⟨rfl, rfl, rfl⟩) (.inl rfl)
  | sleep chan =>
    simp only [callStep, guard_iff] at h
    obtain ⟨-, rfl⟩ := h
    rw [life_sched hp rfl]
    exact .leave c i _ hr (hcore ▸ ⟨rfl, rfl, rfl⟩) (.inr rfl)
  | tickets n =>
    simp only [callStep, guard_iff] at h
    obtain ⟨-, rfl⟩ := h
    have hsame : Smp.life { s with tab := setProcTickets b s.tab i n } = s.life := by
      simp only [life, coreAt_of_map (setProcTickets_core b s.tab i n), setProcTickets_nextpid]
    rw [hsame]
    exact .idle
  | forkAlloc m ok =>
    simp only [callStep, guard_iff] at h
    obtain ⟨⟨ht, hl, hu⟩, rfl⟩ := h
    obtain ⟨q, hq, hqu⟩ := Table.inState_iff.mp hu
    have hfree : (s.life.core m).state = .unused := by
      rw [core_of_some hq]
      exact hqu
    have hfound : Smp.life { s with tab := found b s.tab m } =
        { s.life with nextpid := s.life.nextpid + 1 }.setCore m
          { s.life.core m with pid := s.life.nextpid, state := .used } := by
      simp only [life, coreAt_found b hq, found_nextpid, Life.setCore, coreAt_of_some hq]
    cases ok with
    | true =>
      have hstep := Life.Step.alloc c i m hr ht hl hfree
      rw [← hfound] at hstep
      exact hstep
    | false =>
      have hused : ((Smp.life { s with tab := found b s.tab m }).core m).state ≠ .unused := by
        rw [hfound, Life.setCore_self]
        rintro ⟨⟩
      obtain ⟨q', hq'⟩ := exists_of_core hused
      have hlife := life_setTab (f := freeproc) (k := .freed) hq' rfl
      rw [hfound, Life.setCore_setCore] at hlife
      exact hlife ▸ .allocFail m hl hfree
  | forkParent =>
    rw [callStep] at h
    split at h
    · rename_i m ht
      simp only [guard_iff] at h
      obtain ⟨hw, rfl⟩ := h
      have hstep := Life.Step.link c i m hr ht hw
      obtain ⟨q, hq⟩ := exists_of_used hpl ht rfl
      rw [← life_setTab (f := fun q => { q with parent := some i }) hq
        (by rw [core_of_some hq]; rfl)] at hstep
      rw [callAct, ht]
      exact hstep
    · cases h
  | forkRun =>
    rw [callStep] at h
    split at h
    · rename_i m ht
      simp only [guard_iff] at h
      obtain ⟨hl, rfl⟩ := h
      have hstep := Life.Step.start c i m hr ht hl
      obtain ⟨q, hq⟩ := exists_of_used hpl ht rfl
      rw [← life_setTab (f := fun q => { q with state := .runnable }) hq
        (by rw [core_of_some hq]; rfl)] at hstep
      exact hstep
    · cases h
  | exitBegin status =>
    simp only [callStep, guard_iff] at h
    obtain ⟨⟨ht, hi, hw⟩, rfl⟩ := h
    have hstep := Life.Step.orphan c i status hr ht hi hw
    simp only [show s.life.core = coreAt s.tab.proc from rfl, ← coreAt_reparent] at hstep
    exact hstep
  | exitEnd =>
    rw [callStep] at h
    split at h
    · rename_i status ht
      cases h
      rw [callAct, ht, life_setTask, life_sched (s := { s with waitLock := none })
        (f := fun p => { p with xstate := status, state := .zombie })
        (k := { s.life.core i with xstate := status, state := .zombie }) hp (by rw [hcore]; rfl)]
      exact .die c i status hr ht
    · cases h
  | waitBegin =>
    simp only [callStep, guard_iff] at h
    obtain ⟨⟨ht, hw⟩, rfl⟩ := h
    exact .lockWait c i hr ht hw
  | reap addr =>
    simp only [callStep, ite_none_right_eq_some] at h
    obtain ⟨ht, h⟩ := h
    obtain ⟨m, hm, h⟩ := bind_eq_some_iff.mp h
    simp only [guard_iff] at h
    obtain ⟨hl, rfl⟩ := h
    obtain ⟨q, hq, hqp, hqz⟩ := zombieChild_spec hm
    have hcore' := core_of_some hq
    rw [callAct]
    split
    · exact .unlockWait c i hr ht
    · rw [hm, map_some, life_setTab (s := Smp.setTask { s with waitLock := none } i .user)
        (f := freeproc) (k := .freed) hq rfl]
      refine .reap c i m _ hr ht hl (hcore' ▸ hqp) (hcore' ▸ hqz) fun v hv => ?_
      split at hv
      · cases hv
      · exact (Option.some.inj hv).symm
  | waitNone =>
    simp only [callStep, guard_iff] at h
    obtain ⟨⟨ht, -⟩, rfl⟩ := h
    exact .unlockWait c i hr ht
  | waitSleep =>
    simp only [callStep, guard_iff] at h
    obtain ⟨⟨ht, -⟩, rfl⟩ := h
    rw [life_setTask, life_sched (s := { s with waitLock := none }) hp rfl]
    exact .leaveWait c i _ hr ht (hcore ▸ ⟨rfl, rfl, rfl⟩) rfl

/-- The table with its CPUs takes the steps of the life cycle. -/
theorem simulates {e : Event} (hpl : s.life.Placed) (h : step b s e = some t) :
    Life.Step s.life (s.act e) t.life := by
  cases e with
  | dispatch c i => exact simulates_dispatch h
  | swtch c => exact simulates_swtch h
  | wake chan i => exact simulates_wake h
  | kill pid i => exact simulates_kill h
  | call c x =>
    obtain ⟨i, hcur, h⟩ := bind_eq_some_iff.mp h
    rw [act, hcur, bind_some]
    exact simulates_call hpl (cur_eq_some.mp hcur) h

theorem life_boot (b : Build) (j : ℕ) : (boot b).life.core j =
    if j = initproc then ⟨.runnable, 0, 0, 0, 1, none⟩ else .freed := by
  have hcores : (userinit b).proc.map Proc.core =
      ⟨.runnable, 0, 0, 0, 1, none⟩ :: List.replicate 63 .freed := by cases b <;> rfl
  have hj : (boot b).life.core j = (((userinit b).proc.map Proc.core)[j]?).getD .freed := by
    rw [getElem?_map]
    rfl
  rw [hj, hcores]
  cases j with
  | zero => rfl
  | succ j =>
    rw [getElem?_cons_succ, if_neg (show j + 1 ≠ initproc from nofun), getElem?_replicate]
    split <;> rfl

theorem placed_boot (b : Build) : (boot b).life.Placed := by
  have hrun : ∀ j, ((boot b).life.core j).state ≠ .running := by
    intro j
    rw [life_boot]
    split <;> exact nofun
  refine ⟨fun hr => ?_, fun hl => ?_, fun hl => ?_, fun hc => ?_, fun hr => absurd hr (hrun _),
    fun hc => ?_, fun hc => ?_⟩
  · cases hr.1
  · cases hl
  · cases hl
  · cases hc
  · cases hc
  · cases hc

theorem run_placed {es : List Event} (hr : run (step b) (boot b) es = some s) : s.life.Placed :=
  run_invariant (C := fun _ _ => True) (I := fun s => s.life.Placed) (placed_boot b)
    (fun _ _ _ hpl _ hs => Life.placed_step hpl (simulates hpl hs)) (along_true _ es) hr

theorem recycled_off {e : Event} (hpl : s.life.Placed) (hs : step b s e = some t)
    (he : s.recycled e = some np) (c : ℕ) : s.cpuProc c ≠ some np := by
  unfold recycled at he
  split at he
  · rename_i d m ok
    cases he
    obtain ⟨i, -, hs⟩ := bind_eq_some_iff.mp hs
    simp only [callStep, ite_none_right_eq_some] at hs
    obtain ⟨⟨-, hl, hu⟩, -⟩ := hs
    obtain ⟨q, hq, hqu⟩ := Table.inState_iff.mp hu
    exact hpl.off hl (by rw [core_of_some hq, show q.core.state = _ from hqu]; exact nofun) c
  · rename_i d addr
    rw [ite_none_left_eq_some] at he
    obtain ⟨i, hi, he⟩ := bind_eq_some_iff.mp he.2
    obtain ⟨i', hi', hs⟩ := bind_eq_some_iff.mp hs
    rw [hi] at hi'
    cases hi'
    simp only [callStep, he, bind_some, ite_none_right_eq_some] at hs
    obtain ⟨q, hq, -, hqz⟩ := zombieChild_spec he
    exact hpl.off hs.2.1 (by rw [core_of_some hq, show q.core.state = _ from hqz]; exact nofun) c
  · cases he

/-- At most one CPU has a process as its `c->proc`, a running process is on some CPU, and the slots
that `allocproc` and `freeproc` work on are on none. -/
theorem one_cpu {es : List Event} (hr : run (step b) (boot b) es = some s) :
    (∀ c d p, s.cpuProc c = some p → s.cpuProc d = some p → c = d) ∧
    (∀ p, s.tab.inState p .running → ∃ c, s.cpuProc c = some p) ∧
    ∀ e t p c, step b s e = some t → s.recycled e = some p → s.cpuProc c ≠ some p := by
  have hpl := run_placed hr
  refine ⟨fun c d p => hpl.one, fun p hp => ?_, fun e t p c hs he => recycled_off hpl hs he c⟩
  obtain ⟨q, hq, hst⟩ := Table.inState_iff.mp hp
  exact hpl.placed (i := p) (by rw [core_of_some hq]; exact hst)

/-- `init` and its child run on two CPUs; the child exits and is reaped. -/
def someRun : List Event :=
  [.dispatch 0 0, .call 0 (.forkAlloc 1 true), .call 0 .forkParent, .call 0 .forkRun,
    .dispatch 1 1, .call 0 .waitBegin, .call 0 .waitSleep, .swtch 0,
    .call 1 (.exitBegin 7), .wake (procChan 0) 0, .call 1 .exitEnd, .dispatch 0 0,
    .swtch 1, .call 0 .waitBegin, .call 0 (.reap .good)]

theorem one_cpu_someRun : ∃ s, run (step .stride) (boot .stride) someRun = some s ∧
    ∀ c d p, s.cpuProc c = some p → s.cpuProc d = some p → c = d := by
  have hs : (run (step .stride) (boot .stride) someRun).isSome := by decide +kernel
  obtain ⟨s, hs⟩ := isSome_iff_exists.mp hs
  exact ⟨s, hs, (one_cpu hs).1⟩

def tracedStep (b : Build) (x : Smp × List Act) (e : Event) : Option (Smp × List Act) :=
  (step b x.1 e).map fun t => (t, x.2 ++ (x.1.act e).toList)

def PidsLast (b : Build) (x : Smp × List Act) (e : Event) : Prop :=
  ∀ t, step b x.1 e = some t → x.1.tab.nextpid.toNat ≤ t.tab.nextpid.toNat

theorem family_boot (b : Build) : Life.Family (boot b).life [] := by
  have hpar : ∀ j, ((boot b).life.core j).parent = none := by
    intro j
    rw [life_boot]
    split <;> rfl
  have hused : ∀ {j}, ((boot b).life.core j).state ≠ .unused → j = initproc := by
    intro j hj
    by_contra hne
    rw [life_boot, if_neg hne] at hj
    exact hj rfl
  have hinit : (boot b).life.core initproc = ⟨.runnable, 0, 0, 0, 1, none⟩ := by
    rw [life_boot, if_pos rfl]
  have hzombie : ∀ {j}, ((boot b).life.core j).state ≠ .zombie := by
    intro j
    rw [life_boot]
    split <;> rintro ⟨⟩
  have halive : (boot b).life.Alive initproc := by
    rw [Life.Alive, hinit]
    decide
  have hnext : (boot b).life.nextpid = 2 := by cases b <;> rfl
  refine ⟨placed_boot b, ?_, ?_, ?_⟩
  · refine ⟨fun {j p} hp => ?_, fun hu _ hj => absurd (hused hu) hj, fun _ => hpar _, halive,
      fun ht => absurd rfl ht, fun h => (by cases h), fun h => (by cases h), fun h => (by cases h),
      fun h => (by cases h)⟩
    rw [hpar] at hp
    cases hp
  · refine ⟨fun hj => ?_, fun hi hj _ => (hused hi).trans (hused hj).symm, ?_, fun h => absurd h not_mem_nil⟩
    · rw [hused hj, hinit, hnext]
      decide
    · rw [hinit]
      rfl
  · refine ⟨fun {j r} hp => ?_, fun _ _ h => absurd h not_mem_nil, fun h => absurd h not_mem_nil,
      fun _ _ h => absurd h not_mem_nil, fun hz => absurd hz hzombie, fun h => absurd h not_mem_nil,
      fun h => absurd h not_mem_nil, fun h => absurd h not_mem_nil⟩
    rw [hpar] at hp
    cases hp

theorem run_family {es : List Event} {x : Smp × List Act}
    (hr : run (tracedStep b) (boot b, []) es = some x)
    (hw : Along (tracedStep b) (PidsLast b) (boot b, []) es) : Life.Family x.1.life x.2 := by
  refine run_invariant (I := fun x => Life.Family x.1.life x.2) (family_boot b) ?_ hw hr
  intro x e y hx hpid hs
  obtain ⟨t, ht, rfl⟩ := map_eq_some_iff.mp hs
  exact Life.family_step hx (simulates hx.placed ht) (hpid t ht)

/-- No process is lost between `fork`, `exit` and `wait`, and a failed `copyout` changes nothing. -/
theorem exits_accounted {es : List Event} {x : Smp × List Act}
    (hr : run (tracedStep b) (boot b, []) es = some x)
    (hw : Along (tracedStep b) (PidsLast b) (boot b, []) es) :
    Life.Accounted x.1.life x.2 ∧
      ∀ c t, step b x.1 (.call c (.reap .bad)) = some t → t.tab = x.1.tab := by
  refine ⟨(run_family hr hw).accounted, fun c t ht => ?_⟩
  obtain ⟨i, -, ht⟩ := bind_eq_some_iff.mp ht
  simp only [callStep, ite_none_right_eq_some] at ht
  obtain ⟨-, ht⟩ := ht
  obtain ⟨np, -, ht⟩ := bind_eq_some_iff.mp ht
  simp only [if_pos, guard_iff] at ht
  obtain ⟨-, rfl⟩ := ht
  rfl

instance (b : Build) (x : Smp × List Act) (e : Event) : Decidable (PidsLast b x e) :=
  match h : step b x.1 e with
  | none => isTrue fun t ht => by rw [h] at ht; cases ht
  | some t => decidable_of_iff (x.1.tab.nextpid.toNat ≤ t.tab.nextpid.toNat) (by
      simp only [PidsLast, h, Option.some.injEq, forall_eq'])

theorem exits_accounted_someRun : ∃ x, run (tracedStep .lottery) (boot .lottery, []) someRun = some x ∧
    x.2 = [.forked 1 2, .exited 2 7, .waited 1 2 (some 7)] ∧ Life.Accounted x.1.life x.2 := by
  have hx : ((run (tracedStep .lottery) (boot .lottery, []) someRun).map Prod.snd) =
      some [.forked 1 2, .exited 2 7, .waited 1 2 (some 7)] := by decide +kernel
  obtain ⟨x, hx, hh⟩ := map_eq_some_iff.mp hx
  exact ⟨x, hx, hh, (exits_accounted hx (by decide +kernel)).1⟩

end Smp
end Xv6.Sched
