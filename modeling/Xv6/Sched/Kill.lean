import Xv6.Sched.Proc

/-! `kill` and the reuse of slots: what `kill` marks, and what `allocproc` finds in a free slot. -/
namespace Xv6.Sched
open PartialRun List Option

def killProc (p : Proc) : Proc :=
  { p with killed := 1, state := if p.state = .sleeping then .runnable else p.state }

def kill (s : Table) (pid : BitVec 32) : BitVec 32 × Table :=
  match s.proc.findIdx? fun p => p.pid = pid with
  | some i => (0, s.modify i killProc)
  | none => (-1, s)

def dispatchProc (b : Build) (p : Proc) : Proc :=
  match b with
  | .roundRobin => { p with state := .running }
  | .lottery => { p with state := .running, schedCnt := p.schedCnt + 1 }
  | .stride =>
    { p with
      state := .running, schedCnt := p.schedCnt + 1
      stridePass := p.stridePass + divw STRIDE_NUM p.tickets }

structure Core where
  state : ProcState
  chan : ℕ
  killed : BitVec 32
  xstate : BitVec 32
  pid : BitVec 32
  parent : Option ℕ

def Proc.core (p : Proc) : Core := ⟨p.state, p.chan, p.killed, p.xstate, p.pid, p.parent⟩

theorem calculateProcsTicket_core (t : BitVec 32) (ps : List Proc) :
    (calculateProcsTicket t ps).1.map Proc.core = ps.map Proc.core := by
  induction ps generalizing t with
  | nil => rfl
  | cons p ps ih =>
    unfold calculateProcsTicket
    split
    · exact congrArg (p.core :: ·) (ih _)
    · exact congrArg (p.core :: ·) (ih _)

theorem clearSchedCnt_core (s : Table) :
    (clearSchedCnt s).proc.map Proc.core = s.proc.map Proc.core := by
  unfold clearSchedCnt
  split
  · rw [List.map_map]
    refine map_congr_left fun p _ => ?_
    simp only [Function.comp_def]
    split <;> rfl
  · rfl

theorem map_core_congr {ps : List Proc} {i : ℕ} {f g : Proc → Proc}
    (h : ∀ p, (f p).core = (g p).core) :
    (ps.modify i f).map Proc.core = (ps.modify i g).map Proc.core := by
  refine ext_getElem? fun j => ?_
  rw [getElem?_map, getElem?_map]
  rcases eq_or_ne i j with rfl | hij
  · rw [getElem?_modify_eq, getElem?_modify_eq]
    cases ps[i]? with
    | none => rfl
    | some p => exact congrArg some (h p)
  · rw [getElem?_modify_ne _ _ hij, getElem?_modify_ne _ _ hij]

theorem map_core_modify {ps : List Proc} {i : ℕ} {f : Proc → Proc}
    (hf : ∀ p, (f p).core = p.core) : (ps.modify i f).map Proc.core = ps.map Proc.core := by
  have h : (ps.modify i f).map Proc.core = (ps.modify i id).map Proc.core := map_core_congr hf
  rwa [modify_id] at h

theorem setProcTickets_core (b : Build) (s : Table) (i : ℕ) (n : BitVec 32) :
    (setProcTickets b s i n).proc.map Proc.core = s.proc.map Proc.core := by
  have hset : (s.modify i fun p => { p with tickets := n }).proc.map Proc.core =
      s.proc.map Proc.core := map_core_modify fun _ => rfl
  refine (clearSchedCnt_core _).trans ?_
  cases b with
  | roundRobin => exact hset
  | lottery => exact (calculateProcsTicket_core _ _).trans hset
  | stride => exact Eq.trans (by exact map_core_modify fun _ => rfl) hset

/-- `allocproc` from the label `found` on, for any free slot: the scan takes one lock at a time,
so other calls run between its tests. -/
def found (b : Build) (s : Table) (i : ℕ) : Table :=
  let s := { s.modify i fun p => { p with pid := s.nextpid, state := .used, schedCnt := 0 } with
    nextpid := s.nextpid + 1 }
  match b with
  | .lottery => setProcTickets b s i 10
  | .stride => (setProcTickets b s i 60).modify i fun p =>
      { p with stridePass := divw STRIDE_NUM p.tickets }
  | .roundRobin => s

theorem allocproc_eq_found (b : Build) (s : Table) : allocproc b s =
    (s.proc.findIdx? fun p => p.state = .unused).map fun i => (i, found b s i) := rfl

theorem found_core (b : Build) (s : Table) (i : ℕ) : (found b s i).proc.map Proc.core =
    (s.proc.modify i fun p => { p with pid := s.nextpid, state := .used }).map Proc.core := by
  have hmod : (s.proc.modify i fun p =>
      { p with pid := s.nextpid, state := .used, schedCnt := 0 }).map Proc.core =
      (s.proc.modify i fun p => { p with pid := s.nextpid, state := .used }).map Proc.core :=
    map_core_congr fun _ => rfl
  cases b with
  | roundRobin => exact hmod
  | lottery => exact (setProcTickets_core _ _ _ _).trans hmod
  | stride =>
    refine Eq.trans (map_core_modify fun _ => rfl) (Eq.trans ?_ hmod)
    exact setProcTickets_core _ _ _ _

theorem allocproc_core {b : Build} {s t : Table} {i : ℕ} (h : allocproc b s = some (i, t)) :
    (∃ p, s.proc[i]? = some p ∧ p.state = .unused) ∧ t.proc.map Proc.core =
      (s.proc.modify i fun p => { p with pid := s.nextpid, state := .used }).map Proc.core := by
  rw [allocproc_eq_found] at h
  obtain ⟨j, hj, heq⟩ := map_eq_some_iff.mp h
  cases heq
  obtain ⟨hlt, hu, -⟩ := findIdx?_eq_some_iff_getElem.mp hj
  exact ⟨⟨s.proc[i], getElem?_eq_getElem hlt, of_decide_eq_true hu⟩, found_core b s i⟩

theorem setProcTickets_nextpid (b : Build) (s : Table) (i : ℕ) (n : BitVec 32) :
    (setProcTickets b s i n).nextpid = s.nextpid := by
  unfold setProcTickets clearSchedCnt
  cases b <;> dsimp only <;> split <;> rfl

theorem found_nextpid (b : Build) (s : Table) (i : ℕ) :
    (found b s i).nextpid = s.nextpid + 1 := by
  cases b with
  | roundRobin => rfl
  | lottery => exact setProcTickets_nextpid _ _ _ _
  | stride => exact setProcTickets_nextpid _ _ _ _

def Clean (p : Proc) : Prop :=
  p.state = .unused → p.pid = 0 ∧ p.killed = 0 ∧ p.xstate = 0 ∧ p.chan = 0

theorem Clean.of_core {p q : Proc} (h : Clean p) (hc : q.core = p.core) : Clean q := by
  simp only [Proc.core, Core.mk.injEq] at hc
  obtain ⟨h1, h2, h3, h4, h5, -⟩ := hc
  rw [Clean, h1, h2, h3, h4, h5]
  exact h

theorem clean_of_ne {p : Proc} (h : p.state ≠ .unused) : Clean p := fun hu => absurd hu h

theorem clean_freeproc (p : Proc) : Clean (freeproc p) := fun _ => ⟨rfl, rfl, rfl, rfl⟩

def CleanTable (ps : List Proc) : Prop := ∀ p ∈ ps, Clean p

namespace CleanTable
variable {ps qs : List Proc}

theorem of_core (h : CleanTable ps) (hc : qs.map Proc.core = ps.map Proc.core) :
    CleanTable qs := by
  intro q hq
  have hm : q.core ∈ ps.map Proc.core := by
    rw [← hc]
    exact List.mem_map_of_mem hq
  obtain ⟨p, hp, he⟩ := List.mem_map.mp hm
  exact (h p hp).of_core he.symm

theorem map (h : CleanTable ps) {f : Proc → Proc} (hf : ∀ p, Clean p → Clean (f p)) :
    CleanTable (ps.map f) := by
  intro q hq
  obtain ⟨p, hp, rfl⟩ := List.mem_map.mp hq
  exact hf p (h p hp)

theorem modify (h : CleanTable ps) {i : ℕ} {f : Proc → Proc}
    (hf : ∀ p, ps[i]? = some p → Clean (f p)) : CleanTable (ps.modify i f) := by
  intro q hq
  obtain ⟨j, hj⟩ := mem_iff_getElem?.mp hq
  rcases eq_or_ne i j with rfl | hij
  · rw [getElem?_modify_eq] at hj
    obtain ⟨p, hp, rfl⟩ := map_eq_some_iff.mp hj
    exact hf p hp
  · rw [getElem?_modify_ne _ _ hij] at hj
    exact h q (mem_of_getElem? hj)

theorem wakeup (h : CleanTable ps) (chan : ℕ) : CleanTable (ps.map (wakeup chan)) := by
  refine h.map fun p hp => ?_
  unfold Sched.wakeup
  split
  · exact clean_of_ne nofun
  · exact hp

theorem reparent (h : CleanTable ps) (i : ℕ) : CleanTable (reparent i ps) := by
  have h' := h.map (f := fun pp =>
    if pp.parent = some i then { pp with parent := some initproc } else pp)
    fun p hp => by split <;> exact hp
  unfold Sched.reparent
  split
  · exact h'.wakeup _
  · exact h'

end CleanTable

namespace Kill

inductive Event where
  | call (c : Call)
  | kill (pid : BitVec 32)
  | dispatch (i : ℕ)
  deriving DecidableEq

def step (b : Build) (s : Table) : Event → Option Table
  | .call c => callStep b s c
  | .kill pid => some (kill s pid).2
  | .dispatch i => if s.inState i .runnable then some (s.modify i (dispatchProc b)) else none

/-- `kill` fails and changes nothing, or it marks one process in use that has this pid. -/
def KillsProcess (s : Table) (pid : BitVec 32) : Prop :=
  ((kill s pid).1 = -1 ∧ (kill s pid).2 = s) ∨
    ((kill s pid).1 = 0 ∧ ∃ i p, s.proc[i]? = some p ∧ p.state ≠ .unused ∧ p.pid = pid ∧
      (kill s pid).2 = s.modify i killProc)

/-- The process that `allocproc` returns has not been killed, has not exited and does not sleep. -/
def AllocatesFresh (b : Build) (s : Table) : Prop :=
  ∀ i t, allocproc b s = some (i, t) →
    ∃ p, t.proc[i]? = some p ∧ p.killed = 0 ∧ p.xstate = 0 ∧ p.chan = 0

def Proper (b : Build) (s : Table) : Event → Prop
  | .kill pid => KillsProcess s pid
  | .call .allocproc => AllocatesFresh b s
  | _ => True

/-- `kill(0)` is made only where the first slot with pid 0 is in use, or no slot has pid 0. -/
def NamesProcess (s : Table) : Event → Prop
  | .kill pid => pid = 0 →
      ∀ i, s.proc.findIdx? (fun p => p.pid = 0) = some i → ¬ s.inState i .unused
  | _ => True

variable {b : Build} {s t : Table} {e : Event}

theorem allocproc_fresh (h : CleanTable s.proc) : AllocatesFresh b s := by
  intro i t ha
  obtain ⟨⟨p, hp, hu⟩, hcore⟩ := allocproc_core ha
  obtain ⟨-, hk, hx, hc⟩ := h p (mem_of_getElem? hp) hu
  have := congrArg (fun l : List Core => l[i]?) hcore
  simp only [getElem?_map, getElem?_modify_eq, hp, map_some, Option.map_eq_map,
    map_eq_some_iff] at this
  obtain ⟨q, hq, hqc⟩ := this
  simp only [Proc.core, Core.mk.injEq] at hqc
  obtain ⟨-, h2, h3, h4, -⟩ := hqc
  exact ⟨q, hq, h3.trans hk, h4.trans hx, h2.trans hc⟩

theorem kill_of_some {pid : BitVec 32} {i : ℕ}
    (h : s.proc.findIdx? (fun p => p.pid = pid) = some i) :
    kill s pid = (0, s.modify i killProc) := by
  unfold kill
  rw [h]

theorem kill_of_none {pid : BitVec 32} (h : s.proc.findIdx? (fun p => p.pid = pid) = none) :
    kill s pid = (-1, s) := by
  unfold kill
  rw [h]

theorem killsProcess_iff (h : CleanTable s.proc) (pid : BitVec 32) :
    KillsProcess s pid ↔ NamesProcess s (.kill pid) := by
  cases hf : s.proc.findIdx? (fun p => p.pid = pid) with
  | none =>
    rw [KillsProcess, kill_of_none hf]
    refine ⟨fun _ h0 i hi => ?_, fun _ => .inl ⟨rfl, rfl⟩⟩
    rw [h0, hi] at hf
    cases hf
  | some i =>
    obtain ⟨hlt, hpid, -⟩ := findIdx?_eq_some_iff_getElem.mp hf
    have hp : s.proc[i]? = some s.proc[i] := getElem?_eq_getElem hlt
    rw [KillsProcess, kill_of_some hf]
    constructor
    · rintro (⟨h1, -⟩ | ⟨-, j, q, hq, hqu, -, heq⟩) h0 k hk hu
      · exact absurd h1 (show ¬ (0 : BitVec 32) = -1 by decide)
      · obtain rfl : i = k := by
          rw [h0, hk] at hf
          exact (Option.some.inj hf).symm
        obtain ⟨p, hp', hpu⟩ := map_eq_some_iff.mp hu
        rw [hp] at hp'
        cases hp'
        rcases eq_or_ne j i with rfl | hjk
        · rw [hp] at hq
          cases hq
          exact hqu hpu
        · -- `killed` of the free slot went from 0 to 1
          have := congrArg (fun u : Table => u.proc[i]?.map Proc.killed) heq
          simp only [Table.modify, getElem?_modify_eq, getElem?_modify_ne _ _ hjk, hp,
            Option.map_eq_map, map_some, Option.some.injEq] at this
          rw [(h _ (mem_of_getElem? hp) hpu).2.1] at this
          exact absurd this (show ¬ (1 : BitVec 32) = 0 by decide)
    · intro hn
      refine .inr ⟨rfl, i, _, hp, fun hu => ?_, by simpa using hpid, rfl⟩
      have h0 : pid = 0 := by
        rw [← (h _ (mem_of_getElem? hp) hu).1]
        exact (by simpa using hpid : s.proc[i].pid = pid).symm
      refine hn h0 i (by rw [← h0]; exact hf) ?_
      rw [Table.inState, hp]
      exact congrArg some hu

theorem proper_iff (h : CleanTable s.proc) : Proper b s e ↔ NamesProcess s e := by
  cases e with
  | kill pid => exact killsProcess_iff h pid
  | dispatch i => exact Iff.rfl
  | call c =>
    cases c with
    | allocproc => exact ⟨fun _ => trivial, fun _ => allocproc_fresh h⟩
    | _ => exact Iff.rfl

theorem cleanTable_call {c : Call} (h : CleanTable s.proc) (hs : callStep b s c = some t) :
    CleanTable t.proc := by
  cases c <;> simp only [callStep, ite_none_right_eq_some, Option.some.injEq] at hs
  case allocproc =>
    obtain ⟨⟨i, u⟩, ha, rfl⟩ := map_eq_some_iff.mp hs
    obtain ⟨-, hcore⟩ := allocproc_core ha
    refine CleanTable.of_core ?_ hcore
    exact h.modify fun _ _ => clean_of_ne nofun
  case forkFail np =>
    obtain ⟨-, rfl⟩ := hs
    exact h.modify fun p _ => clean_freeproc p
  case forkDone p np =>
    obtain ⟨-, rfl⟩ := hs
    exact h.modify fun _ _ => clean_of_ne nofun
  case exit p status =>
    obtain ⟨-, hs⟩ := hs
    obtain ⟨q, -, rfl⟩ := map_eq_some_iff.mp hs
    unfold exit
    cases q.parent with
    | none => exact (h.reparent p).modify fun _ _ => clean_of_ne nofun
    | some pp => exact ((h.reparent p).wakeup _).modify fun _ _ => clean_of_ne nofun
  case wait p =>
    obtain ⟨-, hs⟩ := hs
    obtain ⟨np, -, rfl⟩ := map_eq_some_iff.mp hs
    exact h.modify fun p _ => clean_freeproc p
  case tickets p n =>
    obtain ⟨-, rfl⟩ := hs
    exact h.of_core (setProcTickets_core b s p n)
  case yield p =>
    obtain ⟨-, rfl⟩ := hs
    exact h.modify fun _ _ => clean_of_ne nofun
  case sleep p chan =>
    obtain ⟨-, rfl⟩ := hs
    exact h.modify fun _ _ => clean_of_ne nofun
  case wakeup p chan =>
    obtain ⟨-, rfl⟩ := hs
    exact h.wakeup chan

theorem cleanTable_step (h : CleanTable s.proc) (hn : NamesProcess s e)
    (hs : step b s e = some t) : CleanTable t.proc := by
  cases e with
  | call c => exact cleanTable_call h hs
  | kill pid =>
    cases hs
    rcases (killsProcess_iff h pid).mpr hn with ⟨-, heq⟩ | ⟨-, i, p, hp, hu, -, heq⟩
    · rwa [heq]
    · rw [heq]
      refine h.modify fun q hq => ?_
      rw [hp] at hq
      cases hq
      refine clean_of_ne ?_
      simp only [killProc]
      split
      · nofun
      · exact hu
  | dispatch i =>
    simp only [step, guard_iff] at hs
    obtain ⟨-, rfl⟩ := hs
    refine h.modify fun p _ => clean_of_ne ?_
    cases b <;> nofun

theorem cleanTable_userinit (b : Build) : CleanTable (userinit b).proc := by
  have h0 : CleanTable ({} : Table).proc := by
    intro p hp
    rw [eq_of_mem_replicate hp]
    exact fun _ => ⟨rfl, rfl, rfl, rfl⟩
  unfold userinit
  split
  · rename_i i s ha
    obtain ⟨-, hcore⟩ := allocproc_core ha
    have hs : CleanTable s.proc := by
      refine CleanTable.of_core ?_ hcore
      exact h0.modify fun _ _ => clean_of_ne nofun
    exact hs.modify fun _ _ => clean_of_ne nofun
  · exact h0

/-- In every run, each `kill` and each `allocproc` does what it should if and only if no
`kill(0)` has met a free slot. -/
theorem proper_iff_namesProcess {es : List Event} (hr : run (step b) (userinit b) es = some s) :
    Along (step b) (Proper b) (userinit b) es ↔
      Along (step b) NamesProcess (userinit b) es := by
  induction es using List.reverseRecOn generalizing s with
  | nil => exact Iff.rfl
  | append_singleton es e ih =>
    obtain ⟨u, hu, -⟩ := run_concat_eq_some.mp hr
    rw [along_concat, along_concat, ih hu]
    refine and_congr_right fun hn => ?_
    have hclean : CleanTable u.proc :=
      run_invariant (I := fun s => CleanTable s.proc) (cleanTable_userinit b)
        (fun _ _ _ h hn hs => cleanTable_step h hn hs) hn hu
    refine forall_congr' fun v => ⟨fun h hv => ?_, fun h hv => ?_⟩
    · rw [hu] at hv
      cases hv
      exact (proper_iff hclean).mp (h hu)
    · rw [hu] at hv
      cases hv
      exact (proper_iff hclean).mpr (h hu)

instance (s : Table) (e : Event) : Decidable (NamesProcess s e) :=
  match e with
  | .kill pid => match h : s.proc.findIdx? fun p => p.pid = 0 with
    | none => isTrue fun _ i hi => by rw [h] at hi; cases hi
    | some i => decidable_of_iff (pid = 0 → ¬ s.inState i .unused)
        ⟨fun hn h0 j hj => by rw [h] at hj; cases hj; exact hn h0, fun hn h0 => hn h0 i h⟩
  | .call _ | .dispatch _ => isTrue trivial

def someRun : List Event :=
  [.dispatch 0, .call .allocproc, .call (.forkDone 0 1), .kill 2]

theorem proper_someRun : ∃ s, run (step .lottery) (userinit .lottery) someRun = some s ∧
    Along (step .lottery) (Proper .lottery) (userinit .lottery) someRun := by
  have hs : (run (step .lottery) (userinit .lottery) someRun).isSome := by decide +kernel
  obtain ⟨s, hs⟩ := isSome_iff_exists.mp hs
  exact ⟨s, hs, (proper_iff_namesProcess hs).mpr (by decide +kernel)⟩

def killZero : List Event := [.dispatch 0, .kill 0]

/-- The next process is born killed. -/
theorem not_proper_killZero :
    ∃ s, run (step .lottery) (userinit .lottery) killZero = some s ∧
      ¬ Proper .lottery s (.call .allocproc) ∧ ¬ Along (step .lottery) (Proper .lottery)
        (userinit .lottery) (killZero ++ [.call .allocproc]) := by
  have hs : ((run (step .lottery) (userinit .lottery) killZero).bind fun s =>
      (allocproc .lottery s).map fun r => (r.1, r.2.proc[r.1]?.map Proc.killed)) =
        some (1, some 1) := by decide +kernel
  obtain ⟨s, hs, ha⟩ := bind_eq_some_iff.mp hs
  obtain ⟨⟨i, t⟩, ha, hk⟩ := map_eq_some_iff.mp ha
  have hbad : ¬ Proper .lottery s (.call .allocproc) := by
    intro h
    obtain ⟨p, hp, hp0, -⟩ := h i t ha
    simp only [hp, map_some, hp0, Prod.mk.injEq, Option.some.injEq] at hk
    exact absurd hk.2 (by decide)
  exact ⟨s, hs, hbad, fun h => hbad ((along_concat.mp h).2 s hs)⟩

end Kill
end Xv6.Sched
