import Mathlib.Data.List.Basic
import Xv6.Lib.Run

/-! The process table of `proc.c` with the fields the schedulers read, and the sections of
`fork`, `exit`, `wait`, `sleep`, `wakeup` and `sys_tickets` that change it. -/
namespace Xv6.Sched

def NPROC : ℕ := 64
def STRIDE_NUM : BitVec 32 := 60

inductive Build where
  | roundRobin
  | lottery
  | stride
  deriving DecidableEq, Repr

inductive ProcState where
  | unused
  | used
  | sleeping
  | runnable
  | running
  | zombie
  deriving DecidableEq, Repr

structure Proc where
  state : ProcState := .unused
  chan : ℕ := 0
  killed : BitVec 32 := 0
  xstate : BitVec 32 := 0
  pid : BitVec 32 := 0
  sysCallCnt : BitVec 32 := 0
  schedCnt : BitVec 32 := 0
  tickets : BitVec 32 := 0
  ticketsWinningRangeBeginning : BitVec 32 := 0
  ticketsWinningRangeEnd : BitVec 32 := 0
  stridePass : BitVec 32 := 0
  parent : Option ℕ := none
  deriving DecidableEq, Repr

/-- `proc[]` with the static variables `total_tickets`, `nextpid` and `set_cnt`, and, for
each CPU, the local variable `p` of its `scheduler()`. -/
structure Table where
  proc : List Proc := List.replicate NPROC {}
  totalTickets : BitVec 32 := 0
  nextpid : BitVec 32 := 1
  setCnt : BitVec 32 := 0
  schedP : ℕ → Option ℕ := fun _ => none

def Table.modify (s : Table) (i : ℕ) (f : Proc → Proc) : Table :=
  { s with proc := s.proc.modify i f }

/-- The word division of the target: a zero divisor yields all ones. -/
def divw (a b : BitVec 32) : BitVec 32 := if b = 0 then BitVec.allOnes 32 else a.sdiv b

def freeproc (p : Proc) : Proc :=
  { p with
    pid := 0, parent := none, chan := 0, killed := 0, xstate := 0, state := .unused,
    sysCallCnt := 0, tickets := 0, stridePass := 0 }

/-- The test under which both ticket loops look at a slot. -/
def Proc.counted (p : Proc) : Bool := p.state ≠ .unused && p.tickets ≠ 0

def calculateProcsTicket (total : BitVec 32) : List Proc → List Proc × BitVec 32
  | [] => ([], total)
  | p :: ps =>
    if p.counted then
      let r := calculateProcsTicket (total + p.tickets) ps
      ({ p with
          ticketsWinningRangeBeginning := total + 1
          ticketsWinningRangeEnd := total + p.tickets } :: r.1, r.2)
    else
      let r := calculateProcsTicket total ps
      (p :: r.1, r.2)

def clearSchedCnt (s : Table) : Table :=
  if s.setCnt = 3 then
    { s with proc := s.proc.map fun p =>
        if p.state = .runnable ∨ p.state = .running ∨ p.state = .sleeping then
          { p with schedCnt := 0 } else p }
  else s

def setProcTickets (b : Build) (s : Table) (i : ℕ) (n : BitVec 32) : Table :=
  let s := s.modify i fun p => { p with tickets := n }
  let s := match b with
    | .stride => s.modify i fun p => { p with stridePass := divw STRIDE_NUM p.tickets }
    | .lottery =>
      let r := calculateProcsTicket 0 s.proc
      { s with proc := r.1, totalTickets := r.2 }
    | .roundRobin => s
  clearSchedCnt { s with setCnt := s.setCnt + 1 }

/-- `allocproc` up to its first `kalloc`. What follows can only fail, by `freeproc`. -/
def allocproc (b : Build) (s : Table) : Option (ℕ × Table) :=
  (s.proc.findIdx? fun p => p.state = .unused).map fun i =>
    let s := { s.modify i fun p => { p with pid := s.nextpid, state := .used, schedCnt := 0 } with
      nextpid := s.nextpid + 1 }
    (i, match b with
      | .lottery => setProcTickets b s i 10
      | .stride => (setProcTickets b s i 60).modify i fun p =>
          { p with stridePass := divw STRIDE_NUM p.tickets }
      | .roundRobin => s)

def procChan (i : ℕ) : ℕ := i + 1

def wakeup (chan : ℕ) (p : Proc) : Proc :=
  if p.state = .sleeping ∧ p.chan = chan then { p with state := .runnable } else p

def initproc : ℕ := 0

def reparent (p : ℕ) (ps : List Proc) : List Proc :=
  let qs := ps.map fun pp => if pp.parent = some p then { pp with parent := some initproc } else pp
  if ps.any fun pp => pp.parent = some p then qs.map (wakeup (procChan initproc)) else qs

def exit (s : Table) (i : ℕ) (status : BitVec 32) (p : Proc) : Table :=
  let ps := reparent i s.proc
  let ps := match p.parent with
    | some pp => ps.map (wakeup (procChan pp))
    | none => ps
  { s with proc := ps.modify i fun p => { p with xstate := status, state := .zombie } }

def zombieChild (s : Table) (i : ℕ) : Option ℕ :=
  s.proc.findIdx? fun np => np.parent = some i ∧ np.state = .zombie

/-- The locked sections of the process calls. A fork is `allocproc`, then either
`forkFail` or `forkDone`; a `wait` is one that reaps. -/
inductive Call where
  | allocproc
  | forkFail (np : ℕ)
  | forkDone (p np : ℕ)
  | exit (p : ℕ) (status : BitVec 32)
  | wait (p : ℕ)
  | tickets (p : ℕ) (n : BitVec 32)
  | yield (p : ℕ)
  | sleep (p chan : ℕ)
  | wakeup (p chan : ℕ)
  deriving DecidableEq, Repr

def Table.inState (s : Table) (i : ℕ) (st : ProcState) : Prop :=
  s.proc[i]?.map (·.state) = some st

instance (s : Table) (i : ℕ) (st : ProcState) : Decidable (s.inState i st) :=
  inferInstanceAs (Decidable (_ = _))

theorem Table.inState_iff {s : Table} {i : ℕ} {st : ProcState} :
    s.inState i st ↔ ∃ p, s.proc[i]? = some p ∧ p.state = st := Option.map_eq_some_iff

/-- One section of a process call; only a running process makes calls. -/
def callStep (b : Build) (s : Table) : Call → Option Table
  | .allocproc => (allocproc b s).map (·.2)
  | .forkFail np => if s.inState np .used then some (s.modify np freeproc) else none
  | .forkDone p np =>
    if s.inState p .running ∧ s.inState np .used then
      some (s.modify np fun q => { q with parent := some p, state := .runnable })
    else none
  | .exit p status =>
    if s.inState p .running ∧ p ≠ initproc then s.proc[p]?.map (exit s p status) else none
  | .wait p =>
    if s.inState p .running then (zombieChild s p).map fun np => s.modify np freeproc else none
  | .tickets p n => if s.inState p .running then some (setProcTickets b s p n) else none
  | .yield p =>
    if s.inState p .running then some (s.modify p fun q => { q with state := .runnable }) else none
  | .sleep p chan =>
    if s.inState p .running then
      some (s.modify p fun q => { q with chan := chan, state := .sleeping })
    else none
  | .wakeup p chan =>
    if s.inState p .running then some { s with proc := s.proc.map (wakeup chan) } else none

def userinit (b : Build) : Table :=
  match allocproc b {} with
  | some (i, s) => s.modify i fun p => { p with state := .runnable }
  | none => {}

end Xv6.Sched
