import Mathlib.Data.List.Nodup
import Mathlib.Logic.Basic
import Xv6.Lib.Circular
import Xv6.Lib.Run

/-! The driver of the virtio disk, `kernel/virtio_disk.c`, any number of processes that call
`virtio_disk_rw`, the interrupt handler and the device. -/
namespace Xv6.Virtio
open Circular Function

def NUM : ℕ := 8
instance : NeZero NUM := ⟨by decide⟩

def VRING_DESC_F_NEXT : ℕ := 1
def VRING_DESC_F_WRITE : ℕ := 2
def VIRTIO_BLK_T_IN : ℕ := 0
def VIRTIO_BLK_T_OUT : ℕ := 1
def BSIZE : ℕ := 1024

inductive Addr where
  | null
  | op (i : ℕ)
  | data (b : ℕ)
  | status (i : ℕ)
  deriving DecidableEq

structure Desc where
  addr : Addr
  len : ℕ
  flags : ℕ
  next : ℕ
  deriving DecidableEq

structure BlkReq where
  type : ℕ
  reserved : ℕ
  sector : ℕ

structure Info where
  b : Option ℕ
  status : ℕ

inductive Panic where
  | freeDesc1
  | freeDesc2
  | intrStatus
  | nullBuf
  | badChain
  deriving DecidableEq

structure Idx where
  i0 : ℕ
  i1 : ℕ
  i2 : ℕ
  deriving DecidableEq

structure Job where
  b : ℕ
  sector : ℕ
  write : Bool
  deriving DecidableEq

structure Req where
  id : ℕ
  x : Idx
  j : Job
  deriving DecidableEq

/-- Where a process is in `virtio_disk_rw`: a place where the device, or without the lock anybody, may
run. -/
inductive Phase where
  | idle
  | alloc (j : Job)
  | sleepFree (j : Job)
  | format (j : Job) (x : Idx)
  | publish (r : Req)
  | bump (r : Req)
  | check (r : Req)
  | sleepDone (r : Req)
  deriving DecidableEq

inductive Holder where
  | proc (p : ℕ)
  | intr
  deriving DecidableEq

structure State where
  free : ℕ → Bool
  desc : ℕ → Desc
  ops : ℕ → BlkReq
  info : ℕ → Info
  availRing : Fin NUM → ℕ
  availIdx : BitVec 16
  usedRing : Fin NUM → ℕ
  usedDev : BitVec 16
  usedIdx : BitVec 16
  disk : ℕ → Bool
  lock : Option Holder
  phase : ℕ → Phase
  owner : ℕ → Option ℕ
  lastAvail : BitVec 16
  inflight : List ℕ
  panic : Option Panic
  -- What happened so far: the number of requests and the last one of each head, the heads that the
  -- driver has submitted and the device has taken, the requests that the device has completed, the
  -- heads that the driver has seen completed and the buffers whose flags it cleared, and the
  -- requests whose calls have returned.
  count : ℕ
  serial : ℕ → ℕ
  submitted : List ℕ
  taken : List ℕ
  completed : List Req
  seen : List ℕ
  cleared : List ℕ
  returned : List Req

def allocDesc (s : State) : Option (ℕ × State) :=
  ((List.range NUM).find? s.free).map fun i => (i, { s with free := update s.free i false })

def freeDesc (s : State) (i : ℕ) : Except Panic State :=
  if i ≥ NUM then .error .freeDesc1
  else if s.free i then .error .freeDesc2
  else .ok { s with
    desc := update s.desc i ⟨.null, 0, 0, 0⟩
    free := update s.free i true }

/-- The loop of `free_chain` cannot go on for more than `NUM` rounds: it would free a free
descriptor. -/
def freeChain : ℕ → State → ℕ → Except Panic State
  | 0, _, _ => .error .freeDesc2
  | n + 1, s, i => do
    let flag := (s.desc i).flags
    let nxt := (s.desc i).next
    let s ← freeDesc s i
    if flag &&& VRING_DESC_F_NEXT ≠ 0 then freeChain n s nxt else return s

def alloc3Desc (s : State) : Except Panic (Option Idx × State) :=
  match allocDesc s with
  | none => .ok (none, s)
  | some (i0, s) =>
    match allocDesc s with
    | none => do
      let s ← freeDesc s i0
      return (none, s)
    | some (i1, s) =>
      match allocDesc s with
      | none => do
        let s ← freeDesc s i0
        let s ← freeDesc s i1
        return (none, s)
      | some (i2, s) => .ok (some ⟨i0, i1, i2⟩, s)

def format (s : State) (j : Job) (x : Idx) : State :=
  let desc := update s.desc x.i0 ⟨.op x.i0, 16, VRING_DESC_F_NEXT, x.i1⟩
  let desc := update desc x.i1
    ⟨.data j.b, BSIZE, (if j.write then 0 else VRING_DESC_F_WRITE) ||| VRING_DESC_F_NEXT, x.i2⟩
  let desc := update desc x.i2 ⟨.status x.i0, 1, VRING_DESC_F_WRITE, 0⟩
  { s with
    ops := update s.ops x.i0
      ⟨if j.write then VIRTIO_BLK_T_OUT else VIRTIO_BLK_T_IN, 0, j.sector⟩
    desc
    info := update s.info x.i0 ⟨some j.b, 0xff⟩
    disk := update s.disk j.b true
    serial := update s.serial x.i0 s.count
    count := s.count + 1 }

def State.fail (s : State) (e : Panic) : State := { s with panic := some e }

def State.goto (s : State) (p : ℕ) (ph : Phase) : State :=
  { s with phase := update s.phase p ph }

/-- Process `p` goes on. A sleeping process may wake at any time. -/
def proc (s : State) (p : ℕ) : Option State :=
  match s.phase p with
  | .idle => none
  | .alloc j =>
    match alloc3Desc s with
    | .error e => some (s.fail e)
    | .ok (none, s) => some ({ s with lock := none }.goto p (.sleepFree j))
    | .ok (some x, s) => some (s.goto p (.format j x))
  | .sleepFree j =>
    if s.lock = none then some ({ s with lock := some (.proc p) }.goto p (.alloc j)) else none
  | .format j x => some ((format s j x).goto p (.publish ⟨s.count, x, j⟩))
  | .publish r =>
    some ({ s with availRing := update s.availRing (cell NUM s.availIdx) r.x.i0 }.goto p
      (.bump r))
  | .bump r =>
    some ({ s with availIdx := s.availIdx + 1, submitted := s.submitted ++ [r.x.i0] }.goto p (.check r))
  | .check r =>
    if s.disk r.j.b then some ({ s with lock := none }.goto p (.sleepDone r))
    else
      match freeChain (NUM + 1)
        { s with info := update s.info r.x.i0 { s.info r.x.i0 with b := none } } r.x.i0 with
      | .error e => some (s.fail e)
      | .ok s => some ({ s with lock := none, returned := s.returned ++ [r] }.goto p .idle)
  | .sleepDone r =>
    if s.lock = none then some ({ s with lock := some (.proc p) }.goto p (.check r)) else none

/-- `virtio_disk_intr`: the lock is taken, and then each step is a round of the loop or its end. -/
def intr (s : State) : Option State :=
  match s.lock with
  | none => some { s with lock := some .intr }
  | some (.proc _) => none
  | some .intr =>
    if s.usedIdx = s.usedDev then some { s with lock := none }
    else
      let id := s.usedRing (cell NUM s.usedIdx)
      if (s.info id).status ≠ 0 then some (s.fail .intrStatus)
      else match (s.info id).b with
        | none => some (s.fail .nullBuf)
        | some b => some { s with
            disk := update s.disk b false
            usedIdx := s.usedIdx + 1
            seen := s.seen ++ [id]
            cleared := s.cleared ++ [b] }

def readChain (s : State) (h : ℕ) : Option (Req × ℕ) :=
  let d0 := s.desc h
  let d1 := s.desc d0.next
  let d2 := s.desc d1.next
  if d0.flags &&& VRING_DESC_F_NEXT ≠ 0 ∧ d1.flags &&& VRING_DESC_F_NEXT ≠ 0 ∧
      d2.flags &&& VRING_DESC_F_NEXT = 0 then
    match d0.addr, d1.addr, d2.addr with
    | .op i, .data b, .status k =>
      some (⟨s.serial h, ⟨h, d0.next, d1.next⟩,
        ⟨b, (s.ops i).sector, (s.ops i).type = VIRTIO_BLK_T_OUT⟩⟩, k)
    | _, _, _ => none
  else none

def take (s : State) : Option State :=
  if s.lastAvail = s.availIdx then none
  else
    let h := s.availRing (cell NUM s.lastAvail)
    some { s with
      lastAvail := s.lastAvail + 1
      inflight := s.inflight ++ [h]
      taken := s.taken ++ [h] }

def complete (s : State) (h : ℕ) : Option State :=
  if h ∈ s.inflight then
    match readChain s h with
    | none => some (s.fail .badChain)
    | some (r, k) => some { s with
        inflight := s.inflight.erase h
        info := update s.info k { s.info k with status := 0 }
        usedRing := update s.usedRing (cell NUM s.usedDev) h
        usedDev := s.usedDev + 1
        completed := s.completed ++ [r] }
  else none

inductive Event where
  /-- `acquiresleep` and `releasesleep` of a buffer; the calls of `virtio_disk_rw` in `bread` and
  `bwrite` are made with the buffer locked. -/
  | lockBuf (p b : ℕ)
  | unlockBuf (p b : ℕ)
  | rw (p b blockno : ℕ) (write : Bool)
  | proc (p : ℕ)
  | intr
  | take
  | complete (h : ℕ)

def act (s : State) : Event → Option State
  | .lockBuf p b =>
    if s.owner b = none then some { s with owner := update s.owner b (some p) } else none
  | .unlockBuf p b =>
    if s.owner b = some p ∧ s.phase p = .idle then
      some { s with owner := update s.owner b none }
    else none
  | .rw p b blockno write =>
    if s.owner b = some p ∧ s.phase p = .idle ∧ s.lock = none then
      some ({ s with lock := some (.proc p) }.goto p
        (.alloc ⟨b, blockno * (BSIZE / 512) % 2 ^ 32, write⟩))
    else none
  | .proc p => proc s p
  | .intr => intr s
  | .take => take s
  | .complete h => complete s h

def step (s : State) (e : Event) : Option State := if s.panic = none then act s e else none

def init : State where
  free := fun i => decide (i < NUM)
  desc := fun _ => ⟨.null, 0, 0, 0⟩
  ops := fun _ => ⟨0, 0, 0⟩
  info := fun _ => ⟨none, 0⟩
  availRing := fun _ => 0
  availIdx := 0
  usedRing := fun _ => 0
  usedDev := 0
  usedIdx := 0
  disk := fun _ => false
  lock := none
  phase := fun _ => .idle
  owner := fun _ => none
  lastAvail := 0
  inflight := []
  panic := none
  count := 0
  serial := fun _ => 0
  submitted := []
  taken := []
  completed := []
  seen := []
  cleared := []
  returned := []

end Xv6.Virtio
