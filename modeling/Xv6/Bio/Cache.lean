import Xv6.Lib.Ring
import Xv6.Lib.Run
import Xv6.Log.Redo

/-! The buffer cache of `bio.c`, with the calls that `log.c` makes on it. A step is a section under
`bcache.lock`, or what the holder of a buffer does with it. -/
namespace Xv6.Bio
open Ring PartialRun

def NBUF : ℕ := Log.MAXOPBLOCKS * 3

def head : ℕ := NBUF

structure Request where
  pid : ℕ
  dev : ℕ
  blockno : ℕ
  deriving DecidableEq, Repr

/-- `lock` is the holder of the sleeplock, `waiters` are the calls that sleep for it. -/
structure Buf (D : Type*) where
  valid : Bool := false
  dev : ℕ := 0
  blockno : ℕ := 0
  lock : Option ℕ := none
  waiters : List Request := []
  refcnt : ℕ := 0
  data : D

/-- Where the log is: `recover_from_log` has read the header, transactions run, or `commit` has
installed and unpinned the first `tail` blocks of the header. -/
inductive Phase where
  | recovering
  | running
  | committing (tail : ℕ)
  deriving DecidableEq, Repr

structure Conf where
  logDev : ℕ
  size : ℕ

/-- `lh` is `log.lh.block`. The disk is one device: `virtio_disk_rw` looks at the block number. -/
structure State (D : Type*) where
  buf : ℕ → Buf D
  links : Links ℕ
  disk : ℕ → D
  lh : List ℕ
  phase : Phase
  outstanding : ℕ

inductive Event (D : Type*) where
  | bget (r : Request)
  | acquire (i : ℕ) (r : Request)
  | modify (pid i : ℕ) (d : D)
  | bwrite (pid i : ℕ)
  | logWrite (pid i : ℕ)
  | brelse (pid i : ℕ)
  | beginOp
  | endOp
  | install (pid i : ℕ)
  | clearLog
  | commitDone
  | recoverDone

variable {D : Type*}

namespace State

def setBuf (s : State D) (i : ℕ) (b : Buf D) : State D :=
  { s with buf := Function.update s.buf i b }

def lookup (s : State D) (dev blockno : ℕ) : Option ℕ :=
  search s.links.next head (fun i => (s.buf i).dev = dev ∧ (s.buf i).blockno = blockno) (NBUF + 1)
    (s.links.next head)

def victim (s : State D) : Option ℕ :=
  search s.links.prev head (fun i => (s.buf i).refcnt = 0) (NBUF + 1) (s.links.prev head)

/-- The section of `bget`; a miss with no free buffer panics. -/
def bget (s : State D) (r : Request) : Option (State D) :=
  match s.lookup r.dev r.blockno with
  | some i =>
    let b := s.buf i
    some (s.setBuf i { b with refcnt := b.refcnt + 1, waiters := b.waiters ++ [r] })
  | none => s.victim.map fun i =>
    let b := s.buf i
    s.setBuf i { b with
      dev := r.dev, blockno := r.blockno, valid := false, refcnt := 1
      waiters := b.waiters ++ [r] }

/-- `acquiresleep` returns; `bread` reads the block if the buffer is not valid. -/
def acquire (s : State D) (i : ℕ) (r : Request) : State D :=
  let b := s.buf i
  s.setBuf i { b with
    lock := some r.pid, waiters := b.waiters.erase r, valid := true
    data := if b.valid then b.data else s.disk b.blockno }

def bwrite (s : State D) (i : ℕ) : State D :=
  { s with disk := Function.update s.disk (s.buf i).blockno (s.buf i).data }

def bpin (s : State D) (i : ℕ) : State D :=
  s.setBuf i { s.buf i with refcnt := (s.buf i).refcnt + 1 }

def bunpin (s : State D) (i : ℕ) : State D :=
  s.setBuf i { s.buf i with refcnt := (s.buf i).refcnt - 1 }

def logWrite (s : State D) (i : ℕ) : State D :=
  if (s.buf i).blockno ∈ s.lh then s
  else { s.bpin i with lh := s.lh ++ [(s.buf i).blockno] }

def brelse (s : State D) (i : ℕ) : State D :=
  let b := s.buf i
  let s := s.setBuf i { b with lock := none, refcnt := b.refcnt - 1 }
  if b.refcnt - 1 = 0 then { s with links := (s.links.unlink i).push head i } else s

end State

def step (c : Conf) (s : State D) : Event D → Option (State D)
  | .bget r => s.bget r
  | .acquire i r =>
    if r ∈ (s.buf i).waiters ∧ (s.buf i).lock = none then some (s.acquire i r) else none
  | .modify pid i d =>
    if (s.buf i).lock = some pid then some (s.setBuf i { s.buf i with data := d }) else none
  | .bwrite pid i => if (s.buf i).lock = some pid then some (s.bwrite i) else none
  | .logWrite pid i =>
    if (s.buf i).lock = some pid ∧ s.lh.length < Log.LOGSIZE ∧ s.lh.length + 1 < c.size ∧
        1 ≤ s.outstanding then
      some (s.logWrite i)
    else none
  | .brelse pid i => if (s.buf i).lock = some pid then some (s.brelse i) else none
  | .beginOp =>
    if s.phase = .running ∧ s.lh.length + (s.outstanding + 1) * Log.MAXOPBLOCKS ≤ Log.LOGSIZE then
      some { s with outstanding := s.outstanding + 1 }
    else none
  | .endOp =>
    if 1 ≤ s.outstanding then
      some { s with
        outstanding := s.outstanding - 1
        phase := if s.outstanding - 1 = 0 then .committing 0 else s.phase }
    else none
  | .install pid i => match s.phase with
    | .committing tail =>
      if (s.buf i).lock = some pid ∧ (s.buf i).dev = c.logDev ∧
          s.lh[tail]? = some (s.buf i).blockno then
        some { (s.bwrite i).bunpin i with phase := .committing (tail + 1) }
      else none
    | _ => none
  | .clearLog =>
    if s.phase = .committing s.lh.length then some { s with lh := [], phase := .committing 0 }
    else none
  | .commitDone =>
    if s.phase = .committing 0 ∧ s.lh = [] then some { s with phase := .running } else none
  | .recoverDone =>
    if s.phase = .recovering then some { s with lh := [], phase := .running } else none

def binit : Links ℕ := (List.range NBUF).foldl (fun s b => s.push head b) ⟨fun _ => head, fun _ => head⟩

/-- After `binit` and `read_head`: `d` is what the static buffers hold, `lh` what is in the log. -/
def boot (d : D) (disk : ℕ → D) (lh : List ℕ) : State D where
  buf := fun _ => { data := d }
  links := binit
  disk := disk
  lh := lh
  phase := .recovering
  outstanding := 0

end Xv6.Bio
