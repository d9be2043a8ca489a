import Xv6.Fs.Layout
import Xv6.Lib.Sat

/-! The state of the file system in memory, and its block layer: `begin_op`, `log_write`,
`end_op`, `bzero`, `balloc` and `bfree`. -/
namespace Xv6.Fs
open Xv6.Log (BSIZE Block Mach LOGSIZE MAXOPBLOCKS)

def NPROC : ℕ := 64
def NOFILE : ℕ := 16
def NFILE : ℕ := 100
def NINODE : ℕ := 50

theorem ninode_pos : 0 < NINODE := by decide

def NDEV : ℕ := 10

/-- The ways in which a call does not come back: the panics of `log.c`, `fs.c`, `file.c`,
`sysfile.c` and `exit`, and a sleep from which no other process can wake the caller. -/
inductive Panic where
  | tooBigTransaction
  | logWriteOutsideOfTrans
  | outOfBlocks
  | freeingFreeBlock
  | iallocNoInodes
  | igetNoInodes
  | ilock
  | ilockNoType
  | iunlock
  | bmapOutOfRange
  | dirlookupNotDir
  | dirlookupRead
  | dirlinkRead
  | dirlink
  | isdirempty
  | unlinkNlink
  | unlinkWritei
  | createDots
  | createDirlink
  | filedup
  | fileclose
  | fileread
  | filewrite
  | initExiting
  | sleepsForever
  deriving DecidableEq

structure Inode where
  inum : ℕ := 0
  ref : ℕ := 0
  locked : Bool := false
  valid : Bool := false
  d : Dinode := {}

inductive FileType where
  | none
  | pipe
  | inode
  | device
  deriving DecidableEq

abbrev InodePtr := Fin NINODE
abbrev FilePtr := Fin NFILE

structure File where
  type : FileType := .none
  ref : ℕ := 0
  readable : Bool := false
  writable : Bool := false
  ip : InodePtr := ⟨0, by decide⟩
  off : BitVec 32 := 0
  major : BitVec 16 := 0

/-- The file-system fields of `struct proc`. -/
structure Proc where
  ofile : Fin NOFILE → Option FilePtr := fun _ => none
  cwd : InodePtr

/-- The blocks behind the buffer cache and the log, the inode and file tables, and the
processes in use. The history `taken` of the inodes whose sleep-locks were acquired is read by no
function. -/
structure State where
  m : Mach
  outstanding : ℕ := 0
  itable : InodePtr → Inode := fun _ => {}
  ftable : FilePtr → File := fun _ => {}
  procs : Fin NPROC → Option Proc := fun _ => none
  taken : List ℕ := []

abbrev M := StateT State (Except Panic)

def doIf (c : Prop) [Decidable c] (x : M Unit) : M Unit := if c then x else return ()

def bread (b : ℕ) : M Block := do return (← get).m.buf b

def storeBlock (b : ℕ) (x : Block) : M Unit := modify fun s => { s with m := s.m.store b x }

variable (sb : Superblock)

def logWrite (b : ℕ) : M Unit := do
  let s ← get
  match Log.logWrite sb.nlog s.m b with
  | none => throw .tooBigTransaction
  | some m =>
    if s.outstanding < 1 then throw .logWriteOutsideOfTrans
    else set { s with m := m }

/-- `begin_op` of a call that runs alone: there is no commit to wait for. -/
def beginOp : M Unit := do
  let s ← get
  if LOGSIZE < s.m.lh.length + (s.outstanding + 1) * MAXOPBLOCKS then throw .sleepsForever
  else set { s with outstanding := s.outstanding + 1 }

def endOp : M Unit := do
  let s ← get
  let s := { s with outstanding := s.outstanding - 1 }
  if s.outstanding = 0 then set { s with m := Log.commit sb.logstart s.m }
  else set s

def bzero (bno : ℕ) : M Unit := do
  storeBlock bno fun _ => 0
  logWrite sb bno

def ballocFrom : ℕ → ℕ → M ℕ
  | 0, _ => throw .outOfBlocks
  | n + 1, b =>
    if b < sb.size then do
      let bp ← bread (sb.BBLOCK b)
      match findClear sb.size bp b BPB 0 with
      | some bi =>
        storeBlock (sb.BBLOCK b) (markBit bp bi)
        logWrite sb (sb.BBLOCK b)
        bzero sb (b + bi)
        return b + bi
      | none => ballocFrom n (b + BPB)
    else throw .outOfBlocks

def balloc : M ℕ := ballocFrom sb (sb.size / BPB + 1) 0

def bfree (b : ℕ) : M Unit := do
  let bp ← bread (sb.BBLOCK b)
  if bitSet bp (b % BPB) then do
    storeBlock (sb.BBLOCK b) (clearBit bp (b % BPB))
    logWrite sb (sb.BBLOCK b)
  else throw .freeingFreeBlock

end Xv6.Fs
