import Xv6.Lib.Bytes
import Xv6.Lib.Run
import Xv6.Lib.Writes

/-! The redo log of `log.c` over a disk of blocks: the header block, `write_log`, `write_head`,
`install_trans`, `commit` and `recover_from_log`, with the block writes they issue in order. -/
namespace Xv6.Log
open Bytes

def BSIZE : ℕ := 1024
def MAXOPBLOCKS : ℕ := 10
def LOGSIZE : ℕ := MAXOPBLOCKS * 3

abbrev Block := Buf BSIZE

/-- The disk, the buffer cache in front of it, the list `log.lh.block[0..n)`, and the writes
made by `bwrite` so far. -/
structure Mach where
  disk : ℕ → Block
  buf : ℕ → Block
  lh : List ℕ := []
  writes : List (ℕ × Block) := []

/-- A machine just started on a disk: nothing is cached, nothing is logged. -/
def restart (d : ℕ → Block) : Mach := { disk := d, buf := d }

def Mach.store (m : Mach) (b : ℕ) (x : Block) : Mach :=
  { m with buf := Function.update m.buf b x }

def bwrite (m : Mach) (b : ℕ) : Mach :=
  { m with
    disk := Function.update m.disk b (m.buf b)
    writes := m.writes ++ [(b, m.buf b)] }

def putBlocks (hb : Block) : ℕ → List ℕ → Block
  | _, [] => hb
  | i, b :: bs => putBlocks (putWord hb (4 + 4 * i) (BitVec.ofNat 32 b)) (i + 1) bs

def encodeHead (hb : Block) (lh : List ℕ) : Block :=
  putBlocks (putWord hb 0 (BitVec.ofNat 32 lh.length)) 0 lh

def decodeHead (hb : Block) : List ℕ :=
  (List.range (getWord hb 0).toInt.toNat).map fun i => (getWord hb (4 + 4 * i)).toNat

section
variable (start size : ℕ)

def readHead (m : Mach) : Mach := { m with lh := decodeHead (m.buf start) }

def writeHead (m : Mach) : Mach :=
  bwrite (m.store start (encodeHead (m.buf start) m.lh)) start

def writeLogFrom (tail : ℕ) : List ℕ → Mach → Mach
  | [], m => m
  | b :: bs, m =>
    writeLogFrom (tail + 1) bs (bwrite (m.store (start + tail + 1) (m.buf b)) (start + tail + 1))

def writeLog (m : Mach) : Mach := writeLogFrom start 0 m.lh m

def installFrom (tail : ℕ) : List ℕ → Mach → Mach
  | [], m => m
  | b :: bs, m => installFrom (tail + 1) bs (bwrite (m.store b (m.buf (start + tail + 1))) b)

def installTrans (m : Mach) : Mach := installFrom start 0 m.lh m

def commit (m : Mach) : Mach :=
  if 0 < m.lh.length then
    let m := installTrans start (writeHead start (writeLog start m))
    writeHead start { m with lh := [] }
  else m

def recoverFromLog (m : Mach) : Mach :=
  let m := installTrans start (readHead start m)
  writeHead start { m with lh := [] }

/-- `log_write` on a block that was changed in the cache; no result is the panic
"too big a transaction". -/
def logWrite (m : Mach) (b : ℕ) : Option Mach :=
  if LOGSIZE ≤ m.lh.length ∨ size - 1 ≤ m.lh.length then none
  else some (if b ∈ m.lh then m else { m with lh := m.lh ++ [b] })

/-- The updates of one group transaction: blocks with their new contents. -/
abbrev Tx := List (ℕ × Block)

def logTx (m : Mach) (tx : Tx) : Option Mach :=
  PartialRun.run (fun m w => logWrite size (m.store w.1 w.2) w.1) m tx

def runTx (m : Mach) (tx : Tx) : Option Mach := (logTx size m tx).map (commit start)

/-- A crash in `recover_from_log` after its first `k` block writes. -/
def crashInRecovery (d : ℕ → Block) (k : ℕ) : ℕ → Block :=
  Writes.apply d ((recoverFromLog start (restart d)).writes.take k)

/-- A home block: outside the log, with a number that fits the header. -/
def Home (b : ℕ) : Prop := (b < start ∨ start + size ≤ b) ∧ b < 2 ^ 32

end
end Xv6.Log
