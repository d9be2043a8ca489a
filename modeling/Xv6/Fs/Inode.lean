import Xv6.Fs.State

/-! The inode layer of `fs.c`: the inode table, and the contents of inodes. -/
namespace Xv6.Fs
open Bytes
open Xv6.Log (BSIZE Block)

def getInode (ip : InodePtr) : M Inode := do return (← get).itable ip

def setInode (ip : InodePtr) (e : Inode) : M Unit :=
  modify fun s => { s with itable := Function.update s.itable ip e }

/-- An assignment to the fields of `ip` that are a copy of the disk inode. -/
def modifyDinode (ip : InodePtr) (f : Dinode → Dinode) : M Unit :=
  modify fun s =>
    { s with itable := Function.update s.itable ip { s.itable ip with d := f (s.itable ip).d } }

def findInode (s : State) (inum : ℕ) : Option InodePtr :=
  match (List.finRange NINODE).find? fun ip => 0 < (s.itable ip).ref ∧ (s.itable ip).inum = inum with
  | some ip => some ip
  | none => (List.finRange NINODE).find? fun ip => (s.itable ip).ref = 0

def iget (inum : ℕ) : M InodePtr := do
  match findInode (← get) inum with
  | some ip => do
    let e ← getInode ip
    if 0 < e.ref then setInode ip { e with ref := e.ref + 1 }
    else setInode ip { e with inum := inum, ref := 1, valid := false }
    return ip
  | none => throw .igetNoInodes

def idup (ip : InodePtr) : M InodePtr := do
  let e ← getInode ip
  setInode ip { e with ref := e.ref + 1 }
  return ip

def acquiresleep (ip : InodePtr) : M Unit := do
  let e ← getInode ip
  if e.locked then throw .sleepsForever
  else do
    setInode ip { e with locked := true }
    modify fun s => { s with taken := e.inum :: s.taken }

def releasesleep (ip : InodePtr) : M Unit := do
  let e ← getInode ip
  setInode ip { e with locked := false }

variable (sb : Superblock)

def ilock (ip : InodePtr) : M Unit := do
  let e ← getInode ip
  if e.ref < 1 then throw .ilock
  else do
    acquiresleep ip
    if e.valid then return ()
    else do
      let bp ← bread (sb.IBLOCK e.inum)
      let d := readDinode bp (e.inum % IPB)
      setInode ip { e with locked := true, valid := true, d := d }
      if d.type = 0 then throw .ilockNoType
      else return ()

def iunlock (ip : InodePtr) : M Unit := do
  let e ← getInode ip
  if e.locked = false ∨ e.ref < 1 then throw .iunlock
  else releasesleep ip

def iupdate (ip : InodePtr) : M Unit := do
  let e ← getInode ip
  let bp ← bread (sb.IBLOCK e.inum)
  storeBlock (sb.IBLOCK e.inum) (writeDinode bp (e.inum % IPB) e.d)
  logWrite sb (sb.IBLOCK e.inum)

def iallocFrom (type : BitVec 16) : ℕ → ℕ → M InodePtr
  | 0, _ => throw .iallocNoInodes
  | n + 1, inum =>
    if inum < sb.ninodes then do
      let bp ← bread (sb.IBLOCK inum)
      if (readDinode bp (inum % IPB)).type = 0 then do
        storeBlock (sb.IBLOCK inum) (writeDinode bp (inum % IPB) { type := type })
        logWrite sb (sb.IBLOCK inum)
        iget inum
      else iallocFrom type n (inum + 1)
    else throw .iallocNoInodes

def ialloc (type : BitVec 16) : M InodePtr := iallocFrom sb type sb.ninodes 1

def Dinode.setAddr (d : Dinode) (j : Fin (NDIRECT + 1)) (a : BitVec 32) : Dinode :=
  { d with addrs := Function.update d.addrs j a }

def setAddr (ip : InodePtr) (j : Fin (NDIRECT + 1)) (a : BitVec 32) : M Unit :=
  modifyDinode ip fun d => d.setAddr j a

def addrBlock (ip : InodePtr) (j : Fin (NDIRECT + 1)) : M ℕ := do
  let e ← getInode ip
  if e.d.addrs j = 0 then do
    let addr ← balloc sb
    setAddr ip j (BitVec.ofNat 32 addr)
    return addr
  else return (e.d.addrs j).toNat

def bmap (ip : InodePtr) (bn : ℕ) : M ℕ :=
  if bn < NDIRECT then addrBlock sb ip (Fin.ofNat _ bn)
  else if bn - NDIRECT < NINDIRECT then do
    let ind ← addrBlock sb ip (Fin.last NDIRECT)
    let bp ← bread ind
    if getWord bp (4 * (bn - NDIRECT)) = 0 then do
      let addr ← balloc sb
      let bp ← bread ind
      storeBlock ind (putWord bp (4 * (bn - NDIRECT)) (BitVec.ofNat 32 addr))
      logWrite sb ind
      return addr
    else return (getWord bp (4 * (bn - NDIRECT))).toNat
  else throw .bmapOutOfRange

def freeDirect (ip : InodePtr) : List (Fin (NDIRECT + 1)) → M Unit
  | [] => return ()
  | j :: js => do
    let e ← getInode ip
    doIf (e.d.addrs j ≠ 0) do
      bfree sb (e.d.addrs j).toNat
      setAddr ip j 0
    freeDirect ip js

def freeIndirect (bp : Block) : List ℕ → M Unit
  | [] => return ()
  | j :: js => do
    doIf (getWord bp (4 * j) ≠ 0) (bfree sb (getWord bp (4 * j)).toNat)
    freeIndirect bp js

def directs : List (Fin (NDIRECT + 1)) := (List.finRange NDIRECT).map Fin.castSucc

def itrunc (ip : InodePtr) : M Unit := do
  freeDirect sb ip directs
  let e ← getInode ip
  let j : Fin (NDIRECT + 1) := Fin.last NDIRECT
  doIf (e.d.addrs j ≠ 0) do
    let bp ← bread (e.d.addrs j).toNat
    freeIndirect sb bp (List.range NINDIRECT)
    bfree sb (e.d.addrs j).toNat
    setAddr ip j 0
  modifyDinode ip fun d => { d with size := 0 }
  iupdate sb ip

def iput (ip : InodePtr) : M Unit := do
  let e ← getInode ip
  doIf (e.ref = 1 ∧ e.valid = true ∧ e.d.nlink = 0) do
    acquiresleep ip
    itrunc sb ip
    modifyDinode ip fun d => { d with type := 0 }
    iupdate sb ip
    let e ← getInode ip
    setInode ip { e with valid := false, locked := false }
  let e ← getInode ip
  setInode ip { e with ref := e.ref - 1 }

def iunlockput (ip : InodePtr) : M Unit := do
  iunlock ip
  iput sb ip

/-- The loop of `readi`: the bytes copied, or nothing if `either_copyout` fails. The destination
`dst` says which of its bytes can be written. -/
def readiLoop (ip : InodePtr) (dst : ℕ → Bool) (n : ℕ) : ℕ → ℕ → ℕ → List Byte → M (Option (List Byte))
  | 0, _, _, acc => return some acc
  | fuel + 1, tot, off, acc =>
    if tot < n then do
      let addr ← bmap sb ip (off / BSIZE)
      let bp ← bread addr
      let m := min (n - tot) (BSIZE - off % BSIZE)
      if (List.range m).all fun k => dst (tot + k) then
        readiLoop ip dst n fuel (tot + m) (off + m)
          (acc ++ (List.range m).map fun k => byteAt bp (off % BSIZE + k))
      else return none
    else return some acc

/-- `readi`, with the 32-bit sum of `off` and `n`. -/
def readi (ip : InodePtr) (dst : ℕ → Bool) (off n : BitVec 32) : M (Option (List Byte)) := do
  let e ← getInode ip
  if e.d.size < off ∨ off + n < off then return some []
  else
    let n := if e.d.size < off + n then e.d.size - off else n
    readiLoop sb ip dst n.toNat n.toNat 0 off.toNat []

def readable (src : ℕ → Option Byte) (start : ℕ) : ℕ → ℕ
  | 0 => 0
  | m + 1 => if (src start).isSome then readable src (start + 1) m + 1 else 0

def writeiLoop (ip : InodePtr) (src : ℕ → Option Byte) (n : ℕ) : ℕ → ℕ → ℕ → M (ℕ × ℕ)
  | 0, tot, off => return (tot, off)
  | fuel + 1, tot, off =>
    if tot < n then do
      let addr ← bmap sb ip (off / BSIZE)
      let bp ← bread addr
      let m := min (n - tot) (BSIZE - off % BSIZE)
      -- a failing copy has still changed the buffer up to the bad address
      let k := readable src tot m
      storeBlock addr (patch bp (off % BSIZE) k fun i => (src (tot + i)).getD 0)
      if k < m then return (tot, off)
      else do
        logWrite sb addr
        writeiLoop ip src n fuel (tot + m) (off + m)
    else return (tot, off)

def writei (ip : InodePtr) (src : ℕ → Option Byte) (off n : BitVec 32) : M ℤ := do
  let e ← getInode ip
  if e.d.size < off ∨ off + n < off then return -1
  else if BitVec.ofNat 32 (MAXFILE * BSIZE) < off + n then return -1
  else do
    let (tot, off) ← writeiLoop sb ip src n.toNat n.toNat 0 off.toNat
    let e ← getInode ip
    doIf (e.d.size.toNat < off) (modifyDinode ip fun d => { d with size := BitVec.ofNat 32 off })
    iupdate sb ip
    return tot

end Xv6.Fs
