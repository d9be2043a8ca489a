import Xv6.Fs.Inode

/-! Directories and path names: `dirlookup`, `dirlink`, `skipelem` and `namex` of `fs.c`. -/
namespace Xv6.Fs
open Bytes
open Xv6.Log (BSIZE)

def strncmp : ℕ → List Byte → List Byte → ℤ
  | 0, _, _ => 0
  | n + 1, p, q =>
    if p.headD 0 ≠ 0 ∧ p.headD 0 = q.headD 0 then strncmp n p.tail q.tail
    else (p.headD 0).toNat - (q.headD 0).toNat

def namecmp (s t : List Byte) : ℤ := strncmp DIRSIZ s t

def strncpy : ℕ → List Byte → List Byte
  | 0, _ => []
  | n + 1, s =>
    if s.headD 0 = 0 then List.replicate (n + 1) 0 else s.headD 0 :: strncpy n s.tail

def slash : Byte := 47
def dot : List Byte := [46]
def dotdot : List Byte := [46, 46]

def skipelem (path : List Byte) : Option (List Byte × List Byte) :=
  let path := path.dropWhile (· = slash)
  if path = [] then none
  else
    some ((path.dropWhile (· ≠ slash)).dropWhile (· = slash),
      (path.takeWhile (· ≠ slash)).take DIRSIZ)

variable (sb : Superblock)

def readDe (dp : InodePtr) (off : ℕ) : M (Option Dirent) := do
  let r ← readi sb dp (fun _ => true) (BitVec.ofNat 32 off) (BitVec.ofNat 32 direntSize)
  match r with
  | some bs => return if bs.length = direntSize then some (readDirent bs) else none
  | none => return none

def writeDe (dp : InodePtr) (off : ℕ) (de : Dirent) : M ℤ :=
  writei sb dp (fun k => de.bytes[k]?) (BitVec.ofNat 32 off) (BitVec.ofNat 32 direntSize)

def dirlookupFrom (dp : InodePtr) (name : List Byte) : ℕ → ℕ → M (Option (InodePtr × ℕ))
  | 0, _ => return none
  | n + 1, off => do
    let e ← getInode dp
    if off < e.d.size.toNat then do
      match ← readDe sb dp off with
      | none => throw .dirlookupRead
      | some de =>
        if de.inum = 0 then dirlookupFrom dp name n (off + direntSize)
        else if namecmp name de.name = 0 then do
          let ip ← iget de.inum.toNat
          return some (ip, off)
        else dirlookupFrom dp name n (off + direntSize)
    else return none

def dirlookup (dp : InodePtr) (name : List Byte) : M (Option (InodePtr × ℕ)) := do
  let e ← getInode dp
  if e.d.type ≠ T_DIR then throw .dirlookupNotDir
  else dirlookupFrom sb dp name (e.d.size.toNat / direntSize + 1) 0

def findSlot (dp : InodePtr) : ℕ → ℕ → M ℕ
  | 0, off => return off
  | n + 1, off => do
    let e ← getInode dp
    if off < e.d.size.toNat then do
      match ← readDe sb dp off with
      | none => throw .dirlinkRead
      | some de => if de.inum = 0 then return off else findSlot dp n (off + direntSize)
    else return off

def dirlink (dp : InodePtr) (name : List Byte) (inum : ℕ) : M Bool := do
  match ← dirlookup sb dp name with
  | some (ip, _) => do
    iput sb ip
    return false
  | none => do
    let e ← getInode dp
    let off ← findSlot sb dp (e.d.size.toNat / direntSize + 1) 0
    let r ← writeDe sb dp off { inum := BitVec.ofNat 16 inum, name := strncpy DIRSIZ name }
    if r ≠ direntSize then throw .dirlink else return true

def namexFrom (parent : Bool) : ℕ → InodePtr → List Byte → List Byte →
    M (Option (InodePtr × List Byte))
  | 0, _, _, _ => return none
  | n + 1, ip, path, name =>
    match skipelem path with
    | none =>
      if parent then do
        iput sb ip
        return none
      else return some (ip, name)
    | some (path, name) => do
      ilock sb ip
      let e ← getInode ip
      if e.d.type ≠ T_DIR then do
        iunlockput sb ip
        return none
      else if parent = true ∧ path = [] then do
        iunlock ip
        return some (ip, name)
      else do
        match ← dirlookup sb ip name with
        | none => do
          iunlockput sb ip
          return none
        | some (next, _) => do
          iunlockput sb ip
          namexFrom parent n next path name

/-- Where the path starts: the root, or the current directory. -/
def startInode (cwd : InodePtr) (path : List Byte) : M InodePtr :=
  if path.head? = some slash then iget ROOTINO else idup cwd

def namex (cwd : InodePtr) (path : List Byte) (parent : Bool) :
    M (Option (InodePtr × List Byte)) := do
  let ip ← startInode cwd path
  namexFrom sb parent (path.length + 1) ip path []

def namei (cwd : InodePtr) (path : List Byte) : M (Option InodePtr) := do
  return (← namex sb cwd path false).map Prod.fst

def nameiparent (cwd : InodePtr) (path : List Byte) : M (Option (InodePtr × List Byte)) :=
  namex sb cwd path true

def isdiremptyFrom (dp : InodePtr) : ℕ → ℕ → M Bool
  | 0, _ => return true
  | n + 1, off => do
    let e ← getInode dp
    if off < e.d.size.toNat then do
      match ← readDe sb dp off with
      | none => throw .isdirempty
      | some de => if de.inum ≠ 0 then return false else isdiremptyFrom dp n (off + direntSize)
    else return true

def isdirempty (dp : InodePtr) : M Bool := do
  let e ← getInode dp
  isdiremptyFrom sb dp (e.d.size.toNat / direntSize + 1) (2 * direntSize)

end Xv6.Fs
