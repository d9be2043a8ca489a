import Xv6.Fs.Path

/-! Open files (`file.c`) and the file-system calls (`sysfile.c`, and what `fork` and `exit` do
with files), each run to completion by one process. -/
namespace Xv6.Fs
open Bytes Function
open Xv6.Log (BSIZE MAXOPBLOCKS)

variable (sb : Superblock)

def getFile (f : FilePtr) : M File := do return (← get).ftable f

def setFile (f : FilePtr) (x : File) : M Unit :=
  modify fun s => { s with ftable := update s.ftable f x }

def filealloc : M (Option FilePtr) := do
  let s ← get
  match (List.finRange NFILE).find? fun f => (s.ftable f).ref = 0 with
  | some f => do
    setFile f { s.ftable f with ref := 1 }
    return some f
  | none => return none

def filedup (f : FilePtr) : M Unit := do
  let x ← getFile f
  if x.ref < 1 then throw .filedup
  else setFile f { x with ref := x.ref + 1 }

/-- The code between `begin_op` and `end_op`, on every path that leaves it. -/
def transaction {α : Type} (body : M α) : M α := do
  beginOp
  let r ← body
  endOp sb
  return r

/-- `fileclose`; the pipe behind a closed pipe end is not part of this state. -/
def fileclose (f : FilePtr) : M Unit := do
  let x ← getFile f
  if x.ref < 1 then throw .fileclose
  else if 0 < x.ref - 1 then setFile f { x with ref := x.ref - 1 }
  else do
    setFile f { x with ref := 0, type := .none }
    doIf (x.type = .inode ∨ x.type = .device) (transaction sb (iput sb x.ip))

def fileread (f : FilePtr) (dst : ℕ → Bool) (n : BitVec 32) (other : ℤ) : M ℤ := do
  let x ← getFile f
  if x.readable = false then return -1
  else match x.type with
    | .pipe | .device => return other
    | .inode => do
      ilock sb x.ip
      let r ← readi sb x.ip dst x.off n
      match r with
      | some bs => do
        doIf (0 < bs.length) (setFile f { x with off := x.off + BitVec.ofNat 32 bs.length })
        iunlock x.ip
        return bs.length
      | none => do
        iunlock x.ip
        return -1
    | .none => throw .fileread

/-- The most that one transaction of `filewrite` writes. -/
def maxWrite : ℕ := (MAXOPBLOCKS - 1 - 1 - 2) / 2 * BSIZE

def writeTx (f : FilePtr) (src : ℕ → Option Byte) (n : ℕ) : M ℤ := do
  let x ← getFile f
  ilock sb x.ip
  let r ← writei sb x.ip src x.off (BitVec.ofNat 32 n)
  doIf (0 < r) (setFile f { x with off := x.off + BitVec.ofInt 32 r })
  iunlock x.ip
  return r

def filewriteLoop (f : FilePtr) (src : ℕ → Option Byte) (n : ℕ) : ℕ → ℕ → M ℕ
  | 0, i => return i
  | fuel + 1, i =>
    if i < n then do
      let n1 := min (n - i) maxWrite
      let r ← transaction sb (writeTx sb f (fun k => src (i + k)) n1)
      if r ≠ n1 then return i else filewriteLoop f src n fuel (i + n1)
    else return i

def filewrite (f : FilePtr) (src : ℕ → Option Byte) (n : BitVec 32) (other : ℤ) : M ℤ := do
  let x ← getFile f
  if x.writable = false then return -1
  else match x.type with
    | .pipe | .device => return other
    | .inode => do
      let i ← filewriteLoop sb f src n.toInt.toNat n.toInt.toNat 0
      return if (i : ℤ) = n.toInt then n.toInt else -1
    | .none => throw .filewrite

def myproc (p : Fin NPROC) : M Proc := do
  return ((← get).procs p).getD { cwd := ⟨0, by decide⟩ }

def setProc (p : Fin NPROC) (x : Option Proc) : M Unit :=
  modify fun s => { s with procs := update s.procs p x }

def setFd (p : Fin NPROC) (fd : Fin NOFILE) (f : Option FilePtr) : M Unit := do
  let x ← myproc p
  setProc p (some { x with ofile := update x.ofile fd f })

def argfd (p : Fin NPROC) (fd : ℕ) : M (Option (Fin NOFILE × FilePtr)) := do
  let x ← myproc p
  return if h : fd < NOFILE then (x.ofile ⟨fd, h⟩).map fun f => (⟨fd, h⟩, f) else none

def fdalloc (p : Fin NPROC) (f : FilePtr) : M (Option (Fin NOFILE)) := do
  let x ← myproc p
  match (List.finRange NOFILE).find? fun fd => x.ofile fd = none with
  | some fd => do
    setFd p fd (some f)
    return some fd
  | none => return none

def sysDup (p : Fin NPROC) (fd : ℕ) : M ℤ := do
  match ← argfd p fd with
  | none => return -1
  | some (_, f) => do
    match ← fdalloc p f with
    | none => return -1
    | some fd => do
      filedup f
      return fd.val

def sysRead (p : Fin NPROC) (fd : ℕ) (dst : ℕ → Bool) (n : BitVec 32) (other : ℤ) : M ℤ := do
  match ← argfd p fd with
  | none => return -1
  | some (_, f) => fileread sb f dst n other

def sysWrite (p : Fin NPROC) (fd : ℕ) (src : ℕ → Option Byte) (n : BitVec 32) (other : ℤ) :
    M ℤ := do
  match ← argfd p fd with
  | none => return -1
  | some (_, f) => filewrite sb f src n other

def sysClose (p : Fin NPROC) (fd : ℕ) : M ℤ := do
  match ← argfd p fd with
  | none => return -1
  | some (fd, f) => do
    setFd p fd none
    fileclose sb f
    return 0

def linkBad (ip : InodePtr) : M ℤ := do
  ilock sb ip
  modifyDinode ip fun d => { d with nlink := d.nlink - 1 }
  iupdate sb ip
  iunlockput sb ip
  return -1

def linkTx (p : Fin NPROC) (old new : List Byte) : M ℤ := do
  let x ← myproc p
  match ← namei sb x.cwd old with
  | none => return -1
  | some ip => do
    ilock sb ip
    let e ← getInode ip
    if e.d.type = T_DIR then do
      iunlockput sb ip
      return -1
    else do
      modifyDinode ip fun d => { d with nlink := d.nlink + 1 }
      iupdate sb ip
      iunlock ip
      match ← nameiparent sb x.cwd new with
      | none => linkBad sb ip
      | some (dp, name) => do
        ilock sb dp
        let linked ← dirlink sb dp name e.inum
        iunlockput sb dp
        if linked then do
          iput sb ip
          return 0
        else linkBad sb ip

def sysLink (p : Fin NPROC) (old new : Option (List Byte)) : M ℤ :=
  match old, new with
  | some old, some new => transaction sb (linkTx sb p old new)
  | _, _ => return -1

/-- The locked inode `ip` is a directory with entries of its own. -/
def inUse (ip : InodePtr) : M Bool := do
  let e ← getInode ip
  if e.d.type = T_DIR then return !(← isdirempty sb ip) else return false

def unlinkBad (dp : InodePtr) : M ℤ := do
  iunlockput sb dp
  return -1

def unlinkTx (p : Fin NPROC) (path : List Byte) : M ℤ := do
  let x ← myproc p
  match ← nameiparent sb x.cwd path with
  | none => return -1
  | some (dp, name) => do
    ilock sb dp
    if namecmp name dot = 0 ∨ namecmp name dotdot = 0 then unlinkBad sb dp
    else do
      match ← dirlookup sb dp name with
      | none => unlinkBad sb dp
      | some (ip, off) => do
        ilock sb ip
        let e ← getInode ip
        if e.d.nlink.toInt < 1 then throw .unlinkNlink
        else do
          if ← inUse sb ip then do
            iunlockput sb ip
            unlinkBad sb dp
          else do
            let r ← writeDe sb dp off { inum := 0, name := List.replicate DIRSIZ 0 }
            if r ≠ direntSize then throw .unlinkWritei
            else do
              doIf (e.d.type = T_DIR) do
                modifyDinode dp fun d => { d with nlink := d.nlink - 1 }
                iupdate sb dp
              iunlockput sb dp
              modifyDinode ip fun d => { d with nlink := d.nlink - 1 }
              iupdate sb ip
              iunlockput sb ip
              return 0

def sysUnlink (p : Fin NPROC) (path : Option (List Byte)) : M ℤ :=
  match path with
  | none => return -1
  | some path => transaction sb (unlinkTx sb p path)

/-- The `.` and `..` entries of a new directory. -/
def createDots (ip : InodePtr) (inum parent : ℕ) : M Unit := do
  if ← dirlink sb ip dot inum then
    if ← dirlink sb ip dotdot parent then return ()
    else throw .createDots
  else throw .createDots

def createNew (dp : InodePtr) (name : List Byte) (type major minor : BitVec 16) :
    M InodePtr := do
  let ip ← ialloc sb type
  ilock sb ip
  modifyDinode ip fun d => { d with major := major, minor := minor, nlink := 1 }
  iupdate sb ip
  let e ← getInode ip
  let pe ← getInode dp
  doIf (type = T_DIR) do
    modifyDinode dp fun d => { d with nlink := d.nlink + 1 }
    iupdate sb dp
    createDots sb ip e.inum pe.inum
  if ← dirlink sb dp name e.inum then do
    iunlockput sb dp
    return ip
  else throw .createDirlink

def create (cwd : InodePtr) (path : List Byte) (type major minor : BitVec 16) :
    M (Option InodePtr) := do
  match ← nameiparent sb cwd path with
  | none => return none
  | some (dp, name) => do
    ilock sb dp
    match ← dirlookup sb dp name with
    | some (ip, _) => do
      iunlockput sb dp
      ilock sb ip
      let e ← getInode ip
      if type = T_FILE ∧ (e.d.type = T_FILE ∨ e.d.type = T_DEVICE) then return some ip
      else do
        iunlockput sb ip
        return none
    | none => do
      let ip ← createNew sb dp name type major minor
      return some ip

def O_WRONLY : BitVec 32 := 0x001
def O_RDWR : BitVec 32 := 0x002
def O_CREATE : BitVec 32 := 0x200
def O_TRUNC : BitVec 32 := 0x400

def openInode (cwd : InodePtr) (path : List Byte) (omode : BitVec 32) : M (Option InodePtr) :=
  if omode &&& O_CREATE ≠ 0 then create sb cwd path T_FILE 0 0
  else do
    match ← namei sb cwd path with
    | none => return none
    | some ip => do
      ilock sb ip
      let e ← getInode ip
      if e.d.type = T_DIR ∧ omode ≠ 0 then do
        iunlockput sb ip
        return none
      else return some ip

def openBad (ip : InodePtr) : M ℤ := do
  iunlockput sb ip
  return -1

def openFile (p : Fin NPROC) (ip : InodePtr) (omode : BitVec 32) : M ℤ := do
  let e ← getInode ip
  if e.d.type = T_DEVICE ∧ (e.d.major.toInt < 0 ∨ (NDEV : ℤ) ≤ e.d.major.toInt) then openBad sb ip
  else do
    match ← filealloc with
    | none => openBad sb ip
    | some f => do
      match ← fdalloc p f with
      | none => do
        fileclose sb f
        openBad sb ip
      | some fd => do
        let x ← getFile f
        setFile f { x with
          type := if e.d.type = T_DEVICE then .device else .inode
          major := if e.d.type = T_DEVICE then e.d.major else x.major
          off := if e.d.type = T_DEVICE then x.off else 0
          ip := ip
          readable := omode &&& O_WRONLY = 0
          writable := omode &&& O_WRONLY ≠ 0 ∨ omode &&& O_RDWR ≠ 0 }
        doIf (omode &&& O_TRUNC ≠ 0 ∧ e.d.type = T_FILE) (itrunc sb ip)
        iunlock ip
        return fd.val

def openTx (p : Fin NPROC) (path : List Byte) (omode : BitVec 32) : M ℤ := do
  let x ← myproc p
  match ← openInode sb x.cwd path omode with
  | none => return -1
  | some ip => openFile sb p ip omode

def sysOpen (p : Fin NPROC) (path : Option (List Byte)) (omode : BitVec 32) : M ℤ :=
  match path with
  | none => return -1
  | some path => transaction sb (openTx sb p path omode)

def makeTx (p : Fin NPROC) (path : List Byte) (type major minor : BitVec 16) : M ℤ := do
  let x ← myproc p
  match ← create sb x.cwd path type major minor with
  | none => return -1
  | some ip => do
    iunlockput sb ip
    return 0

def sysMake (p : Fin NPROC) (path : Option (List Byte)) (type major minor : BitVec 16) : M ℤ :=
  transaction sb (match path with
    | none => return -1
    | some path => makeTx sb p path type major minor)

def sysMkdir (p : Fin NPROC) (path : Option (List Byte)) : M ℤ := sysMake sb p path T_DIR 0 0

def sysMknod (p : Fin NPROC) (path : Option (List Byte)) (major minor : BitVec 32) : M ℤ :=
  sysMake sb p path T_DEVICE (major.setWidth 16) (minor.setWidth 16)

def chdirTx (p : Fin NPROC) (path : List Byte) : M (Option InodePtr) := do
  let x ← myproc p
  match ← namei sb x.cwd path with
  | none => return none
  | some ip => do
    ilock sb ip
    let e ← getInode ip
    if e.d.type ≠ T_DIR then do
      iunlockput sb ip
      return none
    else do
      iunlock ip
      iput sb x.cwd
      return some ip

def sysChdir (p : Fin NPROC) (path : Option (List Byte)) : M ℤ := do
  let r ← transaction sb (match path with
    | none => return none
    | some path => chdirTx sb p path)
  match r with
  | none => return -1
  | some ip => do
    let x ← myproc p
    setProc p (some { x with cwd := ip })
    return 0

def forkFiles (p q : Fin NPROC) : List (Fin NOFILE) → M Unit
  | [] => return ()
  | fd :: fds => do
    let x ← myproc p
    match x.ofile fd with
    | some f => do
      filedup f
      setFd q fd (some f)
      forkFiles p q fds
    | none => forkFiles p q fds

def fork (p q : Fin NPROC) : M ℤ := do
  let x ← myproc p
  setProc q (some { cwd := x.cwd })
  forkFiles p q (List.finRange NOFILE)
  let _ ← idup x.cwd
  return 0

def closeAll (p : Fin NPROC) : List (Fin NOFILE) → M Unit
  | [] => return ()
  | fd :: fds => do
    let x ← myproc p
    match x.ofile fd with
    | some f => do
      fileclose sb f
      setFd p fd none
      closeAll p fds
    | none => closeAll p fds

def initproc : Fin NPROC := ⟨0, by decide⟩

def exit (p : Fin NPROC) : M ℤ :=
  if p = initproc then throw .initExiting
  else do
    closeAll sb p (List.finRange NOFILE)
    transaction sb do
      let x ← myproc p
      iput sb x.cwd
    setProc p none
    return 0

/-- A call with its arguments as the kernel sees them: a path is none when `argstr` fails, `src`
is the readable part of the user memory that `write` is given, and `dst` says which bytes of the
buffer given to `read` are writable. -/
inductive Call where
  | open (path : Option (List Byte)) (omode : BitVec 32)
  | read (fd : ℕ) (dst : ℕ → Bool) (n : BitVec 32) (other : ℤ)
  | write (fd : ℕ) (src : ℕ → Option Byte) (n : BitVec 32) (other : ℤ)
  | mkdir (path : Option (List Byte))
  | mknod (path : Option (List Byte)) (major minor : BitVec 32)
  | link (old new : Option (List Byte))
  | unlink (path : Option (List Byte))
  | close (fd : ℕ)
  | dup (fd : ℕ)
  | chdir (path : Option (List Byte))
  | fork (q : Fin NPROC)
  | exit

def call (p : Fin NPROC) : Call → M ℤ
  | .open path omode => sysOpen sb p path omode
  | .read fd dst n other => sysRead sb p fd dst n other
  | .write fd src n other => sysWrite sb p fd src n other
  | .mkdir path => sysMkdir sb p path
  | .mknod path major minor => sysMknod sb p path major minor
  | .link old new => sysLink sb p old new
  | .unlink path => sysUnlink sb p path
  | .close fd => sysClose sb p fd
  | .dup fd => sysDup p fd
  | .chdir path => sysChdir sb p path
  | .fork q => fork p q
  | .exit => exit sb p

/-- The caller is a process in use, and `fork` has found a free slot. -/
def callable (s : State) (p : Fin NPROC) : Call → Bool
  | .fork q => (s.procs p).isSome ∧ s.procs q = none
  | _ => (s.procs p).isSome

/-- A call that comes back; the run ends at one that does not. -/
def step (s : State) (c : Fin NPROC × Call) : Option State :=
  if callable s c.1 c.2 then
    match call sb c.1 c.2 s with
    | .ok r => some r.2
    | .error _ => none
  else none

/-- The kernel after `fsinit` and `userinit`: init runs in the root directory. -/
def boot (disk : ℕ → Log.Block) : State where
  m := Log.restart disk
  itable := update (fun _ => {}) ⟨0, by decide⟩ { inum := ROOTINO, ref := 1 }
  procs := update (fun _ => none) initproc (some { cwd := ⟨0, by decide⟩ })

end Xv6.Fs
