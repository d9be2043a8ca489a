import Xv6.Exec.Elf
import Xv6.Fs.Call

/-! What `exec` reads of a file. -/
namespace Xv6.Fs
open Bytes Xv6.Exec

variable (sb : Superblock)

def readAll (ip : InodePtr) (off : BitVec 32) (n : ℕ) : M (Option (List Byte)) := do
  match ← readi sb ip (fun _ => true) off (BitVec.ofNat 32 n) with
  | some bs => return if bs.length = n then some bs else none
  | none => return none

def loadsegFrom (ip : InodePtr) (offset sz : BitVec 32) : ℕ → BitVec 32 → M Bool
  | 0, _ => throw .sleepsForever
  | n + 1, i =>
    if i < sz then do
      match ← readAll sb ip (offset + i) (min (sz - i).toNat PGSIZE) with
      | none => return false
      | some _ => loadsegFrom ip offset sz n (i + BitVec.ofNat 32 PGSIZE)
    else return true

def loadseg (ip : InodePtr) (offset sz : BitVec 32) : M Bool :=
  loadsegFrom sb ip offset sz (2 ^ 32 / PGSIZE + 1) 0

def execLoop (ip : InodePtr) (vm : ℕ → Bool) : ℕ → BitVec 32 → ℕ → M Bool
  | 0, _, _ => return true
  | n + 1, off, k => do
    match ← readAll sb ip off proghdrSize with
    | none => return false
    | some bs =>
      let ph := readProghdr bs
      if ph.type ≠ ELF_PROG_LOAD then
        execLoop ip vm n (off + BitVec.ofNat 32 proghdrSize) k
      else if ph.memsz < ph.filesz then return false
      else if ph.vaddr + ph.memsz < ph.vaddr then return false
      else if vm k = false then return false
      else if ph.vaddr % BitVec.ofNat 64 PGSIZE ≠ 0 then return false
      else if ← loadseg sb ip (ph.off.setWidth 32) (ph.filesz.setWidth 32) then
        execLoop ip vm n (off + BitVec.ofNat 32 proghdrSize) (k + 1)
      else return false

def execLoad (ip : InodePtr) (vm : ℕ → Bool) : M Bool := do
  match ← readAll sb ip 0 elfhdrSize with
  | none => return false
  | some bs =>
    let elf := readElfhdr bs
    if elf.magic ≠ ELF_MAGIC then return false
    else if vm 0 = false then return false
    else execLoop sb ip vm elf.phnum.toNat (elf.phoff.setWidth 32) 1

def execTx (p : Fin NPROC) (path : List Byte) (vm : ℕ → Bool) : M Bool := do
  let x ← myproc p
  match ← namei sb x.cwd path with
  | none => return false
  | some ip => do
    ilock sb ip
    let ok ← execLoad sb ip vm
    iunlockput sb ip
    return ok

end Xv6.Fs
