import Xv6.Lib.Bytes

/-! The headers of an executable (`elf.h`), as `exec` reads them. -/
namespace Xv6.Exec
open Bytes

def PGSIZE : ℕ := 4096

def ELF_MAGIC : BitVec 32 := 0x464C457F
def ELF_PROG_LOAD : BitVec 32 := 1

structure Elfhdr where
  magic : BitVec 32
  phoff : BitVec 64
  phnum : BitVec 16

structure Proghdr where
  type : BitVec 32
  off : BitVec 64
  vaddr : BitVec 64
  filesz : BitVec 64
  memsz : BitVec 64

def field (bs : List Byte) (off n : ℕ) : ℕ :=
  ((bs.drop off).take n).foldr (fun b v => b.toNat + 256 * v) 0

def elfhdrSize : ℕ := 64
def proghdrSize : ℕ := 56

def readElfhdr (bs : List Byte) : Elfhdr where
  magic := BitVec.ofNat 32 (field bs 0 4)
  phoff := BitVec.ofNat 64 (field bs 32 8)
  phnum := BitVec.ofNat 16 (field bs 56 2)

def readProghdr (bs : List Byte) : Proghdr where
  type := BitVec.ofNat 32 (field bs 0 4)
  off := BitVec.ofNat 64 (field bs 8 8)
  vaddr := BitVec.ofNat 64 (field bs 16 8)
  filesz := BitVec.ofNat 64 (field bs 32 8)
  memsz := BitVec.ofNat 64 (field bs 40 8)

end Xv6.Exec
