import Xv6.Lib.Bytes
import Xv6.Lib.Sat

/-! Physical memory with its allocator (`kalloc.c`), and page-table entries (`riscv.h`). -/
namespace Xv6.Vm
open Bytes BitVec

abbrev Word := BitVec 64

def PGSIZE : ℕ := 4096
def KERNBASE : ℕ := 0x80000000
def PHYSTOP : ℕ := KERNBASE + 128 * 1024 * 1024
def MAXVA : ℕ := 2 ^ (9 + 9 + 9 + 12 - 1)
def TRAMPOLINE : ℕ := MAXVA - PGSIZE
def TRAPFRAME : ℕ := TRAMPOLINE - PGSIZE

def PGROUNDUP (sz : Word) : Word := (sz + 4095) &&& ~~~4095
def PGROUNDDOWN (a : Word) : Word := a &&& ~~~4095

def PTE_V : Word := 1
def PTE_R : Word := 2
def PTE_W : Word := 4
def PTE_X : Word := 8
def PTE_U : Word := 16

def PA2PTE (pa : Word) : Word := (pa >>> 12) <<< 10
def PTE2PA (pte : Word) : Word := (pte >>> 10) <<< 12
def PTE_FLAGS (pte : Word) : Word := pte &&& 0x3FF

abbrev Index := Fin 512

instance neZero_512 : NeZero 512 := ⟨by decide⟩

def PXSHIFT (level : ℕ) : ℕ := 12 + 9 * level

def PX (level : ℕ) (va : Word) : Index := Fin.ofNat 512 (va >>> PXSHIFT level).toNat

/-- A page of physical memory: its address without the twelve zeros at the end. -/
abbrev Frame := BitVec 52

abbrev Page := Buf PGSIZE

def addr (f : Frame) : Word := f.setWidth 64 <<< 12
def frame (pa : Word) : Frame := (pa >>> 12).setWidth 52

/-- The panics of `kalloc.c`, `vm.c` and `exec.c`, and a recursion that is too deep. -/
inductive Panic where
  | kfree
  | walk
  | mappagesSize
  | mappagesRemap
  | uvmunmapAligned
  | uvmunmapWalk
  | uvmunmapNotMapped
  | uvmunmapNotLeaf
  | freewalkLeaf
  | uvmcopyPte
  | uvmcopyPage
  | uvmclear
  | loadseg
  | stackOverflow
  deriving DecidableEq

/-- Physical memory and the list of its free pages. A call of `kalloc` finds no page, whatever is
in the list now, where `deny` says so: the other harts have all of them at that time. -/
structure Kmem where
  page : Frame → Page
  freelist : List Frame
  deny : ℕ → Bool := fun _ => false

abbrev M := StateT Kmem (Except Panic)

def Kmem.setPage (s : Kmem) (f : Frame) (x : Page) : Kmem :=
  { s with page := Function.update s.page f x }

def setPage (f : Frame) (x : Page) : M Unit := modify fun s => s.setPage f x

def memset (f : Frame) (c : Byte) : M Unit := setPage f fun _ => c

def Kmem.byte (s : Kmem) (x : ℕ) : Byte := byteAt (s.page (BitVec.ofNat 52 (x / PGSIZE))) (x % PGSIZE)

def Kmem.move (s : Kmem) (dst n : ℕ) (src : ℕ → Byte) : Kmem :=
  { s with page := fun f i =>
      if dst ≤ f.toNat * PGSIZE + i ∧ f.toNat * PGSIZE + i < dst + n then
        src (f.toNat * PGSIZE + i - dst)
      else s.page f i }

def memmove (dst : Word) (n : ℕ) (src : ℕ → Byte) : M Unit := modify fun s => s.move dst.toNat n src

def kalloc : M (Option Frame) := do
  let s ← get
  let s := { s with deny := fun k => s.deny (k + 1) }
  match (← get).deny 0, s.freelist with
  | false, r :: next => do
    set { s with freelist := next }
    memset r 5
    return some r
  | _, _ => do
    set s
    return none

/-- `kfree`; the kernel's image ends at `kend`. -/
def kfree (kend : Word) (f : Frame) : M Unit := do
  if addr f < kend ∨ PHYSTOP ≤ (addr f).toNat then throw .kfree
  else do
    memset f 1
    let s ← get
    -- r->next
    setPage f (putDword (s.page f) 0 ((s.freelist.head?.map addr).getD 0))
    modify fun s => { s with freelist := f :: s.freelist }

def Kmem.pte (s : Kmem) (t : Frame) (i : Index) : Word := getDword (s.page t) (8 * i)

def Kmem.setPte (s : Kmem) (t : Frame) (i : Index) (v : Word) : Kmem :=
  s.setPage t (putDword (s.page t) (8 * i) v)

def getPte (t : Frame) (i : Index) : M Word := do return (← get).pte t i

def setPte (t : Frame) (i : Index) (v : Word) : M Unit := modify fun s => s.setPte t i v

theorem toNat_addr (f : Frame) : (addr f).toNat = f.toNat * 4096 := by
  have := f.isLt
  simp only [addr, toNat_shiftLeft, toNat_setWidth, Nat.shiftLeft_eq]
  omega

theorem toNat_frame (pa : Word) : (frame pa).toNat = pa.toNat / 4096 := by
  have := pa.isLt
  simp only [frame, toNat_setWidth, toNat_ushiftRight, Nat.shiftRight_eq_div_pow]
  omega

@[simp] theorem frame_addr (f : Frame) : frame (addr f) = f := by
  apply eq_of_toNat_eq
  rw [toNat_frame, toNat_addr]
  omega

theorem toNat_PGROUNDDOWN (a : Word) : (PGROUNDDOWN a).toNat = a.toNat / 4096 * 4096 := by
  have heq : PGROUNDDOWN a = (a >>> 12) <<< 12 := by
    apply eq_of_getLsbD_eq
    intro i hi
    have hmask : (4095 : Word).getLsbD i = decide (i < 12) := by
      rw [show (4095 : Word) = BitVec.ofNat 64 (2 ^ 12 - 1) from rfl, getLsbD_ofNat,
        Nat.testBit_two_pow_sub_one]
      simp [hi]
    simp only [PGROUNDDOWN, getLsbD_and, getLsbD_not, getLsbD_shiftLeft,
      getLsbD_ushiftRight, hi, hmask, decide_true, Bool.true_and]
    by_cases h : i < 12
    · simp [h]
    · simp [h, Nat.add_sub_cancel' (Nat.le_of_not_lt h)]
  rw [heq]
  have := a.isLt
  simp only [toNat_shiftLeft, toNat_ushiftRight, Nat.shiftRight_eq_div_pow,
    Nat.shiftLeft_eq]
  omega

theorem toNat_PGROUNDUP {sz : Word} (h : sz.toNat + 4095 < 2 ^ 64) :
    (PGROUNDUP sz).toNat = (sz.toNat + 4095) / 4096 * 4096 := by
  rw [show PGROUNDUP sz = PGROUNDDOWN (sz + 4095) from rfl, toNat_PGROUNDDOWN, toNat_add]
  change (sz.toNat + 4095) % 2 ^ 64 / 4096 * 4096 = _
  rw [Nat.mod_eq_of_lt h]

theorem val_PX (level : ℕ) (va : Word) : (PX level va).val = va.toNat / 2 ^ PXSHIFT level % 512 := by
  rw [PX, Fin.val_ofNat, toNat_ushiftRight, Nat.shiftRight_eq_div_pow]

theorem toNat_PTE2PA (pte : Word) : (PTE2PA pte).toNat = pte.toNat / 1024 % 2 ^ 52 * 4096 := by
  simp only [PTE2PA, toNat_shiftLeft, toNat_ushiftRight, Nat.shiftRight_eq_div_pow,
    Nat.shiftLeft_eq]
  omega

theorem addr_frame_PTE2PA (pte : Word) : addr (frame (PTE2PA pte)) = PTE2PA pte := by
  apply eq_of_toNat_eq
  rw [toNat_addr, toNat_frame, toNat_PTE2PA]
  omega

variable {flags : Word}

theorem toNat_entry (pa : Word) (h : flags.toNat < 1024) :
    (PA2PTE pa ||| flags).toNat = pa.toNat / 4096 * 1024 + flags.toNat := by
  have hp := pa.isLt
  have hshift : (PA2PTE pa).toNat = (pa.toNat / 4096) <<< 10 := by
    simp only [PA2PTE, toNat_shiftLeft, toNat_ushiftRight,
      Nat.shiftRight_eq_div_pow, Nat.shiftLeft_eq]
    omega
  rw [toNat_or, hshift, ← Nat.shiftLeft_add_eq_or_of_lt (by omega), Nat.shiftLeft_eq]

theorem frame_entry (pa : Word) (h : flags.toNat < 1024) :
    frame (PTE2PA (PA2PTE pa ||| flags)) = frame pa := by
  have hp := pa.isLt
  apply eq_of_toNat_eq
  rw [toNat_frame, toNat_PTE2PA, toNat_entry pa h, toNat_frame]
  omega

theorem toNat_PTE_FLAGS (pte : Word) : (PTE_FLAGS pte).toNat = pte.toNat % 1024 := by
  rw [PTE_FLAGS, toNat_and]
  exact Nat.and_two_pow_sub_one_eq_mod pte.toNat 10

theorem flags_entry (pa : Word) (h : flags.toNat < 1024) :
    PTE_FLAGS (PA2PTE pa ||| flags) = flags := by
  apply eq_of_toNat_eq
  rw [toNat_PTE_FLAGS, toNat_entry pa h]
  omega

end Xv6.Vm
