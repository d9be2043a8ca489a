import Xv6.Vm.Mem

/-! Page tables: the functions of `vm.c` that build them, change them and free them, and
`proc_pagetable` and `proc_freepagetable`. A `pagetable_t` is the frame it points to, and a
pointer to an entry is a frame with an index. -/
namespace Xv6.Vm
open Bytes

def doIf (c : Prop) [Decidable c] (x : M Unit) : M Unit := if c then x else return ()

def walkLoop (va : Word) (alloc : Bool) : ℕ → Frame → M (Option (Frame × Index))
  | 0, pagetable => return some (pagetable, PX 0 va)
  | level + 1, pagetable => do
    let pte ← getPte pagetable (PX (level + 1) va)
    if pte &&& PTE_V ≠ 0 then walkLoop va alloc level (frame (PTE2PA pte))
    else if alloc then do
      match ← kalloc with
      | none => return none
      | some next => do
        memset next 0
        setPte pagetable (PX (level + 1) va) (PA2PTE (addr next) ||| PTE_V)
        walkLoop va alloc level next
    else return none

def walk (pagetable : Frame) (va : Word) (alloc : Bool) : M (Option (Frame × Index)) :=
  if MAXVA ≤ va.toNat then throw .walk else walkLoop va alloc 2 pagetable

def walkaddr (pagetable : Frame) (va : Word) : M Word :=
  if MAXVA ≤ va.toNat then return 0
  else do
    match ← walk pagetable va false with
    | none => return 0
    | some (t, i) => do
      let pte ← getPte t i
      if pte &&& PTE_V = 0 then return 0
      else if pte &&& PTE_U = 0 then return 0
      else return PTE2PA pte

def mapPage (pagetable : Frame) (perm : BitVec 32) (a pa : Word) : M Bool := do
  match ← walk pagetable a true with
  | none => return false
  | some (t, i) => do
    let pte ← getPte t i
    if pte &&& PTE_V ≠ 0 then throw .mappagesRemap
    else do
      setPte t i (PA2PTE pa ||| perm.signExtend 64 ||| PTE_V)
      return true

def mappagesLoop (pagetable : Frame) (perm : BitVec 32) : ℕ → Word → Word → M ℤ
  | 0, a, pa => do
    if ← mapPage pagetable perm a pa then return 0 else return -1
  | n + 1, a, pa => do
    if ← mapPage pagetable perm a pa then mappagesLoop pagetable perm n (a + 4096) (pa + 4096)
    else return -1

def mappages (pagetable : Frame) (va size pa : Word) (perm : BitVec 32) : M ℤ :=
  if size = 0 then throw .mappagesSize
  else
    let a := PGROUNDDOWN va
    let last := PGROUNDDOWN (va + size - 1)
    mappagesLoop pagetable perm ((last - a).toNat / PGSIZE) a pa

def uvmclear (pagetable : Frame) (va : Word) : M Unit := do
  match ← walk pagetable va false with
  | none => throw .uvmclear
  | some (t, i) => do
    let pte ← getPte t i
    setPte t i (pte &&& ~~~PTE_U)

variable (kend : Word)

def uvmunmapLoop (pagetable : Frame) (last : Word) (doFree : Bool) : ℕ → Word → M Unit
  | 0, _ => return ()
  | n + 1, a =>
    if a < last then do
      match ← walk pagetable a false with
      | none => throw .uvmunmapWalk
      | some (t, i) => do
        let pte ← getPte t i
        if pte &&& PTE_V = 0 then throw .uvmunmapNotMapped
        else if PTE_FLAGS pte = PTE_V then throw .uvmunmapNotLeaf
        else do
          doIf (doFree = true) (kfree kend (frame (PTE2PA pte)))
          setPte t i 0
          uvmunmapLoop pagetable last doFree n (a + 4096)
    else return ()

def uvmunmap (pagetable : Frame) (va npages : Word) (doFree : Bool) : M Unit :=
  if va % 4096 ≠ 0 then throw .uvmunmapAligned
  else uvmunmapLoop kend pagetable (va + npages * 4096) doFree npages.toNat va

/-- `uvmdealloc`, with the number of pages an `int`. -/
def uvmdealloc (pagetable : Frame) (oldsz newsz : Word) : M Word :=
  if oldsz ≤ newsz then return oldsz
  else do
    doIf (PGROUNDUP newsz < PGROUNDUP oldsz) do
      let npages : BitVec 32 := ((PGROUNDUP oldsz - PGROUNDUP newsz) / 4096).setWidth 32
      uvmunmap kend pagetable (PGROUNDUP newsz) (npages.signExtend 64) true
    return newsz

def uvmallocLoop (pagetable : Frame) (oldsz newsz : Word) : ℕ → Word → M Word
  | 0, _ => return newsz
  | n + 1, a =>
    if a < newsz then do
      match ← kalloc with
      | none => do
        let _ ← uvmdealloc kend pagetable a oldsz
        return 0
      | some mem => do
        memset mem 0
        let r ← mappages pagetable a 4096 (addr mem) ((PTE_W ||| PTE_X ||| PTE_R ||| PTE_U).setWidth 32)
        if r ≠ 0 then do
          kfree kend mem
          let _ ← uvmdealloc kend pagetable a oldsz
          return 0
        else uvmallocLoop pagetable oldsz newsz n (a + 4096)
    else return newsz

def uvmalloc (pagetable : Frame) (oldsz newsz : Word) : M Word :=
  if newsz < oldsz then return oldsz
  else
    let oldsz := PGROUNDUP oldsz
    uvmallocLoop kend pagetable oldsz newsz ((newsz.toNat - oldsz.toNat) / PGSIZE + 1) oldsz

/-- The end of `uvmcopy` at `err`. -/
def uvmcopyErr (new : Frame) (i : Word) : M ℤ := do
  uvmunmap kend new 0 (i / 4096) true
  return -1

/-- The loop of `uvmcopy` from `i` on. -/
def uvmcopyLoop (old new : Frame) (sz : Word) : ℕ → Word → M ℤ
  | 0, _ => return 0
  | n + 1, i =>
    if i < sz then do
      match ← walk old i false with
      | none => throw .uvmcopyPte
      | some (t, j) => do
        let pte ← getPte t j
        if pte &&& PTE_V = 0 then throw .uvmcopyPage
        else do
          match ← kalloc with
          | none => uvmcopyErr kend new i
          | some mem => do
            let s ← get
            setPage mem (s.page (frame (PTE2PA pte)))
            let r ← mappages new i 4096 (addr mem) ((PTE_FLAGS pte).setWidth 32)
            if r ≠ 0 then do
              kfree kend mem
              uvmcopyErr kend new i
            else uvmcopyLoop old new sz n (i + 4096)
    else return 0

def uvmcopy (old new : Frame) (sz : Word) : M ℤ :=
  uvmcopyLoop kend old new sz (sz.toNat / PGSIZE + 1) 0

end Xv6.Vm
