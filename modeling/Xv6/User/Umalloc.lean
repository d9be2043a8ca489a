import Mathlib.Algebra.BigOperators.Group.List.Basic
import Mathlib.Algebra.GroupWithZero.Nat
import Mathlib.Logic.Function.Basic
import Xv6.Lib.Links
import Xv6.Lib.Run

/-! The allocator of `user/umalloc.c`. Addresses are in bytes, sizes in headers of 16 bytes. -/
namespace Xv6.Umalloc
open Links

structure Header where
  ptr : ℕ
  size : ℕ

/-- `mem a` is the header at address `a`; `freep` is 0 before the first call of `malloc`. -/
structure Heap where
  mem : ℕ → Header
  freep : ℕ
  brk : ℕ

namespace Heap

def setPtr (h : Heap) (a v : ℕ) : Heap :=
  { h with mem := Function.update h.mem a { h.mem a with ptr := v } }

def setSize (h : Heap) (a v : ℕ) : Heap :=
  { h with mem := Function.update h.mem a { h.mem a with size := v } }

def next (h : Heap) (a : ℕ) : ℕ := (h.mem a).ptr
def size (h : Heap) (a : ℕ) : ℕ := (h.mem a).size

def fuel (h : Heap) : ℕ := h.brk / 16 + 2

def stops (h : Heap) (bp p : ℕ) : Bool :=
  decide (bp > p ∧ bp < h.next p) || decide (p ≥ h.next p ∧ (bp > p ∨ bp < h.next p))

end Heap

def mergeNext (h : Heap) (p bp : ℕ) : Heap :=
  if bp + 16 * h.size bp = h.next p then
    let h := h.setSize bp ((h.size bp + h.size (h.next p)) % 2 ^ 32)
    h.setPtr bp (h.next (h.next p))
  else h.setPtr bp (h.next p)

def mergePrev (h : Heap) (p bp : ℕ) : Heap :=
  if p + 16 * h.size p = bp then
    let h := h.setSize p ((h.size p + h.size bp) % 2 ^ 32)
    h.setPtr p (h.next bp)
  else h.setPtr p bp

def free (h : Heap) (ap : ℕ) : Option Heap := do
  let bp := ap - 16
  let p ← walk h.next (h.stops bp) h.fuel h.freep
  return { mergePrev (mergeNext h p bp) p bp with freep := p }

/-- The kernel grants memory as `grant` says, and never beyond `limit`. -/
def sbrk (limit : ℕ) (grant : ℕ → Bool) (h : Heap) (k : ℕ) : Option (ℕ × Heap) :=
  if grant h.brk = true ∧ h.brk + k ≤ limit then some (h.brk, { h with brk := h.brk + k }) else none

/-- The result 0 is the null pointer. A request of up to `2 ^ 30` bytes fits the `int` of `sbrk`. -/
def morecore (limit : ℕ) (grant : ℕ → Bool) (h : Heap) (nu : ℕ) : Option (ℕ × Heap) :=
  let nu := if nu < 4096 then 4096 else nu
  match sbrk limit grant h (nu * 16) with
  | none => some (0, h)
  | some (p, h) => do
    let h ← free (h.setSize p nu) (p + 16)
    return (h.freep, h)

def take (h : Heap) (prevp p nunits : ℕ) : ℕ × Heap :=
  if h.size p = nunits then (p + 16, { h.setPtr prevp (h.next p) with freep := prevp })
  else
    let h := h.setSize p (h.size p - nunits)
    let p := p + 16 * h.size p
    let h := h.setSize p nunits
    (p + 16, { h with freep := prevp })

/-- The loop of `malloc`; `more` is its call of `morecore`, and `out` is for too many rounds. -/
def searchWith {m : Type → Type} [Monad m] (out : m (ℕ × Heap)) (more : Heap → m (ℕ × Heap))
    (nunits : ℕ) : ℕ → Heap → ℕ → ℕ → m (ℕ × Heap)
  | 0, _, _, _ => out
  | n + 1, h, prevp, p =>
    if h.size p ≥ nunits then return take h prevp p nunits
    else if p = h.freep then do
      let r ← more h
      if r.1 = 0 then return (0, r.2) else searchWith out more nunits n r.2 r.1 (r.2.next r.1)
    else searchWith out more nunits n h p (h.next p)

def search (limit : ℕ) (grant : ℕ → Bool) (nunits : ℕ) : ℕ → Heap → ℕ → ℕ → Option (ℕ × Heap) :=
  searchWith none (morecore limit grant · nunits) nunits

/-- `base` is the address of the static header of that name. -/
def malloc (base limit : ℕ) (grant : ℕ → Bool) (h : Heap) (nbytes : ℕ) : Option (ℕ × Heap) :=
  let nunits := (nbytes + 16 - 1) / 16 + 1
  let h := if h.freep = 0 then ({ h.setPtr base base with freep := base } : Heap).setSize base 0 else h
  search limit grant nunits (2 * h.fuel) h h.freep (h.next h.freep)

inductive Op where
  | malloc (n : ℕ) (grant : ℕ → Bool)
  | free (ap : ℕ)
  /-- The program writes to the memory behind `ap`. -/
  | store (ap : ℕ) (data : ℕ → Header)

/-- The heap, and the results that were not freed, with the bytes that were asked for. -/
structure World where
  heap : Heap
  live : List (ℕ × ℕ)

/-- Bytes in front of `ap + n` and behind the header of the block are the program's. A header at an
address above `ap - 16` has some of its bytes there. -/
def store (h : Heap) (ap n : ℕ) (data : ℕ → Header) : Heap :=
  { h with mem := fun a => if ap - 16 < a ∧ a < ap + n then data a else h.mem a }

def step (base limit : ℕ) (w : World) : Op → Option World
  | .malloc n grant => do
    let (r, h) ← malloc base limit grant w.heap n
    return { heap := h, live := if r = 0 then w.live else (r, n) :: w.live }
  | .free ap => do
    let h ← free w.heap ap
    return { heap := h, live := w.live.filter fun q => q.1 ≠ ap }
  | .store ap data =>
    some { w with
      heap := (w.live.find? fun q => q.1 = ap).elim w.heap fun q => store w.heap ap q.2 data }

/-- Requests are of at most `2 ^ 30` bytes; what is freed or written is an unfreed result. -/
def Legal (w : World) : Op → Prop
  | .malloc n _ => n ≤ 2 ^ 30
  | .free ap => ap ∈ w.live.map Prod.fst
  | .store ap _ => ap ∈ w.live.map Prod.fst

def start (mem : ℕ → Header) (lo : ℕ) : World := { heap := { mem, freep := 0, brk := lo }, live := [] }

/-- A block of `size` headers, its own included; `use` is the number of bytes asked for, or `none`
in a free block. -/
structure Cell where
  size : ℕ
  use : Option ℕ

def units (cells : List Cell) : ℕ := (cells.map Cell.size).sum

def frees : ℕ → List Cell → List ℕ
  | _, [] => []
  | a, c :: cells => (if c.use = none then [a] else []) ++ frees (a + 16 * c.size) cells

def useds : ℕ → List Cell → List (ℕ × ℕ)
  | _, [] => []
  | a, c :: cells => (c.use.map fun n => (a + 16, n)).toList ++ useds (a + 16 * c.size) cells

def Headers (mem : ℕ → Header) : ℕ → List Cell → Prop
  | _, [] => True
  | a, c :: cells => (mem a).size = c.size ∧ Headers mem (a + 16 * c.size) cells

def Cell.Ok (c : Cell) : Prop := 0 < c.size ∧ ∀ n ∈ c.use, 16 + n ≤ 16 * c.size

/-- The memory from `lo` up to the break is made up of the blocks `cells`, no two free ones side by
side, and the free list goes around `base` and the free blocks in the order of their addresses. -/
structure Inv (base lo : ℕ) (h : Heap) (cells : List Cell) : Prop where
  brk : h.brk = lo + 16 * units cells
  ok : ∀ c ∈ cells, c.Ok
  merged : cells.IsChain fun c d => c.use = none → d.use ≠ none
  headers : Headers h.mem lo cells
  ring : Chain h.next (base :: frees lo cells ++ [base])
  freep : h.freep ∈ base :: frees lo cells
  base_size : h.size base = 0

/-- The blocks of the heap of a program; the blocks in use are its unfreed results. -/
structure Shape (base lo : ℕ) (w : World) (cells : List Cell) : Prop where
  heap : (w.heap.freep = 0 ∧ w.heap.brk = lo ∧ cells = []) ∨ Inv base lo w.heap cells
  live : w.live.Perm (useds lo cells)

end Xv6.Umalloc
