import Mathlib.Data.BitVec
import Xv6.Lib.Writes

/-! Straight-line RISC-V code on registers `R`, control registers `C` and a memory of 64-bit
words. -/
namespace Asm
open Function List

abbrev Word := BitVec 64

structure State (R C : Type*) where
  reg : R → Word
  csr : C → Word
  mem : Word → Word

inductive Instr (R C : Type*) where
  | sd (src : R) (off : Word) (base : R)
  | ld (dst : R) (off : Word) (base : R)
  | csrr (dst : R) (c : C)
  | csrw (c : C) (src : R)
  | csrrw (dst : R) (c : C) (src : R)
  | fence

variable {R C : Type*} [DecidableEq R] [DecidableEq C]

/-- One instruction; an access to memory faults where the control registers do not make it `ok`. -/
def exec (ok : (C → Word) → Word → Bool) (s : State R C) : Instr R C → Option (State R C)
  | .sd r o b =>
    if ok s.csr (s.reg b + o) then some { s with mem := update s.mem (s.reg b + o) (s.reg r) } else none
  | .ld r o b =>
    if ok s.csr (s.reg b + o) then some { s with reg := update s.reg r (s.mem (s.reg b + o)) } else none
  | .csrr r c => some { s with reg := update s.reg r (s.csr c) }
  | .csrw c r => some { s with csr := update s.csr c (s.reg r) }
  | .csrrw r c q =>
    some { s with reg := update s.reg r (s.csr c), csr := update s.csr c (s.reg q) }
  | .fence => some s

def execs (ok : (C → Word) → Word → Bool) : List (Instr R C) → State R C → Option (State R C)
  | [], s => some s
  | i :: is, s => (exec ok s i).bind (execs ok is)

variable {ok : (C → Word) → Word → Bool} {s : State R C} {b : R} {base : Word} {rs : List R}
  {slot : R → Word}

theorem execs_append (is js : List (Instr R C)) (s : State R C) :
    execs ok (is ++ js) s = (execs ok is s).bind (execs ok js) := by
  induction is generalizing s with
  | nil => rfl
  | cons i is ih =>
    rw [cons_append, execs, execs, Option.bind_assoc]
    exact congrArg _ (funext ih)

def save (b : R) (slot : R → Word) (rs : List R) : List (Instr R C) := rs.map fun r => .sd r (slot r) b

def restore (b : R) (slot : R → Word) (rs : List R) : List (Instr R C) :=
  rs.map fun r => .ld r (slot r) b

def saved (reg : R → Word) (base : Word) (slot : R → Word) (rs : List R) : List (Word × Word) :=
  rs.map fun r => (base + slot r, reg r)

theorem execs_save (hs : s.reg b = base) (hok : ∀ r ∈ rs, ok s.csr (base + slot r) = true) :
    execs ok (save b slot rs) s =
      some { s with mem := Writes.apply s.mem (saved s.reg base slot rs) } := by
  induction rs generalizing s with
  | nil => rfl
  | cons r rs ih =>
    rw [save, map_cons, execs, exec, hs, if_pos (hok r mem_cons_self), Option.bind_some]
    exact ih hs fun q hq => hok q (mem_cons_of_mem r hq)

/-- The base may be among the registers if its slot holds its own value. -/
theorem execs_restore (hs : s.reg b = base) (hok : ∀ r ∈ rs, ok s.csr (base + slot r) = true)
    (hb : b ∈ rs → s.mem (base + slot b) = base) :
    execs ok (restore b slot rs) s =
      some { s with reg := fun r => if r ∈ rs then s.mem (base + slot r) else s.reg r } := by
  induction rs generalizing s with
  | nil => rfl
  | cons r rs ih =>
    rw [restore, map_cons, execs, exec, hs, if_pos (hok r mem_cons_self), Option.bind_some]
    have hbase : update s.reg r (s.mem (base + slot r)) b = base := by
      rw [update_apply]
      split
      · rename_i he
        rw [← he, hb (he ▸ mem_cons_self)]
      · exact hs
    have hrest := ih (s := { s with reg := update s.reg r (s.mem (base + slot r)) }) hbase
      (fun q hq => hok q (mem_cons_of_mem r hq)) fun hmem => hb (mem_cons_of_mem r hmem)
    rw [← restore, hrest, Option.some.injEq, State.mk.injEq]
    refine ⟨funext fun q => ?_, rfl, rfl⟩
    rcases eq_or_ne q r with rfl | hq
    · simp
    · simp [hq]

omit [DecidableEq R] in
theorem apply_saved (hn : (rs.map slot).Nodup) (mem : Word → Word) (reg : R → Word) {r : R}
    (hr : r ∈ rs) : Writes.apply mem (saved reg base slot rs) (base + slot r) = reg r := by
  refine Writes.apply_of_mem mem ?_ (w := (base + slot r, reg r)) (mem_map.mpr ⟨r, hr, rfl⟩)
  rw [saved, map_map]
  have haddr := hn.map (add_right_injective base)
  rwa [map_map] at haddr

omit [DecidableEq R] in
theorem apply_saved_of_ne (mem : Word → Word) (reg : R → Word) {a : Word}
    (ha : ∀ r ∈ rs, a ≠ base + slot r) : Writes.apply mem (saved reg base slot rs) a = mem a := by
  refine Writes.apply_of_notMem mem fun hmem => ?_
  obtain ⟨x, hx, rfl⟩ := mem_map.mp hmem
  obtain ⟨r, hr, rfl⟩ := mem_map.mp hx
  exact ha r hr rfl

end Asm
