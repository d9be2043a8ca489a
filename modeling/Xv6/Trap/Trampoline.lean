import Xv6.Lib.Asm
import Xv6.Lib.Run
import Xv6.Vm.Mem

/-! Traps from user space: `trampoline.S`, and `usertrap` and `usertrapret` of `trap.c` as far as
they handle the trapframe and the control registers. -/
namespace Xv6.Trap
open Asm PartialRun Function

inductive Reg where
  | ra | sp | gp | tp | t0 | t1 | t2 | s0 | s1 | a0 | a1 | a2 | a3 | a4 | a5 | a6 | a7
  | s2 | s3 | s4 | s5 | s6 | s7 | s8 | s9 | s10 | s11 | t3 | t4 | t5 | t6
  deriving DecidableEq

inductive Csr where
  | satp | sscratch | stvec | sepc | scause
  deriving DecidableEq

open List

def slot : Reg → Word
  | .ra => 40 | .sp => 48 | .gp => 56 | .tp => 64 | .t0 => 72 | .t1 => 80 | .t2 => 88 | .s0 => 96
  | .s1 => 104 | .a0 => 112 | .a1 => 120 | .a2 => 128 | .a3 => 136 | .a4 => 144 | .a5 => 152
  | .a6 => 160 | .a7 => 168 | .s2 => 176 | .s3 => 184 | .s4 => 192 | .s5 => 200 | .s6 => 208
  | .s7 => 216 | .s8 => 224 | .s9 => 232 | .s10 => 240 | .s11 => 248 | .t3 => 256 | .t4 => 264
  | .t5 => 272 | .t6 => 280

def others : List Reg :=
  [.ra, .sp, .gp, .tp, .t0, .t1, .t2, .s0, .s1, .a1, .a2, .a3, .a4, .a5, .a6, .a7, .s2, .s3, .s4,
    .s5, .s6, .s7, .s8, .s9, .s10, .s11, .t3, .t4, .t5, .t6]

def uservec : List (Instr Reg Csr) :=
  .csrrw .a0 .sscratch .a0 :: (save .a0 slot others ++
    [.csrr .t0 .sscratch, .sd .t0 112 .a0, .ld .sp 8 .a0, .ld .tp 32 .a0, .ld .t0 16 .a0,
      .ld .t1 0 .a0, .csrw .satp .t1, .fence])

def userret : List (Instr Reg Csr) :=
  [.csrw .satp .a1, .fence, .ld .t0 112 .a0, .csrw .sscratch .t0] ++
    (restore .a0 slot others ++ [.csrrw .a0 .sscratch .a0])

@[irreducible] def TRAPFRAME : Word := BitVec.ofNat 64 Vm.TRAPFRAME

/-- The words of a process's trapframe, at `TRAPFRAME` on the page table of the process and on no
other: the kernel's does not map it. -/
def mapped (pagetable : Word) (csr : Csr → Word) (a : Word) : Bool :=
  csr .satp = pagetable ∧ Vm.TRAPFRAME ≤ a.toNat ∧ a.toNat < Vm.TRAPFRAME + Vm.PGSIZE ∧ a.toNat % 8 = 0

def registers : List Reg := others ++ [.a0]

theorem mem_registers (r : Reg) : r ∈ registers := by cases r <;> decide

theorem ne_a0_iff (r : Reg) : r ≠ .a0 ↔ r ∈ others := by cases r <;> decide

theorem slot_inj {r r' : Reg} (he : slot r = slot r') : r = r' := by
  have hn : (registers.map slot).Nodup := by decide +kernel
  exact inj_on_of_nodup_map hn (mem_registers r) (mem_registers r') he

theorem slot_ne_epc (r : Reg) : TRAPFRAME + slot r ≠ TRAPFRAME + 24 := by
  have hne : slot r ≠ 24 := by cases r <;> decide
  exact fun he => hne (add_left_cancel he)

variable {pagetable : Word} {csr : Csr → Word} {s : State Reg Csr}

theorem mapped_off (hp : csr .satp = pagetable) {o : Word} (ho : o.toNat < 4096 ∧ o.toNat % 8 = 0) :
    mapped pagetable csr (TRAPFRAME + o) = true := by
  have hword : TRAPFRAME.toNat = 274877898752 := by decide +kernel
  have hnat : Vm.TRAPFRAME = 274877898752 := by decide +kernel
  refine decide_eq_true ⟨hp, ?_⟩
  rw [BitVec.toNat_add, hword, hnat, Vm.PGSIZE]
  omega

theorem mapped_slot (hp : csr .satp = pagetable) (r : Reg) :
    mapped pagetable csr (TRAPFRAME + slot r) = true :=
  mapped_off hp (by cases r <;> decide)

def keep (reg : Reg → Word) (frame : Word → Word) : Word → Word :=
  Writes.apply frame (saved reg TRAPFRAME slot registers)

theorem keep_slot (reg : Reg → Word) (frame : Word → Word) (r : Reg) :
    keep reg frame (TRAPFRAME + slot r) = reg r :=
  apply_saved (by decide +kernel) frame reg (mem_registers r)

theorem keep_kernel (reg : Reg → Word) (frame : Word → Word) {o : Word}
    (ho : o ∉ registers.map slot) : keep reg frame (TRAPFRAME + o) = frame (TRAPFRAME + o) :=
  apply_saved_of_ne frame reg fun r hr he => ho (mem_map.mpr ⟨r, hr, (add_left_cancel he).symm⟩)

theorem uservec_run (hs : s.csr .sscratch = TRAPFRAME) (hp : s.csr .satp = pagetable) :
    ∃ t, execs (mapped pagetable) uservec s = some t ∧ t.mem = keep s.reg s.mem ∧ t.reg .sp = s.mem (TRAPFRAME + 8) ∧
    t.reg .tp = s.mem (TRAPFRAME + 32) ∧ t.reg .t0 = s.mem (TRAPFRAME + 16) ∧
    t.csr = update (update s.csr .sscratch (s.reg .a0)) .satp (s.mem (TRAPFRAME + 0)) := by
  have hsaved : saved (update s.reg .a0 TRAPFRAME) TRAPFRAME slot others =
      saved s.reg TRAPFRAME slot others :=
    map_congr_left fun r hr => by rw [update_of_ne ((ne_a0_iff r).mpr hr)]
  have hkeep : update (Writes.apply s.mem (saved s.reg TRAPFRAME slot others)) (TRAPFRAME + 112)
      (s.reg .a0) = keep s.reg s.mem := by
    rw [keep, registers, saved, saved, map_append, Writes.apply_append]
    rfl
  -- the user's page table is there until the last write
  have hcsr : update s.csr .sscratch (s.reg .a0) .satp = pagetable :=
    (update_of_ne (by decide) _ _).trans hp
  have hsave : execs (mapped pagetable) (save .a0 slot others) { s with
      reg := update s.reg .a0 TRAPFRAME, csr := update s.csr .sscratch (s.reg .a0) } = some _ :=
    execs_save (update_self Reg.a0 TRAPFRAME s.reg) fun r _ => mapped_slot hcsr r
  dsimp only at hsave
  rw [hsaved] at hsave
  rw [uservec, execs, exec, hs, Option.bind_some, execs_append, hsave, Option.bind_some]
  simp (disch := decide) only [execs, exec, Option.bind_some, update_self, update_of_ne, mapped_off hcsr,
    if_true, hkeep, keep_kernel]
  exact ⟨_, rfl, by simp, by simp, by simp, by simp, by simp⟩

theorem userret_run (hs : s.reg .a0 = TRAPFRAME) : execs (mapped (s.reg .a1)) userret s = some { s with
    reg := fun r => s.mem (TRAPFRAME + slot r)
    csr := update (update s.csr .satp (s.reg .a1)) .sscratch TRAPFRAME } := by
  have hsatp : update s.csr .satp (s.reg .a1) .satp = s.reg .a1 := update_self _ _ _
  have hm : mapped (s.reg .a1) (update s.csr .satp (s.reg .a1)) (TRAPFRAME + 112) = true :=
    mapped_slot hsatp .a0
  have hbase : update s.reg .t0 (s.mem (TRAPFRAME + 112)) .a0 = TRAPFRAME :=
    (update_of_ne (by decide) _ _).trans hs
  have hno : Reg.a0 ∉ others := fun h => (ne_a0_iff .a0).mpr h rfl
  have hload : execs (mapped (s.reg .a1)) (restore .a0 slot others) { s with
      reg := update s.reg .t0 (s.mem (TRAPFRAME + 112))
      csr := update (update s.csr .satp (s.reg .a1)) .sscratch (s.mem (TRAPFRAME + 112)) } = some _ :=
    execs_restore hbase (fun r _ => mapped_slot ((update_of_ne (by decide) _ _).trans hsatp) r) fun h => absurd h hno
  have hfirst : execs (mapped (s.reg .a1)) [.csrw .satp .a1, .fence, .ld .t0 112 .a0, .csrw .sscratch .t0] s =
      some { s with
        reg := update s.reg .t0 (s.mem (TRAPFRAME + 112))
        csr := update (update s.csr .satp (s.reg .a1)) .sscratch (s.mem (TRAPFRAME + 112)) } := by
    simp only [execs, exec, Option.bind_some, hs, hm, if_true, update_self]
  rw [userret, execs_append, hfirst, Option.bind_some, execs_append, hload, Option.bind_some]
  simp only [execs, exec, Option.bind_some, update_self, if_neg hno, hbase, update_idem]
  refine congrArg some ((State.mk.injEq ..).mpr ⟨funext fun r => ?_, rfl, rfl⟩)
  rcases eq_or_ne r .a0 with rfl | hr
  · rw [update_self, slot]
  · rw [update_of_ne hr, if_pos ((ne_a0_iff r).mp hr)]

structure User where
  reg : Reg → Word
  pc : Word

variable {P H : Type}

structure Hart (P : Type) where
  reg : Reg → Word
  csr : Csr → Word
  pc : Word
  proc : Option P

structure Machine (P H : Type) where
  hart : H → Hart P
  frame : P → Word → Word

structure Conf (P H : Type) where
  usertrap : Word
  uservec : Word
  kernelvec : Word
  satp : Word
  hartid : H → Word
  kstack : P → Word
  pagetable : P → Word

inductive Event (P H : Type) where
  | user (h : H) (p : P) (f : User → User)
  | trap (h : H) (p : P) (cause : Word)
  | store (p : P) (r : Option Reg) (v : Word)
  /-- Other code of the kernel, on its own page table, with the number of the hart in `tp`. -/
  | kernel (h : H) (reg : Reg → Word) (csr : Csr → Word)
  | ret (h : H) (p : P)

def field : Option Reg → Word
  | none => 24
  | some r => slot r

variable (c : Conf P H)

/-- `usertrap` up to the call of `syscall` or `devintr`. A process that was killed does not
return. -/
def usertrap (t : State Reg Csr) : State Reg Csr :=
  let epc := t.csr .sepc
  { t with
    csr := update t.csr .stvec c.kernelvec
    mem := update t.mem (TRAPFRAME + 24) (if t.csr .scause = 8 then epc + 4 else epc) }

def usertrapret (p : P) (t : State Reg Csr) : State Reg Csr where
  reg := update (update t.reg .a0 TRAPFRAME) .a1 (c.pagetable p)
  csr := update (update t.csr .stvec c.uservec) .sepc (t.mem (TRAPFRAME + 24))
  mem := Writes.apply t.mem [(TRAPFRAME + 0, t.csr .satp), (TRAPFRAME + 8, c.kstack p + 4096),
    (TRAPFRAME + 16, c.usertrap), (TRAPFRAME + 32, t.reg .tp)]

def enter (p : P) (x : Hart P) (frame : Word → Word) (cause : Word) :
    Option (Hart P × (Word → Word)) :=
  if x.csr .stvec = c.uservec then
    (execs (mapped (c.pagetable p)) uservec
        ⟨x.reg, update (update x.csr .sepc x.pc) .scause cause, frame⟩).bind fun t =>
      if t.reg .t0 = c.usertrap then
        let t := usertrap c t
        some (⟨t.reg, t.csr, c.usertrap, none⟩, t.mem)
      else none
  else none

def leave (p : P) (x : Hart P) (frame : Word → Word) : Option (Hart P × (Word → Word)) :=
  (execs (mapped (c.pagetable p)) userret (usertrapret c p ⟨x.reg, x.csr, frame⟩)).map fun t =>
    (⟨t.reg, t.csr, t.csr .sepc, some p⟩, t.mem)

variable [DecidableEq P] [DecidableEq H] [Fintype H]

def Machine.set (m : Machine P H) (h : H) (p : P) (y : Hart P × (Word → Word)) : Machine P H :=
  ⟨update m.hart h y.1, update m.frame p y.2⟩

def step (m : Machine P H) : Event P H → Option (Machine P H)
  | .user h p f =>
    let x := m.hart h
    let u := f ⟨x.reg, x.pc⟩
    if x.proc = some p then some (m.set h p ({ x with reg := u.reg, pc := u.pc }, m.frame p)) else none
  | .trap h p cause =>
    if (m.hart h).proc = some p then
      (enter c p (m.hart h) (m.frame p) cause).map (m.set h p)
    else none
  | .store p r v =>
    if ∀ h, (m.hart h).proc ≠ some p then
      some { m with frame := update m.frame p (update (m.frame p) (TRAPFRAME + field r) v) }
    else none
  | .kernel h reg csr =>
    let x := m.hart h
    if x.proc = none ∧ csr .satp = x.csr .satp ∧ reg .tp = x.reg .tp then
      some { m with hart := update m.hart h { x with reg := reg, csr := csr } }
    else none
  | .ret h p =>
    let x := m.hart h
    if x.proc = none ∧ ∀ h, (m.hart h).proc ≠ some p then
      (leave c p x (m.frame p)).map (m.set h p)
    else none

/-- What a process that is in the kernel will find when it comes back. -/
def held (frame : Word → Word) : User := ⟨fun r => frame (TRAPFRAME + slot r), frame (TRAPFRAME + 24)⟩

def Sees (m : Machine P H) (p : P) (u : User) : Prop :=
  (∃ h, (m.hart h).proc = some p ∧ u = ⟨(m.hart h).reg, (m.hart h).pc⟩) ∨
    (∀ h, (m.hart h).proc ≠ some p) ∧ u = held (m.frame p)

def trapped (cause : Word) (u : User) : User := if cause = 8 then { u with pc := u.pc + 4 } else u

def stored (r : Option Reg) (v : Word) (u : User) : User :=
  match r with
  | none => { u with pc := v }
  | some r => { u with reg := update u.reg r v }

def own (p : P) (u : User) : Event P H → User
  | .user _ q f => if q = p then f u else u
  | .trap _ q cause => if q = p then trapped cause u else u
  | .store q r v => if q = p then stored r v u else u
  | _ => u

structure Ready (h : H) (p : P) (x : Hart P) (frame : Word → Word) : Prop where
  pagetable : x.csr .satp = c.pagetable p
  sscratch : x.csr .sscratch = TRAPFRAME
  stvec : x.csr .stvec = c.uservec
  satp : frame (TRAPFRAME + 0) = c.satp
  sp : frame (TRAPFRAME + 8) = c.kstack p + 4096
  trap : frame (TRAPFRAME + 16) = c.usertrap
  hartid : frame (TRAPFRAME + 32) = c.hartid h

structure Inside (h : H) (x : Hart P) : Prop where
  proc : x.proc = none
  satp : x.csr .satp = c.satp
  tp : x.reg .tp = c.hartid h

structure Inv (m : Machine P H) : Prop where
  once : ∀ h h' p, (m.hart h).proc = some p → (m.hart h').proc = some p → h = h'
  user : ∀ h p, (m.hart h).proc = some p → Ready c h p (m.hart h) (m.frame p)
  kernel : ∀ h, (m.hart h).proc = none → Inside c h (m.hart h)

variable {c} {m t : Machine P H} {h : H} {p q : P} {x : Hart P} {frame : Word → Word} {u : User}

omit [DecidableEq P] [DecidableEq H] [Fintype H] in
theorem enter_eq (hr : Ready c h p x frame) (cause : Word) : ∃ y, enter c p x frame cause = some y ∧
    Inside c h y.1 ∧ y.1.reg .sp = c.kstack p + 4096 ∧ held y.2 = trapped cause ⟨x.reg, x.pc⟩ := by
  obtain ⟨t, hrun, hmem, hsp, htp, ht0, hcsr⟩ := uservec_run
    (s := ⟨x.reg, update (update x.csr .sepc x.pc) .scause cause, frame⟩) (by simp [hr.sscratch])
    (by simpa using hr.pagetable)
  dsimp only at hmem hsp htp ht0 hcsr
  refine ⟨(⟨t.reg, (usertrap c t).csr, c.usertrap, none⟩, (usertrap c t).mem), ?_,
    ⟨rfl, ?_, htp.trans hr.hartid⟩, hsp.trans hr.sp, ?_⟩
  · rw [enter, if_pos hr.stvec, hrun, Option.bind_some, if_pos (ht0.trans hr.trap)]
    rfl
  · simpa [usertrap, hcsr] using hr.satp
  · have hcause : t.csr .scause = cause ∧ t.csr .sepc = x.pc := by simp [hcsr]
    simp only [held, usertrap, hmem, update_self, update_of_ne (slot_ne_epc _), keep_slot, hcause, trapped]
    split <;> rfl

omit [DecidableEq P] [DecidableEq H] [Fintype H] in
theorem leave_eq (p : P) (frame : Word → Word) (hx : Inside c h x) :
    ∃ y, leave c p x frame = some y ∧ y.1.proc = some p ∧ Ready c h p y.1 y.2 ∧
      ⟨y.1.reg, y.1.pc⟩ = held frame := by
  have ha1 : (usertrapret c p ⟨x.reg, x.csr, frame⟩).reg .a1 = c.pagetable p := by
    simp [usertrapret]
  have hrun := userret_run (s := usertrapret c p ⟨x.reg, x.csr, frame⟩) (by simp [usertrapret])
  rw [ha1] at hrun
  rw [leave, hrun, Option.map_some]
  refine ⟨_, rfl, rfl, ⟨?_, ?_, ?_, ?_, ?_, ?_, ?_⟩, ?_⟩
  · simp
  · simp
  · simp [usertrapret]
  · simpa [usertrapret, update_apply] using hx.satp
  · simp [usertrapret]
  · simp [usertrapret]
  · simpa [usertrapret, update_apply] using hx.tp
  · have hslot (r : Reg) : slot r ∉ [(0 : Word), 8, 16, 32] := by cases r <;> decide
    have hkeep (o : Word) (ho : o ∉ [(0 : Word), 8, 16, 32]) :
        (usertrapret c p ⟨x.reg, x.csr, frame⟩).mem (TRAPFRAME + o) = frame (TRAPFRAME + o) :=
      Writes.apply_of_notMem frame fun hmem => ho (by simpa using hmem)
    simp only [held, User.mk.injEq]
    exact ⟨funext fun r => hkeep _ (hslot r), by simp [usertrapret]⟩

section
variable {y : Hart P × (Word → Word)}
omit [Fintype H]

structure Moves (m : Machine P H) (h : H) (p : P) (x : Hart P) : Prop where
  before : (m.hart h).proc = none ∨ (m.hart h).proc = some p
  after : x.proc = none ∨ x.proc = some p
  alone : ∀ h', h' ≠ h → (m.hart h').proc ≠ some p

theorem set_self : (m.set h p y).hart h = y.1 := update_self _ _ _

theorem set_of_ne {h' : H} (hh : h' ≠ h) : (m.set h p y).hart h' = m.hart h' := update_of_ne hh _ _

theorem set_frame : (m.set h p y).frame p = y.2 := update_self _ _ _

theorem set_frame_of_ne (hq : q ≠ p) : (m.set h p y).frame q = m.frame q := update_of_ne hq _ _

theorem Moves.proc_of_ne (hm : Moves m h p y.1) (hq : q ≠ p) (h' : H) :
    ((m.set h p y).hart h').proc = some q ↔ h' ≠ h ∧ (m.hart h').proc = some q := by
  rcases eq_or_ne h' h with rfl | hh
  · rw [set_self]
    rcases hm.after with ha | ha <;> simp [ha, hq.symm]
  · rw [set_of_ne hh]
    simp [hh]

theorem Moves.sees (hm : Moves m h p y.1) (hq : q ≠ p) (hs : Sees m q u) :
    Sees (m.set h p y) q u := by
  rcases hs with ⟨h', hh, rfl⟩ | ⟨hno, rfl⟩
  · have hne : h' ≠ h := by
      rintro rfl
      rcases hm.before with hb | hb <;> simp_all
    exact .inl ⟨h', (hm.proc_of_ne hq h').mpr ⟨hne, hh⟩, by rw [set_of_ne hne]⟩
  · exact .inr ⟨fun h' hh => hno h' ((hm.proc_of_ne hq h').mp hh).2, by rw [set_frame_of_ne hq]⟩

theorem Inv.set (hi : Inv c m) (hm : Moves m h p y.1)
    (hin : y.1.proc = none → Inside c h y.1)
    (hout : y.1.proc = some p → Ready c h p y.1 y.2) : Inv c (m.set h p y) where
  once h₁ h₂ q h1 h2 := by
    rcases eq_or_ne q p with rfl | hq
    · have hh : ∀ h', ((m.set h q y).hart h').proc = some q → h' = h := fun h' hp => by
        by_contra hne
        rw [set_of_ne hne] at hp
        exact hm.alone h' hne hp
      rw [hh h₁ h1, hh h₂ h2]
    · exact hi.once h₁ h₂ q ((hm.proc_of_ne hq h₁).mp h1).2 ((hm.proc_of_ne hq h₂).mp h2).2
  user h' q hp := by
    rcases eq_or_ne h' h with rfl | hne
    · rw [set_self] at hp ⊢
      obtain rfl : q = p := by rcases hm.after with ha | ha <;> simp_all
      rw [set_frame]
      exact hout hp
    · rw [set_of_ne hne] at hp ⊢
      have hq : q ≠ p := fun he => hm.alone h' hne (he ▸ hp)
      rw [set_frame_of_ne hq]
      exact hi.user h' q hp
  kernel h' hp := by
    rcases eq_or_ne h' h with rfl | hne
    · rw [set_self] at hp ⊢
      exact hin hp
    · rw [set_of_ne hne] at hp ⊢
      exact hi.kernel h' hp

end

section
omit [DecidableEq P] [DecidableEq H] [Fintype H]

theorem Sees.eq_of_proc (hi : Inv c m) (hp : (m.hart h).proc = some p) (hs : Sees m p u) :
    u = ⟨(m.hart h).reg, (m.hart h).pc⟩ := by
  rcases hs with ⟨h', hh, rfl⟩ | ⟨hno, -⟩
  · rw [hi.once h h' p hp hh]
  · exact absurd hp (hno h)

theorem Sees.eq_of_free (hno : ∀ h, (m.hart h).proc ≠ some p) (hs : Sees m p u) :
    u = held (m.frame p) := by
  rcases hs with ⟨h, hh, -⟩ | ⟨-, hu⟩
  · exact absurd hh (hno h)
  · exact hu

theorem held_update (r : Option Reg) (v : Word) :
    held (update frame (TRAPFRAME + field r) v) = stored r v (held frame) := by
  cases r with
  | none => simp only [held, field, stored, update_self, update_of_ne (slot_ne_epc _)]
  | some r =>
    have hinj (r' : Reg) : TRAPFRAME + slot r' = TRAPFRAME + slot r ↔ r' = r :=
      ⟨fun he => slot_inj (add_left_cancel he), fun he => he ▸ rfl⟩
    simp only [held, field, stored, update_of_ne (slot_ne_epc r).symm, User.mk.injEq, and_true]
    exact funext fun r' => by simp only [update_apply, hinj]

end

def Follows (c : Conf P H) (m t : Machine P H) (g : P → User → User) : Prop :=
  Inv c t ∧ ∀ p u, Sees m p u → Sees t p (g p u)

omit [Fintype H] in
theorem follows_set {y : Hart P × (Word → Word)} {g : User → User} (hi : Inv c m)
    (hm : Moves m h p y.1) (hin : y.1.proc = none → Inside c h y.1)
    (hout : y.1.proc = some p → Ready c h p y.1 y.2)
    (hg : ∀ u, Sees m p u → Sees (m.set h p y) p (g u)) :
    Follows c m (m.set h p y) fun q u => if p = q then g u else u := by
  refine ⟨hi.set hm hin hout, fun q u hs => ?_⟩
  dsimp only
  rcases eq_or_ne p q with rfl | hq
  · rw [if_pos rfl]
    exact hg u hs
  · rw [if_neg hq]
    exact hm.sees hq.symm hs

omit [DecidableEq H] [Fintype H] in
theorem follows_store (hi : Inv c m) (hno : ∀ h, (m.hart h).proc ≠ some p) (r : Option Reg) (v : Word) :
    Follows c m ⟨m.hart, update m.frame p (update (m.frame p) (TRAPFRAME + field r) v)⟩
      fun q u => if p = q then stored r v u else u := by
  refine ⟨⟨hi.once, fun h q hq => ?_, hi.kernel⟩, fun q u hs => ?_⟩
  · have hne : q ≠ p := fun he => hno h (he ▸ hq)
    dsimp only at hq ⊢
    rw [update_of_ne hne]
    exact hi.user h q hq
  · dsimp only
    rcases eq_or_ne p q with rfl | hq
    · rw [if_pos rfl, hs.eq_of_free hno]
      refine .inr ⟨hno, ?_⟩
      dsimp only
      rw [update_self, held_update]
    · rw [if_neg hq]
      rcases hs with hs | ⟨hn, hu⟩
      · exact .inl hs
      · refine .inr ⟨hn, ?_⟩
        dsimp only
        rw [hu, update_of_ne hq.symm]

omit [DecidableEq P] [Fintype H] in
theorem follows_kernel (hi : Inv c m) (hx : (m.hart h).proc = none) (hnew : Inside c h x) :
    Follows c m ⟨update m.hart h x, m.frame⟩ fun _ u => u := by
  -- a hart that runs a program is another one
  have hrun (h' : H) (q : P) : (update m.hart h x h').proc = some q ↔ (m.hart h').proc = some q := by
    rcases eq_or_ne h' h with rfl | hne
    · rw [update_self, hnew.proc, hx]
    · rw [update_of_ne hne]
  have hsame {h' : H} {q : P} (hq : (m.hart h').proc = some q) : update m.hart h x h' = m.hart h' :=
    update_of_ne (fun he => by simp [he, hx] at hq) _ _
  refine ⟨⟨fun h₁ h₂ q h1 h2 => ?_, fun h' q hq => ?_, fun h' hn => ?_⟩, fun q u hs => ?_⟩
  · exact hi.once h₁ h₂ q ((hrun h₁ q).mp h1) ((hrun h₂ q).mp h2)
  · have hq := (hrun h' q).mp hq
    dsimp only
    rw [hsame hq]
    exact hi.user h' q hq
  · dsimp only at hn ⊢
    rcases eq_or_ne h' h with rfl | hne
    · rwa [update_self]
    · rw [update_of_ne hne] at hn ⊢
      exact hi.kernel h' hn
  · rcases hs with ⟨h', hq, hu⟩ | ⟨hno, hu⟩
    · exact .inl ⟨h', (hrun h' q).mpr hq, by dsimp only; rwa [hsame hq]⟩
    · exact .inr ⟨fun h' hh => hno h' ((hrun h' q).mp hh), hu⟩

theorem step_follows {e : Event P H} (hi : Inv c m) (he : step c m e = some t) :
    Follows c m t fun p u => own p u e := by
  have halone {h : H} {p : P} (hp : (m.hart h).proc = some p) (h' : H) (hne : h' ≠ h) :
      (m.hart h').proc ≠ some p := fun hh => hne (hi.once _ _ p hh hp)
  cases e with
  | user h p f =>
    obtain ⟨hp, rfl⟩ := guard_iff.mp he
    have hr := hi.user h p hp
    refine follows_set (g := f) hi ⟨.inr hp, .inr hp, halone hp⟩ (fun hn => ?_)
      (fun _ => ⟨hr.1, hr.2, hr.3, hr.4, hr.5, hr.6, hr.7⟩) fun u hs => .inl ⟨h, ?_⟩
    · exact absurd (hp.symm.trans hn) (Option.some_ne_none p)
    · rw [set_self, hs.eq_of_proc hi hp]
      exact ⟨hp, rfl⟩
  | trap h p cause =>
    obtain ⟨hp, he⟩ := Option.ite_none_right_eq_some.mp he
    obtain ⟨y, hy, hx, -, hheld⟩ := enter_eq (hi.user h p hp) cause
    rw [hy, Option.map_some, Option.some.injEq] at he
    subst he
    refine follows_set (g := trapped cause) hi ⟨.inr hp, .inl hx.proc, halone hp⟩ (fun _ => hx)
      (fun hn => ?_) fun u hs => .inr ⟨fun h' => ?_, ?_⟩
    · exact absurd (hx.proc.symm.trans hn) (Option.some_ne_none p).symm
    · rcases eq_or_ne h' h with rfl | hne
      · simp [set_self, hx.proc]
      · rw [set_of_ne hne]
        exact halone hp h' hne
    · rw [set_frame, hheld, hs.eq_of_proc hi hp]
  | store p r v =>
    obtain ⟨hno, rfl⟩ := guard_iff.mp he
    exact follows_store hi hno r v
  | kernel h reg csr =>
    obtain ⟨⟨hp, hsatp, htp⟩, rfl⟩ := guard_iff.mp he
    have hx := hi.kernel h hp
    exact follows_kernel hi hp ⟨hp, hsatp.trans hx.satp, htp.trans hx.tp⟩
  | ret h p =>
    obtain ⟨⟨hp, hno⟩, he⟩ := Option.ite_none_right_eq_some.mp he
    obtain ⟨y, hy, hyp, hr, hreg⟩ := leave_eq p (m.frame p) (hi.kernel h hp)
    rw [hy, Option.map_some, Option.some.injEq] at he
    subst he
    have hset := follows_set (g := id) hi ⟨.inl hp, .inr hyp, fun h' _ => hno h'⟩
      (fun hn => absurd (hyp.symm.trans hn) (Option.some_ne_none p)) (fun _ => hr)
      fun u hs => .inl ⟨h, by rw [set_self]; exact ⟨hyp, (hs.eq_of_free hno).trans hreg.symm⟩⟩
    simp only [id, ite_self] at hset
    exact hset

/-- Along every run a program finds its registers and its program counter as its own events left
them, on whichever hart; and a trap from it is always taken, on its kernel stack. -/
theorem program_undisturbed {m₀ : Machine P H} {es : List (Event P H)}
    (hstart : ∀ h, Inside c h (m₀.hart h)) (hr : run (step c) m₀ es = some m) :
    (∀ p, Sees m p (es.foldl (own p) (held (m₀.frame p)))) ∧
      ∀ h p cause, (m.hart h).proc = some p → ∃ t, step c m (.trap h p cause) = some t ∧
        Inside c h (t.hart h) ∧ (t.hart h).reg .sp = c.kstack p + 4096 := by
  have hidle (h : H) (p : P) : (m₀.hart h).proc ≠ some p := by simp [(hstart h).proc]
  have hi₀ : Inv c m₀ := ⟨fun h _ p hp => absurd hp (hidle h p), fun h p hp => absurd hp (hidle h p),
    fun h _ => hstart h⟩
  obtain ⟨hi, hsees⟩ := run_history
    (I := fun es m => Inv c m ∧ ∀ p, Sees m p (es.foldl (own p) (held (m₀.frame p))))
    ⟨hi₀, fun p => .inr ⟨fun h => hidle h p, rfl⟩⟩ (fun es m e t _ hI _ he => by
      obtain ⟨hi, hs⟩ := step_follows hI.1 he
      refine ⟨hi, fun p => ?_⟩
      rw [foldl_concat]
      exact hs p _ (hI.2 p)) (along_true m₀ es) hr
  refine ⟨hsees, fun h p cause hp => ?_⟩
  obtain ⟨y, hy, hx, hsp, -⟩ := enter_eq (hi.user h p hp) cause
  exact ⟨m.set h p y, by rw [step, if_pos hp, hy, Option.map_some], by rwa [set_self],
    by rwa [set_self]⟩

theorem program_undisturbed_migrates :
    let c : Conf Bool Bool := ⟨64, 0, 128, 7, fun h => if h then 1 else 0, fun _ => 8192, fun _ => 9⟩
    let idle (h : Bool) : Hart Bool := ⟨fun _ => c.hartid h, fun _ => 7, 0, none⟩
    let m₀ : Machine Bool Bool := ⟨idle, fun _ _ => 5⟩
    let es : List (Event Bool Bool) := [.ret false true, .user false true fun u => { u with pc := 40 },
      .trap false true 8, .store true (some .a0) 3, .ret true true]
    ∃ m, run (step c) m₀ es = some m ∧ ∀ p, Sees m p (es.foldl (own p) (held (m₀.frame p))) := by
  intro c idle m₀ es
  obtain ⟨m, hm⟩ := Option.isSome_iff_exists.mp (by decide +kernel : (run (step c) m₀ es).isSome = true)
  have hstart (h : Bool) : Inside c h (m₀.hart h) := ⟨rfl, rfl, rfl⟩
  exact ⟨m, hm, (program_undisturbed hstart hm).1⟩

end Xv6.Trap
