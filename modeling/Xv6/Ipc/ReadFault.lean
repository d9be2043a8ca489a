import Xv6.Ipc.Pipe

/-! A `piperead` whose `copyout` fails. The process holds `pi->lock` from the end of its first loop
on, so that the second loop runs with no other process in the pipe. -/
namespace Xv6.Ipc
open Bytes Function List BitVec

def Pipe.contents (pi : Pipe) : List Byte :=
  (List.range (pi.nwrite - pi.nread).toNat).map fun j =>
    pi.data (Circular.cell PIPESIZE (pi.nread + BitVec.ofNat 32 j))

def pipereadLoop (out : ℕ → Bool) (p : ℕ) : ℕ → State → State
  | 0, s => s
  | fuel + 1, s => match s.pc p with
    | .copies n i => pipereadLoop out p fuel (pipereadCopy s p n i (out i))
    | _ => s

/-- `piperead(pi, addr, n)` by `p`, which has the lock, up to its end or its next sleep. -/
def piperead (s : State) (p : ℕ) (n : BitVec 32) (out : ℕ → Bool) : State :=
  pipereadLoop out p (n.toInt.toNat + 1) (pipereadWait s p n)

/-- From `s` to `t` process `p` was given the bytes that left the pipe, and was not told the end of
the file before its time. -/
def Lossless (p : ℕ) (s t : State) : Prop :=
  ∃ bs : List Byte, t.delivered = s.delivered ++ bs.map (p, ·) ∧
    t.pi.nread = s.pi.nread + BitVec.ofNat 32 bs.length ∧ s.pi.contents = bs ++ t.pi.contents ∧
    (t.pc p = .out (some 0) → t.pi.writeopen = false ∧ t.pi.contents = [])

variable {s t : State} {p i fuel : ℕ} {n : BitVec 32} {out : ℕ → Bool}

theorem contents_nil {pi : Pipe} (h : pi.nread = pi.nwrite) : pi.contents = [] := by
  rw [Pipe.contents, h, BitVec.sub_self]
  rfl

theorem contents_cons {pi : Pipe} (h : pi.nread ≠ pi.nwrite) :
    pi.contents = pi.data (Circular.cell PIPESIZE pi.nread) ::
      Pipe.contents { pi with nread := pi.nread + 1 } := by
  have hne : pi.nwrite - pi.nread ≠ 0 := fun h0 => h (sub_eq_zero.mp h0).symm
  have hlen : (pi.nwrite - pi.nread).toNat = (pi.nwrite - (pi.nread + 1)).toNat + 1 := by
    bv_omega
  rw [Pipe.contents, hlen, range_succ_eq_map, map_cons, map_map]
  congr 1
  · congr 2
    exact BitVec.add_zero _
  · refine map_congr_left fun j _ => ?_
    have hsum : pi.nread + BitVec.ofNat 32 (j + 1) = pi.nread + 1 + BitVec.ofNat 32 j := by
      rw [Nat.add_comm, ofNat_add, ← BitVec.add_assoc]
      rfl
    exact congrArg (fun c => pi.data (Circular.cell PIPESIZE c)) hsum

def AllOut (out : ℕ → Bool) (n : BitVec 32) (i : ℕ) (l : List Byte) : Prop :=
  ∀ j < l.length, (i + j : ℕ) < n.toInt → out (i + j) = true

structure Ended (p : ℕ) (out : ℕ → Bool) (n : BitVec 32) (i : ℕ) (s t : State) (bs : List Byte) :
    Prop where
  delivered : t.delivered = s.delivered ++ bs.map (p, ·)
  writeopen : t.pi.writeopen = s.pi.writeopen
  result : t.pc p = .out (some ((i + bs.length : ℕ) : ℤ))
  nread : (AllOut out n i s.pi.contents ∧ t.pi.nread = s.pi.nread + BitVec.ofNat 32 bs.length ∧
      s.pi.contents = bs ++ t.pi.contents ∧ (n.toInt ≤ (i + bs.length : ℕ) ∨ t.pi.contents = [])) ∨
    (¬ AllOut out n i s.pi.contents ∧ t.pi.nread = s.pi.nread + BitVec.ofNat 32 (bs.length + 1))

theorem pipereadLoop_out {r : Option ℤ} (h : s.pc p = .out r) : pipereadLoop out p fuel s = s := by
  cases fuel with
  | zero => rfl
  | succ fuel => simp only [pipereadLoop, h]

theorem leave_pc (s : State) (p : ℕ) (r : ℤ) : (s.leave p r).pc p = .out (some r) :=
  update_self _ _ _

theorem allOut_cons {x : Byte} {l : List Byte} (h : (i : ℤ) < n.toInt) :
    AllOut out n i (x :: l) ↔ out i = true ∧ AllOut out n (i + 1) l := by
  constructor
  · refine fun hall => ⟨hall 0 (Nat.succ_pos _) h, fun j hj hlt => ?_⟩
    have := hall (j + 1) (Nat.succ_lt_succ hj)
    rw [show i + (j + 1) = i + 1 + j by omega] at this
    exact this hlt
  · rintro ⟨h0, hall⟩ j hj hlt
    cases j with
    | zero => exact h0
    | succ j =>
      rw [show i + (j + 1) = i + 1 + j by omega] at hlt ⊢
      exact hall j (Nat.lt_of_succ_lt_succ hj) hlt

theorem pipereadLoop_ended (hp : s.pc p = .copies n i) (hi : i ≤ n.toInt.toNat)
    (hfuel : n.toInt.toNat < fuel + i) :
    ∃ bs, Ended p out n i s (pipereadLoop out p fuel s) bs := by
  induction fuel generalizing s i with
  | zero => omega
  | succ fuel ih =>
    rw [pipereadLoop, hp]
    dsimp only
    rw [pipereadCopy]
    split_ifs with hlt hempty hok
    · rw [pipereadLoop_out (leave_pc _ _ _)]
      have hnil := contents_nil hempty
      refine ⟨[], (append_nil _).symm, rfl, leave_pc _ _ _, .inl ⟨?_, ?_, rfl, .inr hnil⟩⟩
      · rw [hnil]
        exact fun j hj => absurd hj (Nat.not_lt_zero j)
      · exact (BitVec.add_zero _).symm
    · -- the byte is taken and delivered
      set ch := s.pi.data (Circular.cell PIPESIZE s.pi.nread) with hch
      set u : State := { s with
        pi := { s.pi with nread := s.pi.nread + 1 }
        delivered := s.delivered ++ [(p, ch)] }.setPc p (.copies n (i + 1)) with hu
      have hcons : s.pi.contents = ch :: u.pi.contents := contents_cons hempty
      have hup : u.pc p = .copies n (i + 1) := update_self _ _ _
      obtain ⟨bs, hd, hwo, hres, hend⟩ := ih hup (by omega) (by omega)
      have hcount : i + 1 + bs.length = i + (ch :: bs).length := by
        rw [length_cons]
        omega
      have hnread : ∀ k, u.pi.nread + BitVec.ofNat 32 k = s.pi.nread + BitVec.ofNat 32 (k + 1) := by
        intro k
        change s.pi.nread + 1 + _ = _
        rw [Nat.add_comm, ofNat_add, ← BitVec.add_assoc]
        rfl
      refine ⟨ch :: bs, ?_, hwo, by rw [hres, hcount], ?_⟩
      · rw [hd, map_cons, append_cons]
        rfl
      · rw [hcons, allOut_cons hlt]
        rw [hnread, hnread, hcount] at hend
        rcases hend with ⟨hall, hr, hc, hstop⟩ | ⟨hall, hr⟩
        · exact .inl ⟨⟨hok, hall⟩, hr, by rw [hc, List.cons_append], hstop⟩
        · exact .inr ⟨fun h => hall h.2, hr⟩
    · -- the byte is taken and lost
      rw [pipereadLoop_out (leave_pc _ _ _)]
      refine ⟨[], (append_nil _).symm, rfl, leave_pc _ _ _, .inr ⟨?_, rfl⟩⟩
      rw [contents_cons hempty, allOut_cons hlt]
      exact fun h => hok h.1
    · rw [pipereadLoop_out (leave_pc _ _ _)]
      refine ⟨[], (append_nil _).symm, rfl, leave_pc _ _ _, .inl ⟨?_, ?_, rfl, .inl ?_⟩⟩
      · exact fun j _ hj => absurd hj (by omega)
      · exact (BitVec.add_zero _).symm
      · exact not_lt.mp hlt

/-- A `piperead` gives the user exactly the bytes that leave the pipe, and no false end of file, if
and only if no `copyout` to a byte that it has taken fails. -/
theorem piperead_lossless_iff (s : State) (p : ℕ) {n : BitVec 32} (hn : 0 < n.toInt)
    (out : ℕ → Bool) :
    Lossless p s (piperead s p n out) ↔
      ∀ j < min n.toInt.toNat s.pi.contents.length, out j = true := by
  have hall : AllOut out n 0 s.pi.contents ↔
      ∀ j < min n.toInt.toNat s.pi.contents.length, out j = true := by
    constructor
    · intro h j hj
      have := h j (by omega)
      rw [Nat.zero_add] at this
      exact this (by omega)
    · intro h j hj hlt
      rw [Nat.zero_add] at hlt ⊢
      exact h j (by omega)
  rw [← hall, piperead, pipereadWait]
  have hrefl : ∀ t : State, t.delivered = s.delivered → t.pi = s.pi → t.pc p ≠ .out (some 0) →
      s.pi.nread = s.pi.nwrite → (Lossless p s t ↔ AllOut out n 0 s.pi.contents) := by
    intro t hd hpi hpc hempty
    refine ⟨fun _ j hj => ?_, fun _ => ⟨[], ?_, ?_, ?_, fun h => absurd h hpc⟩⟩
    · rw [contents_nil hempty] at hj
      exact absurd hj (Nat.not_lt_zero j)
    · rw [hd]
      exact (append_nil _).symm
    · rw [hpi]
      exact (BitVec.add_zero _).symm
    · rw [hpi]
      rfl
  split_ifs with hwait hkill
  · rw [pipereadLoop_out (leave_pc _ _ _)]
    refine hrefl _ rfl rfl ?_ hwait.1
    rw [leave_pc]
    rintro ⟨⟩
  · have hpc : (s.sleep p .nread (.piperead n)).pc p = .asleep .nread (.piperead n) :=
      update_self _ _ _
    have hloop : pipereadLoop out p (n.toInt.toNat + 1) (s.sleep p .nread (.piperead n)) =
        s.sleep p .nread (.piperead n) := by simp only [pipereadLoop, hpc]
    rw [hloop]
    refine hrefl _ rfl rfl ?_ hwait.1
    rw [hpc]
    rintro ⟨⟩
  · have hp : (s.setPc p (.copies n 0)).pc p = .copies n 0 := update_self _ _ _
    have hended : ∃ bs, Ended p out n 0 (s.setPc p (.copies n 0)) _ bs :=
      pipereadLoop_ended hp (Nat.zero_le _) (Nat.lt_succ_self _)
    obtain ⟨bs, hd, hwo, hres, hend⟩ := hended
    rcases hend with ⟨hok, hr, hc, hstop⟩ | ⟨hbad, hr⟩
    · refine ⟨fun _ => hok, fun _ => ⟨bs, hd, hr, hc, fun hzero => ?_⟩⟩
      -- nothing was delivered, so the pipe was empty, and not waited for
      rw [hres] at hzero
      have hz : 0 + bs.length = 0 := by simpa using hzero
      rw [hz] at hstop
      have hnil := hstop.resolve_left (by omega)
      have hbs : bs = [] := length_eq_zero_iff.mp (by omega)
      rw [hbs, hnil] at hc
      refine ⟨?_, hnil⟩
      rw [hwo]
      refine Bool.eq_false_iff.mpr fun hopen => hwait ⟨?_, hopen⟩
      by_contra hne
      have hcons := contents_cons hne
      rw [show s.pi.contents = [] from hc] at hcons
      cases hcons
    · refine ⟨?_, fun h => absurd h hbad⟩
      rintro ⟨cs, hcd, hcr, -, -⟩
      have hlen : bs.length = cs.length := by
        have := congrArg List.length (hd.symm.trans hcd)
        simp only [length_append, length_map] at this
        change s.delivered.length + _ = _ at this
        omega
      rw [hr, ← hlen] at hcr
      have : BitVec.ofNat 32 (bs.length + 1) = BitVec.ofNat 32 bs.length := add_left_cancel hcr
      rw [ofNat_add] at this
      exact absurd (add_eq_left.mp this) (by decide)

/-- Process 0 has written one byte, and process 1 has the lock for a `piperead` of one byte. -/
def oneInPipe : State :=
  { pi := { data := fun _ => 7, nwrite := 1 }, lock := some 1, stored := [(0, 7)],
    pc := fun p => if p = 1 then .locked (.piperead 1) else .out none }

theorem piperead_lossless_iff_oneInPipe : Lossless 1 oneInPipe (piperead oneInPipe 1 1 fun _ => true) :=
  (piperead_lossless_iff oneInPipe 1 (by decide) fun _ => true).mpr fun _ _ => rfl

/-- With a bad address the byte is lost, and the reader is told the end of the file while the write
end is open. -/
theorem not_piperead_lossless :
    ¬ Lossless 1 oneInPipe (piperead oneInPipe 1 1 fun _ => false) ∧
      oneInPipe.pi.contents = [7] ∧ (piperead oneInPipe 1 1 fun _ => false).pi.contents = [] ∧
      (piperead oneInPipe 1 1 fun _ => false).delivered = [] ∧
      (piperead oneInPipe 1 1 fun _ => false).pc 1 = .out (some 0) ∧
      (piperead oneInPipe 1 1 fun _ => false).pi.writeopen = true := by
  have hpc : (piperead oneInPipe 1 1 fun _ => false).pc 1 = .out (some 0) := rfl
  have hopen : (piperead oneInPipe 1 1 fun _ => false).pi.writeopen = true := rfl
  refine ⟨?_, by decide, by decide, rfl, hpc, hopen⟩
  rintro ⟨bs, -, -, -, heof⟩
  rw [(heof hpc).1] at hopen
  cases hopen

end Xv6.Ipc
