import Xv6.Vm.Space

/-! `growproc` and `sys_sbrk`: the size of a process is 64 bits wide, and the sum with the argument
is made in 32 bits. -/
namespace Xv6.Vm
open Bytes Radix BitVec

variable {kend : Word} {s s' : Kmem} {r : Frame} {N : ℕ}

/-- `growproc(n)` of a process with that page table and that `p->sz`: what it returns and the new
`p->sz`. -/
def growproc (kend : Word) (pagetable : Frame) (psz : Word) (n : BitVec 32) : M (ℤ × Word) := do
  let sz : BitVec 32 := psz.setWidth 32
  if 0 < n.toInt then do
    let r ← uvmalloc kend pagetable (sz.setWidth 64) ((sz + n).setWidth 64)
    let sz : BitVec 32 := r.setWidth 32
    if sz = 0 then return (-1, psz) else return (0, sz.setWidth 64)
  else if n.toInt < 0 then do
    let r ← uvmdealloc kend pagetable (sz.setWidth 64) ((sz + n).setWidth 64)
    return (0, (r.setWidth 32).setWidth 64)
  else return (0, sz.setWidth 64)

/-- `sys_sbrk` with the argument `n`: what it returns and the new `p->sz`. -/
def sysSbrk (kend : Word) (pagetable : Frame) (psz : Word) (n : BitVec 32) : M (Word × Word) := do
  let addr : BitVec 32 := psz.setWidth 32
  let res ← growproc kend pagetable psz n
  if res.1 < 0 then return (-1, res.2) else return (addr.signExtend 64, res.2)

theorem Resizes.leaf_eq (h : Resizes kend r s N s' N) (hs : Space kend s r N) {m : ℕ}
    (hm : m < 512 ^ 3) : s'.leaf r m = s.leaf r m := by
  rcases Nat.lt_or_ge m N with hlt | hge
  · exact (h.kept m hlt hlt).1
  · rcases Nat.lt_or_ge m (TRAPFRAME / PGSIZE) with htf | htf
    · rw [h.space.empty m hge htf, hs.empty m hge htf]
    · exact h.high m htf hm

theorem Space.size_le {psz : Word} (h : Space kend s r (pages psz)) (hk : KERNBASE ≤ kend.toNat) :
    psz.toNat ≤ 2 ^ 27 := by
  have hle := h.le_ram (KERNBASE / 4096) (le_trans (by decide) hk)
  have hram : PHYSTOP / 4096 - KERNBASE / 4096 = 32768 := by decide
  rw [hram] at hle
  unfold pages at hle
  omega

structure Grown (kend : Word) (r : Frame) (psz : Word) (n : BitVec 32) (s : Kmem) (z : ℤ)
    (sz : Word) (s' : Kmem) : Prop where
  resizes : Resizes kend r s (pages psz) s' (pages sz)
  result : (z = 0 ∧ (sz.toNat : ℤ) =
      if 0 ≤ (psz.toNat : ℤ) + n.toInt then (psz.toNat : ℤ) + n.toInt else psz.toNat) ∨
    (z = -1 ∧ sz = psz ∧ 0 < n.toInt ∧
      Refuses (3 * ((psz.toNat + n.toNat + 4095) / 4096 - pages psz)) s)

variable {n : BitVec 32}

theorem toInt_pos (h : 0 < n.toInt) : n.toInt = n.toNat ∧ n.toNat < 2 ^ 31 := by
  have := n.isLt
  rw [toInt_eq_toNat_cond] at h ⊢
  split at h <;> rename_i hc
  · rw [if_pos hc]
    omega
  · omega

theorem toInt_neg (h : n.toInt < 0) : n.toInt = (n.toNat : ℤ) - 2 ^ 32 ∧ 2 ^ 31 ≤ n.toNat := by
  have := n.isLt
  rw [toInt_eq_toNat_cond] at h ⊢
  split at h <;> rename_i hc
  · omega
  · rw [if_neg hc]
    omega

theorem narrow {w : Word} (h : w.toNat < 2 ^ 32) :
    (w.setWidth 32).setWidth 64 = w ∧ (w.setWidth 32).toNat = w.toNat := by
  have hnat : (w.setWidth 32).toNat = w.toNat := by
    rw [toNat_setWidth]
    omega
  refine ⟨eq_of_toNat_eq ?_, hnat⟩
  rw [toNat_setWidth, hnat]
  omega

theorem growproc_sat {psz : Word} (n : BitVec 32) (hk : KERNBASE ≤ kend.toNat)
    (h : Space kend s r (pages psz)) :
    Sat (growproc kend r psz n) s (fun p s' => Grown kend r psz n s p.1 p.2 s') fun _ => False := by
  have hsz := h.size_le hk
  have hcast := (narrow (w := psz) (by omega)).1
  have hsum : ((psz.setWidth 32 + n).setWidth 64 : Word).toNat = (psz.toNat + n.toNat) % 2 ^ 32 := by
    rw [toNat_setWidth, toNat_add, toNat_setWidth]
    omega
  rw [growproc]
  dsimp only
  rw [hcast]
  refine Sat.ite (fun hpos => ?_) fun hnpos => ?_
  · obtain ⟨hint, hlt⟩ := toInt_pos hpos
    rw [Nat.mod_eq_of_lt (by omega)] at hsum
    refine Sat.bind (uvmalloc_sat h) ?_
    rintro z s' (⟨hless, -, -⟩ | ⟨-, ⟨rfl, hs, -⟩ | ⟨rfl, hs, href⟩⟩)
    · have hless : (BitVec.setWidth 64 (psz.setWidth 32 + n)).toNat < psz.toNat := hless
      omega
    · have hmax : max (pages psz) (pages ((psz.setWidth 32 + n).setWidth 64)) =
          pages ((psz.setWidth 32 + n).setWidth 64) :=
        max_eq_right (Nat.div_le_div_right (by omega))
      rw [hmax] at hs
      generalize (psz.setWidth 32 + n).setWidth 64 = w at hs hsum ⊢
      obtain ⟨hw, hw'⟩ := narrow (w := w) (by omega)
      rw [if_neg fun h0 => by rw [h0] at hw'; change 0 = _ at hw'; omega]
      refine Sat.pure ⟨by rw [hw]; exact hs, .inl ⟨rfl, ?_⟩⟩
      rw [hw, if_pos (by omega), hsum, hint]
      rfl
    · rw [if_pos (by decide)]
      rw [pages, hsum] at href
      exact Sat.pure ⟨hs, .inr ⟨rfl, rfl, hpos, href⟩⟩
  · refine Sat.ite (fun hneg => ?_) fun hzero => ?_
    · obtain ⟨hint, hge⟩ := toInt_neg hneg
      refine Sat.bind (uvmdealloc_sat h) ?_
      rintro z s' ⟨hz, hs, -⟩
      have hzle : z.toNat ≤ psz.toNat := by
        rw [hz]
        split
        · exact le_refl _
        · exact Nat.le_of_lt (Nat.lt_of_not_le ‹_›)
      obtain ⟨hw, -⟩ := narrow (w := z) (by omega)
      refine Sat.pure ⟨by rw [hw]; exact hs, .inl ⟨rfl, ?_⟩⟩
      rw [hw, hz]
      by_cases hsign : 0 ≤ (psz.toNat : ℤ) + n.toInt
      · rw [if_pos hsign, if_neg (by rw [le_def, hsum]; omega), hsum, hint]
        omega
      · rw [if_neg hsign, if_pos (by rw [le_def, hsum]; omega)]
    · have h0 : n.toInt = 0 := by omega
      refine Sat.pure ⟨h.refl, .inl ⟨rfl, ?_⟩⟩
      rw [h0, Int.add_zero, ite_self]

theorem growproc_fresh {psz : Word} (n : BitVec 32) (hk : KERNBASE ≤ kend.toNat)
    (h : Space kend s r (pages psz)) :
    Sat (growproc kend r psz n) s (fun x s' => Fresh s' r (pages psz) (pages x.2)) fun _ => True := by
  have hsz := h.size_le hk
  have hcast := (narrow (w := psz) (by omega)).1
  have hold {t : Kmem} {z : Word} (hz : z.toNat ≤ psz.toNat) : Fresh t r (pages psz) (pages z) := by
    intro k h1 h2
    unfold pages at h1 h2
    omega
  by_cases hpos : 0 < n.toInt
  · rw [growproc]
    dsimp only
    rw [hcast, if_pos hpos]
    refine Sat.bind ((uvmalloc_sat h).weaken fun _ he => he.elim) fun z s' hz => ?_
    refine Sat.ite (fun _ => Sat.pure (hold (le_refl _))) fun hne => Sat.pure ?_
    rcases hz with ⟨-, rfl, -⟩ | ⟨-, ⟨rfl, -, hfresh⟩ | ⟨rfl, -⟩⟩
    · rw [hcast]
      exact hold (le_refl _)
    · rw [(narrow (w := (psz.setWidth 32 + n).setWidth 64) ?_).1]
      · exact fun k h1 h2 => hfresh k h1 (h2.trans_le (le_max_right _ _))
      · rw [BitVec.toNat_setWidth]
        omega
    · exact absurd (by decide) hne
  · refine (growproc_sat n hk h).mono (fun x s' hg => hold ?_) fun _ _ => trivial
    rcases hg.result with ⟨-, hz⟩ | ⟨-, -, hpos', -⟩
    · split at hz <;> omega
    · exact absurd hpos' hpos

def Exact (kend : Word) (r : Frame) (psz : Word) (n : BitVec 32) (s : Kmem) : Prop :=
  ∃ z sz s', growproc kend r psz n s = .ok ((z, sz), s') ∧
    (z = 0 ↔ (sz.toNat : ℤ) = psz.toNat + n.toInt) ∧
    (z = 0 → sysSbrk kend r psz n s = .ok ((psz, sz), s')) ∧
    (z ≠ 0 → z = -1 ∧ sz = psz ∧ ∀ m < 512 ^ 3, s'.leaf r m = s.leaf r m)

theorem sysSbrk_run {psz sz : Word} (hsz : psz.toNat ≤ 2 ^ 27)
    (h : growproc kend r psz n s = .ok ((0, sz), s')) :
    sysSbrk kend r psz n s = .ok ((psz, sz), s') := by
  have hmsb : (psz.setWidth 32).msb = false := by
    rw [msb_eq_false_iff_two_mul_lt, (narrow (by omega)).2]
    omega
  rw [sysSbrk, Sat.run_bind h]
  dsimp only
  rw [if_neg (by decide), signExtend_eq_setWidth_of_msb_false hmsb, (narrow (by omega)).1]
  rfl

/-- `growproc` is exact unless the size would become negative. -/
theorem growproc_exact_iff (kend : Word) (hk : KERNBASE ≤ kend.toNat) (s : Kmem) (r : Frame)
    (psz : Word) (n : BitVec 32) (h : Space kend s r (pages psz)) :
    Exact kend r psz n s ↔ 0 ≤ (psz.toNat : ℤ) + n.toInt := by
  obtain ⟨⟨z, sz⟩, s', hrun, hg⟩ := (growproc_sat n hk h).exists_ok
  dsimp only at hg
  constructor
  · rintro ⟨z', sz', t, hrun', hiff, -, hfail⟩
    obtain ⟨⟨rfl, rfl⟩, rfl⟩ : (z' = z ∧ sz' = sz) ∧ t = s' := by
      have := Except.ok.inj (hrun'.symm.trans hrun)
      simpa using this
    rcases hg.result with ⟨rfl, -⟩ | ⟨rfl, rfl, hpos, -⟩
    · have := hiff.mp rfl
      omega
    · omega
  · intro hsign
    refine ⟨z, sz, s', hrun, ?_⟩
    rcases hg.result with ⟨rfl, hsz⟩ | ⟨rfl, rfl, hpos, -⟩
    · rw [if_pos hsign] at hsz
      exact ⟨iff_of_true rfl hsz, fun _ => sysSbrk_run (h.size_le hk) hrun, fun hne => absurd rfl hne⟩
    · refine ⟨iff_of_false (by decide) fun he => ?_, fun he => ?_, fun _ => ⟨rfl, rfl, ?_⟩⟩
      · have he : (sz.toNat : ℤ) = sz.toNat + n.toInt := he
        omega
      · exact absurd he (by decide)
      · exact fun m hm => hg.resizes.leaf_eq h hm

theorem space_empty (h0 : s.page r = fun _ => 0) (hn : s.freelist.Nodup) (hr : r ∉ s.freelist)
    (hram : ∀ f ∈ r :: s.freelist, InRam kend f) : Space kend s r 0 := by
  refine ⟨ready_empty h0 hn hr, Nat.zero_le _, fun n hn => absurd hn (Nat.not_lt_zero n),
    fun n _ _ => leaf_empty h0 n, fun n hn => absurd hn (Nat.not_lt_zero n),
    fun n hn => absurd hn (Nat.not_lt_zero n), ?_⟩
  rintro f ((hf | hf) | ⟨n, hn, -⟩)
  · exact hram f (List.mem_cons_of_mem r hf)
  · rw [tables_empty h0, Set.mem_singleton_iff] at hf
    exact hram f (hf ▸ List.mem_cons_self)
  · exact absurd hn (Nat.not_lt_zero n)

def freshMem : Kmem := { page := fun _ _ => 0, freelist := [0x80001, 0x80002, 0x80003] }

theorem space_freshMem : Space 0x80000000 freshMem 0x80000 (pages 0) := by
  refine space_empty rfl (by decide) (by decide) ?_
  simp only [freshMem, List.forall_mem_cons]
  exact ⟨by decide +kernel, by decide +kernel, by decide +kernel, by decide +kernel,
    fun f hf => absurd hf List.not_mem_nil⟩

theorem growproc_exact_iff_freshMem : Exact 0x80000000 0x80000 0 4096 freshMem :=
  (growproc_exact_iff 0x80000000 (by decide) freshMem 0x80000 0 4096 space_freshMem).mpr (by decide)

/-- The size cannot be lowered by 1, and `growproc` returns 0. -/
theorem not_growproc_exact :
    Space 0x80000000 freshMem 0x80000 (pages 0) ∧
      growproc 0x80000000 0x80000 0 (-1) freshMem = .ok ((0, 0), freshMem) ∧
      ¬ Exact 0x80000000 0x80000 0 (-1) freshMem := by
  have hrun : growproc 0x80000000 0x80000 0 (-1) freshMem = .ok ((0, 0), freshMem) := rfl
  refine ⟨space_freshMem, hrun, ?_⟩
  rintro ⟨z, sz, s', hrun', hiff, -, -⟩
  obtain ⟨⟨rfl, rfl⟩, -⟩ : (z = 0 ∧ sz = 0) ∧ s' = freshMem := by
    simpa using Except.ok.inj (hrun'.symm.trans hrun)
  exact absurd (hiff.mp rfl) (by decide)

end Xv6.Vm
