import Xv6.User.UmallocRun
import Xv6.Vm.Sbrk

/-! `malloc` for requests of any size. The size of the request goes through `uint` and 64 bits to
the `int` that `sbrk` takes, and the kernel adds it to the size of the process. -/
namespace Xv6.Umalloc
open Links PartialRun List BitVec

inductive Stop where
  | fault
  | loops

/-- `sbrk(n)`; `grant` says whether the kernel has memory. -/
def sbrkInt (grant : Bool) (h : Heap) (n : BitVec 32) : Option (ℕ × Heap) :=
  if 0 < n.toInt then
    if grant then some (h.brk, { h with brk := h.brk + n.toNat }) else none
  else if 0 ≤ (h.brk : ℤ) + n.toInt then
    some (h.brk, { h with brk := ((h.brk : ℤ) + n.toInt).toNat })
  else some (h.brk, h)

def Heap.Accessible (h : Heap) (p : ℕ) : Prop := p + 12 ≤ (h.brk + 4095) / 4096 * 4096

instance (h : Heap) (p : ℕ) : Decidable (h.Accessible p) := inferInstanceAs (Decidable (_ ≤ _))

def morecoreInt (grant : ℕ → Bool) (nu : ℕ) (h : Heap) : Except Stop (ℕ × Heap) :=
  let nu := if nu < 4096 then 4096 else nu
  match sbrkInt (grant h.brk) h (BitVec.ofNat 32 (nu * 16)) with
  | none => .ok (0, h)
  | some (p, h) =>
    if h.Accessible p then
      match free (h.setSize p nu) (p + 16) with
      | none => .error .loops
      | some h => .ok (h.freep, h)
    else .error .fault

def nunits (nbytes : BitVec 32) : ℕ := ((nbytes.toNat + 16 - 1) / 16 + 1) % 2 ^ 32

def searchInt (grant : ℕ → Bool) (nunits : ℕ) : ℕ → Heap → ℕ → ℕ → Except Stop (ℕ × Heap) :=
  searchWith (.error .loops) (morecoreInt grant nunits) nunits

def mallocInt (base : ℕ) (grant : ℕ → Bool) (h : Heap) (nbytes : BitVec 32) :
    Except Stop (ℕ × Heap) :=
  let h := if h.freep = 0 then ({ h.setPtr base base with freep := base } : Heap).setSize base 0 else h
  searchInt grant (nunits nbytes) (2 * h.fuel) h h.freep (h.next h.freep)

/-- `sys_sbrk` returns the old break and sets the new one as `sbrkInt` does. -/
theorem sysSbrk_sbrkInt {kend : Vm.Word} (hk : Vm.KERNBASE ≤ kend.toNat) {s : Vm.Kmem} {r : Vm.Frame}
    {psz : Vm.Word} (hs : Vm.Space kend s r (Vm.pages psz)) (n : BitVec 32) {h : Heap}
    (hb : h.brk = psz.toNat) :
    ∃ grant ret sz s', Vm.sysSbrk kend r psz n s = .ok ((ret, sz), s') ∧
      sbrkInt grant h n =
        (if ret = -1 then none else some (ret.toNat, { h with brk := sz.toNat })) ∧
      (ret = -1 → sz = psz) := by
  have hsz := hs.size_le hk
  obtain ⟨⟨z, sz⟩, s', hrun, hg⟩ := (Vm.growproc_sat n hk hs).exists_ok
  dsimp only at hg
  rcases hg.result with ⟨rfl, hnew⟩ | ⟨rfl, rfl, hpos, -⟩
  · have hne : psz ≠ -1 := by
      rintro rfl
      exact absurd hsz (by decide)
    refine ⟨true, psz, sz, s', Vm.sysSbrk_run hsz hrun, ?_, fun he => absurd he hne⟩
    rw [if_neg hne, sbrkInt, hb]
    by_cases hpos : 0 < n.toInt
    · obtain ⟨hint, -⟩ := Vm.toInt_pos hpos
      rw [if_pos (by omega)] at hnew
      rw [if_pos hpos, if_pos rfl, show psz.toNat + n.toNat = sz.toNat by omega]
    · rw [if_neg hpos]
      by_cases hsign : 0 ≤ (psz.toNat : ℤ) + n.toInt
      · rw [if_pos hsign] at hnew ⊢
        rw [← hnew, Int.toNat_natCast]
      · rw [if_neg hsign] at hnew ⊢
        rw [show sz.toNat = h.brk by omega]
  · refine ⟨false, -1, sz, s', ?_, ?_, fun _ => rfl⟩
    · rw [Vm.sysSbrk, Sat.run_bind hrun]
      rfl
    · rw [if_pos rfl, sbrkInt, if_pos hpos]
      rfl

theorem sysSbrk_sbrkInt_freshMem :
    let h : Heap := { mem := fun _ => ⟨0, 0⟩, freep := 0, brk := 0 }
    ∃ grant ret sz s', Vm.sysSbrk 0x80000000 0x80000 0 4096 Vm.freshMem = .ok ((ret, sz), s') ∧
      sbrkInt grant h 4096 =
        (if ret = -1 then none else some (ret.toNat, { h with brk := sz.toNat })) ∧
      (ret = -1 → sz = 0) :=
  sysSbrk_sbrkInt (by decide) Vm.space_freshMem 4096 rfl

variable {base lo b nu k x : ℕ} {h : Heap} {fs : List ℕ}

structure Ring (base lo : ℕ) (h : Heap) (fs : List ℕ) : Prop where
  base_pos : 0 < base
  base_lt : base + 16 ≤ lo
  brk : lo ≤ h.brk
  chain : Chain h.next (base :: fs ++ [base])
  blocks : fs.Pairwise fun x y => x + 16 * h.size x ≤ y
  pos : ∀ x ∈ fs, 0 < h.size x
  above : ∀ x ∈ fs, lo ≤ x
  below : ∀ x ∈ fs, x + 16 * h.size x ≤ h.brk
  freep : h.freep ∈ base :: fs
  base_size : h.size base = 0

theorem Ring.sorted (hr : Ring base lo h fs) : (base :: fs).Pairwise (· < ·) := by
  refine pairwise_cons.mpr ⟨fun x hx => ?_, ?_⟩
  · have := hr.above x hx
    have := hr.base_lt
    omega
  · refine hr.blocks.imp_of_mem fun {x y} hx _ hxy => ?_
    have := hr.pos x hx
    omega

theorem Ring.lt_brk (hr : Ring base lo h fs) (hx : x ∈ base :: fs) : x < h.brk := by
  rcases mem_cons.mp hx with rfl | hx
  · have := hr.base_lt
    have := hr.brk
    omega
  · have := hr.pos x hx
    have := hr.below x hx
    omega

theorem length_blocks_le {size : ℕ → ℕ} {a b : ℕ} (hblocks : fs.Pairwise fun x y => x + 16 * size x ≤ y)
    (hpos : ∀ x ∈ fs, 0 < size x) (habove : ∀ x ∈ fs, a ≤ x) (hbelow : ∀ x ∈ fs, x + 16 * size x ≤ b) :
    16 * fs.length ≤ b - a := by
  induction fs generalizing a with
  | nil => exact Nat.zero_le _
  | cons x fs ih =>
    obtain ⟨hx, hrest⟩ := pairwise_cons.mp hblocks
    have hlen := ih hrest (fun y hy => hpos y (mem_cons_of_mem _ hy)) hx
      fun y hy => hbelow y (mem_cons_of_mem _ hy)
    have := hpos x mem_cons_self
    have := habove x mem_cons_self
    have := hbelow x mem_cons_self
    rw [length_cons]
    omega

theorem Ring.length_le (hr : Ring base lo h fs) : fs.length ≤ h.brk / 16 := by
  have := length_blocks_le hr.blocks hr.pos hr.above hr.below
  omega

structure Grown (base brk nu : ℕ) (h h' : Heap) (fs fs' : List ℕ) : Prop where
  chain : Chain h'.next (base :: fs' ++ [base])
  sorted : (base :: fs').Pairwise (· < ·)
  freep : h'.freep ∈ base :: fs'
  length : fs'.length ≤ fs.length + 1
  new : ∃ x ∈ base :: fs', nu ≤ h'.size x
  sizes : ∀ x ∈ base :: fs', (nu ≤ h'.size x ∧ x + 16 * h'.size x = brk + 16 * nu) ∨
    (x ∈ base :: fs ∧ h'.size x = h.size x)

def Heap.extended (h : Heap) (b nu : ℕ) : Heap := ({ h with brk := b } : Heap).setSize h.brk nu

theorem next_extended (h : Heap) (b nu : ℕ) : (h.extended b nu).next = h.next := by
  funext y
  rw [Heap.extended, Heap.next_setSize]
  rfl

theorem size_extended : (h.extended b nu).size x = if x = h.brk then nu else h.size x := by
  rw [Heap.extended, Heap.size_setSize]
  rfl

theorem Ring.next_linked (hr : Ring base lo h fs) {y : ℕ} (hy : y ∈ base :: fs) :
    ((h.extended b nu).setPtr h.brk base).next y = h.next y := by
  rw [Heap.next_setPtr, if_neg (hr.lt_brk hy).ne, next_extended]

theorem Ring.size_linked (hr : Ring base lo h fs) {y : ℕ} (hy : y ∈ base :: fs) :
    ((h.extended b nu).setPtr h.brk base).size y = h.size y := by
  rw [Heap.size_setPtr, size_extended, if_neg (hr.lt_brk hy).ne]

section
variable {us : List ℕ} {g : ℕ} (hr : Ring base lo h fs) (hcut : base :: fs = us ++ [g])
include hcut

theorem last_mem : g ∈ base :: fs := by
  rw [hcut]
  exact mem_append_right _ mem_cons_self

include hr

theorem Ring.next_last : h.next g = base := by
  have hc := hr.chain
  rw [hcut, List.append_assoc] at hc
  exact (chain_cons_cons.mp (chain_split.mp hc).2).1

theorem Ring.walk_last (hb : h.brk ≤ b) :
    walk (h.extended b nu).next ((h.extended b nu).stops h.brk) (h.extended b nu).fuel
      (h.extended b nu).freep = some g := by
  have hchain := hr.chain
  rw [← next_extended h b nu] at hchain
  refine hchain.walk_unique hr.freep (last_mem hcut) (fun x hx => ?_) ?_
  · have hc := hchain
    have hs := hr.sorted
    rw [hcut] at hc hs hx
    rw [List.append_assoc] at hc
    refine @stops_iff _ _ _ _ _ _ [] hc hs (fun y hy => ?_) (fun y hy => ?_) (fun y hy => by cases hy) hx
    · rw [← hcut] at hy
      rcases mem_cons.mp hy with rfl | hy
      · exact le_refl _
      · exact ((pairwise_cons.mp hr.sorted).1 y hy).le
    · rw [← hcut] at hy
      exact hr.lt_brk hy
  · have := hr.length_le
    change fs.length < b / 16 + 2
    omega

theorem Ring.free_eq (nu : ℕ) (hb : h.brk ≤ b) :
    Umalloc.free (h.extended b nu) (h.brk + 16) = some
      { mergePrev ((h.extended b nu).setPtr h.brk base) g h.brk with freep := g } := by
  have hbb : base < h.brk := hr.lt_brk mem_cons_self
  have hmerge : mergeNext (h.extended b nu) g h.brk = (h.extended b nu).setPtr h.brk base := by
    rw [mergeNext, size_extended, if_pos rfl, next_extended, hr.next_last hcut, if_neg (by omega)]
  rw [Umalloc.free]
  dsimp only
  rw [Nat.add_sub_cancel, hr.walk_last hcut hb]
  exact congrArg (fun y => some { mergePrev y g h.brk with freep := g }) hmerge

theorem Ring.joined (hm : g + 16 * h.size g = h.brk) (hsize : h.size g + nu < 2 ^ 32) :
    Grown base h.brk nu h { mergePrev ((h.extended b nu).setPtr h.brk base) g h.brk with freep := g }
      fs fs := by
  have hg := last_mem hcut
  have hprev : mergePrev ((h.extended b nu).setPtr h.brk base) g h.brk =
      (((h.extended b nu).setPtr h.brk base).setSize g (h.size g + nu)).setPtr g base := by
    rw [mergePrev, hr.size_linked hg, if_pos hm]
    dsimp only
    rw [Heap.size_setPtr, size_extended, if_pos rfl, Nat.mod_eq_of_lt hsize, Heap.next_setSize,
      Heap.next_setPtr, if_pos rfl]
  rw [hprev]
  have hsize' : ∀ y, ({ (((h.extended b nu).setPtr h.brk base).setSize g (h.size g + nu)).setPtr g base
      with freep := g } : Heap).size y = if y = g then h.size g + nu
        else ((h.extended b nu).setPtr h.brk base).size y := by
    intro y
    change ((((h.extended b nu).setPtr h.brk base).setSize g (h.size g + nu)).setPtr g base).size y = _
    rw [Heap.size_setPtr, Heap.size_setSize]
  refine ⟨hr.chain.congr fun y hy => ?_, hr.sorted, hg, Nat.le_succ _, ⟨g, hg, ?_⟩, fun y hy => ?_⟩
  · change ((((h.extended b nu).setPtr h.brk base).setSize g (h.size g + nu)).setPtr g base).next y = _
    rw [Heap.next_setPtr, Heap.next_setSize]
    split
    · rw [‹y = g›, hr.next_last hcut]
    · exact hr.next_linked hy
  · rw [hsize', if_pos rfl]
    exact Nat.le_add_left _ _
  · rw [hsize']
    by_cases hyg : y = g
    · rw [if_pos hyg, hyg]
      exact .inl (by omega)
    · rw [if_neg hyg]
      exact .inr ⟨hy, hr.size_linked hy⟩

theorem Ring.linked (hm : g + 16 * h.size g ≠ h.brk) :
    Grown base h.brk nu h { mergePrev ((h.extended b nu).setPtr h.brk base) g h.brk with freep := g }
      fs (fs ++ [h.brk]) := by
  have hg := last_mem hcut
  have hgb := hr.lt_brk hg
  have hprev : mergePrev ((h.extended b nu).setPtr h.brk base) g h.brk =
      ((h.extended b nu).setPtr h.brk base).setPtr g h.brk := by
    rw [mergePrev, hr.size_linked hg, if_neg hm]
  rw [hprev]
  have hnext : ∀ y, ({ ((h.extended b nu).setPtr h.brk base).setPtr g h.brk with freep := g } :
      Heap).next y = if y = g then h.brk else ((h.extended b nu).setPtr h.brk base).next y :=
    fun y => Heap.next_setPtr ..
  have hsize : ∀ y, ({ ((h.extended b nu).setPtr h.brk base).setPtr g h.brk with freep := g } :
      Heap).size y = if y = h.brk then nu else h.size y := by
    intro y
    change (((h.extended b nu).setPtr h.brk base).setPtr g h.brk).size y = _
    rw [Heap.size_setPtr, Heap.size_setPtr, size_extended]
  have hnew : h.brk ∈ base :: (fs ++ [h.brk]) := by simp
  refine ⟨?_, ?_, mem_append_left [h.brk] hg, ?_, ⟨h.brk, hnew, ?_⟩, fun y hy => ?_⟩
  · rw [← List.cons_append, hcut, List.append_assoc, List.append_assoc]
    refine chain_split.mpr ⟨?_, chain_cons_cons.mpr ⟨?_, chain_cons_cons.mpr ⟨?_, chain_singleton _ _⟩⟩⟩
    · have hc := hr.chain
      rw [hcut, List.append_assoc] at hc
      have hnot : g ∉ us := fun hgu => by
        have hs := hr.sorted
        rw [hcut] at hs
        exact lt_irrefl g ((pairwise_append.mp hs).2.2 g hgu g mem_cons_self)
      refine (chain_split.mp hc).1.congr fun y hy => ?_
      rw [hnext, if_neg (ne_of_mem_of_not_mem hy hnot)]
      exact hr.next_linked (by rw [hcut]; exact mem_append_left _ hy)
    · rw [hnext, if_pos rfl]
    · rw [hnext, if_neg hgb.ne', Heap.next_setPtr, if_pos rfl]
  · rw [← List.cons_append]
    refine pairwise_append.mpr ⟨hr.sorted, pairwise_singleton _ _, fun y hy z hz => ?_⟩
    rw [mem_singleton.mp hz]
    exact hr.lt_brk hy
  · rw [length_append, length_singleton]
  · rw [hsize, if_pos rfl]
  · rw [hsize]
    rw [← List.cons_append, mem_append] at hy
    rcases hy with hy | hy
    · rw [if_neg (hr.lt_brk hy).ne]
      exact .inr ⟨hy, rfl⟩
    · rw [mem_singleton.mp hy, if_pos rfl]
      exact .inl ⟨le_refl _, rfl⟩

end

theorem free_brk {h' : Heap} {ap : ℕ} (hf : free h ap = some h') : h'.brk = h.brk := by
  rw [Umalloc.free] at hf
  obtain ⟨p, -, hp⟩ := Option.bind_eq_some_iff.mp hf
  cases hp
  have hnext : ∀ bp, (mergeNext h p bp).brk = h.brk := by
    intro bp
    rw [mergeNext]
    split <;> rfl
  have hprev : ∀ (y : Heap) bp, (mergePrev y p bp).brk = y.brk := by
    intro y bp
    rw [mergePrev]
    split <;> rfl
  exact (hprev _ _).trans (hnext _)

theorem Ring.free (hr : Ring base lo h fs) (hram : h.brk ≤ 2 ^ 27) (hb : h.brk ≤ b)
    (hnu : nu ≤ 2 ^ 28 + 1) :
    ∃ h' fs', Umalloc.free (h.extended b nu) (h.brk + 16) = some h' ∧ h'.brk = b ∧
      Grown base h.brk nu h h' fs fs' := by
  obtain ⟨us, g, hcut⟩ := exists_concat base fs
  have hfree := hr.free_eq hcut nu hb
  by_cases hm : g + 16 * h.size g = h.brk
  · exact ⟨_, fs, hfree, free_brk hfree, hr.joined hcut hm (by omega)⟩
  · exact ⟨_, fs ++ [h.brk], hfree, free_brk hfree, hr.linked hcut hm⟩

theorem take_eq (h : Heap) (prevp p n : ℕ) :
    (take h prevp p n).1 = p + 16 * (h.size p - n) + 16 ∧ (take h prevp p n).2.brk = h.brk := by
  rw [take]
  by_cases heq : h.size p = n
  · rw [if_pos heq, heq, Nat.sub_self]
    exact ⟨rfl, rfl⟩
  · rw [if_neg heq]
    dsimp only
    rw [Heap.size_setSize, if_pos rfl]
    exact ⟨rfl, rfl⟩

theorem Grown.search {h' : Heap} {fs' : List ℕ} {brk units n : ℕ} (out : Except Stop (ℕ × Heap))
    (more : Heap → Except Stop (ℕ × Heap)) (hg : Grown base brk nu h h' fs fs')
    (hsmall : ∀ x ∈ base :: fs, h.size x < units) (hunits : units ≤ nu) (hn : fs.length + 1 < n) :
    ∃ r h'', searchWith out more units n h' h'.freep (h'.next h'.freep) = .ok (r, h'') ∧
      r = brk + 16 * (nu - units) + 16 ∧ h''.brk = h'.brk := by
  obtain ⟨l, hc, hl, hlen, hmem⟩ := hg.chain.way hg.sorted hg.freep
  have hx : ∃ x ∈ l ++ [h'.freep], units ≤ h'.size x := by
    obtain ⟨x, hx, hfit⟩ := hg.new
    refine ⟨x, ?_, hunits.trans hfit⟩
    have := (hmem x).mpr hx
    simp only [mem_cons, mem_append, not_mem_nil, or_false] at this ⊢
    tauto
  have := hg.length
  obtain ⟨q, hq, hroom, hs⟩ := searchWith_fit out more hc hl hx (n := n) (by omega)
  have hnext : h'.next q ∈ base :: fs' := hg.chain.next_mem_ring ((hmem q).mp hq)
  obtain ⟨hres, hbrk⟩ := take_eq h' q (h'.next q) units
  refine ⟨(take h' q (h'.next q) units).1, _, hs, ?_, hbrk⟩
  rw [hres]
  rcases hg.sizes _ hnext with ⟨hle, hend⟩ | ⟨hold, hsize⟩
  · omega
  · have := hsmall _ hold
    omega

/-- What `malloc` has to do: the result is null or memory between the initial break and the break,
and the break is not lowered. -/
def Sound (base lo : ℕ) (grant : ℕ → Bool) (h : Heap) (nbytes : BitVec 32) : Prop :=
  ∃ r h', mallocInt base grant h nbytes = .ok (r, h') ∧ h.brk ≤ h'.brk ∧
    (r = 0 ∨ lo ≤ r ∧ r + nbytes.toNat ≤ h'.brk)

theorem nunits_eq (nbytes : BitVec 32) : nunits nbytes = (nbytes.toNat + 15) / 16 + 1 := by
  have := nbytes.isLt
  rw [nunits, Nat.mod_eq_of_lt (by omega)]
  rfl

theorem nunits_room (nbytes : BitVec 32) :
    16 + nbytes.toNat ≤ 16 * nunits nbytes ∧ nunits nbytes ≤ 2 ^ 28 + 1 ∧ 0 < nunits nbytes := by
  have := nbytes.isLt
  rw [nunits_eq]
  omega

theorem toInt_ofNat {n : ℕ} (h : n < 2 ^ 31) : (BitVec.ofNat 32 n).toInt = n := by
  rw [toInt_eq_toNat_cond, toNat_ofNat, if_pos (by omega)]
  omega

theorem toInt_ofNat_big {n : ℕ} (h1 : 2 ^ 31 ≤ n) (h2 : n < 2 ^ 32) :
    (BitVec.ofNat 32 n).toInt = n - 2 ^ 32 := by
  rw [toInt_eq_toNat_cond, toNat_ofNat, if_neg (by omega)]
  omega

section
variable {grant : ℕ → Bool} {nbytes : BitVec 32}

theorem Ring.found (grant : ℕ → Bool) (hr : Ring base lo h fs) (hfit : ∃ x ∈ base :: fs, nunits nbytes ≤ h.size x) :
    ∃ r h', searchInt grant (nunits nbytes) (2 * h.fuel) h h.freep (h.next h.freep) = .ok (r, h') ∧
      h'.brk = h.brk ∧ lo ≤ r ∧ r + nbytes.toNat ≤ h.brk := by
  obtain ⟨l, hc, hl, hlen, hmem⟩ := hr.chain.way hr.sorted hr.freep
  have hx : ∃ x ∈ l ++ [h.freep], nunits nbytes ≤ h.size x := by
    obtain ⟨x, hx, hfit⟩ := hfit
    refine ⟨x, ?_, hfit⟩
    have := (hmem x).mpr hx
    simp only [mem_cons, mem_append, not_mem_nil, or_false] at this ⊢
    tauto
  have hfuel : l.length < 2 * h.fuel := by
    have := hr.length_le
    rw [Heap.fuel]
    omega
  obtain ⟨q, hq, hroom, hs⟩ := searchWith_fit (.error .loops) (morecoreInt grant (nunits nbytes))
    hc hl hx hfuel
  obtain ⟨hres, hbrk⟩ := take_eq h q (h.next q) (nunits nbytes)
  have hbytes := nunits_room nbytes
  have hnext : h.next q ∈ fs := by
    rcases mem_cons.mp (hr.chain.next_mem_ring ((hmem q).mp hq)) with he | hf
    · rw [he, hr.base_size] at hroom
      omega
    · exact hf
  have h1 := hr.above _ hnext
  have h2 := hr.below _ hnext
  refine ⟨(take h q (h.next q) (nunits nbytes)).1, _, hs, hbrk, ?_⟩
  rw [hres]
  omega

theorem Ring.asks (grant : ℕ → Bool) (hr : Ring base lo h fs) (hsmall : ∀ x ∈ base :: fs, h.size x < nunits nbytes) :
    ∃ n, fs.length + 1 < n ∧
      searchInt grant (nunits nbytes) (2 * h.fuel) h h.freep (h.next h.freep) = (do
        let r ← morecoreInt grant (nunits nbytes) h
        if r.1 = 0 then return (0, r.2)
        else searchInt grant (nunits nbytes) n r.2 r.1 (r.2.next r.1)) := by
  obtain ⟨l, hc, hl, hlen, hmem⟩ := hr.chain.way hr.sorted hr.freep
  have hfuel : 2 * fs.length + 4 ≤ 2 * h.fuel := by
    have := hr.length_le
    rw [Heap.fuel]
    omega
  obtain ⟨n, hn⟩ : ∃ n, 2 * h.fuel = n + l.length + 1 := ⟨2 * h.fuel - l.length - 1, by omega⟩
  refine ⟨n, by omega, ?_⟩
  rw [hn]
  refine searchWith_small _ _ hc hl fun x hx => Nat.not_le_of_lt (hsmall x ((hmem x).mp ?_))
  rw [mem_append, mem_singleton] at hx
  exact mem_cons.mpr hx.symm

theorem Ring.moved (hr : Ring base lo h fs) (hram : h.brk ≤ 2 ^ 27)
    (hsmall : ∀ x ∈ base :: fs, h.size x < nunits nbytes) (hb : h.brk ≤ b)
    (hnu : nu = if nunits nbytes < 4096 then 4096 else nunits nbytes)
    (hsbrk : sbrkInt (grant h.brk) h (BitVec.ofNat 32 (nu * 16)) = some (h.brk, { h with brk := b })) :
    searchInt grant (nunits nbytes) (2 * h.fuel) h h.freep (h.next h.freep) = .error .fault ∧
        b < h.brk + 12 ∨
      ∃ h', searchInt grant (nunits nbytes) (2 * h.fuel) h h.freep (h.next h.freep) =
        .ok (h.brk + 16 * (nu - nunits nbytes) + 16, h') ∧ h'.brk = b := by
  have hbytes := nunits_room nbytes
  have hle : nunits nbytes ≤ nu ∧ nu ≤ 2 ^ 28 + 1 := by
    rw [hnu]
    split <;> omega
  obtain ⟨n, hn, hasks⟩ := hr.asks grant hsmall
  obtain ⟨h', fs', hfree, hbrk, hg⟩ := hr.free hram hb hle.2
  rw [hasks]
  by_cases hacc : ({ h with brk := b } : Heap).Accessible h.brk
  · have hmore : morecoreInt grant (nunits nbytes) h = .ok (h'.freep, h') := by
      rw [morecoreInt, ← hnu, hsbrk]
      dsimp only
      rw [if_pos hacc]
      change (match Umalloc.free (h.extended b nu) (h.brk + 16) with
        | none => Except.error Stop.loops
        | some h => Except.ok (h.freep, h)) = _
      rw [hfree]
    have hne : h'.freep ≠ 0 := by
      have hpos := hr.base_pos
      rcases mem_cons.mp hg.freep with he | hm
      · omega
      · have := (pairwise_cons.mp hg.sorted).1 _ hm
        omega
    obtain ⟨r, h'', hs, hres, hbrk''⟩ := hg.search (.error .loops)
      (morecoreInt grant (nunits nbytes)) hsmall hle.1 hn
    refine .inr ⟨h'', ?_, hbrk''.trans hbrk⟩
    rw [hmore]
    change (if h'.freep = 0 then _ else _) = _
    rw [if_neg hne, ← hres]
    exact hs
  · have hmore : morecoreInt grant (nunits nbytes) h = .error .fault := by
      rw [morecoreInt, ← hnu, hsbrk]
      dsimp only
      rw [if_neg hacc]
    refine .inl ⟨?_, ?_⟩
    · rw [hmore]
      rfl
    · have hacc : ¬ h.brk + 12 ≤ (b + 4095) / 4096 * 4096 := hacc
      omega

theorem sbrkInt_neg {n : BitVec 32} {g : Bool} (hn : n.toInt ≤ 0) :
    ∃ b ≤ h.brk, sbrkInt g h n = some (h.brk, { h with brk := b }) := by
  rw [sbrkInt, if_neg (Int.not_lt.mpr hn)]
  by_cases hsign : 0 ≤ (h.brk : ℤ) + n.toInt
  · exact ⟨_, by omega, if_pos hsign⟩
  · exact ⟨h.brk, le_refl _, if_neg hsign⟩

theorem morecoreInt_brk {units : ℕ} {q : ℕ × Heap} (hunits : 4096 ≤ units)
    (hn : (BitVec.ofNat 32 (units * 16)).toInt ≤ 0) (hm : morecoreInt grant units h = .ok q) :
    ∃ b ≤ h.brk, sbrkInt (grant h.brk) h (BitVec.ofNat 32 (units * 16)) =
      some (h.brk, { h with brk := b }) ∧ q.2.brk = b := by
  obtain ⟨b, hb, hs⟩ := sbrkInt_neg (h := h) (g := grant h.brk) hn
  refine ⟨b, hb, hs, ?_⟩
  rw [morecoreInt, if_neg (Nat.not_lt.mpr hunits), hs] at hm
  dsimp only at hm
  split at hm
  · split at hm
    · cases hm
    · rename_i hf
      cases hm
      exact free_brk hf
  · cases hm

theorem searchInt_brk {units n prevp p r : ℕ} {h' : Heap} (hunits : 4096 ≤ units)
    (hn : (BitVec.ofNat 32 (units * 16)).toInt ≤ 0)
    (hs : searchInt grant units n h prevp p = .ok (r, h')) : h'.brk ≤ h.brk := by
  induction n generalizing h prevp p with
  | zero => cases hs
  | succ n ih =>
    rw [searchInt, searchWith] at hs
    split at hs
    · obtain ⟨-, hbrk⟩ := take_eq h prevp p units
      rw [Except.ok.inj hs] at hbrk
      exact hbrk.le
    · split at hs
      · cases hm : morecoreInt grant units h with
        | error e =>
          rw [hm] at hs
          cases hs
        | ok q =>
          obtain ⟨b, hb, -, hq⟩ := morecoreInt_brk hunits hn hm
          rw [hm] at hs
          change (if q.1 = 0 then _ else _) = _ at hs
          split at hs
          · cases hs
            omega
          · exact (ih hs).trans (by omega)
      · exact ih hs

end

/-- A heap before the first call of `malloc`, or between two calls. -/
def State (base lo : ℕ) (h : Heap) : Prop :=
  (h.freep = 0 ∧ 0 < base ∧ base + 16 ≤ lo ∧ lo ≤ h.brk) ∨ ∃ fs, Ring base lo h fs

theorem State.ring (hs : State base lo h) :
    ∃ h₁ fs, Ring base lo h₁ fs ∧ h₁.brk = h.brk ∧ ∀ grant nbytes,
      mallocInt base grant h nbytes =
        searchInt grant (nunits nbytes) (2 * h₁.fuel) h₁ h₁.freep (h₁.next h₁.freep) := by
  rcases hs with ⟨h0, hpos, hlt, hbrk⟩ | ⟨fs, hr⟩
  · set h₁ := ({ h.setPtr base base with freep := base } : Heap).setSize base 0 with hh₁
    have hnext : h₁.next base = base := by
      rw [hh₁, Heap.next_setSize]
      change (h.setPtr base base).next base = base
      rw [Heap.next_setPtr, if_pos rfl]
    have hsize : h₁.size base = 0 := by rw [hh₁, Heap.size_setSize, if_pos rfl]
    have hnil : ∀ {P : ℕ → Prop}, ∀ x ∈ ([] : List ℕ), P x := fun x hx => absurd hx not_mem_nil
    refine ⟨h₁, [], ?_, rfl, fun grant nbytes => ?_⟩
    · exact ⟨hpos, hlt, hbrk, chain_cons_cons.mpr ⟨hnext, chain_singleton _ _⟩, List.Pairwise.nil, hnil,
        hnil, hnil, mem_cons_self, hsize⟩
    · rw [mallocInt]
      dsimp only
      rw [if_pos h0]
  · refine ⟨h, fs, hr, rfl, fun grant nbytes => ?_⟩
    have hne : h.freep ≠ 0 := by
      have hpos := hr.base_pos
      rcases mem_cons.mp hr.freep with he | hm
      · omega
      · have := (pairwise_cons.mp hr.sorted).1 _ hm
        omega
    rw [mallocInt]
    dsimp only
    rw [if_neg hne]

section
variable {grant : ℕ → Bool} {nbytes : BitVec 32} {h₁ : Heap}

theorem not_sound_of (hbad : ∀ r h', mallocInt base grant h nbytes = .ok (r, h') →
      h'.brk < h.brk ∨ (r ≠ 0 ∧ h'.brk < r + nbytes.toNat)) : ¬ Sound base lo grant h nbytes := by
  rintro ⟨r, h', hrun, hle, hr⟩
  rcases hbad r h' hrun with hlt | ⟨hne, hlt⟩
  · omega
  · rcases hr with rfl | hr
    · exact hne rfl
    · omega

variable (hr : Ring base lo h₁ fs) (hbrk : h₁.brk = h.brk) (hram : h₁.brk ≤ 2 ^ 27)
  (hrun : mallocInt base grant h nbytes =
    searchInt grant (nunits nbytes) (2 * h₁.fuel) h₁ h₁.freep (h₁.next h₁.freep))
  (hsmall : ∀ x ∈ base :: fs, h₁.size x < nunits nbytes)
include hr hbrk hrun hsmall

theorem sound_of_refused (hnone : sbrkInt (grant h₁.brk) h₁ (BitVec.ofNat 32
      ((if nunits nbytes < 4096 then 4096 else nunits nbytes) * 16)) = none) :
    Sound base lo grant h nbytes := by
  obtain ⟨n, -, hasks⟩ := hr.asks grant hsmall
  have hmore : morecoreInt grant (nunits nbytes) h₁ = .ok (0, h₁) := by rw [morecoreInt, hnone]
  refine ⟨0, h₁, ?_, hbrk.ge, .inl rfl⟩
  rw [hrun, hasks, hmore]
  rfl

theorem not_sound_of_lowered (hunits : 4096 ≤ nunits nbytes)
    (hneg : (BitVec.ofNat 32 (nunits nbytes * 16)).toInt ≤ 0) (hb : b < h₁.brk)
    (hsbrk : sbrkInt (grant h₁.brk) h₁ (BitVec.ofNat 32 (nunits nbytes * 16)) =
      some (h₁.brk, { h₁ with brk := b })) : ¬ Sound base lo grant h nbytes := by
  refine not_sound_of fun r h' hok => .inl ?_
  obtain ⟨n, -, hasks⟩ := hr.asks grant hsmall
  rw [hrun, hasks] at hok
  cases hm : morecoreInt grant (nunits nbytes) h₁ with
  | error e =>
    rw [hm] at hok
    cases hok
  | ok q =>
    obtain ⟨b', -, hsbrk', hq⟩ := morecoreInt_brk hunits hneg hm
    obtain rfl : b' = b := by simpa using hsbrk'.symm.trans hsbrk
    rw [hm] at hok
    change (if q.1 = 0 then _ else _) = _ at hok
    split at hok
    · cases hok
      omega
    · have := searchInt_brk hunits hneg hok
      omega

include hram

theorem sound_of_small (h27 : nunits nbytes < 2 ^ 27) : Sound base lo grant h nbytes := by
  obtain ⟨hroom, -, -⟩ := nunits_room nbytes
  set nu := if nunits nbytes < 4096 then 4096 else nunits nbytes with hnu
  have hlt : nunits nbytes ≤ nu ∧ nu < 2 ^ 27 ∧ 4096 ≤ nu := by
    rw [hnu]
    split <;> omega
  have hint := toInt_ofNat (n := nu * 16) (by omega)
  have hnat : (BitVec.ofNat 32 (nu * 16)).toNat = nu * 16 := by
    rw [toNat_ofNat]
    omega
  cases hgrant : grant h₁.brk with
  | false =>
    refine sound_of_refused hr hbrk hrun hsmall ?_
    rw [← hnu, sbrkInt, if_pos (by omega), hgrant]
    rfl
  | true =>
    have hsbrk : sbrkInt (grant h₁.brk) h₁ (BitVec.ofNat 32 (nu * 16)) =
        some (h₁.brk, { h₁ with brk := h₁.brk + nu * 16 }) := by
      rw [sbrkInt, if_pos (by omega), hgrant, if_pos rfl, hnat]
    have hlo := hr.brk
    rcases hr.moved hram hsmall (Nat.le_add_right _ _) hnu hsbrk with ⟨-, hb⟩ | ⟨h', hok, hb⟩
    · omega
    · exact ⟨_, h', hrun.trans hok, by omega, .inr ⟨by omega, by omega⟩⟩

theorem not_sound_of_behind (h27 : 2 ^ 27 ≤ nunits nbytes) (hb : h₁.brk ≤ b) (hb' : b ≤ h₁.brk + 16)
    (hsbrk : sbrkInt (grant h₁.brk) h₁ (BitVec.ofNat 32 (nunits nbytes * 16)) =
      some (h₁.brk, { h₁ with brk := b })) : ¬ Sound base lo grant h nbytes := by
  refine not_sound_of fun r h' hok => .inr ?_
  rw [hrun] at hok
  have hnu : nunits nbytes = if nunits nbytes < 4096 then 4096 else nunits nbytes :=
    (if_neg (by omega)).symm
  rcases hr.moved hram hsmall hb hnu hsbrk with ⟨hfault, -⟩ | ⟨h'', hok', hb''⟩
  · rw [hfault] at hok
    cases hok
  · obtain ⟨rfl, rfl⟩ : _ = r ∧ h'' = h' := by simpa using hok'.symm.trans hok
    have := nunits_eq nbytes
    omega

end

/-- The request fits into the `int` of `sbrk`, or comes to 16 bytes there and the kernel does not have
even these. -/
def Fits (grant : ℕ → Bool) (h : Heap) (nbytes : BitVec 32) : Prop :=
  nunits nbytes < 2 ^ 27 ∨ (nunits nbytes = 2 ^ 28 + 1 ∧ grant h.brk = false)

theorem sound_iff (hs : State base lo h) (hram : h.brk ≤ 2 ^ 27) (grant : ℕ → Bool)
    (nbytes : BitVec 32) : Sound base lo grant h nbytes ↔ Fits grant h nbytes := by
  obtain ⟨h₁, fs, hr, hbrk, hrun⟩ := hs.ring
  replace hrun := hrun grant nbytes
  obtain ⟨-, hmax, hpos⟩ := nunits_room nbytes
  rw [← hbrk] at hram
  by_cases hfit : ∃ x ∈ base :: fs, nunits nbytes ≤ h₁.size x
  · refine iff_of_true ?_ (.inl ?_)
    · obtain ⟨r, h', hfound, hb, h1, h2⟩ := hr.found grant hfit
      exact ⟨r, h', hrun.trans hfound, by omega, .inr ⟨h1, by omega⟩⟩
    · obtain ⟨x, hx, hfit⟩ := hfit
      rcases mem_cons.mp hx with rfl | hx
      · rw [hr.base_size] at hfit
        omega
      · have := hr.below x hx
        omega
  · have hsmall : ∀ x ∈ base :: fs, h₁.size x < nunits nbytes :=
      fun x hx => Nat.lt_of_not_le fun hle => hfit ⟨x, hx, hle⟩
    rcases Nat.lt_or_ge (nunits nbytes) (2 ^ 27) with h27 | h27
    · exact iff_of_true (sound_of_small hr hbrk hram hrun hsmall h27) (.inl h27)
    · rcases Nat.lt_or_ge (2 ^ 28) (nunits nbytes) with h28 | h28
      · -- the argument is 16
        have h29 : nunits nbytes = 2 ^ 28 + 1 := by omega
        have hint : BitVec.ofNat 32 (nunits nbytes * 16) = 16 := by
          rw [h29]
          decide
        rw [Fits, ← hbrk]
        cases hgrant : grant h₁.brk with
        | false =>
          refine iff_of_true (sound_of_refused hr hbrk hrun hsmall ?_) (.inr ⟨h29, rfl⟩)
          rw [if_neg (by omega), hint, hgrant]
          rfl
        | true =>
          refine iff_of_false (not_sound_of_behind hr hbrk hram hrun hsmall h27
            (Nat.le_add_right _ 16) (le_refl _) ?_) ?_
          · rw [hint, hgrant]
            rfl
          · rintro (hlt | ⟨-, hf⟩)
            · omega
            · cases hf
      · -- the argument is not positive
        refine iff_of_false ?_ (by unfold Fits; omega)
        have hneg : (BitVec.ofNat 32 (nunits nbytes * 16)).toInt ≤ 0 := by
          rcases Nat.lt_or_ge (nunits nbytes) (2 ^ 28) with hlt | hge
          · rw [toInt_ofNat_big (by omega) (by omega)]
            omega
          · rw [show nunits nbytes = 2 ^ 28 by omega]
            decide
        obtain ⟨b, hb, hsbrk⟩ := sbrkInt_neg (h := h₁) (g := grant h₁.brk) hneg
        rcases Nat.lt_or_ge b h₁.brk with hlt | hge
        · exact not_sound_of_lowered hr hbrk hrun hsmall (by omega) hneg hlt hsbrk
        · exact not_sound_of_behind hr hbrk hram hrun hsmall h27 hge (by omega) hsbrk

section
variable {cells : List Cell} {w : World} {grant : ℕ → Bool} {nbytes : BitVec 32}

theorem frees_blocks {a : ℕ} (hok : ∀ c ∈ cells, c.Ok) (hh : Headers h.mem a cells) :
    (frees a cells).Pairwise fun x y => x + 16 * h.size x ≤ y := by
  induction cells generalizing a with
  | nil => exact .nil
  | cons c cells ih =>
    have hrest := fun d hd => hok d (mem_cons_of_mem _ hd)
    obtain ⟨m, _ | n⟩ := c
    · refine pairwise_cons.mpr ⟨fun y hy => ?_, ih hrest hh.2⟩
      have hsize : h.size a = m := hh.1
      rw [hsize]
      exact (mem_frees hrest hy).1
    · exact ih hrest hh.2

theorem Inv.size_free (hi : Inv base lo h cells) (hx : x ∈ frees lo cells) :
    0 < h.size x ∧ x + 16 * h.size x ≤ h.brk := by
  obtain ⟨l, m, r, rfl, rfl⟩ := exists_of_mem_frees hx
  have hsize : h.size (lo + 16 * units l) = m := ((headers_append.mp hi.headers).2).1
  have hm := (hi.ok ⟨m, none⟩ (by simp)).1
  have hbrk := hi.brk
  rw [units_append, units_cons] at hbrk
  dsimp only at hm hbrk
  omega

theorem Inv.isRing (hpos : 0 < base) (hbase : base + 16 ≤ lo) (hi : Inv base lo h cells) :
    Ring base lo h (frees lo cells) where
  base_pos := hpos
  base_lt := hbase
  brk := hi.brk ▸ Nat.le_add_right _ _
  chain := hi.ring
  blocks := frees_blocks hi.ok hi.headers
  pos _ hx := (hi.size_free hx).1
  above _ hx := (mem_frees hi.ok hx).1
  below _ hx := (hi.size_free hx).2
  freep := hi.freep
  base_size := hi.base_size

theorem Shape.state (hpos : 0 < base) (hbase : base + 16 ≤ lo) (hs : Shape base lo w cells) :
    State base lo w.heap := by
  rcases hs.heap with ⟨hfreep, hbrk, -⟩ | hi
  · exact .inl ⟨hfreep, hpos, hbase, hbrk.ge⟩
  · exact .inr ⟨_, hi.isRing hpos hbase⟩

theorem morecoreInt_small {n : ℕ} {r : ℕ × Heap} (h27 : n < 2 ^ 27)
    (hm : morecore (h.brk + 2 ^ 31) grant h n = some r) : morecoreInt grant n h = .ok r := by
  rw [morecore] at hm
  rw [morecoreInt]
  set nu := if n < 4096 then 4096 else n with hnu
  have hlt : nu < 2 ^ 27 ∧ 4096 ≤ nu := by
    rw [hnu]
    split <;> omega
  have hint := toInt_ofNat (n := nu * 16) (by omega)
  have hnat : (BitVec.ofNat 32 (nu * 16)).toNat = nu * 16 := by
    rw [toNat_ofNat]
    omega
  dsimp only [sbrk] at hm
  dsimp only [sbrkInt]
  rw [if_pos (by omega), hnat]
  cases hgrant : grant h.brk with
  | false =>
    rw [if_neg (by simp [hgrant])] at hm
    rw [if_neg Bool.false_ne_true]
    exact congrArg Except.ok (Option.some.inj hm)
  | true =>
    have hacc : ({ h with brk := h.brk + nu * 16 } : Heap).Accessible h.brk := by
      change h.brk + 12 ≤ (h.brk + nu * 16 + 4095) / 4096 * 4096
      omega
    rw [if_pos ⟨hgrant, by omega⟩] at hm
    rw [if_pos rfl]
    dsimp only at hm ⊢
    rw [if_pos hacc]
    obtain ⟨h', hfree, hr⟩ := Option.bind_eq_some_iff.mp hm
    rw [hfree]
    exact congrArg Except.ok (Option.some.inj hr)

theorem morecoreInt_spec (hpos : 0 < base) (hbase : base < lo) (hi : Inv base lo h cells)
    (hram : h.brk ≤ 2 ^ 27) (hfit : Fits grant h nbytes) :
    morecoreInt grant (nunits nbytes) h = .ok (0, h) ∨
      ∃ h', morecoreInt grant (nunits nbytes) h = .ok (h'.freep, h') ∧
        Supplies base lo (nunits nbytes) cells h' := by
  rcases hfit with h27 | ⟨h29, hgrant⟩
  · have hlimit : h.brk + 2 ^ 31 < lo + 2 ^ 36 := by omega
    refine (morecore_spec hbase hi hpos hlimit).imp (morecoreInt_small h27) ?_
    rintro ⟨h', hmore, hsup⟩
    exact ⟨h', morecoreInt_small h27 hmore, hsup⟩
  · refine .inl ?_
    rw [morecoreInt, hgrant, h29]
    rfl

theorem mallocInt_spec (hpos : 0 < base) (hbase : base < lo) (hs : Shape base lo w cells)
    (hram : w.heap.brk ≤ 2 ^ 27) (hfit : Fits grant w.heap nbytes) :
    ∃ q h' cells', mallocInt base grant w.heap nbytes = .ok (q, h') ∧ Inv base lo h' cells' ∧
      units cells' < 2 ^ 32 ∧
      (useds lo cells').Perm
        (if q = 0 then useds lo cells else (q, nbytes.toNat) :: useds lo cells) := by
  have hi := hs.init hpos hbase
  have hbrk := hi.brk
  rw [mallocInt]
  dsimp only
  have hsame : (if w.heap.freep = 0 then
      ({ w.heap.setPtr base base with freep := base } : Heap).setSize base 0 else w.heap).brk =
        w.heap.brk := by
    split <;> rfl
  generalize (if w.heap.freep = 0 then
    ({ w.heap.setPtr base base with freep := base } : Heap).setSize base 0 else w.heap) = h₁ at *
  obtain ⟨hroom, -, hn⟩ := nunits_room nbytes
  rw [Fits, ← hsame] at hfit
  exact searchWith_spec hbase _ hi (by omega)
    (morecoreInt_spec hpos hbase hi (by omega) hfit) hn hroom

end

def stepInt (base : ℕ) (w : World) : Op → Option World
  | .malloc n grant =>
    (mallocInt base grant w.heap (BitVec.ofNat 32 n)).toOption.map fun r =>
      { heap := r.2, live := if r.1 = 0 then w.live else (r.1, n) :: w.live }
  | op => step base 0 w op

/-- A request is a `uint`, and a process is not larger than the memory of the machine; what is freed
or written is an unfreed result. -/
def LegalInt (w : World) : Op → Prop
  | .malloc n _ => n < 2 ^ 32 ∧ w.heap.brk ≤ 2 ^ 27
  | op => Legal w op

instance LegalInt.instDecidable (w : World) : (op : Op) → Decidable (LegalInt w op)
  | .malloc n _ => inferInstanceAs (Decidable (n < 2 ^ 32 ∧ w.heap.brk ≤ 2 ^ 27))
  | .free ap => inferInstanceAs (Decidable (Legal w (.free ap)))
  | .store ap data => inferInstanceAs (Decidable (Legal w (.store ap data)))

def Sounds (base lo : ℕ) (w : World) : Op → Prop
  | .malloc n grant => Sound base lo grant w.heap (BitVec.ofNat 32 n)
  | _ => True

def AllFit (w : World) : Op → Prop
  | .malloc n grant => Fits grant w.heap (BitVec.ofNat 32 n)
  | _ => True

instance AllFit.instDecidable (w : World) : (op : Op) → Decidable (AllFit w op)
  | .malloc _ grant => inferInstanceAs (Decidable (nunits _ < 2 ^ 27 ∨ (_ ∧ grant w.heap.brk = false)))
  | .free _ => inferInstanceAs (Decidable True)
  | .store _ _ => inferInstanceAs (Decidable True)

theorem stepInt_shape (hpos : 0 < base) (hbase : base + 16 ≤ lo) {w w' : World} {cells : List Cell}
    {op : Op} (hs : Shape base lo w cells) (hunits : units cells < 2 ^ 32) (hlegal : LegalInt w op)
    (hfit : AllFit w op) (hw : stepInt base w op = some w') :
    ∃ cells', Shape base lo w' cells' ∧ units cells' < 2 ^ 32 := by
  have hlt : base < lo := by omega
  have hlimit : 0 < lo + 2 ^ 36 := by omega
  have hstep (hl : Legal w op) (hw : step base 0 w op = some w') :
      ∃ cells', Shape base lo w' cells' ∧ units cells' < 2 ^ 32 := by
    obtain ⟨w₁, cells', hw₁, hs'⟩ := step_spec hpos hlt hs hunits hlimit hl
    obtain rfl := Option.some.inj (hw.symm.trans hw₁)
    exact ⟨cells', hs'⟩
  cases op with
  | malloc n grant =>
    obtain ⟨q, h', cells', hm, hi', hu, huseds⟩ := mallocInt_spec hpos hlt hs hlegal.2 hfit
    rw [toNat_ofNat, Nat.mod_eq_of_lt hlegal.1] at huseds
    rw [stepInt, hm] at hw
    obtain rfl := Option.some.inj hw
    refine ⟨cells', ⟨.inr hi', ?_⟩, hu⟩
    dsimp only
    split_ifs at huseds ⊢
    · exact hs.live.trans huseds.symm
    · exact (hs.live.cons _).trans huseds.symm
  | free ap => exact hstep hlegal hw
  | store ap data => exact hstep hlegal hw

/-- A program with its first break at `0x5010`. -/
def newProgram : World := start (fun _ => ⟨0, 0⟩) 0x5010

end Xv6.Umalloc
