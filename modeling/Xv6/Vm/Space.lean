import Xv6.Vm.Flat
import Mathlib.Data.Finset.Card
import Mathlib.Order.Interval.Finset.Nat

/-! The address space of a process: pages of its own from address 0 up to its size. `uvmalloc` and
`uvmdealloc` change the size, and pages only go from the free list to the process and back. -/
namespace Xv6.Vm
open Bytes Radix

variable {s s' s'' : Kmem} {r t f : Frame} {n m k v N N' N'' : ℕ} {a last kend : Word}
  {fs : List Frame} {perm : BitVec 32} {x : Page}

/-- The pages that are free or part of the table. -/
def Kmem.pool (s : Kmem) (r : Frame) : Set Frame := {f | f ∈ s.freelist} ∪ s.tables r

/-- The pages that are free, part of the table, or one of the `N` pages of the process. -/
def Kmem.own (s : Kmem) (r : Frame) (N : ℕ) : Set Frame := s.pool r ∪ s.phys r '' Set.Iio N

/-- The table maps the pages below `N`, and no other page below the trapframe. The pages are not
shared. -/
structure Space (kend : Word) (s : Kmem) (r : Frame) (N : ℕ) : Prop where
  ready : Ready s r
  bound : N ≤ TRAPFRAME / PGSIZE
  mapped : ∀ n < N, ∃ e, s.leaf r n = some e ∧ PTE_FLAGS e ≠ PTE_V
  empty : ∀ n, N ≤ n → n < TRAPFRAME / PGSIZE → s.leaf r n = none
  inj : Set.InjOn (s.phys r) (Set.Iio N)
  apart : ∀ n < N, s.phys r n ∉ s.pool r
  ram : ∀ f ∈ s.own r N, InRam kend f

/-- From a space of `N` pages to one of `N'`: no page of memory is lost or gained, no other page
is written to, and the pages that the process keeps are as they were. -/
structure Resizes (kend : Word) (r : Frame) (s : Kmem) (N : ℕ) (s' : Kmem) (N' : ℕ) : Prop where
  space : Space kend s' r N'
  own : s'.own r N' = s.own r N
  outside : ∀ f ∉ s.own r N, s'.page f = s.page f
  kept : ∀ n < N, n < N' → s'.leaf r n = s.leaf r n ∧ s'.page (s.phys r n) = s.page (s.phys r n)
  high : ∀ n, TRAPFRAME / PGSIZE ≤ n → n < 512 ^ 3 → s'.leaf r n = s.leaf r n

theorem lt_of_lt_TRAPFRAME (h : n < TRAPFRAME / PGSIZE) : n < MAXVA / PGSIZE := h.trans (by decide)

theorem Space.lt_cube (h : Space kend s r N) (hn : n < N) : n < 512 ^ 3 :=
  Vm.lt_cube (lt_of_lt_TRAPFRAME (hn.trans_le h.bound))

theorem phys_congr (h : s'.leaf r n = s.leaf r n) : s'.phys r n = s.phys r n := by
  rw [Kmem.phys, h, Kmem.phys]

theorem phys_of_leaf {e : Word} (he : s.leaf r n = some e) : s.phys r n = frame (PTE2PA e) := by
  rw [Kmem.phys, he, Option.getD_some]

theorem Space.refl (h : Space kend s r N) : Resizes kend r s N s N where
  space := h
  own := rfl
  outside _ _ := rfl
  kept _ _ _ := ⟨rfl, rfl⟩
  high _ _ _ := rfl

theorem Resizes.trans (h : Resizes kend r s N s' N') (h' : Resizes kend r s' N' s'' N'')
    (hN : min N N'' ≤ N') : Resizes kend r s N s'' N'' where
  space := h'.space
  own := h'.own.trans h.own
  outside f hf := (h'.outside f (by rwa [h.own])).trans (h.outside f hf)
  kept n hn hn'' := by
    have hn' : n < N' := (lt_min hn hn'').trans_le hN
    obtain ⟨hleaf, hpage⟩ := h.kept n hn hn'
    obtain ⟨hleaf', hpage'⟩ := h'.kept n hn' hn''
    rw [phys_congr hleaf] at hpage'
    exact ⟨hleaf'.trans hleaf, hpage'.trans hpage⟩
  high n h1 h2 := (h'.high n h1 h2).trans (h.high n h1 h2)

theorem Space.le_ram (h : Space kend s r N) (lo : ℕ) (hlo : lo * 4096 ≤ kend.toNat) :
    N ≤ PHYSTOP / 4096 - lo := by
  have hcard : ((Finset.range N).image fun n => (s.phys r n).toNat).card = N := by
    rw [Finset.card_image_of_injOn, Finset.card_range]
    intro n hn m hm he
    rw [Finset.coe_range] at hn hm
    exact h.inj hn hm (BitVec.eq_of_toNat_eq he)
  rw [← hcard, ← Nat.card_Ico]
  refine Finset.card_le_card fun x hx => ?_
  obtain ⟨n, hn, rfl⟩ := Finset.mem_image.mp hx
  obtain ⟨h1, h2⟩ := h.ram _ (Set.mem_union_right _ ⟨n, Finset.mem_range.mp hn, rfl⟩)
  have h1 : kend.toNat ≤ (addr (s.phys r n)).toNat := h1
  rw [toNat_addr] at h1 h2
  rw [Finset.mem_Ico]
  unfold PHYSTOP KERNBASE at h2 ⊢
  omega

theorem Space.lt_TRAPFRAME (h : Space kend s r N) : N < TRAPFRAME / PGSIZE :=
  (h.le_ram 0 (by omega)).trans_lt (by decide)

theorem Space.private (h : Space kend s r N) (v : ℕ) : Private s r v (N - v) := by
  have hlt : ∀ {m}, m ∈ Set.Ico v (min (v + (N - v)) (MAXVA / PGSIZE)) → m < N := by
    rintro m ⟨h1, h2⟩
    omega
  exact ⟨fun m hm m' hm' he => h.inj (hlt hm) (hlt hm') he,
    fun m hm hf => h.apart m (hlt hm) (Set.mem_union_left _ hf),
    fun m hm hf => h.apart m (hlt hm) (Set.mem_union_right _ hf)⟩

theorem mem_backing : f ∈ s.backing r v k ↔ ∃ m, v ≤ m ∧ m < v + k ∧ s.phys r m = f := by
  rw [Kmem.backing, List.mem_reverse, List.mem_map]
  refine exists_congr fun m => ?_
  rw [List.mem_range'_1, and_assoc]

theorem Space.shrink (h : Space kend s r N) (hv : v ≤ N)
    (hun : Unmaps r v (N - v) (s.backing r v (N - v)) s s') : Resizes kend r s N s' v := by
  have hleaf : ∀ n < v, s'.leaf r n = s.leaf r n := fun n hn => by
    rw [hun.leaf n (h.lt_cube (hn.trans_le hv)), if_neg (by omega)]
  have hphys : ∀ n < v, s'.phys r n = s.phys r n := fun n hn => phys_congr (hleaf n hn)
  have hpool : s'.pool r = s.pool r ∪ {f | f ∈ s.backing r v (N - v)} := by
    ext f
    rw [Kmem.pool, hun.free, hun.tables, Kmem.pool]
    simp only [Set.mem_union, Set.mem_ofPred_eq, List.mem_append]
    tauto
  have hback : ∀ n < v, s.phys r n ∉ s.backing r v (N - v) := by
    intro n hn hm
    obtain ⟨m, h1, h2, he⟩ := mem_backing.mp hm
    have := h.inj (Set.mem_Iio.mpr (by omega : m < N)) (Set.mem_Iio.mpr (hn.trans_le hv)) he
    omega
  have hown : s'.own r v = s.own r N := by
    ext f
    rw [Kmem.own, hpool, Kmem.own]
    constructor
    · rintro ((hf | hf) | ⟨n, hn, rfl⟩)
      · exact .inl hf
      · obtain ⟨m, h1, h2, rfl⟩ := mem_backing.mp hf
        exact .inr ⟨m, Set.mem_Iio.mpr (by omega), rfl⟩
      · exact .inr ⟨n, Set.mem_Iio.mpr (lt_of_lt_of_le hn hv), (hphys n hn).symm⟩
    · rintro (hf | ⟨n, hn, rfl⟩)
      · exact .inl (.inl hf)
      · rcases Nat.lt_or_ge n v with hnv | hnv
        · exact .inr ⟨n, hnv, hphys n hnv⟩
        · have hn : n < N := hn
          exact .inl (.inr (mem_backing.mpr ⟨n, hnv, by omega, rfl⟩))
  refine ⟨⟨hun.ready, hv.trans h.bound, fun n hn => ?_, fun n h1 h2 => ?_, fun n hn m hm he => ?_,
    fun n hn => ?_, ?_⟩, hown, fun f hf => ?_, fun n _ hn => ⟨hleaf n hn, ?_⟩, fun n h1 h2 => ?_⟩
  · rw [hleaf n hn]
    exact h.mapped n (hn.trans_le hv)
  · rw [hun.leaf n (Vm.lt_cube (lt_of_lt_TRAPFRAME h2))]
    split
    · rfl
    · exact h.empty n (by omega) h2
  · rw [hphys n hn, hphys m hm] at he
    exact h.inj (lt_of_lt_of_le hn hv) (lt_of_lt_of_le hm hv) he
  · rw [hphys n hn, hpool]
    rintro (hf | hf)
    · exact h.apart n (hn.trans_le hv) hf
    · exact hback n hn hf
  · rw [hown]
    exact h.ram
  · refine hun.kept f (fun hm => hf (.inl (.inr hm))) fun hm => hf ?_
    obtain ⟨m, h1, h2, rfl⟩ := mem_backing.mp hm
    exact .inr ⟨m, Set.mem_Iio.mpr (by omega), rfl⟩
  · exact hun.kept _ (fun hm => h.apart n (hn.trans_le hv) (.inr hm)) (hback n hn)
  · have := h.bound
    rw [hun.leaf n h2, if_neg (by omega)]

def page (n : ℕ) : Word := BitVec.ofNat 64 (n * 4096)

theorem toNat_page (h : n ≤ 2 ^ 51) : (page n).toNat = n * 4096 := by
  rw [page, BitVec.toNat_ofNat]
  omega

theorem vpn_page (h : n ≤ 2 ^ 51) : vpn (page n) = n := by
  rw [vpn, toNat_page h]
  exact Nat.mul_div_cancel n (by decide)

theorem Space.bound' (h : Space kend s r N) : N < 2 ^ 26 := h.lt_TRAPFRAME.trans (by decide)

theorem Space.unmap (h : Space kend s r N) (hv : v ≤ N) :
    Sat (uvmunmap kend r (page v) (BitVec.ofNat 64 (N - v)) true) s
      (fun _ s' => Resizes kend r s N s' v ∧ s'.deny = s.deny) fun _ => False := by
  have hN := h.bound'
  have hva : (page v).toNat = v * 4096 := toNat_page (by omega)
  have hn : (BitVec.ofNat 64 (N - v)).toNat = N - v := by
    rw [BitVec.toNat_ofNat]
    omega
  have hk : (page v + BitVec.ofNat 64 (N - v) * 4096).toNat = (page v).toNat + 4096 * (N - v) := by
    rw [BitVec.toNat_add, BitVec.toNat_mul, hva, hn]
    change (v * 4096 + (N - v) * 4096 % 2 ^ 64) % 2 ^ 64 = _
    omega
  have hvpn : vpn (page v) = v := vpn_page (by omega)
  refine (uvmunmap_sat (k := N - v) h.ready (by rw [hva]; omega) hk hn.ge
    (fun _ => by rw [hvpn]; exact h.private v)).mono ?_ ?_
  · rintro - s' ⟨-, hun⟩
    rw [hvpn] at hun
    exact ⟨h.shrink hv hun, hun.deny⟩
  · rintro - ⟨m, h1, h2, hrem⟩
    rw [hvpn] at h1 h2
    have hm : m < N := by omega
    exact hrem ⟨lt_of_lt_TRAPFRAME (hm.trans_le h.bound), h.mapped m hm,
      fun _ => h.ram _ (.inr ⟨m, hm, rfl⟩)⟩

def pages (sz : Word) : ℕ := (sz.toNat + 4095) / 4096

theorem PGROUNDUP_eq {sz : Word} (h : pages sz ≤ 2 ^ 51) : PGROUNDUP sz = page (pages sz) := by
  apply BitVec.eq_of_toNat_eq
  rw [toNat_page h]
  unfold pages at h ⊢
  exact toNat_PGROUNDUP (by omega)

theorem page_lt_page (hn : n ≤ 2 ^ 51) (hm : m ≤ 2 ^ 51) : page n < page m ↔ n < m := by
  rw [BitVec.lt_def, toNat_page hn, toNat_page hm]
  omega

theorem uvmdealloc_sat {old new : Word} (h : Space kend s r (pages old)) :
    Sat (uvmdealloc kend r old new) s
      (fun z s' => z = (if old ≤ new then old else new) ∧
        Resizes kend r s (pages old) s' (pages z) ∧ s'.deny = s.deny) fun _ => False := by
  have hN := h.bound'
  rw [uvmdealloc]
  refine Sat.ite (fun hle => ?_) fun hlt => ?_
  · rw [if_pos hle]
    exact Sat.pure ⟨rfl, h.refl, rfl⟩
  · have hnew : new.toNat < old.toNat := Nat.lt_of_not_le hlt
    have hpages : pages new ≤ pages old := Nat.div_le_div_right (by omega)
    rw [if_neg hlt, PGROUNDUP_eq (by omega), PGROUNDUP_eq (by omega)]
    refine Sat.bind (R := fun _ s' => Resizes kend r s (pages old) s' (pages new) ∧
      s'.deny = s.deny) ?_ fun _ s' hs => Sat.pure ⟨rfl, hs⟩
    rw [doIf]
    refine Sat.ite (fun _ => ?_) fun hge => ?_
    · have hcount : ((page (pages old) - page (pages new)) / 4096).setWidth 32 =
          BitVec.ofNat 32 (pages old - pages new) := by
        apply BitVec.eq_of_toNat_eq
        rw [BitVec.toNat_setWidth, BitVec.toNat_udiv, BitVec.toNat_sub, toNat_page (by omega),
          toNat_page (by omega), BitVec.toNat_ofNat]
        change (2 ^ 64 - pages new * 4096 + pages old * 4096) % 2 ^ 64 / 4096 % 2 ^ 32 = _
        omega
      have hext : (BitVec.ofNat 32 (pages old - pages new)).signExtend 64 =
          BitVec.ofNat 64 (pages old - pages new) := by
        have hmsb : (BitVec.ofNat 32 (pages old - pages new)).msb = false := by
          rw [BitVec.msb_eq_false_iff_two_mul_lt, BitVec.toNat_ofNat]
          omega
        apply BitVec.eq_of_toNat_eq
        rw [BitVec.signExtend_eq_setWidth_of_msb_false hmsb, BitVec.toNat_setWidth,
          BitVec.toNat_ofNat, BitVec.toNat_ofNat]
        omega
      rw [hcount]
      dsimp only
      rw [hext]
      exact h.unmap hpages
    · rw [page_lt_page (by omega) (by omega)] at hge
      rw [show pages new = pages old by omega]
      exact Sat.pure ⟨h.refl, rfl⟩

theorem own_of_leaf (hleaf : ∀ n < N, s'.leaf r n = s.leaf r n) :
    s'.own r N = s'.pool r ∪ s.phys r '' Set.Iio N :=
  congrArg (s'.pool r ∪ ·) (Set.image_congr fun n hn => phys_congr (hleaf n hn))

theorem Space.of_leaf (h : Space kend s r N) (hr : Ready s' r)
    (hleaf : ∀ n < 512 ^ 3, s'.leaf r n = s.leaf r n) (hpool : ∀ n < N, s.phys r n ∉ s'.pool r)
    (hram : ∀ f ∈ s'.pool r, InRam kend f) : Space kend s' r N := by
  have hleaf' : ∀ n < N, s'.leaf r n = s.leaf r n := fun n hn => hleaf n (h.lt_cube hn)
  have hphys : ∀ n < N, s'.phys r n = s.phys r n := fun n hn => phys_congr (hleaf' n hn)
  refine ⟨hr, h.bound, fun n hn => ?_, fun n h1 h2 => ?_, fun n hn m hm he => ?_, fun n hn => ?_,
    fun f hf => ?_⟩
  · rw [hleaf' n hn]
    exact h.mapped n hn
  · rw [hleaf n (Vm.lt_cube (lt_of_lt_TRAPFRAME h2))]
    exact h.empty n h1 h2
  · rw [hphys n hn, hphys m hm] at he
    exact h.inj hn hm he
  · rw [hphys n hn]
    exact hpool n hn
  · rw [own_of_leaf hleaf'] at hf
    exact hf.elim (hram f) fun hm => h.ram f (.inr hm)

theorem page_take (h : t ≠ f) : (s.take f x).page t = s.page t := Function.update_of_ne h _ _

section
variable {l : List Frame} (hf : s.freelist = f :: l)
include hf

theorem pool_take (h : Ready s r) :
    s.pool r = insert f ((s.take f x).pool r) ∧ f ∉ (s.take f x).pool r ∧
      (∀ n, (s.take f x).leaf r n = s.leaf r n) ∧ Ready (s.take f x) r := by
  have hmem : f ∈ s.freelist := hf ▸ List.mem_cons_self
  have hagree : ∀ y ∈ s.tables r, (s.take f x).page y = s.page y :=
    fun y hy => page_take fun he => h.apart y hy (by rwa [he])
  have htables : (s.take f x).tables r = s.tables r := tables_agree hagree
  have hlist : (s.take f x).freelist = l := congrArg List.tail hf
  have hn := h.nodup
  rw [hf, List.nodup_cons] at hn
  refine ⟨?_, ?_, leaf_agree hagree, ⟨isTree_agree hagree h.tree, ?_, fun y hy hl => ?_⟩⟩
  · ext y
    rw [Kmem.pool, Kmem.pool, htables, hlist, hf]
    simp only [Set.mem_union, Set.mem_ofPred_eq, List.mem_cons, Set.mem_insert_iff, or_assoc]
  · rw [Kmem.pool, htables, hlist]
    rintro (hl | ht)
    · exact hn.1 hl
    · exact h.apart f ht hmem
  · rw [hlist]
    exact hn.2
  · rw [htables] at hy
    rw [hlist] at hl
    exact h.apart y hy (hf ▸ List.mem_cons_of_mem f hl)

theorem Space.take (h : Space kend s r N) (x : Page) :
    Space kend (s.take f x) r N ∧ s.own r N = insert f ((s.take f x).own r N) ∧
      f ∉ (s.take f x).own r N := by
  obtain ⟨hpool, hfresh, hleaf, hready⟩ := pool_take (x := x) hf h.ready
  have hsub : ∀ g ∈ (s.take f x).pool r, g ∈ s.pool r := fun g hg => by
    rw [hpool]
    exact .inr hg
  have hown := own_of_leaf (N := N) fun n _ => hleaf n
  refine ⟨h.of_leaf hready (fun n _ => hleaf n) (fun n hn hm => h.apart n hn (hsub _ hm))
    fun g hg => h.ram g (.inl (hsub g hg)), ?_, ?_⟩
  · rw [Kmem.own, hpool, hown, Set.insert_union]
  · rw [hown]
    rintro (hm | ⟨n, hn, he⟩)
    · exact hfresh hm
    · refine h.apart n hn ?_
      rw [he, hpool]
      exact .inl rfl

end

theorem Extends.pool (h : Extends r fs s s') : s'.pool r = s.pool r := by
  ext y
  rw [Kmem.pool, Kmem.pool, h.tables, h.free]
  simp only [Set.mem_union, Set.mem_ofPred_eq, List.mem_append]
  tauto

theorem Space.extend (h : Space kend s r N) (he : Extends r fs s s')
    (hleaf : ∀ n < 512 ^ 3, s'.leaf r n = s.leaf r n) : Resizes kend r s N s' N := by
  have hpool := he.pool
  have hleaf' : ∀ n < N, s'.leaf r n = s.leaf r n := fun n hn => hleaf n (h.lt_cube hn)
  have hkept : ∀ g ∉ s.pool r, s'.page g = s.page g :=
    fun g hg => he.kept g fun hm => hg (by rw [← hpool]; exact .inr hm)
  refine ⟨h.of_leaf he.ready hleaf (fun n hn => ?_) fun f hf => ?_, ?_,
    fun g hg => hkept g fun hm => hg (.inl hm),
    fun n hn _ => ⟨hleaf' n hn, hkept _ (h.apart n hn)⟩, fun n _ h2 => hleaf n h2⟩
  · rw [hpool]
    exact h.apart n hn
  · rw [hpool] at hf
    exact h.ram f (.inl hf)
  · rw [own_of_leaf hleaf', hpool, Kmem.own]

theorem Space.addPage (h : Space kend s r N) (hf : f ∉ s.own r N) (hram : InRam kend f)
    (hN : N < TRAPFRAME / PGSIZE) (hm : Maps r perm N (addr f) 1 fs s s')
    (hperm : PTE_FLAGS (entry (addr f) perm) ≠ PTE_V)
    (hentry : frame (PTE2PA (entry (addr f) perm)) = f) :
    Space kend s' r (N + 1) ∧ s'.own r (N + 1) = insert f (s.own r N) ∧ s'.phys r N = f ∧
      (∀ n < 512 ^ 3, n ≠ N → s'.leaf r n = s.leaf r n) ∧ ∀ g ∉ s.pool r, s'.page g = s.page g := by
  have hlast : s'.leaf r N = some (entry (addr f) perm) := by
    rw [hm.leaf N (Vm.lt_cube (lt_of_lt_TRAPFRAME hN)), if_pos (by omega), Nat.sub_self]
    simp
  have hleaf : ∀ n < 512 ^ 3, n ≠ N → s'.leaf r n = s.leaf r n := fun n hn hne => by
    rw [hm.leaf n hn, if_neg (by omega)]
  have hphys : ∀ n < N, s'.phys r n = s.phys r n :=
    fun n hn => phys_congr (hleaf n (h.lt_cube hn) hn.ne)
  have hphysN : s'.phys r N = f := by
    rw [Kmem.phys, hlast]
    exact hentry
  have hpool : s'.pool r = s.pool r := hm.toExtends.pool
  have himage : s'.phys r '' Set.Iio (N + 1) = insert f (s.phys r '' Set.Iio N) := by
    have hsplit : Set.Iio (N + 1) = insert N (Set.Iio N) := by
      ext n
      simp only [Set.mem_Iio, Set.mem_insert_iff]
      omega
    rw [hsplit, Set.image_insert_eq, hphysN]
    exact congrArg _ (Set.image_congr hphys)
  have hown : s'.own r (N + 1) = insert f (s.own r N) := by
    rw [Kmem.own, hpool, himage, Set.union_insert, Kmem.own]
  refine ⟨⟨hm.ready, hN, fun n hn => ?_, fun n h1 h2 => ?_, fun n hn m hm he => ?_,
    fun n hn => ?_, fun g hg => ?_⟩, hown, hphysN, hleaf, fun g hg => hm.kept g fun ht => hg ?_⟩
  · rcases Nat.lt_succ_iff_lt_or_eq.mp hn with hn | rfl
    · rw [hleaf n (h.lt_cube hn) hn.ne]
      exact h.mapped n hn
    · exact ⟨_, hlast, hperm⟩
  · rw [hleaf n (Vm.lt_cube (lt_of_lt_TRAPFRAME h2)) (by omega)]
    exact h.empty n (by omega) h2
  · have hne : ∀ k < N, s'.phys r k ≠ f := fun k hk he => hf (.inr ⟨k, hk, (hphys k hk).symm.trans he⟩)
    rcases Nat.lt_succ_iff_lt_or_eq.mp hn with hn | rfl <;>
      rcases Nat.lt_succ_iff_lt_or_eq.mp hm with hm | rfl
    · rw [hphys n hn, hphys m hm] at he
      exact h.inj hn hm he
    · exact absurd (he.trans hphysN) (hne n hn)
    · exact absurd (he.symm.trans hphysN) (hne m hm)
    · rfl
  · rw [hpool]
    rcases Nat.lt_succ_iff_lt_or_eq.mp hn with hn | rfl
    · rw [hphys n hn]
      exact h.apart n hn
    · rw [hphysN]
      exact fun hp => hf (.inl hp)
  · rw [hown] at hg
    rcases hg with rfl | hg
    · exact hram
    · exact h.ram g hg
  · rw [← hpool]
    exact .inr ht

theorem Space.put (h : Space kend s r N) (hf : f ∉ s.own r N) (hram : InRam kend f) :
    Space kend (s.put f) r N ∧ (s.put f).own r N = insert f (s.own r N) ∧
      ∀ n, (s.put f).leaf r n = s.leaf r n := by
  have hpoolf : f ∉ s.pool r := fun hp => hf (.inl hp)
  have htab : f ∉ s.tables r := fun ht => hpoolf (.inr ht)
  have hleaf := leaf_put (s := s) htab
  have hpool : (s.put f).pool r = insert f (s.pool r) := by
    ext y
    rw [Kmem.pool, tables_put htab, Kmem.pool]
    change (y ∈ f :: s.freelist ∨ y ∈ s.tables r) ↔ y = f ∨ y ∈ s.freelist ∨ y ∈ s.tables r
    rw [List.mem_cons, or_assoc]
  refine ⟨h.of_leaf (h.ready.put (fun hl => hpoolf (.inl hl)) htab) (fun n _ => hleaf n)
    (fun n hn hm => ?_) fun g hg => ?_, ?_, hleaf⟩
  · rw [hpool] at hm
    rcases hm with he | hm
    · exact hf (.inr ⟨n, hn, he⟩)
    · exact h.apart n hn hm
  · rw [hpool] at hg
    rcases hg with rfl | hg
    · exact hram
    · exact h.ram g (.inl hg)
  · rw [own_of_leaf fun n _ => hleaf n, hpool, Set.insert_union, Kmem.own]

section
variable {l : List Frame} (h : Space kend s r N) (hf : s.freelist = f :: l)
include h hf

theorem Space.ram_head : InRam kend f := h.ram f (.inl (.inl (hf ▸ List.mem_cons_self)))

theorem Space.grow (hm : Maps r perm N (addr f) 1 fs (s.take f x) s') (hperm : perm.toNat < 1024)
    (hflags : flagsOf perm ≠ PTE_V) :
    Resizes kend r s N s' (N + 1) ∧ s'.leaf r N = some (entry (addr f) perm) ∧
      s'.phys r N = f ∧ s'.page f = x := by
  obtain ⟨htake, hown, hfresh⟩ := h.take hf x
  obtain ⟨hframe, hfl⟩ := Prod.mk.inj (entry_meaning hperm (addr f))
  rw [frame_addr] at hframe
  rw [← hfl] at hflags
  obtain ⟨hspace, hown', hphys, hleaf, hkept⟩ :=
    htake.addPage hfresh (h.ram_head hf) h.lt_TRAPFRAME hm hflags hframe
  obtain ⟨hpool, hfresh', hleaf', -⟩ := pool_take (x := x) hf h.ready
  have hpage : ∀ g ∉ s.pool r, s'.page g = s.page g := by
    intro g hg
    rw [hpool, Set.mem_insert_iff, not_or] at hg
    rw [hkept g hg.2, page_take hg.1]
  refine ⟨⟨hspace, hown'.trans hown.symm, fun g hg => hpage g fun hp => hg (.inl hp),
    fun n hn _ => ⟨?_, hpage _ (h.apart n hn)⟩, fun n h1 h2 => ?_⟩, ?_, hphys, ?_⟩
  · rw [hleaf n (h.lt_cube hn) hn.ne, hleaf']
  · rw [hleaf n h2 (h.lt_TRAPFRAME.trans_le h1).ne', hleaf']
  · rw [hm.leaf N (Vm.lt_cube (lt_of_lt_TRAPFRAME h.lt_TRAPFRAME)), if_pos (by omega), Nat.sub_self]
    simp
  · rw [hkept f hfresh']
    exact Function.update_self ..

theorem Space.giveBack {pa : Word} (hm : Maps r perm v pa 0 fs (s.take f x) s') :
    Resizes kend r s N (s'.put f) N := by
  obtain ⟨htake, hown, hfresh⟩ := h.take hf x
  obtain ⟨hpool, hfresh', hleaf', -⟩ := pool_take (x := x) hf h.ready
  have hext : Resizes kend r (s.take f x) N s' N :=
    htake.extend hm.toExtends fun n hn => by rw [hm.leaf n hn, if_neg (by omega)]
  obtain ⟨hspace, hown', hput⟩ :=
    hext.space.put (by rw [hext.own]; exact hfresh) (h.ram_head hf)
  have hleaf : ∀ n < 512 ^ 3, (s'.put f).leaf r n = s.leaf r n := fun n hn => by
    rw [hput, hm.leaf n hn, if_neg (by omega), hleaf']
  have hpage : ∀ g ∉ s.pool r, (s'.put f).page g = s.page g := by
    intro g hg
    rw [hpool, Set.mem_insert_iff, not_or, ← hm.toExtends.pool] at hg
    rw [page_put hg.1, hm.kept g fun ht => hg.2 (.inr ht), page_take hg.1]
  refine ⟨hspace, ?_, fun g hg => hpage g fun hp => hg (.inl hp),
    fun n hn _ => ⟨hleaf n (h.lt_cube hn), hpage _ (h.apart n hn)⟩, fun n _ h2 => hleaf n h2⟩
  rw [hown', hext.own, hown]

end

theorem pages_page (h : n ≤ 2 ^ 51) : pages (page n) = n := by
  rw [pages, toNat_page h]
  omega

theorem Space.skip (h : Space kend s r N) : Resizes kend r s N s.skip N :=
  h.extend h.ready.skip.toExtends fun n _ => h.ready.skip.leaf n

theorem Space.mapNext (h : Space kend s r N) (pa : Word) (perm : BitVec 32) :
    Sat (mappages r (page N) 4096 pa perm) s
      (fun z s' => ∃ b, z = status b ∧ MapsUpTo r perm N pa 1 s b s') fun _ => False := by
  have hN := h.bound'
  have hvpn : vpn (page N) = N := vpn_page (by omega)
  have hspan : span (page N) 4096 = 1 := span_page (by rw [toNat_page (by omega)]; omega)
  have hmap := mappages_sat (page N) 4096 pa perm h.ready (by decide)
  rw [hvpn, hspan] at hmap
  refine hmap.weaken ?_
  rintro e (⟨-, m, -, h1, h2, hm⟩ | ⟨-, hlt⟩)
  · obtain rfl : m = N := by omega
    exact hm (h.empty m (le_refl m) h.lt_TRAPFRAME)
  · have := lt_of_lt_TRAPFRAME h.lt_TRAPFRAME
    omega

def uperm : BitVec 32 := (PTE_W ||| PTE_X ||| PTE_R ||| PTE_U).setWidth 32

def Fresh (s : Kmem) (r : Frame) (n m : ℕ) : Prop :=
  ∀ k, n ≤ k → k < m → s.leaf r k = some (entry (addr (s.phys r k)) uperm) ∧
    s.page (s.phys r k) = fun _ => 0

def Allocated (kend : Word) (r : Frame) (N0 i : ℕ) (newsz : Word) (s : Kmem) (z : Word)
    (s' : Kmem) : Prop :=
  (z = newsz ∧ Resizes kend r s i s' (max i (pages newsz)) ∧ Fresh s' r i (max i (pages newsz))) ∨
    (z = 0 ∧ Resizes kend r s i s' N0 ∧ Refuses (3 * (pages newsz - i)) s)

variable {i N0 : ℕ}

theorem Resizes.back (h : Resizes kend r s i s' i) (hi : N0 ≤ i) :
    Sat (do let _ ← uvmdealloc kend r (page i) (page N0); return (0 : Word)) s'
      (fun z s'' => z = 0 ∧ Resizes kend r s i s'' N0) fun _ => False := by
  have hb := h.space.bound'
  have hspace := h.space
  rw [← pages_page (by omega : i ≤ 2 ^ 51)] at hspace
  refine Sat.bind (uvmdealloc_sat hspace) ?_
  rintro z s'' ⟨rfl, hs, -⟩
  have hpages : pages (if page i ≤ page N0 then page i else page N0) = N0 := by
    split
    · have hle : (page i).toNat ≤ (page N0).toNat := ‹_›
      rw [toNat_page (by omega), toNat_page (by omega)] at hle
      rw [pages_page (by omega)]
      omega
    · exact pages_page (by omega)
  rw [hpages, pages_page (by omega)] at hs
  exact Sat.pure ⟨rfl, h.trans hs (Nat.min_le_left _ _)⟩

theorem page_succ (n : ℕ) : page n + 4096 = page (n + 1) := by
  rw [page, page, Nat.succ_mul, BitVec.ofNat_add]
  rfl

theorem Space.allocated {newsz : Word} (h : Space kend s r i)
    (hle : newsz.toNat ≤ i * 4096) : Allocated kend r N0 i newsz s newsz s := by
  have hmax : max i (pages newsz) = i := max_eq_left (by unfold pages; omega)
  refine .inl ⟨rfl, ?_, fun k h1 h2 => ?_⟩
  · rw [hmax]
    exact h.refl
  · rw [hmax] at h2
    omega

theorem Resizes.allocated {newsz z : Word}
    (h : Resizes kend r s i s' (i + 1)) (gs : List Frame) (hi : N0 ≤ i) (hlt : i < pages newsz)
    (hfresh : Fresh s' r i (i + 1)) (hc : gs.length ≤ 3)
    (hf : s.freelist = gs ++ s'.freelist) (hd : s'.deny = fun k => s.deny (gs.length + k))
    (ha : Allocated kend r N0 (i + 1) newsz s' z s'') : Allocated kend r N0 i newsz s z s'' := by
  have hmax : max i (pages newsz) = max (i + 1) (pages newsz) := by omega
  rcases ha with ⟨rfl, hs, hfr⟩ | ⟨rfl, hs, href⟩
  · refine .inl ⟨rfl, ?_, fun k h1 h2 => ?_⟩
    · rw [hmax]
      exact h.trans hs (by omega)
    · rw [hmax] at h2
      by_cases hk : k = i
      · subst hk
        obtain ⟨hleaf, hpage⟩ := hs.kept k (Nat.lt_succ_self k) h2
        obtain ⟨he, hz⟩ := hfresh k (le_refl k) (Nat.lt_succ_self k)
        rw [phys_congr hleaf, hleaf, hpage]
        exact ⟨he, hz⟩
      · exact hfr k (by omega) h2
  · exact .inr ⟨rfl, h.trans hs (by omega), (href.after hf hd).mono (by omega)⟩

theorem uvmallocLoop_sat {newsz : Word} (fuel : ℕ) (h : Space kend s r i) (hi : N0 ≤ i)
    (hfuel : newsz.toNat ≤ (i + fuel) * 4096) :
    Sat (uvmallocLoop kend r (page N0) newsz fuel (page i)) s (Allocated kend r N0 i newsz s)
      fun _ => False := by
  induction fuel generalizing s i with
  | zero => exact Sat.pure (h.allocated hfuel)
  | succ fuel ih =>
    have hb := h.bound'
    rw [Nat.add_comm fuel 1, ← Nat.add_assoc] at hfuel
    rw [uvmallocLoop]
    refine Sat.ite (fun hlt => ?_) fun hge => ?_
    · have hlt : (page i).toNat < newsz.toNat := hlt
      rw [toNat_page (by omega)] at hlt
      have hpages : i < pages newsz := by unfold pages; omega
      refine kalloc_sat (fun hr => ?_) fun f l hf => ?_
      · refine Sat.mono (h.skip.back hi) ?_ fun _ he => he
        rintro z s' ⟨rfl, hs⟩
        exact .inr ⟨rfl, hs, hr.mono (by omega)⟩
      · have hlist : s.freelist = [f] ++ (s.take f fun _ => 0).freelist := by
          rw [hf]
          exact congrArg (f :: ·) (congrArg List.tail hf).symm
        have hdeny : (s.take f fun _ => 0).deny = fun k => s.deny ([f].length + k) :=
          funext fun k => congrArg s.deny (Nat.add_comm k 1)
        refine Sat.bind_ok (memset_run f 0) ?_
        rw [Kmem.setPage_take]
        refine Sat.bind ((h.take hf _).1.mapNext (addr f) uperm) ?_
        rintro _ s' ⟨b, rfl, hb⟩
        cases hb with
        | refused hm hj hc =>
          obtain rfl : _ = 0 := Nat.lt_one_iff.mp hj
          rw [status, if_neg Bool.false_ne_true, if_pos (by decide)]
          refine Sat.bind_ok (kfree_run (h.ram_head hf)) ?_
          refine Sat.mono ((h.giveBack hf hm).back hi) ?_ fun _ he => he
          rintro z s'' ⟨rfl, hs⟩
          refine .inr ⟨rfl, hs, (hc.after hlist hdeny).mono ?_⟩
          rw [List.length_singleton]
          omega
        | @done fs _ hm hc hd =>
          obtain ⟨hgrow, hleaf, hphys, hpage⟩ := h.grow hf hm (by decide) (by decide)
          rw [status, if_pos rfl, if_neg (by decide), page_succ]
          refine (ih hgrow.space (hi.trans (Nat.le_succ i)) hfuel).post ?_
          intro z s'' ha
          refine hgrow.allocated ([f] ++ fs) hi hpages (fun k h1 h2 => ?_) ?_ ?_ ?_ ha
          · obtain rfl : k = i := by omega
            rw [hphys]
            exact ⟨hleaf, hpage⟩
          · rw [List.length_append, List.length_singleton]
            omega
          · rw [hlist, hm.free, List.append_assoc]
          · rw [hd, hdeny, List.length_append]
            exact funext fun k => congrArg s.deny (Nat.add_assoc _ _ _).symm
    · have hge : ¬ (page i).toNat < newsz.toNat := hge
      rw [toNat_page (by omega)] at hge
      exact Sat.pure (h.allocated (Nat.le_of_not_lt hge))

theorem uvmalloc_sat {old new : Word} (h : Space kend s r (pages old)) :
    Sat (uvmalloc kend r old new) s
      (fun z s' => (new < old ∧ z = old ∧ s' = s) ∨ (old ≤ new ∧
        Allocated kend r (pages old) (pages old) new s z s')) fun _ => False := by
  have hb := h.bound'
  rw [uvmalloc]
  refine Sat.ite (fun hlt => Sat.pure (.inl ⟨hlt, rfl, rfl⟩)) fun hge => ?_
  dsimp only
  rw [PGROUNDUP_eq (by omega)]
  refine (uvmallocLoop_sat _ h (le_refl _) ?_).post fun z s' ha => .inr ⟨?_, ha⟩
  · rw [toNat_page (by omega)]
    unfold PGSIZE
    omega
  · exact Nat.le_of_not_lt hge

end Xv6.Vm
