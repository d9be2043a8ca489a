import Xv6.Vm.Walk

/-! A page table is a map from page numbers to entries, and the functions of `vm.c` change the map
at the pages they are for and nowhere else. -/
namespace Xv6.Vm
open Bytes Radix List

variable {s s' s'' : Kmem} {r t f : Frame} {n m k v : ℕ} {a last kend : Word} {doFree : Bool}

theorem page_put {g : Frame} (h : g ≠ f) : (s.put f).page g = s.page g :=
  Function.update_of_ne h _ _

theorem tables_put (h : f ∉ s.tables r) : (s.put f).tables r = s.tables r :=
  tables_agree fun _ hx => page_put (ne_of_mem_of_not_mem hx h)

theorem leaf_put (h : f ∉ s.tables r) (n : ℕ) : (s.put f).leaf r n = s.leaf r n :=
  leaf_agree (fun _ hx => page_put (ne_of_mem_of_not_mem hx h)) n

theorem Ready.put (h : Ready s r) (hf : f ∉ s.freelist) (ht : f ∉ s.tables r) :
    Ready (s.put f) r where
  tree := isTree_agree (fun _ hx => page_put (ne_of_mem_of_not_mem hx ht)) h.tree
  nodup := nodup_cons.mpr ⟨hf, h.nodup⟩
  apart g hg hm := by
    rw [tables_put ht] at hg
    rcases mem_cons.mp hm with rfl | hm
    · exact ht hg
    · exact h.apart g hg hm

def Kmem.phys (s : Kmem) (r : Frame) (m : ℕ) : Frame := frame (PTE2PA ((s.leaf r m).getD 0))

/-- The physical pages of `k` pages from `v` on, the last page first. -/
def Kmem.backing (s : Kmem) (r : Frame) (v k : ℕ) : List Frame :=
  ((List.range' v k).map (s.phys r)).reverse

def Removable (kend : Word) (s : Kmem) (r : Frame) (doFree : Bool) (m : ℕ) : Prop :=
  m < MAXVA / PGSIZE ∧ (∃ e, s.leaf r m = some e ∧ PTE_FLAGS e ≠ PTE_V) ∧
    (doFree = true → InRam kend (s.phys r m))

structure Private (s : Kmem) (r : Frame) (v k : ℕ) : Prop where
  inj : Set.InjOn (s.phys r) (Set.Ico v (min (v + k) (MAXVA / PGSIZE)))
  notFree : ∀ m ∈ Set.Ico v (min (v + k) (MAXVA / PGSIZE)), s.phys r m ∉ s.freelist
  notTable : ∀ m ∈ Set.Ico v (min (v + k) (MAXVA / PGSIZE)), s.phys r m ∉ s.tables r

structure Unmaps (r : Frame) (v k : ℕ) (fs : List Frame) (s s' : Kmem) : Prop where
  ready : Ready s' r
  tables : s'.tables r = s.tables r
  free : s'.freelist = fs ++ s.freelist
  deny : s'.deny = s.deny
  kept : ∀ f ∉ s.tables r, f ∉ fs → s'.page f = s.page f
  leaf : ∀ m < 512 ^ 3, s'.leaf r m = if v ≤ m ∧ m < v + k then none else s.leaf r m

theorem Unmaps.trans {fs gs : List Frame} (h : Unmaps r v 1 fs s s')
    (h' : Unmaps r (v + 1) k gs s' s'') : Unmaps r v (k + 1) (gs ++ fs) s s'' where
  ready := h'.ready
  tables := h'.tables.trans h.tables
  free := by rw [h'.free, h.free, append_assoc]
  deny := h'.deny.trans h.deny
  kept f ht hf := by
    rw [List.mem_append, not_or] at hf
    exact (h'.kept f (by rwa [h.tables]) hf.1).trans (h.kept f ht hf.2)
  leaf m hm := by
    rw [h'.leaf m hm, h.leaf m hm]
    by_cases hr : v ≤ m ∧ m < v + (k + 1)
    · rw [if_pos hr]
      by_cases hmv : m = v
      · rw [if_neg (by omega), if_pos (by omega)]
      · rw [if_pos (by omega)]
    · rw [if_neg hr, if_neg (by omega), if_neg (by omega)]

theorem Ready.unmaps_nil (h : Ready s r) (v : ℕ) : Unmaps r v 0 [] s s where
  ready := h
  tables := rfl
  free := rfl
  deny := rfl
  kept _ _ _ := rfl
  leaf m _ := by rw [if_neg (by omega)]

theorem Ready.unmap (h : Ready s r) (hv : v < MAXVA / PGSIZE)
    (ht : node s.child r (path v) = some t) : Unmaps r v 1 [] s (s.setPte t (ix 0 v) 0) := by
  obtain ⟨hext, hset⟩ := h.setLeaf hv ht 0
  have htables : (s.setPte t (ix 0 v) 0).tables r = s.tables r := by
    rw [hext.tables]
    simp
  refine ⟨hext.ready, htables, rfl, rfl, fun f hf _ => hext.kept f (by rwa [htables]),
    fun m hm => ?_⟩
  rw [hset m hm]
  by_cases hmv : m = v
  · rw [if_pos hmv, if_pos (by omega)]
    exact if_neg (by decide)
  · rw [if_neg hmv, if_neg (by omega)]

theorem Ready.unmap_put (h : Ready s r) (hv : v < MAXVA / PGSIZE)
    (ht : node s.child r (path v) = some t) (hfree : f ∉ s.freelist) (htab : f ∉ s.tables r) :
    Unmaps r v 1 [f] s ((s.put f).setPte t (ix 0 v) 0) := by
  have hagree : ∀ x ∈ s.tables r, (s.put f).page x = s.page x :=
    fun x hx => page_put (ne_of_mem_of_not_mem hx htab)
  have hun := (h.put hfree htab).unmap hv ((node_agree hagree (le_refl 2)).trans ht)
  refine ⟨hun.ready, hun.tables.trans (tables_put htab), hun.free, hun.deny, fun g hg hgf => ?_,
    fun m hm => ?_⟩
  · rw [hun.kept g (by rwa [tables_put htab]) not_mem_nil]
    exact page_put (ne_of_not_mem_cons hgf)
  · rw [hun.leaf m hm, leaf_put htab]

variable {fs : List Frame}

theorem Unmaps.phys (h : Unmaps r v k fs s s') (hm : m < 512 ^ 3)
    (hv : m < v ∨ v + k ≤ m) : s'.phys r m = s.phys r m := by
  rw [Kmem.phys, h.leaf m hm, if_neg (by omega), Kmem.phys]

theorem Private.tail (hp : Private s r v (k + 1)) (hv : v < MAXVA / PGSIZE)
    (h : Unmaps r v 1 [s.phys r v] s s') : Private s' r (v + 1) k := by
  have hmem : ∀ {m}, m ∈ Set.Ico (v + 1) (min (v + 1 + k) (MAXVA / PGSIZE)) →
      m ∈ Set.Ico v (min (v + (k + 1)) (MAXVA / PGSIZE)) ∧ s'.phys r m = s.phys r m := by
    rintro m ⟨h1, h2⟩
    exact ⟨⟨by omega, by omega⟩, h.phys (lt_cube (by omega)) (by omega)⟩
  have hfst : v ∈ Set.Ico v (min (v + (k + 1)) (MAXVA / PGSIZE)) := ⟨le_refl v, by omega⟩
  refine ⟨fun m hm m' hm' he => ?_, fun m hm hf => ?_, fun m hm hf => ?_⟩
  · rw [(hmem hm).2, (hmem hm').2] at he
    exact hp.inj (hmem hm).1 (hmem hm').1 he
  · rw [(hmem hm).2, h.free, List.mem_append, mem_singleton] at hf
    rcases hf with hf | hf
    · have := hp.inj (hmem hm).1 hfst hf
      exact absurd hm.1 (by omega)
    · exact hp.notFree m (hmem hm).1 hf
  · rw [(hmem hm).2, h.tables] at hf
    exact hp.notTable m (hmem hm).1 hf

def freed (doFree : Bool) (s : Kmem) (r : Frame) (v k : ℕ) : List Frame :=
  if doFree then s.backing r v k else []

theorem freed_succ (h : Unmaps r v 1 fs s s')
    (hb : ∀ m, v + 1 ≤ m → m < v + 1 + k → m < MAXVA / PGSIZE) :
    freed doFree s r v (k + 1) = freed doFree s' r (v + 1) k ++ freed doFree s r v 1 := by
  cases doFree with
  | false => rfl
  | true =>
    have hmap : (List.range' (v + 1) k).map (s'.phys r) = (List.range' (v + 1) k).map (s.phys r) := by
      refine map_congr_left fun m hm => ?_
      rw [mem_range'_1] at hm
      exact h.phys (lt_cube (hb m hm.1 hm.2)) (by omega)
    change s.backing r v (k + 1) = s'.backing r (v + 1) k ++ s.backing r v 1
    rw [Kmem.backing, Kmem.backing, hmap, range'_succ, map_cons, reverse_cons]
    rfl

theorem Removable.of_unmaps (h : Unmaps r v 1 fs s s') (hm : v < m) :
    Removable kend s' r doFree m ↔ Removable kend s r doFree m := by
  refine and_congr_right fun hlt => ?_
  rw [h.phys (lt_cube hlt) (by omega), h.leaf m (lt_cube hlt), if_neg (by omega)]

theorem unmapBody_sat {g : M Unit} {Q : Unit → Kmem → Prop} {E : Panic → Prop} {e : Word}
    (h : Ready s r) (hv : v < MAXVA / PGSIZE) (ht : node s.child r (path v) = some t)
    (he : s.leaf r v = some e) (hp : doFree = true → Private s r v (k + 1))
    (hram : ¬ (doFree = true → InRam kend (s.phys r v)) → ∀ e, E e)
    (hg : ∀ s', (doFree = true → InRam kend (s.phys r v)) →
      Unmaps r v 1 (freed doFree s r v 1) s s' → Sat g s' Q E) :
    Sat (do
      doIf (doFree = true) (kfree kend (frame (PTE2PA e)))
      setPte t (ix 0 v) 0
      g) s Q E := by
  have hphys : s.phys r v = frame (PTE2PA e) := by
    rw [Kmem.phys, he]
    rfl
  cases doFree with
  | false => exact hg _ (fun hf => by cases hf) (h.unmap hv ht)
  | true =>
    have hmem : v ∈ Set.Ico v (min (v + (k + 1)) (MAXVA / PGSIZE)) := ⟨le_refl v, by omega⟩
    have hun := h.unmap_put hv ht ((hp rfl).notFree v hmem) ((hp rfl).notTable v hmem)
    rw [← hphys]
    by_cases hin : InRam kend (s.phys r v)
    · refine Sat.bind_ok (kfree_run hin) ?_
      exact hg _ (fun _ => hin) hun
    · exact Sat.bind_error (kfree_panic hin) (hram (fun hall => hin (hall rfl)) _)

def Unmapped (kend : Word) (r : Frame) (doFree : Bool) (v k : ℕ) (s s' : Kmem) : Prop :=
  (∀ m, v ≤ m → m < v + k → Removable kend s r doFree m) ∧
    Unmaps r v k (freed doFree s r v k) s s'

theorem uvmunmapLoop_sat (fuel : ℕ) (h : Ready s r) (hk : last.toNat = a.toNat + 4096 * k)
    (hfuel : k ≤ fuel) (hp : doFree = true → Private s r (vpn a) k) :
    Sat (uvmunmapLoop kend r last doFree fuel a) s
      (fun _ s' => Unmapped kend r doFree (vpn a) k s s')
      fun _ => ∃ m, vpn a ≤ m ∧ m < vpn a + k ∧ ¬ Removable kend s r doFree m := by
  induction fuel generalizing a s k with
  | zero =>
    obtain rfl : k = 0 := by omega
    refine Sat.pure ⟨fun m h1 h2 => by omega, ?_⟩
    cases doFree <;> exact h.unmaps_nil _
  | succ fuel ih =>
    rw [uvmunmapLoop]
    refine Sat.ite (fun hlt => ?_) fun hlt => ?_
    · have hpos : a.toNat < last.toNat := hlt
      obtain ⟨j, rfl⟩ : ∃ j, k = j + 1 := ⟨k - 1, by omega⟩
      have hfirst : ¬ Removable kend s r doFree (vpn a) →
          ∃ m, vpn a ≤ m ∧ m < vpn a + (j + 1) ∧ ¬ Removable kend s r doFree m :=
        fun hn => ⟨vpn a, le_refl _, by omega, hn⟩
      by_cases ha : a.toNat < MAXVA
      · refine Sat.bind_ok (walk_false ha) ?_
        cases ht : node s.child r (path (vpn a)) with
        | none =>
          refine Sat.throw (hfirst fun hrem => ?_)
          obtain ⟨e, he, -⟩ := hrem.2.1
          rw [Kmem.leaf, ht] at he
          cases he
        | some t =>
          refine Sat.bind_ok (getPte_run t _) (Sat.ite (fun hv => ?_) fun hv => ?_)
          · refine Sat.throw (hfirst fun hrem => ?_)
            obtain ⟨e, he, -⟩ := hrem.2.1
            rw [leaf_eq ht, valid, if_neg (not_not.mpr hv)] at he
            cases he
          · have hleaf : s.leaf r (vpn a) = some (s.pte t (ix 0 (vpn a))) :=
              (leaf_eq ht).trans (if_pos hv)
            refine Sat.ite (fun hf => ?_) fun hf => ?_
            · refine Sat.throw (hfirst fun hrem => ?_)
              obtain ⟨e, he, hne⟩ := hrem.2.1
              obtain rfl := Option.some.inj (hleaf.symm.trans he)
              exact hne hf
            · refine unmapBody_sat h (vpn_lt ha) ht hleaf hp
                (fun hram _ => hfirst fun hrem => hram hrem.2.2) fun s' hram hun => ?_
              have hnext : vpn (a + 4096) = vpn a + 1 := vpn_add (vpn_lt ha)
              have hlast : last.toNat = (a + 4096).toNat + 4096 * j := by
                rw [BitVec.toNat_add]
                change _ = (a.toNat + 4096) % 2 ^ 64 + _
                have := last.isLt
                omega
              have hpriv : doFree = true → Private s' r (vpn (a + 4096)) j := by
                rintro rfl
                rw [hnext]
                exact (hp rfl).tail (vpn_lt ha) hun
              refine (ih hun.ready hlast (by omega) hpriv).mono ?_ ?_
              · rintro - s'' ⟨hrem, hun'⟩
                rw [hnext] at hrem hun'
                refine ⟨fun m h1 h2 => ?_, ?_⟩
                · by_cases hm : m = vpn a
                  · rw [hm]
                    exact ⟨vpn_lt ha, ⟨_, hleaf, hf⟩, hram⟩
                  · exact (Removable.of_unmaps hun (by omega)).mp (hrem m (by omega) (by omega))
                · rw [freed_succ hun fun m h1 h2 => (hrem m h1 h2).1]
                  exact hun.trans hun'
              · rw [hnext]
                rintro _ ⟨m, h1, h2, hn⟩
                exact ⟨m, by omega, by omega, fun hrem => hn ((Removable.of_unmaps hun (by omega)).mpr hrem)⟩
      · have ha := Nat.le_of_not_lt ha
        refine Sat.bind_error (walk_panic false ha) (hfirst fun hrem => ?_)
        exact absurd (vpn_ge ha) (Nat.not_le_of_lt hrem.1)
    · have hge : ¬ a.toNat < last.toNat := hlt
      obtain rfl : k = 0 := by omega
      refine Sat.pure ⟨fun m h1 h2 => by omega, ?_⟩
      cases doFree <;> exact h.unmaps_nil _

theorem uvmunmap_sat {npages : Word} (h : Ready s r) (ha : a.toNat % 4096 = 0)
    (hk : (a + npages * 4096).toNat = a.toNat + 4096 * k) (hn : k ≤ npages.toNat)
    (hp : doFree = true → Private s r (vpn a) k) :
    Sat (uvmunmap kend r a npages doFree) s
      (fun _ s' => Unmapped kend r doFree (vpn a) k s s')
      fun _ => ∃ m, vpn a ≤ m ∧ m < vpn a + k ∧ ¬ Removable kend s r doFree m := by
  have halign : a % 4096 = 0 := by
    apply BitVec.eq_of_toNat_eq
    rw [BitVec.toNat_umod]
    exact ha
  rw [uvmunmap, if_neg (not_not.mpr halign)]
  exact uvmunmapLoop_sat _ h hk hn hp

/-- The physical page and the flags of each page below `MAXVA`. -/
def Kmem.flat (s : Kmem) (r : Frame) (n : ℕ) : Option (Frame × Word) :=
  if n < MAXVA / PGSIZE then (s.leaf r n).map fun e => (frame (PTE2PA e), PTE_FLAGS e) else none

/-- Page `n` has a byte of `[va, va + size)`. -/
def Covers (va size : Word) (n : ℕ) : Prop :=
  va.toNat < (n + 1) * PGSIZE ∧ n * PGSIZE < va.toNat + size.toNat

instance (va size : Word) (n : ℕ) : Decidable (Covers va size n) := inferInstanceAs (Decidable (_ ∧ _))

theorem flat_eq_none (hn : n < MAXVA / PGSIZE) : s.flat r n = none ↔ s.leaf r n = none := by
  rw [Kmem.flat, if_pos hn, Option.map_eq_none_iff]

theorem covers_iff {va size : Word} (hsize : size ≠ 0) (hsum : va.toNat + size.toNat ≤ 2 ^ 64) :
    Covers va size n ↔ vpn va ≤ n ∧ n < vpn va + span va size := by
  have hpos : 0 < size.toNat := Nat.pos_of_ne_zero fun h => hsize (BitVec.eq_of_toNat_eq h)
  have hend : (va + size - 1).toNat = va.toNat + size.toNat - 1 := by
    rw [BitVec.toNat_sub, BitVec.toNat_add]
    change (2 ^ 64 - 1 + (va.toNat + size.toNat) % 2 ^ 64) % 2 ^ 64 = _
    omega
  have hspan : span va size = (va.toNat + size.toNat - 1) / 4096 - va.toNat / 4096 + 1 := by
    rw [span, BitVec.toNat_sub, toNat_PGROUNDDOWN, toNat_PGROUNDDOWN, hend]
    change (2 ^ 64 - _ + _) % 2 ^ 64 / 4096 + 1 = _
    have := va.isLt
    omega
  rw [hspan]
  change va.toNat < (n + 1) * 4096 ∧ n * 4096 < va.toNat + size.toNat ↔
    va.toNat / 4096 ≤ n ∧ n < va.toNat / 4096 + _
  omega

def flagsOf (perm : BitVec 32) : Word := perm.signExtend 64 ||| PTE_V

variable {perm : BitVec 32}

theorem flagsOf_lt (h : perm.toNat < 1024) : (flagsOf perm).toNat < 1024 := by
  have hmsb : perm.msb = false := by
    rw [BitVec.msb_eq_false_iff_two_mul_lt]
    omega
  rw [flagsOf, BitVec.toNat_or, BitVec.signExtend_eq_setWidth_of_msb_false hmsb,
    BitVec.toNat_setWidth_of_le (by decide)]
  exact Nat.or_lt_two_pow (n := 10) h (by decide)

theorem frame_add (pa : Word) (j : ℕ) :
    frame (pa + BitVec.ofNat 64 (4096 * j)) = frame pa + BitVec.ofNat 52 j := by
  apply BitVec.eq_of_toNat_eq
  rw [toNat_frame, BitVec.toNat_add, BitVec.toNat_add, toNat_frame, BitVec.toNat_ofNat,
    BitVec.toNat_ofNat]
  have := pa.isLt
  omega

theorem entry_meaning (h : perm.toNat < 1024) (pa : Word) :
    (frame (PTE2PA (entry pa perm)), PTE_FLAGS (entry pa perm)) = (frame pa, flagsOf perm) := by
  have hentry : entry pa perm = PA2PTE pa ||| flagsOf perm := by
    rw [entry, flagsOf, BitVec.or_assoc]
  rw [hentry, frame_entry pa (flagsOf_lt h), flags_entry pa (flagsOf_lt h)]

theorem flat_map {pa va size : Word}
    (h : Maps r perm (vpn va) pa (span va size) fs s s') (hsize : size ≠ 0)
    (hsum : va.toNat + size.toNat ≤ 2 ^ 64) (hperm : perm.toNat < 1024) (n : ℕ) :
    (Covers va size n → s.flat r n = none ∧
      s'.flat r n = some (frame pa + BitVec.ofNat 52 (n - vpn va), flagsOf perm)) ∧
    (¬ Covers va size n → s'.flat r n = s.flat r n) := by
  rw [covers_iff hsize hsum]
  constructor
  · rintro ⟨h1, h2⟩
    have hn : n < MAXVA / PGSIZE := by have := h.bound; omega
    refine ⟨(flat_eq_none hn).mpr (h.fresh n h1 h2), ?_⟩
    rw [Kmem.flat, if_pos hn, h.leaf n (lt_cube hn), if_pos ⟨h1, h2⟩, Option.map_some, entry_meaning hperm,
      frame_add]
  · intro hout
    by_cases hn : n < MAXVA / PGSIZE
    · rw [Kmem.flat, if_pos hn, h.leaf n (lt_cube hn), if_neg hout, Kmem.flat, if_pos hn]
    · rw [Kmem.flat, if_neg hn, Kmem.flat, if_neg hn]

theorem flat_unmap (h : Unmaps r v k fs s s') (n : ℕ) :
    s'.flat r n = if v ≤ n ∧ n < v + k then none else s.flat r n := by
  by_cases hn : n < MAXVA / PGSIZE
  · rw [Kmem.flat, if_pos hn, h.leaf n (lt_cube hn)]
    by_cases hr : v ≤ n ∧ n < v + k
    · rw [if_pos hr, if_pos hr, Option.map_none]
    · rw [if_neg hr, if_neg hr, Kmem.flat, if_pos hn]
  · rw [Kmem.flat, if_neg hn, Kmem.flat, if_neg hn, ite_self]

theorem getLsbD_PTE_U (i : ℕ) : PTE_U.getLsbD i = decide (i = 4) := by
  rw [PTE_U, show (16 : Word) = BitVec.twoPow 64 4 from rfl, BitVec.getLsbD_twoPow]
  by_cases h : i = 4
  · simp [h]
  · simp [h, Ne.symm h]

theorem PTE2PA_clear (e : Word) : PTE2PA (e &&& ~~~PTE_U) = PTE2PA e := by
  apply BitVec.eq_of_getLsbD_eq
  intro i hi
  have hne : 10 + (i - 12) ≠ 4 := by omega
  simp only [PTE2PA, BitVec.getLsbD_shiftLeft, BitVec.getLsbD_ushiftRight, BitVec.getLsbD_and,
    BitVec.getLsbD_not, getLsbD_PTE_U, hne, decide_false, Bool.not_false, Bool.and_true]
  by_cases hb : 10 + (i - 12) < 64
  · simp [hb]
  · simp [hb, BitVec.getLsbD_of_ge e _ (Nat.le_of_not_lt hb)]

theorem valid_clear (e : Word) : valid (e &&& ~~~PTE_U) = (valid e).map (· &&& ~~~PTE_U) := by
  have hand : (e &&& ~~~PTE_U) &&& PTE_V = e &&& PTE_V := by
    rw [BitVec.and_assoc, show ~~~PTE_U &&& PTE_V = PTE_V by decide]
  rw [valid, valid, hand]
  split <;> rfl

theorem PTE_FLAGS_clear (e : Word) : PTE_FLAGS (e &&& ~~~PTE_U) = PTE_FLAGS e &&& ~~~PTE_U := by
  rw [PTE_FLAGS, PTE_FLAGS, BitVec.and_assoc, BitVec.and_assoc, BitVec.and_comm (~~~PTE_U)]

theorem uvmclear_sat (h : Ready s r) :
    Sat (uvmclear r a) s
      (fun _ s' => Extends r [] s s' ∧ a.toNat < MAXVA ∧ s'.freelist = s.freelist ∧
        s'.deny = s.deny ∧ ∀ m < 512 ^ 3, s'.leaf r m =
          if m = vpn a then (s.leaf r m).map (· &&& ~~~PTE_U) else s.leaf r m)
      fun _ => MAXVA ≤ a.toNat ∨ s.leaf r (vpn a) = none := by
  rw [uvmclear]
  by_cases ha : a.toNat < MAXVA
  · refine Sat.bind_ok (walk_false ha) ?_
    cases ht : node s.child r (path (vpn a)) with
    | none =>
      refine Sat.throw (.inr ?_)
      rw [Kmem.leaf, ht]
      rfl
    | some t =>
      refine Sat.bind_ok (getPte_run t _) ?_
      obtain ⟨hext, hset⟩ := h.setLeaf (vpn_lt ha) ht (s.pte t (ix 0 (vpn a)) &&& ~~~PTE_U)
      refine ⟨hext, ha, rfl, rfl, fun m hm => ?_⟩
      refine (hset m hm).trans ?_
      by_cases hmv : m = vpn a
      · rw [if_pos hmv, if_pos hmv, valid_clear, hmv, leaf_eq ht]
      · rw [if_neg hmv, if_neg hmv]
  · have ha := Nat.le_of_not_lt ha
    exact Sat.bind_error (walk_panic false ha) (.inl ha)

section
variable (h0 : s.page r = fun _ => 0)
include h0

theorem child_empty (i : Index) : s.child r i = none := by
  rw [Kmem.child, pte_zero h0, if_neg (by decide)]

theorem node_empty {p : List Index} {x : Frame} (hx : node s.child r p = some x) : p = [] ∧ x = r := by
  cases p with
  | nil => exact ⟨rfl, (Option.some.inj hx).symm⟩
  | cons i p =>
    rw [node, child_empty h0] at hx
    cases hx

theorem tables_empty : s.tables r = {r} := by
  ext x
  constructor
  · rintro ⟨p, -, hx⟩
    exact (node_empty h0 hx).2
  · rintro rfl
    exact root_mem

theorem leaf_empty (n : ℕ) : s.leaf r n = none := by
  rw [Kmem.leaf, path, node, child_empty h0]
  rfl

theorem ready_empty (hn : s.freelist.Nodup) (hr : r ∉ s.freelist) : Ready s r where
  tree p q x _ _ hp hq := by rw [(node_empty h0 hp).1, (node_empty h0 hq).1]
  nodup := hn
  apart f hf := by
    rw [tables_empty h0, Set.mem_singleton_iff] at hf
    rwa [hf]

end

theorem and_PTE_FLAGS (e : Word) : PTE_FLAGS e &&& PTE_U = e &&& PTE_U := by
  rw [PTE_FLAGS, BitVec.and_assoc, show (0x3FF : Word) &&& PTE_U = PTE_U by decide]

theorem user_eq_flat (n : ℕ) :
    s.user r n = ((s.flat r n).filter fun x => x.2 &&& PTE_U ≠ 0).map Prod.fst := by
  rw [Kmem.user, Kmem.flat]
  by_cases hn : n < MAXVA / PGSIZE
  · rw [if_pos hn, if_pos hn]
    cases s.leaf r n with
    | none => rfl
    | some e =>
      rw [Option.bind_some, Option.map_some, Option.filter_some, and_PTE_FLAGS]
      by_cases hu : e &&& PTE_U ≠ 0
      · rw [if_pos hu, if_pos (decide_eq_true hu)]
        rfl
      · rw [if_neg hu, if_neg (by simpa using hu)]
        rfl
  · rw [if_neg hn, if_neg hn]
    rfl

/-- The functions of `vm.c` on a page table do to its map what they are for. -/
structure RefinesMap (kend : Word) (s : Kmem) (r : Frame) : Prop where
  mappages : ∀ (va size pa : Word) (perm : BitVec 32), va.toNat < MAXVA →
    va.toNat + size.toNat ≤ 2 ^ 64 → perm.toNat < 1024 →
    Sat (mappages r va size pa perm) s
      (fun z s' => Ready s' r ∧ (z = -1 ∧ Refuses (2 * span va size) s ∨ z = 0 ∧ ∀ n,
        (Covers va size n → s.flat r n = none ∧
          s'.flat r n = some (frame pa + BitVec.ofNat 52 (n - vpn va), flagsOf perm)) ∧
        (¬ Covers va size n → s'.flat r n = s.flat r n)))
      fun _ => size = 0 ∨ ∃ n, Covers va size n ∧ (s.flat r n ≠ none ∨ MAXVA / PGSIZE ≤ n)
  uvmunmap : ∀ (va npages : Word) (doFree : Bool), va.toNat < MAXVA →
    va.toNat + npages.toNat * PGSIZE < 2 ^ 64 →
    (doFree = true → Private s r (vpn va) npages.toNat) →
    Sat (uvmunmap kend r va npages doFree) s
      (fun _ s' => Ready s' r ∧ va.toNat % PGSIZE = 0 ∧ ∀ n,
        (vpn va ≤ n ∧ n < vpn va + npages.toNat → s.flat r n ≠ none ∧ s'.flat r n = none) ∧
        (¬ (vpn va ≤ n ∧ n < vpn va + npages.toNat) → s'.flat r n = s.flat r n))
      fun _ => va.toNat % PGSIZE ≠ 0 ∨ ∃ n, vpn va ≤ n ∧ n < vpn va + npages.toNat ∧
        ¬ Removable kend s r doFree n
  uvmclear : ∀ va : Word, va.toNat < MAXVA →
    Sat (uvmclear r va) s
      (fun _ s' => Ready s' r ∧ ∀ n, s'.flat r n =
        if n = vpn va then (s.flat r n).map fun x => (x.1, x.2 &&& ~~~PTE_U) else s.flat r n)
      fun _ => s.flat r (vpn va) = none
  walkaddr : ∀ va : Word, walkaddr r va s =
    .ok (match s.flat r (vpn va) with
      | some (f, flags) => if flags &&& PTE_U ≠ 0 then addr f else 0
      | none => 0, s)

def zeroMem : Kmem := { page := fun _ _ => 0, freelist := [1, 2] }

theorem ready_zeroMem : Ready zeroMem 0 := ready_empty rfl (by decide) (by decide)

theorem flat_zeroMem (n : ℕ) : zeroMem.flat 0 n = none := by
  rw [Kmem.flat, leaf_empty rfl]
  split <;> rfl

end Xv6.Vm
