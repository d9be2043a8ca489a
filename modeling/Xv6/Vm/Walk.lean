import Xv6.Vm.Meaning

/-! What the functions that change a page table do to memory: `kalloc` and `kfree`, the pages that
`walk` adds to the table, and the entry that is then written. -/
namespace Xv6.Vm
open Bytes Radix Function List

variable {s s' s'' : Kmem} {r t f : Frame} {n m c : ℕ} {p q : List Index} {i : Index} {va : Word}

/-- One of the next `c` calls of `kalloc` finds no page. -/
def Refuses (c : ℕ) (s : Kmem) : Prop := ∃ k < c, s.deny k = true ∨ s.freelist.length ≤ k

def Kmem.skip (s : Kmem) : Kmem := { s with deny := fun k => s.deny (k + 1) }

/-- After `kalloc` took the page `f`, and it was filled with `x`. -/
def Kmem.take (s : Kmem) (f : Frame) (x : Page) : Kmem where
  page := update s.page f x
  freelist := s.freelist.tail
  deny := fun k => s.deny (k + 1)

theorem Kmem.setPage_take (x y : Page) : (s.take f x).setPage f y = s.take f y := by
  rw [Kmem.setPage, Kmem.take, Kmem.take, update_idem]

theorem memset_run (f : Frame) (b : Byte) : memset f b s = .ok ((), s.setPage f fun _ => b) := rfl

theorem setPte_run (t : Frame) (i : Index) (v : Word) : setPte t i v s = .ok ((), s.setPte t i v) := rfl

theorem get_run : (get : M Kmem) s = .ok (s, s) := rfl

theorem kalloc_run_none (h : s.deny 0 = true ∨ s.freelist = []) :
    kalloc s = .ok (none, s.skip) := by
  rw [kalloc, Sat.run_bind get_run, Sat.run_bind get_run]
  dsimp only
  rcases h with h | h
  · rw [h]
    rfl
  · rw [Kmem.skip, h]
    cases s.deny 0 <;> rfl

theorem kalloc_run_some {l : List Frame} (hd : s.deny 0 = false) (hf : s.freelist = f :: l) :
    kalloc s = .ok (some f, s.take f fun _ => 5) := by
  rw [kalloc, Sat.run_bind get_run, Sat.run_bind get_run]
  dsimp only
  rw [hd, hf, Kmem.take, hf]
  rfl

theorem kalloc_sat {β : Type} {g : Option Frame → M β} {Q : β → Kmem → Prop} {E : Panic → Prop}
    (hnone : Refuses 1 s → Sat (g none) s.skip Q E)
    (hsome : ∀ f l, s.freelist = f :: l → Sat (g (some f)) (s.take f fun _ => 5) Q E) :
    Sat (kalloc >>= g) s Q E := by
  by_cases h : s.deny 0 = true ∨ s.freelist = []
  · have href : Refuses 1 s :=
      ⟨0, Nat.zero_lt_one, h.imp_right fun hl => (congrArg List.length hl).le⟩
    exact Sat.bind_ok (kalloc_run_none h) (hnone href)
  · rw [not_or, Bool.not_eq_true] at h
    obtain ⟨f, l, hl⟩ := exists_cons_of_ne_nil h.2
    exact Sat.bind_ok (kalloc_run_some h.1 hl) (hsome f l hl)

def InRam (kend : Word) (f : Frame) : Prop := kend ≤ addr f ∧ (addr f).toNat < PHYSTOP

instance (kend : Word) (f : Frame) : Decidable (InRam kend f) := inferInstanceAs (Decidable (_ ∧ _))

def Kmem.put (s : Kmem) (f : Frame) : Kmem where
  page := update s.page f
    (putDword (fun _ => 1) 0 ((s.freelist.head?.map addr).getD 0))
  freelist := f :: s.freelist
  deny := s.deny

theorem kfree_run {kend : Word} (h : InRam kend f) : kfree kend f s = .ok ((), s.put f) := by
  have hc : ¬ (addr f < kend ∨ PHYSTOP ≤ (addr f).toNat) := by
    rw [not_or, BitVec.not_lt, Nat.not_le]
    exact h
  rw [kfree, if_neg hc]
  rw [Sat.run_bind (a := ()) (t := s.setPage f fun _ => 1) rfl]
  rw [Sat.run_bind (a := s.setPage f fun _ => 1) (t := s.setPage f fun _ => 1) rfl]
  have hpage : (s.setPage f fun _ => 1).page f = fun _ => 1 := update_self ..
  rw [hpage]
  have hput : s.put f = { (s.setPage f fun _ => 1).setPage f
      (putDword (fun _ => 1) 0 ((s.freelist.head?.map addr).getD 0)) with
        freelist := f :: s.freelist } := by
    rw [Kmem.setPage, Kmem.setPage, update_idem]
    rfl
  rw [hput]
  rfl

theorem kfree_panic {kend : Word} (h : ¬ InRam kend f) : kfree kend f s = .error .kfree := by
  have hc : addr f < kend ∨ PHYSTOP ≤ (addr f).toNat := by
    by_contra hc
    rw [not_or, BitVec.not_lt, Nat.not_le] at hc
    exact h hc
  rw [kfree, if_pos hc]
  rfl

/-- The pages of a table are a tree, and none of them is free. -/
structure Ready (s : Kmem) (r : Frame) : Prop where
  tree : IsTree s.child r 2
  nodup : s.freelist.Nodup
  apart : ∀ f ∈ s.tables r, f ∉ s.freelist

structure Extends (r : Frame) (fs : List Frame) (s s' : Kmem) : Prop where
  ready : Ready s' r
  free : s.freelist = fs ++ s'.freelist
  tables : s'.tables r = s.tables r ∪ {f | f ∈ fs}
  kept : ∀ f ∉ s'.tables r, s'.page f = s.page f

structure Grows (r : Frame) (fs : List Frame) (s s' : Kmem) : Prop extends Extends r fs s s' where
  leaf : ∀ n, s'.leaf r n = s.leaf r n

theorem Ready.refl (h : Ready s r) : Grows r [] s s where
  ready := h
  free := rfl
  tables := by simp
  kept _ _ := rfl
  leaf _ := rfl

theorem Ready.skip (h : Ready s r) : Grows r [] s s.skip where
  ready := ⟨h.tree, h.nodup, h.apart⟩
  free := rfl
  tables := (Set.union_empty _).symm.trans (by simp; rfl)
  kept _ _ := rfl
  leaf _ := rfl

variable {fs : List Frame}

theorem Extends.subset (h : Extends r fs s s') : s.tables r ⊆ s'.tables r := by
  rw [h.tables]
  exact Set.subset_union_left

theorem Extends.trans {fs gs : List Frame} (h : Extends r fs s s') (h' : Extends r gs s' s'') :
    Extends r (fs ++ gs) s s'' where
  ready := h'.ready
  free := by rw [h.free, h'.free, append_assoc]
  tables := by
    rw [h'.tables, h.tables, Set.union_assoc]
    congr 1
    ext f
    simp
  kept f hf := (h'.kept f hf).trans (h.kept f fun hm => hf (h'.subset hm))

theorem Grows.trans {fs gs : List Frame} (h : Grows r fs s s') (h' : Grows r gs s' s'') :
    Grows r (fs ++ gs) s s'' where
  toExtends := h.toExtends.trans h'.toExtends
  leaf n := (h'.leaf n).trans (h.leaf n)

theorem page_setPte {v : Word} (h : f ≠ t) : (s.setPte t i v).page f = s.page f :=
  update_of_ne h _ _

theorem pte_setPte (t : Frame) (i j : Index) (v : Word) :
    (s.setPte t i v).pte t j = if j = i then v else s.pte t j := by
  have hpage : (s.setPte t i v).page t = putDword (s.page t) (8 * i) v := update_self ..
  rw [Kmem.pte, hpage]
  by_cases hj : j = i
  · rw [if_pos hj, hj]
    exact getDword_putDword _ v (by have := i.isLt; unfold PGSIZE; omega)
  · rw [if_neg hj]
    have hne : j.val ≠ i.val := fun h => hj (Fin.ext h)
    exact getDword_putDword_of_ne _ v (by omega)

theorem child_setPte_of_ne {v : Word} (h : f ≠ t) : (s.setPte t i v).child f = s.child f :=
  child_congr (page_setPte h)

theorem pte_zero (h : s.page f = fun _ => 0) (j : Index) : s.pte f j = 0 := by
  rw [Kmem.pte, h]
  exact getDword_zero

def tableEntry (f : Frame) : Word := PA2PTE (addr f) ||| PTE_V

theorem frame_tableEntry (f : Frame) : frame (PTE2PA (tableEntry f)) = f := by
  rw [tableEntry, frame_entry _ (by decide), frame_addr]

theorem valid_or (x : Word) : (x ||| PTE_V) &&& PTE_V ≠ 0 := by
  intro h
  have hbit := congrArg (fun w : Word => w.getLsbD 0) h
  simp [PTE_V] at hbit

theorem Ready.link {l : List Frame} (h : Ready s r) (hp : p.length < 2)
    (ht : node s.child r p = some t) (hi : s.child t i = none) (hf : s.freelist = f :: l) :
    Grows r [f] s ((s.take f fun _ => 0).setPte t i (tableEntry f)) ∧
      node ((s.take f fun _ => 0).setPte t i (tableEntry f)).child r (p ++ [i]) = some f := by
  set s' := (s.take f fun _ => 0).setPte t i (tableEntry f) with hs'
  have hfree : f ∈ s.freelist := hf ▸ mem_cons_self
  have htab : t ∈ s.tables r := ⟨p, hp.le, ht⟩
  have hft : f ≠ t := fun he => h.apart t htab (he ▸ hfree)
  have hfresh : f ∉ s.tables r := fun hm => h.apart f hm hfree
  have hpage : ∀ z, z ≠ f → z ≠ t → s'.page z = s.page z := by
    intro z hzf hzt
    rw [hs', page_setPte hzt]
    exact update_of_ne hzf _ _
  have hpagef : s'.page f = fun _ => 0 := by
    rw [hs', page_setPte hft]
    exact update_self ..
  have hpte : ∀ j, s'.pte t j = if j = i then tableEntry f else s.pte t j := by
    intro j
    rw [hs', pte_setPte, pte_congr (s := s)]
    exact update_of_ne hft.symm _ _
  have hlinks : Links s.child s'.child r 2 t i f := by
    refine ⟨?_, fun j hj => ?_, fun j => ?_, fun z hz hzt => child_congr (hpage z ?_ hzt)⟩
    · have hvalid : tableEntry f &&& PTE_V ≠ 0 := valid_or _
      rw [Kmem.child, hpte, if_pos rfl, if_pos hvalid, frame_tableEntry]
    · rw [Kmem.child, hpte, if_neg hj, Kmem.child]
    · rw [Kmem.child, pte_zero hpagef, if_neg (by decide)]
    · rintro rfl
      exact hfresh hz
  have htables : s'.tables r = insert f (s.tables r) := hlinks.nodes_eq h.tree hp ht hi
  have hlist : s'.freelist = l := congrArg List.tail hf
  have hn := h.nodup
  rw [hf, nodup_cons] at hn
  refine ⟨⟨⟨⟨hlinks.isTree h.tree hp ht hi hfresh, hlist ▸ hn.2, ?_⟩, ?_, ?_, ?_⟩, fun n => ?_⟩,
    hlinks.node_new h.tree hp ht hi⟩
  · rw [htables, hlist]
    rintro z (rfl | hz) hzl
    · exact hn.1 hzl
    · exact h.apart z hz (hf ▸ mem_cons_of_mem f hzl)
  · rw [hf, hlist]
    rfl
  · rw [htables, Set.insert_eq, Set.union_comm]
    congr 1
    ext z
    exact mem_singleton.symm
  · intro z hz
    rw [htables, Set.mem_insert_iff, not_or] at hz
    exact hpage z hz.1 fun he => hz.2 (he ▸ htab)
  · -- the new page is empty, and all the others at its level are as before
    rw [Kmem.leaf, Kmem.leaf, hlinks.node_eq h.tree hp ht hi (le_refl 2)]
    by_cases hq : path n = p ++ [i]
    · have hnone : node s.child r (path n) = none := by
        rw [hq, node_concat, ht]
        exact hi
      rw [if_pos hq, hnone, Option.bind_some, pte_zero hpagef, if_neg (by decide), Option.bind_none]
    · rw [if_neg hq]
      cases hz : node s.child r (path n) with
      | none => rw [Option.bind_none, Option.bind_none]
      | some z =>
        have hmem : z ∈ s.tables r := ⟨path n, le_refl 2, hz⟩
        have hzt : z ≠ t := by
          rintro rfl
          have hlen : 2 = p.length := congrArg List.length (h.tree (le_refl 2) hp.le hz ht)
          omega
        rw [Option.bind_some, Option.bind_some,
          pte_congr (hpage z (fun he => hfresh (he ▸ hmem)) hzt)]

/-- What `walk` does when it may add tables: the last of `c` calls of `kalloc` fails, or it comes
to the table at `q`. -/
inductive Walked (r : Frame) (c : ℕ) (q : List Index) (i : Index) (s : Kmem) :
    Option (Frame × Index) → Kmem → Prop
  | refused {fs : List Frame} {s' : Kmem} (h : Grows r fs s s') (hc : Refuses c s) :
    Walked r c q i s none s'
  | found {fs : List Frame} {s' : Kmem} {t : Frame} (h : Grows r fs s s') (hc : fs.length ≤ c)
    (hd : s'.deny = fun k => s.deny (fs.length + k)) (ht : node s'.child r q = some t) :
    Walked r c q i s (some (t, i)) s'

theorem Refuses.mono {d : ℕ} (h : Refuses c s) (hcd : c ≤ d) : Refuses d s :=
  let ⟨k, hk, hr⟩ := h
  ⟨k, hk.trans_le hcd, hr⟩

theorem Refuses.after (h : Refuses c s') (hf : s.freelist = fs ++ s'.freelist)
    (hd : s'.deny = fun k => s.deny (fs.length + k)) : Refuses (fs.length + c) s := by
  obtain ⟨k, hk, hr⟩ := h
  refine ⟨fs.length + k, by omega, ?_⟩
  rw [hf, length_append]
  rw [hd] at hr
  exact hr.imp_right fun hl => by omega

variable {o : Option (Frame × Index)}

theorem Walked.mono {d : ℕ} (h : Walked r c q i s o s') (hcd : c ≤ d) : Walked r d q i s o s' := by
  cases h with
  | refused h hc => exact .refused h (hc.mono hcd)
  | found h hc hd ht => exact .found h (hc.trans hcd) hd ht

theorem Walked.after (h : Grows r [f] s s')
    (hd : s'.deny = fun k => s.deny (k + 1)) (hw : Walked r c q i s' o s'') :
    Walked r (c + 1) q i s o s'' := by
  have hd' : s'.deny = fun k => s.deny ([f].length + k) := by
    rw [hd]
    exact funext fun k => congrArg s.deny (Nat.add_comm k 1)
  cases hw with
  | refused h' hc =>
    have := hc.after h.free hd'
    rw [length_singleton, Nat.add_comm] at this
    exact .refused (h.trans h') this
  | @found fs _ t h' hc hd'' ht =>
    refine .found (h.trans h') (by rw [length_append, length_singleton]; omega) ?_ ht
    rw [hd'', hd', length_append]
    exact funext fun k => congrArg s.deny (Nat.add_assoc _ _ _).symm

theorem walkLoop_true (va : Word) (level : ℕ) (h : Ready s r) (hp : p.length + level = 2)
    (ht : node s.child r p = some t) :
    Sat (walkLoop va true level t) s
      (Walked r level (p ++ (List.range level).reverse.map fun l => PX (l + 1) va) (PX 0 va) s)
      fun _ => False := by
  induction level generalizing s p t with
  | zero =>
    rw [range_zero, reverse_nil, map_nil, append_nil]
    exact Walked.found h.refl (Nat.zero_le 0) (funext fun k => by rw [length_nil, Nat.zero_add]) ht
  | succ level ih =>
    have hpath : p ++ (List.range (level + 1)).reverse.map (fun l => PX (l + 1) va) =
        p ++ [PX (level + 1) va] ++ (List.range level).reverse.map fun l => PX (l + 1) va := by
      rw [range_succ, reverse_append, append_assoc]
      rfl
    have hlen : (p ++ [PX (level + 1) va]).length + level = 2 := by
      rw [length_append, length_singleton]
      omega
    rw [hpath, walkLoop]
    refine Sat.bind_ok (getPte_run t _) ?_
    refine Sat.ite (fun hv => ?_) fun hv => ?_
    · have hnode : node s.child r (p ++ [PX (level + 1) va]) =
          some (frame (PTE2PA (s.pte t (PX (level + 1) va)))) := by
        rw [node_concat, ht, Option.bind_some, Kmem.child, if_pos hv]
      exact (ih h hlen hnode).post fun _ _ hw => hw.mono (Nat.le_succ level)
    · have hchild : s.child t (PX (level + 1) va) = none := if_neg hv
      rw [if_pos rfl]
      refine kalloc_sat (fun hr => ?_) fun f l hf => ?_
      · exact Walked.refused h.skip (hr.mono (Nat.succ_le_succ (Nat.zero_le level)))
      · obtain ⟨hgrow, hnode⟩ := h.link (by omega) ht hchild hf
        refine Sat.bind_ok (memset_run f 0) ?_
        rw [Kmem.setPage_take]
        refine Sat.bind_ok (setPte_run t _ _) ?_
        exact (ih hgrow.ready hlen hnode).post fun _ _ hw => hw.after hgrow rfl

theorem walk_panic (alloc : Bool) (ha : MAXVA ≤ va.toNat) :
    walk r va alloc s = .error .walk := by
  rw [walk, if_pos ha]
  rfl

theorem walk_true (h : Ready s r) (ha : va.toNat < MAXVA) :
    Sat (walk r va true) s (Walked r 2 (path (vpn va)) (ix 0 (vpn va)) s) fun _ => False := by
  have hpath : [] ++ (List.range 2).reverse.map (fun l => PX (l + 1) va) = path (vpn va) := by
    change [PX 2 va, PX 1 va] = _
    rw [PX_eq, PX_eq]
    rfl
  have hwalk := walkLoop_true va 2 h (p := []) (t := r) rfl rfl
  rw [hpath, PX_eq] at hwalk
  rw [walk, if_neg (Nat.not_le_of_lt ha)]
  exact hwalk

def valid (v : Word) : Option Word := if v &&& PTE_V ≠ 0 then some v else none

theorem lt_cube (h : n < MAXVA / PGSIZE) : n < 512 ^ 3 := h.trans (by decide)

/-- A write to the entry of one page leaves the entries of all others. -/
theorem Ready.setLeaf (h : Ready s r) (hn : n < MAXVA / PGSIZE)
    (ht : node s.child r (path n) = some t) (v : Word) :
    Extends r [] s (s.setPte t (ix 0 n) v) ∧ ∀ m < 512 ^ 3,
      (s.setPte t (ix 0 n) v).leaf r m = if m = n then valid v else s.leaf r m := by
  set s' := s.setPte t (ix 0 n) v
  have hchild : ∀ p x, p.length < 2 → node s.child r p = some x → s'.child x = s.child x := by
    intro p x hp hx
    refine child_setPte_of_ne fun he => ?_
    have hlen : p.length = 2 := congrArg List.length (h.tree hp.le (le_refl 2) (he ▸ hx) ht)
    omega
  have htables : s'.tables r = s.tables r := nodes_congr hchild
  have htab : t ∈ s.tables r := ⟨path n, le_refl 2, ht⟩
  refine ⟨⟨⟨h.tree.congr hchild, h.nodup, fun f hf => h.apart f (htables ▸ hf)⟩, rfl, ?_, ?_⟩, ?_⟩
  · rw [htables]
    simp
  · intro f hf
    rw [htables] at hf
    exact page_setPte fun he => hf (by rw [he]; exact htab)
  · intro m hm
    rw [Kmem.leaf, Kmem.leaf, node_congr hchild (le_refl 2)]
    by_cases hp : path m = path n
    · rw [hp, ht, Option.bind_some, Option.bind_some, pte_setPte]
      by_cases hmn : m = n
      · subst hmn
        rw [if_pos rfl, if_pos rfl]
        rfl
      · rw [if_neg hmn, if_neg fun h0 => hmn (ix_inj hm (lt_cube hn) hp h0)]
    · rw [if_neg fun he => hp (by rw [he])]
      cases hz : node s.child r (path m) with
      | none => rw [Option.bind_none, Option.bind_none]
      | some z =>
        have hzt : z ≠ t := fun he => hp (h.tree (le_refl 2) (le_refl 2) hz (he ▸ ht))
        rw [Option.bind_some, Option.bind_some, pte_congr (page_setPte hzt)]

variable {a pa : Word} {perm : BitVec 32}

def entry (pa : Word) (perm : BitVec 32) : Word := PA2PTE pa ||| perm.signExtend 64 ||| PTE_V

theorem valid_entry (pa : Word) (perm : BitVec 32) : valid (entry pa perm) = some (entry pa perm) :=
  if_pos (valid_or _)

structure Maps (r : Frame) (perm : BitVec 32) (v : ℕ) (pa : Word) (j : ℕ) (fs : List Frame)
    (s s' : Kmem) : Prop extends Extends r fs s s' where
  fresh : ∀ m, v ≤ m → m < v + j → s.leaf r m = none
  bound : v + j ≤ MAXVA / PGSIZE
  leaf : ∀ m < 512 ^ 3, s'.leaf r m =
    if v ≤ m ∧ m < v + j then some (entry (pa + BitVec.ofNat 64 (4096 * (m - v))) perm)
    else s.leaf r m

theorem Grows.maps {v : ℕ} (h : Grows r fs s s') (hv : v ≤ MAXVA / PGSIZE)
    (perm : BitVec 32) (pa : Word) : Maps r perm v pa 0 fs s s' where
  toExtends := h.toExtends
  fresh m h1 h2 := by omega
  bound := hv
  leaf m _ := by rw [if_neg (by omega), h.leaf]

inductive MapsUpTo (r : Frame) (perm : BitVec 32) (v : ℕ) (pa : Word) (k : ℕ) (s : Kmem) :
    Bool → Kmem → Prop
  | refused {fs : List Frame} {j : ℕ} {s' : Kmem} (h : Maps r perm v pa j fs s s') (hj : j < k)
    (hc : Refuses (2 * k) s) : MapsUpTo r perm v pa k s false s'
  | done {fs : List Frame} {s' : Kmem} (h : Maps r perm v pa k fs s s') (hc : fs.length ≤ 2 * k)
    (hd : s'.deny = fun k => s.deny (fs.length + k)) : MapsUpTo r perm v pa k s true s'

def MapPanic (r : Frame) (v k : ℕ) (s : Kmem) (e : Panic) : Prop :=
  (e = .mappagesRemap ∧ ∃ m < MAXVA / PGSIZE, v ≤ m ∧ m < v + k ∧ s.leaf r m ≠ none) ∨
    (e = .walk ∧ MAXVA / PGSIZE < v + k)

theorem leaf_eq (ht : node s.child r (path n) = some t) :
    s.leaf r n = valid (s.pte t (ix 0 n)) := by
  rw [Kmem.leaf, ht]
  rfl

theorem mapPage_sat (h : Ready s r) :
    Sat (mapPage r perm a pa) s (MapsUpTo r perm (vpn a) pa 1 s) (MapPanic r (vpn a) 1 s) := by
  rw [mapPage]
  by_cases ha : a.toNat < MAXVA
  · refine Sat.bind ((walk_true h ha).weaken fun _ he => he.elim) ?_
    intro o s' hw
    cases hw with
    | refused hg hc =>
      exact Sat.pure (.refused (hg.maps (vpn_lt ha).le perm pa) Nat.zero_lt_one hc)
    | @found fs _ t hg hc hd ht =>
      refine Sat.bind_ok (getPte_run _ _) ?_
      have hleaf := (hg.leaf (vpn a)).symm.trans (leaf_eq ht)
      refine Sat.ite (fun hv => ?_) fun hv => ?_
      · refine Sat.throw (.inl ⟨rfl, vpn a, vpn_lt ha, le_refl _, Nat.lt_succ_self _, ?_⟩)
        rw [hleaf, valid, if_pos hv]
        exact Option.some_ne_none _
      · refine Sat.bind_ok (setPte_run _ _ _) ?_
        obtain ⟨hext, hset⟩ := hg.ready.setLeaf (vpn_lt ha) ht (entry pa perm)
        have hfresh : s.leaf r (vpn a) = none := hleaf.trans (if_neg hv)
        have hmaps : Maps r perm (vpn a) pa 1 (fs ++ []) s
            (s'.setPte t (ix 0 (vpn a)) (entry pa perm)) := by
          refine ⟨hg.toExtends.trans hext, fun m h1 h2 => ?_, vpn_lt ha, fun m hm => ?_⟩
          · rwa [show m = vpn a by omega]
          · rw [hset m hm, hg.leaf, valid_entry]
            by_cases hmn : m = vpn a
            · rw [if_pos hmn, if_pos (by omega), hmn, Nat.sub_self]
              simp
            · rw [if_neg hmn, if_neg (by omega)]
        rw [append_nil] at hmaps
        exact Sat.pure (.done hmaps hc hd)
  · have hge := vpn_ge (Nat.le_of_not_lt ha)
    exact Sat.bind_error (walk_panic true (Nat.le_of_not_lt ha)) (.inr ⟨rfl, by omega⟩)

theorem Maps.trans {v j : ℕ} {fs gs : List Frame} (h : Maps r perm v pa 1 fs s s')
    (h' : Maps r perm (v + 1) (pa + 4096) j gs s' s'') :
    Maps r perm v pa (j + 1) (fs ++ gs) s s'' where
  toExtends := h.toExtends.trans h'.toExtends
  fresh m h1 h2 := by
    by_cases hm : m = v
    · exact h.fresh m h1 (by omega)
    · have hnone := h'.fresh m (by omega) (by omega)
      rwa [h.leaf m (lt_cube (by have := h'.bound; omega)), if_neg (by omega)] at hnone
  bound := by have := h'.bound; omega
  leaf m hm := by
    rw [h'.leaf m hm, h.leaf m hm]
    by_cases hlt : v ≤ m ∧ m < v + (j + 1)
    · rw [if_pos hlt]
      by_cases hmv : m = v
      · rw [if_neg (by omega), if_pos (by omega)]
      · have hpa : pa + 4096 + BitVec.ofNat 64 (4096 * (m - (v + 1))) =
            pa + BitVec.ofNat 64 (4096 * (m - v)) := by
          rw [show 4096 * (m - v) = 4096 + 4096 * (m - (v + 1)) by omega, BitVec.ofNat_add,
            BitVec.add_assoc]
          rfl
        rw [if_pos (by omega), hpa]
    · rw [if_neg hlt, if_neg (by omega), if_neg (by omega)]

theorem Maps.upTo {v k : ℕ} {b : Bool} (h : Maps r perm v pa 1 fs s s')
    (hc : fs.length ≤ 2) (hd : s'.deny = fun k => s.deny (fs.length + k))
    (h' : MapsUpTo r perm (v + 1) (pa + 4096) k s' b s'') : MapsUpTo r perm v pa (k + 1) s b s'' := by
  cases h' with
  | refused hm hj href => exact .refused (h.trans hm) (by omega) ((href.after h.free hd).mono (by omega))
  | @done gs _ hm hg hd' =>
    refine .done (h.trans hm) (by rw [length_append]; omega) ?_
    rw [hd', hd, length_append]
    exact funext fun k => congrArg s.deny (Nat.add_assoc _ _ _).symm

theorem vpn_add (h : vpn a < MAXVA / PGSIZE) : vpn (a + 4096) = vpn a + 1 := by
  have hbound : a.toNat / 4096 < 2 ^ 26 := h
  rw [vpn, vpn, BitVec.toNat_add]
  change (a.toNat + 4096) % 2 ^ 64 / 4096 = a.toNat / 4096 + 1
  omega

def status (b : Bool) : ℤ := if b then 0 else -1

theorem mappagesLoop_sat (perm : BitVec 32) (k : ℕ) (a pa : Word) (h : Ready s r) :
    Sat (mappagesLoop r perm k a pa) s
      (fun z s' => ∃ b, z = status b ∧ MapsUpTo r perm (vpn a) pa (k + 1) s b s')
      (MapPanic r (vpn a) (k + 1) s) := by
  induction k generalizing a pa s with
  | zero =>
    rw [mappagesLoop]
    refine Sat.bind (mapPage_sat h) fun b s' hb => ?_
    cases b with
    | false => exact Sat.pure ⟨false, rfl, hb⟩
    | true => exact Sat.pure ⟨true, rfl, hb⟩
  | succ k ih =>
    rw [mappagesLoop]
    refine Sat.bind ((mapPage_sat h).weaken fun e he => ?_) fun b s' hb => ?_
    · rcases he with ⟨rfl, m, hlt, h1, h2, hm⟩ | ⟨rfl, hv⟩
      · exact .inl ⟨rfl, m, hlt, h1, by omega, hm⟩
      · exact .inr ⟨rfl, by omega⟩
    · cases hb with
      | refused hm hj hc => exact Sat.pure ⟨false, rfl, .refused hm (by omega) (hc.mono (by omega))⟩
      | done hm hc hd =>
        have hv : vpn a < MAXVA / PGSIZE := hm.bound
        refine Sat.mono (ih _ _ hm.ready) ?_ ?_
        · rintro z s'' ⟨b, rfl, hb⟩
          rw [vpn_add hv] at hb
          exact ⟨b, rfl, hm.upTo hc hd hb⟩
        · rw [vpn_add hv]
          rintro e (⟨rfl, m, hlt, h1, h2, hm'⟩ | ⟨rfl, hb⟩)
          · rw [hm.leaf m (lt_cube hlt), if_neg (by omega)] at hm'
            exact .inl ⟨rfl, m, hlt, by omega, by omega, hm'⟩
          · exact .inr ⟨rfl, by omega⟩

def span (va size : Word) : ℕ := (PGROUNDDOWN (va + size - 1) - PGROUNDDOWN va).toNat / PGSIZE + 1

theorem mappages_sat (va size pa : Word) (perm : BitVec 32) (h : Ready s r) (hsize : size ≠ 0) :
    Sat (mappages r va size pa perm) s
      (fun z s' => ∃ b, z = status b ∧ MapsUpTo r perm (vpn va) pa (span va size) s b s')
      (MapPanic r (vpn va) (span va size) s) := by
  have hloop := mappagesLoop_sat perm
    ((PGROUNDDOWN (va + size - 1) - PGROUNDDOWN va).toNat / PGSIZE) (PGROUNDDOWN va) pa h
  rw [vpn_PGROUNDDOWN] at hloop
  rw [mappages, if_neg hsize]
  exact hloop

theorem span_page (ha : va.toNat % 4096 = 0) : span va 4096 = 1 := by
  have hround : PGROUNDDOWN (va + 4096 - 1) = PGROUNDDOWN va := by
    apply BitVec.eq_of_toNat_eq
    have hsum : (va + 4096 - 1).toNat = va.toNat + 4095 := by bv_omega
    rw [toNat_PGROUNDDOWN, toNat_PGROUNDDOWN, hsum]
    omega
  rw [span, hround, BitVec.sub_self]
  rfl

end Xv6.Vm
