import Mathlib.Order.CompletePartialOrder
import Xv6.Vm.Sbrk
import Xv6.Lib.Run

/-! The memories of several processes: `fork` copies one with `uvmcopy`, `sbrk` changes its size, and
programs write to theirs. Nobody sees that they are in one physical memory. -/
namespace Xv6.Vm
open Bytes Radix PartialRun Function

variable {kend : Word} {s s' s'' : Kmem} {o q r f : Frame} {i n M N N' : ℕ} {e : Word}

def Kmem.held (s : Kmem) (r : Frame) (N : ℕ) : Set Frame := s.tables r ∪ s.phys r '' Set.Iio N

def Kmem.view (s : Kmem) (r : Frame) (n : ℕ) : Option (Word × Page) :=
  if n < TRAPFRAME / PGSIZE then
    (s.leaf r n).map fun e => (PTE_FLAGS e, s.page (frame (PTE2PA e)))
  else none

structure Acts (kend : Word) (r : Frame) (s : Kmem) (N : ℕ) (s' : Kmem) (N' : ℕ) : Prop where
  space : Space kend s' r N'
  own : s'.own r N' = s.own r N
  outside : ∀ f ∉ s.own r N, s'.page f = s.page f
  high : ∀ n, TRAPFRAME / PGSIZE ≤ n → n < 512 ^ 3 → s'.leaf r n = s.leaf r n

theorem Resizes.acts (h : Resizes kend r s N s' N') : Acts kend r s N s' N' :=
  ⟨h.space, h.own, h.outside, h.high⟩

theorem own_eq (s : Kmem) (r : Frame) (N : ℕ) :
    s.own r N = {f | f ∈ s.freelist} ∪ s.held r N := Set.union_assoc _ _ _

theorem view_congr (hleaf : s'.leaf r n = s.leaf r n)
    (hpage : s'.page (s.phys r n) = s.page (s.phys r n)) : s'.view r n = s.view r n := by
  rw [Kmem.view, hleaf, Kmem.view]
  cases hl : s.leaf r n with
  | none => rfl
  | some e =>
    rw [phys_of_leaf hl] at hpage
    rw [Option.map_some, hpage, Option.map_some]

theorem Space.view_eq_none (h : Space kend s r N) (hn : N ≤ n) : s.view r n = none := by
  rw [Kmem.view]
  split
  · rw [h.empty n hn ‹_›]
    rfl
  · rfl

theorem Space.notMem_free (h : Space kend s r N) (hf : f ∈ s.held r N) : f ∉ s.freelist := by
  rcases hf with ht | ⟨n, hn, rfl⟩
  · exact h.ready.apart f ht
  · exact fun hl => h.apart n hn (.inl hl)

theorem Space.agree (h : Space kend s r N) (hagree : ∀ f ∈ s.tables r, s'.page f = s.page f)
    (hn : s'.freelist.Nodup) (hfree : ∀ f ∈ s'.freelist, f ∉ s.held r N ∧ InRam kend f) :
    Space kend s' r N ∧ s'.held r N = s.held r N ∧ ∀ n, s'.leaf r n = s.leaf r n := by
  have hleaf := leaf_agree hagree
  have htables : s'.tables r = s.tables r := tables_agree hagree
  have hready : Ready s' r := by
    refine ⟨isTree_agree hagree h.ready.tree, hn, fun f hf hm => (hfree f hm).1 (.inl ?_)⟩
    rwa [← htables]
  refine ⟨h.of_leaf hready (fun n _ => hleaf n) ?_ ?_, ?_, hleaf⟩
  · rintro n hn (hm | ht)
    · exact (hfree _ hm).1 (.inr ⟨n, hn, rfl⟩)
    · rw [htables] at ht
      exact h.apart n hn (.inr ht)
  · rintro f (hm | ht)
    · exact (hfree f hm).2
    · rw [htables] at ht
      exact h.ram f (.inl (.inr ht))
  · rw [Kmem.held, htables, Kmem.held]
    exact congrArg _ (Set.image_congr fun n _ => phys_congr (hleaf n))

structure Spared (kend : Word) (q : Frame) (M : ℕ) (s s' : Kmem) : Prop where
  space : Space kend s' q M
  held : s'.held q M = s.held q M
  leaf : ∀ n, s'.leaf q n = s.leaf q n
  view : ∀ n, s'.view q n = s.view q n

theorem Acts.spares (h : Acts kend r s N s' N') (hq : Space kend s q M)
    (hd : Disjoint (s.held r N) (s.held q M)) :
    Spared kend q M s s' ∧ Disjoint (s'.held r N') (s'.held q M) := by
  have hout {f : Frame} (hf : f ∈ s.held q M) : f ∉ s.own r N := by
    rw [own_eq]
    exact fun ho => ho.elim (hq.notMem_free hf) fun hr => Set.disjoint_left.mp hd hr hf
  have hfree {f : Frame} (hf : f ∈ s'.freelist) : f ∈ s.own r N := by
    rw [← h.own]
    exact .inl (.inl hf)
  obtain ⟨hspace, hheld, hleaf⟩ := hq.agree (fun f hf => h.outside f (hout (.inl hf)))
    h.space.ready.nodup fun f hf => ⟨fun hm => hout hm (hfree hf), h.space.ram f (.inl (.inl hf))⟩
  refine ⟨⟨hspace, hheld, hleaf, fun n => ?_⟩, ?_⟩
  · rcases Nat.lt_or_ge n M with hn | hn
    · exact view_congr (hleaf n) (h.outside _ (hout (.inr ⟨n, hn, rfl⟩)))
    · rw [hspace.view_eq_none hn, hq.view_eq_none hn]
  · rw [hheld]
    refine Set.disjoint_left.mpr fun f hr hf => hout hf ?_
    rw [← h.own, own_eq]
    exact .inr hr

theorem flagsOf_PTE_FLAGS (hv : e &&& PTE_V ≠ 0) :
    flagsOf ((PTE_FLAGS e).setWidth 32) = PTE_FLAGS e := by
  have hlt : (PTE_FLAGS e).toNat < 1024 := by
    rw [toNat_PTE_FLAGS]
    omega
  obtain ⟨hcast, hnat⟩ := narrow (w := PTE_FLAGS e) (by omega)
  have hmsb : ((PTE_FLAGS e).setWidth 32).msb = false := by
    rw [BitVec.msb_eq_false_iff_two_mul_lt, hnat]
    omega
  have hbit : e.getLsbD 0 = true := by
    by_contra h0
    rw [Bool.not_eq_true] at h0
    refine hv (BitVec.and_one_eq_setWidth_ofBool_getLsbD.trans ?_)
    rw [h0]
    rfl
  rw [flagsOf, BitVec.signExtend_eq_setWidth_of_msb_false hmsb, hcast]
  refine BitVec.eq_of_getLsbD_eq fun k hk => ?_
  cases k with
  | zero => simp [PTE_V, PTE_FLAGS, hbit]
  | succ k => simp [PTE_V, BitVec.getLsbD_one]

theorem node_of_leaf (he : s.leaf r n = some e) :
    ∃ t, node s.child r (path n) = some t ∧ s.pte t (ix 0 n) = e ∧ e &&& PTE_V ≠ 0 := by
  obtain ⟨t, ht, hv⟩ := Option.bind_eq_some_iff.mp he
  obtain ⟨hvalid, rfl⟩ := guard_iff.mp hv
  exact ⟨t, ht, rfl, hvalid⟩

theorem uvmcopyErr_sat (h : Resizes kend r s i s' i) :
    Sat (uvmcopyErr kend r (page i)) s' (fun z s'' => z = -1 ∧ Resizes kend r s i s'' 0)
      fun _ => False := by
  have hb := h.space.bound'
  have hdiv : page i / 4096 = BitVec.ofNat 64 (i - 0) := by
    apply BitVec.eq_of_toNat_eq
    rw [BitVec.toNat_udiv, toNat_page (by omega), BitVec.toNat_ofNat]
    change i * 4096 / 4096 = _
    omega
  rw [uvmcopyErr, hdiv]
  refine Sat.bind (h.space.unmap (Nat.zero_le i)) fun _ s'' hs => ?_
  exact Sat.pure ⟨rfl, h.trans hs.1 (Nat.min_le_left _ _)⟩

def Copied (kend : Word) (o r : Frame) (i N : ℕ) (s : Kmem) (z : ℤ) (s' : Kmem) : Prop :=
  (z = 0 ∧ Resizes kend r s i s' N ∧ ∀ n, i ≤ n → n < N → s'.view r n = s.view o n) ∨
    (z = -1 ∧ Resizes kend r s i s' 0)

theorem Resizes.copied {z : ℤ} (h : Resizes kend r s i s' (i + 1)) (hi : i < N)
    (hview : s'.view r i = s.view o i) (ho : ∀ n, s'.view o n = s.view o n)
    (hc : Copied kend o r (i + 1) N s' z s'') : Copied kend o r i N s z s'' := by
  rcases hc with ⟨rfl, hs, hcopy⟩ | ⟨rfl, hs⟩
  · refine .inl ⟨rfl, h.trans hs (by omega), fun n h1 h2 => ?_⟩
    rcases Nat.eq_or_lt_of_le h1 with rfl | h1
    · obtain ⟨hleaf, hpage⟩ := hs.kept i (Nat.lt_succ_self i) hi
      rw [view_congr hleaf hpage, hview]
    · rw [hcopy n h1 h2, ho]
  · exact .inr ⟨rfl, h.trans hs (by omega)⟩

theorem Space.copied {sz : Word} (h : Space kend s r i) (hi : i ≤ pages sz)
    (hge : sz.toNat ≤ i * 4096) : Copied kend o r i (pages sz) s 0 s := by
  obtain rfl : i = pages sz := by
    unfold pages at hi ⊢
    omega
  exact .inl ⟨rfl, h.refl, fun n h1 h2 => absurd h2 (Nat.not_lt_of_le h1)⟩

theorem uvmcopyLoop_sat {sz : Word} (fuel : ℕ) (ho : Space kend s o (pages sz))
    (h : Space kend s r i) (hd : Disjoint (s.held r i) (s.held o (pages sz))) (hi : i ≤ pages sz)
    (hfuel : sz.toNat ≤ (i + fuel) * 4096) :
    Sat (uvmcopyLoop kend o r sz fuel (page i)) s (Copied kend o r i (pages sz) s)
      fun _ => False := by
  induction fuel generalizing s i with
  | zero => exact Sat.pure (h.copied hi hfuel)
  | succ fuel ih =>
    have hb := h.bound'
    rw [Nat.add_comm fuel 1, ← Nat.add_assoc] at hfuel
    rw [uvmcopyLoop]
    refine Sat.ite (fun hlt => ?_) fun hge => ?_
    · have hlt : (page i).toNat < sz.toNat := hlt
      rw [toNat_page (by omega)] at hlt
      have hpages : i < pages sz := by unfold pages; omega
      obtain ⟨e, he, hne⟩ := ho.mapped i hpages
      obtain ⟨t, ht, rfl, hv⟩ := node_of_leaf he
      have hva : (page i).toNat < MAXVA := by
        rw [toNat_page (by omega)]
        exact lt_of_lt_of_le (by omega : _ < 2 ^ 38) (by decide)
      have hwalk := walk_false (r := o) (s := s) hva
      rw [vpn_page (by omega), ht] at hwalk
      refine Sat.bind_ok hwalk (Sat.bind_ok (getPte_run t _) ?_)
      rw [if_neg hv]
      refine kalloc_sat (fun _ => ?_) fun f l hf => ?_
      · exact (uvmcopyErr_sat h.skip).post fun z s' hs => .inr hs
      · set e := s.pte t (ix 0 i)
        have hpage (x : Page) : (s.take f x).page (frame (PTE2PA e)) = s.page (frame (PTE2PA e)) := by
          refine page_take fun heq => ho.apart i hpages (.inl ?_)
          rw [phys_of_leaf he, heq, hf]
          exact List.mem_cons_self
        refine Sat.get_bind (Sat.bind_ok (t := (s.take f _).setPage f _) rfl ?_)
        rw [Kmem.setPage_take, hpage]
        have hflags := flagsOf_PTE_FLAGS hv
        refine Sat.bind ((h.take hf _).1.mapNext (addr f) _) ?_
        rintro _ s' ⟨b, rfl, hmap⟩
        cases hmap with
        | refused hm hj _ =>
          obtain rfl : _ = 0 := Nat.lt_one_iff.mp hj
          rw [status, if_neg Bool.false_ne_true, if_pos (by decide)]
          refine Sat.bind_ok (kfree_run (h.ram_head hf)) ?_
          exact (uvmcopyErr_sat (h.giveBack hf hm)).post fun z s' hs => .inr hs
        | done hm _ _ =>
          have hperm : ((PTE_FLAGS e).setWidth 32).toNat < 1024 := by
            rw [BitVec.toNat_setWidth, toNat_PTE_FLAGS]
            omega
          obtain ⟨hgrow, hleaf, -, hcopy⟩ := h.grow hf hm hperm (by rwa [hflags])
          -- the child got free pages only, so the parent's memory is as before
          obtain ⟨hspared, hd'⟩ := hgrow.acts.spares ho hd
          rw [status, if_pos rfl, if_neg (by decide), page_succ]
          refine (ih hspared.space hgrow.space hd' hpages hfuel).post fun z s'' hc => ?_
          refine hgrow.copied hpages ?_ hspared.view hc
          obtain ⟨hfr, hfl⟩ := Prod.mk.inj (entry_meaning hperm (addr f))
          rw [Kmem.view, hleaf, Kmem.view, he, Option.map_some, Option.map_some, hfr, hfl, hflags,
            frame_addr, hcopy]
    · have hge : ¬ (page i).toNat < sz.toNat := hge
      rw [toNat_page (by omega)] at hge
      exact Sat.pure (h.copied hi (Nat.le_of_not_lt hge))

theorem uvmcopy_sat {sz : Word} (ho : Space kend s o (pages sz)) (h : Space kend s r 0)
    (hd : Disjoint (s.held r 0) (s.held o (pages sz))) :
    Sat (uvmcopy kend o r sz) s (Copied kend o r 0 (pages sz) s) fun _ => False := by
  refine uvmcopyLoop_sat (i := 0) _ ho h hd (Nat.zero_le _) ?_
  unfold PGSIZE
  omega

structure Memory where
  sz : Word
  page : ℕ → Option (Word × Page)

structure World (P : Type) where
  mem : Kmem
  pagetable : P → Frame
  sz : P → Word

/-- `fork` is the copy of the memory, to a new process that has an empty page table. -/
inductive Event (P : Type) where
  | sbrk (p : P) (n : BitVec 32)
  | fork (p np : P)
  | store (p : P) (n : ℕ) (i : Fin PGSIZE) (b : Byte)

variable {P : Type} [DecidableEq P]

def step (kend : Word) (w : World P) : Event P → Option (World P)
  | .sbrk p n => (sysSbrk kend (w.pagetable p) (w.sz p) n w.mem).toOption.map fun x =>
      { w with mem := x.2, sz := update w.sz p x.1.2 }
  | .fork p np =>
    if p ≠ np ∧ w.sz np = 0 then
      (uvmcopy kend (w.pagetable p) (w.pagetable np) (w.sz p) w.mem).toOption.map fun x =>
        { w with mem := x.2, sz := update w.sz np (if x.1 < (0 : ℤ) then w.sz np else w.sz p) }
    else none
  | .store p n i b =>
    (w.mem.leaf (w.pagetable p) n).bind fun e =>
      if n < 512 ^ 3 ∧ e &&& PTE_U ≠ 0 ∧ e &&& PTE_W ≠ 0 then
        let f := frame (PTE2PA e)
        some { w with mem := w.mem.setPage f (update (w.mem.page f) i b) }
      else none

def World.held (w : World P) (p : P) : Set Frame := w.mem.held (w.pagetable p) (pages (w.sz p))

def World.view (w : World P) (p : P) : Memory := ⟨w.sz p, w.mem.view (w.pagetable p)⟩

def World.all (w : World P) : Set Frame := {f | f ∈ w.mem.freelist} ∪ ⋃ p, w.held p

/-- Processes share no page, and programs cannot use what is mapped above their memory. -/
structure World.Inv (kend : Word) (w : World P) : Prop where
  space : ∀ p, Space kend w.mem (w.pagetable p) (pages (w.sz p))
  apart : ∀ p q, p ≠ q → Disjoint (w.held p) (w.held q)
  high : ∀ p n e, TRAPFRAME / PGSIZE ≤ n → n < 512 ^ 3 →
    w.mem.leaf (w.pagetable p) n = some e → e &&& PTE_U = 0

def resize (k : ℕ) (v : ℕ → Option (Word × Page)) (n : ℕ) : Option (Word × Page) :=
  if n < k then some ((v n).getD (flagsOf uperm, fun _ => 0)) else none

def write (n : ℕ) (i : Fin PGSIZE) (b : Byte) (v : ℕ → Option (Word × Page)) :
    ℕ → Option (Word × Page) :=
  update v n ((v n).map fun x => (x.1, update x.2 i b))

/-- What the events do to processes that have a memory each. -/
inductive Does (A : P → Memory) : Event P → (P → Memory) → Prop
  | sbrk (p : P) (n : BitVec 32) (z : Word)
    (hz : z = (A p).sz ∨ (z.toNat : ℤ) = (A p).sz.toNat + n.toInt) :
    Does A (.sbrk p n) (update A p ⟨z, resize (pages z) (A p).page⟩)
  | fork (p np : P) : Does A (.fork p np) (update A np (A p))
  | failed (p np : P) : Does A (.fork p np) A
  | store (p : P) (n : ℕ) (i : Fin PGSIZE) (b : Byte) :
    Does A (.store p n i b) (update A p ⟨(A p).sz, write n i b (A p).page⟩)

inductive Runs (A : P → Memory) : List (Event P) → (P → Memory) → Prop
  | nil : Runs A [] A
  | concat {es : List (Event P)} {x : Event P} {B C : P → Memory} (h : Runs A es B)
    (hd : Does B x C) : Runs A (es ++ [x]) C

variable {w w' : World P} {p : P}

omit [DecidableEq P] in
theorem mem_all (w : World P) (p : P) : f ∈ w.all ↔
    f ∈ w.mem.own (w.pagetable p) (pages (w.sz p)) ∨ ∃ q, q ≠ p ∧ f ∈ w.held q := by
  rw [own_eq, World.all, Set.mem_union, Set.mem_union, Set.mem_iUnion, or_assoc]
  refine or_congr_right ⟨?_, ?_⟩
  · rintro ⟨q, hq⟩
    rcases eq_or_ne q p with rfl | hne
    · exact .inl hq
    · exact .inr ⟨q, hne, hq⟩
  · rintro (hp | ⟨q, -, hq⟩)
    · exact ⟨p, hp⟩
    · exact ⟨q, hq⟩

theorem World.Inv.acts {m : Kmem} {z : Word} {v : ℕ → Option (Word × Page)} {x : Event P}
    (h : w.Inv kend) (ha : Acts kend (w.pagetable p) w.mem (pages (w.sz p)) m (pages z))
    (hw : w' = { w with mem := m, sz := update w.sz p z }) (hv : m.view (w.pagetable p) = v)
    (hx : Does w.view x (update w.view p ⟨z, v⟩)) :
    w'.Inv kend ∧ w'.all = w.all ∧ Does w.view x w'.view := by
  subst hw
  set w' : World P := { w with mem := m, sz := update w.sz p z }
  have hsz {q : P} (hq : q ≠ p) : w'.sz q = w.sz q := update_of_ne hq _ _
  have hszp : w'.sz p = z := update_self ..
  have hspared {q : P} (hq : q ≠ p) := ha.spares (h.space q) (h.apart p q hq.symm)
  have hheld {q : P} (hq : q ≠ p) : w'.held q = w.held q := by
    rw [World.held, hsz hq]
    exact (hspared hq).1.held
  have hdisj {q : P} (hq : q ≠ p) : Disjoint (w'.held p) (w'.held q) := by
    rw [World.held, World.held, hszp, hsz hq]
    exact (hspared hq).2
  have hview : w'.view = update w.view p ⟨z, v⟩ := by
    funext q
    rcases eq_or_ne q p with rfl | hq
    · rw [update_self, World.view, hszp]
      exact congrArg _ hv
    · rw [update_of_ne hq, World.view, hsz hq]
      exact congrArg _ (funext (hspared hq).1.view)
  refine ⟨⟨fun q => ?_, fun q q' hne => ?_, fun q n e h1 h2 he => ?_⟩, ?_, by rwa [hview]⟩
  · rcases eq_or_ne q p with rfl | hq
    · rw [hszp]
      exact ha.space
    · rw [hsz hq]
      exact (hspared hq).1.space
  · rcases eq_or_ne q p with rfl | hq
    · exact hdisj hne.symm
    · rcases eq_or_ne q' p with rfl | hq'
      · exact (hdisj hq).symm
      · rw [hheld hq, hheld hq']
        exact h.apart q q' hne
  · rcases eq_or_ne q p with rfl | hq
    · exact h.high q n e h1 h2 ((ha.high n h1 h2).symm.trans he)
    · exact h.high q n e h1 h2 (((hspared hq).1.leaf n).symm.trans he)
  · ext f
    have hown : w'.mem.own (w'.pagetable p) (pages (w'.sz p)) =
        w.mem.own (w.pagetable p) (pages (w.sz p)) := by
      rw [hszp]
      exact ha.own
    rw [mem_all w' p, mem_all w p, hown]
    refine or_congr_right (exists_congr fun q => and_congr_right fun hq => ?_)
    rw [hheld hq]

theorem sysSbrk_sat {psz : Word} (n : BitVec 32) (hk : KERNBASE ≤ kend.toNat)
    (h : Space kend s r (pages psz)) :
    Sat (sysSbrk kend r psz n) s (fun x s' => Resizes kend r s (pages psz) s' (pages x.2) ∧
      Fresh s' r (pages psz) (pages x.2) ∧ (x.2 = psz ∨ (x.2.toNat : ℤ) = psz.toNat + n.toInt))
      fun _ => False := by
  rw [sysSbrk]
  refine Sat.bind ((growproc_fresh n hk h).beside (growproc_sat n hk h)) fun x s' hx => ?_
  have hsz : x.2 = psz ∨ (x.2.toNat : ℤ) = psz.toNat + n.toInt := by
    rcases hx.2.result with ⟨-, hz⟩ | ⟨-, hz, -⟩
    · split at hz
      · exact .inr hz
      · exact .inl (BitVec.eq_of_toNat_eq (Int.ofNat_inj.mp hz))
    · exact .inl hz
  exact Sat.ite (fun _ => Sat.pure ⟨hx.2.resizes, hx.1, hsz⟩)
    fun _ => Sat.pure ⟨hx.2.resizes, hx.1, hsz⟩

theorem Space.view_eq_some (h : Space kend s r N) (hn : n < N) (he : s.leaf r n = some e) :
    s.view r n = some (PTE_FLAGS e, s.page (frame (PTE2PA e))) := by
  rw [Kmem.view, if_pos (hn.trans_le h.bound), he]
  rfl

theorem Resizes.view (h : Resizes kend r s N s' N') (hs : Space kend s r N)
    (hf : Fresh s' r N N') : s'.view r = resize N' (s.view r) := by
  funext n
  rw [resize]
  split
  · rename_i hn'
    rcases Nat.lt_or_ge n N with hn | hn
    · obtain ⟨hleaf, hpage⟩ := h.kept n hn hn'
      obtain ⟨e, he, -⟩ := hs.mapped n hn
      rw [view_congr hleaf hpage, hs.view_eq_some hn he]
      rfl
    · obtain ⟨hleaf, hpage⟩ := hf n hn hn'
      obtain ⟨hframe, hflags⟩ := Prod.mk.inj (entry_meaning (by decide : uperm.toNat < 1024)
        (addr (s'.phys r n)))
      rw [h.space.view_eq_some hn' hleaf, hframe, frame_addr, hflags, hpage, hs.view_eq_none hn]
      rfl
  · exact h.space.view_eq_none (Nat.le_of_not_lt ‹_›)

theorem Space.store (h : Space kend s r N) (hn : n < N) (he : s.leaf r n = some e)
    (i : Fin PGSIZE) (b : Byte) :
    let s' := s.setPage (frame (PTE2PA e)) (update (s.page (frame (PTE2PA e))) i b)
    Acts kend r s N s' N ∧ s'.view r = write n i b (s.view r) := by
  intro s'
  have hpage {f : Frame} (hf : f ≠ s.phys r n) : s'.page f = s.page f :=
    update_of_ne (by rwa [← phys_of_leaf he]) _ _
  have hagree : ∀ f ∈ s.tables r, s'.page f = s.page f := fun f hf =>
    hpage fun heq => h.apart n hn (.inr (heq ▸ hf))
  obtain ⟨hspace, hheld, hleaf⟩ := h.agree hagree h.ready.nodup
    fun f hf => ⟨fun hm => h.notMem_free hm hf, h.ram f (.inl (.inl hf))⟩
  refine ⟨⟨hspace, ?_, fun f hf => hpage fun heq => hf (.inr ⟨n, hn, heq.symm⟩),
    fun m _ _ => hleaf m⟩, funext fun m => ?_⟩
  · rw [own_eq, hheld, own_eq]
    rfl
  · rcases eq_or_ne m n with rfl | hm
    · rw [write, update_self, h.view_eq_some hn he, hspace.view_eq_some hn ((hleaf m).trans he)]
      exact congrArg some (congrArg _ (update_self ..))
    · rw [write, update_of_ne hm]
      rcases Nat.lt_or_ge m N with hlt | hge
      · exact view_congr (hleaf m) (hpage fun heq => hm (h.inj hlt hn heq))
      · rw [hspace.view_eq_none hge, h.view_eq_none hge]

theorem Space.view_of_copied (h : Space kend s o N) (hr : Space kend s' r N)
    (hc : ∀ n, 0 ≤ n → n < N → s'.view r n = s.view o n) : s'.view r = s.view o := by
  funext n
  rcases Nat.lt_or_ge n N with hn | hn
  · exact hc n (Nat.zero_le n) hn
  · rw [hr.view_eq_none hn, h.view_eq_none hn]

omit [DecidableEq P] in
theorem World.Inv.uvmcopy_sat {np : P} (h : w.Inv kend) (hne : p ≠ np) (hz : w.sz np = 0) :
    Sat (uvmcopy kend (w.pagetable p) (w.pagetable np) (w.sz p)) w.mem
      (Copied kend (w.pagetable p) (w.pagetable np) 0 (pages (w.sz p)) w.mem) fun _ => False := by
  have hnp := h.space np
  have hd := h.apart np p hne.symm
  rw [World.held, hz] at hd
  rw [hz] at hnp
  exact Vm.uvmcopy_sat (h.space p) hnp hd

theorem step_keeps {x : Event P} (hk : KERNBASE ≤ kend.toNat) (h : w.Inv kend)
    (hs : step kend w x = some w') : w'.Inv kend ∧ w'.all = w.all ∧ Does w.view x w'.view := by
  cases x with
  | sbrk p n =>
    obtain ⟨x, m, hrun, rfl⟩ := Sat.of_toOption hs
    obtain ⟨hres, hfresh, hz⟩ := (sysSbrk_sat n hk (h.space p)).ok hrun
    exact h.acts hres.acts rfl (hres.view (h.space p) hfresh) (.sbrk p n _ hz)
  | fork p np =>
    obtain ⟨⟨hne, hz⟩, hs⟩ := Option.ite_none_right_eq_some.mp hs
    obtain ⟨a, m, hrun, rfl⟩ := Sat.of_toOption hs
    have hpages : pages (w.sz np) = 0 := congrArg pages hz
    have hacts {N : ℕ} (hres : Resizes kend (w.pagetable np) w.mem 0 m N) :
        Acts kend (w.pagetable np) w.mem (pages (w.sz np)) m N := by
      rw [hpages]
      exact hres.acts
    rcases (h.uvmcopy_sat hne hz).ok hrun with ⟨rfl, hres, hcopy⟩ | ⟨rfl, hres⟩
    · exact h.acts (hacts hres) rfl ((h.space p).view_of_copied hres.space hcopy) (.fork p np)
    · have hsame : m.view (w.pagetable np) = w.mem.view (w.pagetable np) :=
        (hpages ▸ h.space np).view_of_copied hres.space fun n _ hn => absurd hn (Nat.not_lt_zero n)
      refine h.acts (z := w.sz np) ?_ rfl hsame ?_
      · have := hacts hres
        rwa [← hpages] at this
      · exact (update_eq_self np w.view).symm ▸ .failed p np
  | store p n i b =>
    obtain ⟨e, he, hs⟩ := Option.bind_eq_some_iff.mp hs
    obtain ⟨⟨hlt, hu, -⟩, rfl⟩ := guard_iff.mp hs
    -- the trapframe and the trampoline are not the user's
    have hn : n < pages (w.sz p) := by
      by_contra hge
      rcases Nat.lt_or_ge n (TRAPFRAME / PGSIZE) with hlow | hhigh
      · rw [(h.space p).empty n (Nat.le_of_not_lt hge) hlow] at he
        cases he
      · exact hu (h.high p n e hhigh hlt he)
    obtain ⟨hacts, hview⟩ := (h.space p).store hn he i b
    exact h.acts hacts (by rw [update_eq_self]) hview (.store p n i b)

/-- Processes that `fork`, `sbrk` and write behave as if each had a memory of its own, which a
`fork` copies; no page is lost, and the kernel does not panic. -/
theorem memory_private {w₀ : World P} {es : List (Event P)} (hk : KERNBASE ≤ kend.toNat)
    (h : w₀.Inv kend) (hr : run (step kend) w₀ es = some w) :
    Runs w₀.view es w.view ∧ w.all = w₀.all ∧ (∀ p n, (step kend w (.sbrk p n)).isSome) ∧
      ∀ p np, p ≠ np → w.sz np = 0 → (step kend w (.fork p np)).isSome := by
  obtain ⟨hi, hall, hruns⟩ := run_history
    (I := fun es w => w.Inv kend ∧ w.all = w₀.all ∧ Runs w₀.view es w.view) ⟨h, rfl, .nil⟩
    (fun es t e u _ hI _ he => by
      obtain ⟨hi, hall, hdoes⟩ := step_keeps hk hI.1 he
      exact ⟨hi, hall.trans hI.2.1, hI.2.2.concat hdoes⟩) (along_true w₀ es) hr
  refine ⟨hruns, hall, fun p n => ?_, fun p np hne hz => ?_⟩
  · obtain ⟨x, m, hrun, -⟩ := (sysSbrk_sat n hk (hi.space p)).exists_ok
    rw [step, hrun]
    rfl
  · obtain ⟨x, m, hrun, -⟩ := (hi.uvmcopy_sat hne hz).exists_ok
    rw [step, if_pos ⟨hne, hz⟩, hrun]
    rfl

def twoTables : World Bool where
  mem := { page := fun _ _ => 0, freelist := [0x80002, 0x80003, 0x80004, 0x80005, 0x80006, 0x80007] }
  pagetable p := if p then 0x80000 else 0x80001
  sz _ := 0

theorem inv_twoTables : twoTables.Inv 0x80000000 := by
  have h0 (p : Bool) : twoTables.mem.page (twoTables.pagetable p) = fun _ => 0 := rfl
  have hpages (p : Bool) : pages (twoTables.sz p) = 0 := (rfl : pages 0 = 0)
  have hheld (p : Bool) : twoTables.held p = {twoTables.pagetable p} := by
    simp [World.held, Kmem.held, tables_empty (h0 p), hpages]
  refine ⟨fun p => ?_, fun p q hne => ?_, fun p n e _ _ he => ?_⟩
  · rw [hpages]
    refine space_empty (h0 p) (by decide) (by cases p <;> decide) ?_
    simp only [twoTables, List.forall_mem_cons]
    exact ⟨by cases p <;> decide +kernel, by decide +kernel, by decide +kernel, by decide +kernel,
      by decide +kernel, by decide +kernel, by decide +kernel, fun f hf => absurd hf List.not_mem_nil⟩
  · rw [hheld, hheld, Set.disjoint_singleton]
    cases p <;> cases q <;> first | exact absurd rfl hne | decide
  · rw [leaf_empty (h0 p)] at he
    cases he

theorem memory_private_twoTables :
    let es : List (Event Bool) := [.sbrk true 4096, .store true 0 ⟨5, by decide⟩ 7, .fork true false]
    ∃ w, run (step 0x80000000) twoTables es = some w ∧ Runs twoTables.view es w.view := by
  intro es
  obtain ⟨w, hw⟩ := Option.isSome_iff_exists.mp
    (by decide +kernel : (run (step 0x80000000) twoTables es).isSome = true)
  exact ⟨w, hw, (memory_private (by decide) inv_twoTables hw).1⟩

end Xv6.Vm
