import Xv6.User.UmallocSpec

/-! `malloc`, and whole runs of a program. -/
namespace Xv6.Umalloc
open Links PartialRun List

variable {base lo limit x p prevp n k nunits : ℕ} {grant : ℕ → Bool} {h : Heap} {c : Cell}
  {l r cells : List Cell}

section
variable (hbase : base < lo)
include hbase

theorem Inv.sorted (hi : Inv base lo h cells) : (base :: frees lo cells).Pairwise (· < ·) := by
  refine pairwise_cons.mpr ⟨fun x hx => ?_, frees_sorted hi.ok lo⟩
  have := (mem_frees hi.ok hx).1
  omega

theorem Inv.cut (hi : Inv base lo h cells) (hprev : prevp ∈ base :: frees lo cells)
    (hroom : 0 < h.size (h.next prevp)) :
    ∃ us l m r, cells = l ++ ⟨m, none⟩ :: r ∧ h.next prevp = lo + 16 * units l ∧
      h.size (h.next prevp) = m ∧ base :: frees lo l = us ++ [prevp] := by
  obtain ⟨us, vs, hcut⟩ := append_of_mem hprev
  have hring := hi.ring
  have hsorted := hi.sorted hbase
  rw [hcut] at hsorted
  rw [hcut, append_assoc, cons_append] at hring
  have hnext := (chain_split.mp hring).2.next_eq
  cases vs with
  | nil =>
    change h.next prevp = base at hnext
    rw [hnext, hi.base_size] at hroom
    cases hroom
  | cons q vs =>
    change h.next prevp = q at hnext
    have hq : q ∈ frees lo cells := by
      cases us with
      | nil =>
        rw [nil_append, List.cons.injEq] at hcut
        rw [hcut.2]
        exact mem_cons_self
      | cons u us =>
        rw [cons_append, List.cons.injEq] at hcut
        rw [hcut.2]
        simp
    obtain ⟨l, m, r, rfl, rfl⟩ := exists_of_mem_frees hq
    refine ⟨us, l, m, r, rfl, hnext, ?_, ?_⟩
    · rw [hnext]
      exact ((headers_append.mp hi.headers).2).1
    · -- the node stands in the list once, so the two ways to cut the list agree
      rw [frees_append, frees_free, ← cons_append, append_cons us] at hcut
      rw [append_cons us] at hsorted
      obtain ⟨-, hvs, hus⟩ := pairwise_append.mp hsorted
      refine ((append_cons_inj_of_notMem ?_ ?_).mp hcut.symm).1.symm
      · exact fun hmem => absurd (hus _ hmem _ mem_cons_self) (lt_irrefl _)
      · exact fun hmem => absurd ((pairwise_cons.mp hvs).1 _ hmem) (lt_irrefl _)

theorem Inv.takeAll {us : List ℕ} {m : ℕ} (hi : Inv base lo h (l ++ ⟨m, none⟩ :: r))
    (hus : base :: frees lo l = us ++ [prevp]) (hk : 16 + k ≤ 16 * m) :
    Inv base lo { h.setPtr prevp (h.next (lo + 16 * units l)) with freep := prevp }
      (l ++ ⟨m, some k⟩ :: r) := by
  have hsorted := hi.sorted hbase
  have hring := hi.ring
  have hcut : base :: frees lo (l ++ ⟨m, none⟩ :: r) =
      us ++ prevp :: (lo + 16 * units l) :: frees (lo + 16 * units l + 16 * m) r := by
    rw [frees_append, frees_free, ← cons_append, hus, append_assoc, singleton_append]
  rw [hcut] at hsorted hring
  rw [append_assoc] at hring
  obtain ⟨hl, hr⟩ := chain_split.mp hring
  obtain ⟨hsl, hsr, hlr⟩ := pairwise_append.mp hsorted
  have hsr := (pairwise_cons.mp hsr).1
  have hnext : ∀ y ≠ prevp, (h.setPtr prevp (h.next (lo + 16 * units l))).next y = h.next y :=
    fun y hy => by rw [h.next_setPtr, if_neg hy]
  refine { brk := ?_, ok := ?_, merged := ?_, headers := ?_, ring := ?_, freep := ?_, base_size := ?_ }
  · have hbrk := hi.brk
    rw [units_append, units_cons] at hbrk ⊢
    exact hbrk
  · intro c hc
    rcases mem_append.mp hc with hc | hc
    · exact hi.ok c (mem_append_left _ hc)
    · rcases mem_cons.mp hc with rfl | hc
      · refine ⟨(hi.ok ⟨m, none⟩ (by simp)).1, ?_⟩
        rintro _ ⟨⟩
        exact hk
      · exact hi.ok c (by simp [hc])
  · obtain ⟨hml, hmr, -⟩ := isChain_append.mp hi.merged
    refine isChain_append.mpr ⟨hml, isChain_cons.mpr ⟨nofun, hmr.tail⟩, ?_⟩
    rintro c hc _ ⟨⟩ _
    nofun
  · obtain ⟨hhl, hm, hhr⟩ := headers_append.mp hi.headers
    have hok := hi.ok
    refine headers_append.mpr ⟨?_, ?_, ?_⟩
    · exact hhl.congr (fun c hc => hok c (by simp [hc])) fun y _ _ => h.size_setPtr _ _ y
    · exact (h.size_setPtr _ _ _).trans hm
    · exact hhr.congr (fun c hc => hok c (by simp [hc])) fun y _ _ => h.size_setPtr _ _ y
  · rw [frees_append, frees_used, ← cons_append, hus, append_assoc, append_assoc]
    refine chain_split.mpr ⟨hl.congr fun y hy => hnext y (hlr y hy _ mem_cons_self).ne, ?_⟩
    refine Chain.cons (hr.tail.tail.congr fun y hy => hnext y ?_) ?_
    · exact (hsr y (mem_cons_of_mem _ hy)).ne'
    · rw [← hr.tail.next_eq]
      exact (h.next_setPtr _ _ _).trans (if_pos rfl)
  · rw [frees_append, ← cons_append, hus]
    exact mem_append_left _ (by simp)
  · exact (h.size_setPtr _ _ _).trans hi.base_size

theorem Inv.takeTail {us : List ℕ} {m : ℕ} (hi : Inv base lo h (l ++ ⟨m, none⟩ :: r))
    (hus : base :: frees lo l = us ++ [prevp]) (hn : 0 < nunits) (hm : nunits < m)
    (hk : 16 + k ≤ 16 * nunits) :
    Inv base lo
      { (h.setSize (lo + 16 * units l) (m - nunits)).setSize
          (lo + 16 * units l + 16 * (m - nunits)) nunits with freep := prevp }
      (l ++ ⟨m - nunits, none⟩ :: ⟨nunits, some k⟩ :: r) := by
  set q := lo + 16 * units l with hq
  set h' := (h.setSize q (m - nunits)).setSize (q + 16 * (m - nunits)) nunits with hh'
  have hnext : h'.next = h.next := by
    funext y
    rw [hh', Heap.next_setSize, Heap.next_setSize]
  have hsize : ∀ y, y ≠ q → y ≠ q + 16 * (m - nunits) → h'.size y = h.size y := by
    intro y hy hy'
    rw [hh', Heap.size_setSize, if_neg hy', Heap.size_setSize, if_neg hy]
  have hok := hi.ok
  have hend : q + 16 * (m - nunits) + 16 * nunits = q + 16 * m := by omega
  refine { brk := ?_, ok := ?_, merged := ?_, headers := ?_, ring := ?_, freep := ?_, base_size := ?_ }
  · have hbrk := hi.brk
    rw [units_append, units_cons] at hbrk
    rw [units_append, units_cons, units_cons]
    dsimp only at hbrk ⊢
    rw [hh', Heap.brk_setSize, Heap.brk_setSize, hbrk]
    omega
  · intro c hc
    simp only [mem_append, mem_cons] at hc
    rcases hc with hc | rfl | rfl | hc
    · exact hok c (by simp [hc])
    · exact ⟨by dsimp only; omega, nofun⟩
    · refine ⟨hn, ?_⟩
      rintro _ ⟨⟩
      exact hk
    · exact hok c (by simp [hc])
  · obtain ⟨hml, hmr, hseam⟩ := isChain_append.mp hi.merged
    refine isChain_append.mpr ⟨hml, ?_, ?_⟩
    · exact isChain_cons_cons.mpr ⟨nofun, isChain_cons.mpr ⟨nofun, hmr.tail⟩⟩
    · rintro c hc _ ⟨⟩ hnone
      exact absurd rfl (hseam c hc _ rfl hnone)
  · obtain ⟨hhl, -, hhr⟩ := headers_append.mp hi.headers
    refine headers_append.mpr ⟨?_, ?_, ?_, ?_⟩
    · exact hhl.congr (fun c hc => hok c (by simp [hc])) fun y _ hy => hsize y (by omega) (by omega)
    · change h'.size q = m - nunits
      rw [hh', Heap.size_setSize, if_neg (by omega), Heap.size_setSize, if_pos rfl]
    · change h'.size (q + 16 * (m - nunits)) = nunits
      rw [hh', Heap.size_setSize, if_pos rfl]
    · change Headers h'.mem (q + 16 * (m - nunits) + 16 * nunits) r
      rw [hend]
      exact hhr.congr (fun c hc => hok c (by simp [hc])) fun y hy _ => hsize y
        (by omega) (by omega)
  · have hring := hi.ring
    rw [frees_append, frees_free] at hring
    rw [frees_append, frees_free, frees_used, ← hq, hend]
    change Chain h'.next _
    rwa [hnext]
  · rw [frees_append, ← cons_append, hus]
    exact mem_append_left _ (by simp)
  · rw [← hi.base_size]
    exact hsize base (by omega) (by omega)

theorem take_spec (hi : Inv base lo h cells) (hprev : prevp ∈ base :: frees lo cells)
    (hfit : nunits ≤ h.size (h.next prevp)) (hn : 0 < nunits) (hk : 16 + k ≤ 16 * nunits) :
    ∃ q h' cells', take h prevp (h.next prevp) nunits = (q, h') ∧ q ≠ 0 ∧ Inv base lo h' cells' ∧
      units cells' = units cells ∧ (useds lo cells').Perm ((q, k) :: useds lo cells) := by
  obtain ⟨us, l, m, r, rfl, hp, hm, hus⟩ := hi.cut hbase hprev (by omega)
  rw [hm] at hfit
  rw [take, hm]
  have huseds : useds lo (l ++ ⟨m, none⟩ :: r) = useds lo l ++ useds (lo + 16 * units l + 16 * m) r := by
    rw [useds_append]
    rfl
  split_ifs with heq
  · subst heq
    rw [hp]
    refine ⟨_, _, l ++ ⟨m, some k⟩ :: r, rfl, by omega, hi.takeAll hbase hus hk, ?_, ?_⟩
    · rw [units_append, units_append, units_cons, units_cons]
    · rw [huseds, useds_append]
      exact perm_middle
  · rw [hp]
    have hsize : (h.setSize (lo + 16 * units l) (m - nunits)).size (lo + 16 * units l) = m - nunits := by
      rw [Heap.size_setSize, if_pos rfl]
    dsimp only
    rw [hsize]
    refine ⟨_, _, l ++ ⟨m - nunits, none⟩ :: ⟨nunits, some k⟩ :: r, rfl, by omega,
      hi.takeTail hbase hus hn (by omega) hk, ?_, ?_⟩
    · rw [units_append, units_append, units_cons, units_cons, units_cons]
      dsimp only
      omega
    · rw [huseds, useds_append]
      have hend : lo + 16 * units l + 16 * (m - nunits) + 16 * nunits = lo + 16 * units l + 16 * m := by
        omega
      change (useds lo l ++ (lo + 16 * units l + 16 * (m - nunits) + 16, k) ::
        useds (lo + 16 * units l + 16 * (m - nunits) + 16 * nunits) r).Perm _
      rw [hend]
      exact perm_middle

end

section
variable {m : Type → Type} [Monad m] (out : m (ℕ × Heap)) (more : Heap → m (ℕ × Heap))

theorem searchWith_fit {l : List ℕ} (hc : Chain h.next (prevp :: (l ++ [h.freep])))
    (hl : h.freep ∉ l) (hx : ∃ x ∈ l ++ [h.freep], nunits ≤ h.size x) (hn : l.length < n) :
    ∃ q ∈ prevp :: l, nunits ≤ h.size (h.next q) ∧
      searchWith out more nunits n h prevp (h.next prevp) = pure (take h q (h.next q) nunits) := by
  induction l generalizing prevp n with
  | nil =>
    obtain ⟨k, rfl⟩ : ∃ k, n = k + 1 := ⟨n - 1, by omega⟩
    obtain ⟨x, hx, hfit⟩ := hx
    have hnext : h.next prevp = x := (chain_cons_cons.mp hc).1.trans (mem_singleton.mp hx).symm
    refine ⟨prevp, mem_cons_self, hnext ▸ hfit, ?_⟩
    rw [searchWith, if_pos (hnext ▸ hfit)]
  | cons y l ih =>
    obtain ⟨k, rfl⟩ : ∃ k, n = k + 1 := ⟨n - 1, by omega⟩
    obtain ⟨hnext, hc⟩ := chain_cons_cons.mp hc
    rw [searchWith]
    split_ifs with hfit hfreep
    · exact ⟨prevp, mem_cons_self, hfit, rfl⟩
    · exact absurd (hfreep ▸ hnext ▸ mem_cons_self) hl
    · rw [hnext] at hfit ⊢
      obtain ⟨x, hmem, hx⟩ := hx
      have hx : ∃ x ∈ l ++ [h.freep], nunits ≤ h.size x := by
        rcases mem_cons.mp hmem with rfl | hmem
        · exact absurd hx hfit
        · exact ⟨x, hmem, hx⟩
      obtain ⟨q, hq, hroom, hs⟩ := ih hc (fun hmem => hl (mem_cons_of_mem _ hmem)) hx
        (Nat.lt_of_succ_lt_succ hn)
      exact ⟨q, mem_cons_of_mem _ hq, hroom, hs⟩

theorem searchWith_small {l : List ℕ} (hc : Chain h.next (prevp :: (l ++ [h.freep])))
    (hl : h.freep ∉ l) (hx : ∀ x ∈ l ++ [h.freep], ¬nunits ≤ h.size x) :
    searchWith out more nunits (n + l.length + 1) h prevp (h.next prevp) = (do
      let r ← more h
      if r.1 = 0 then return (0, r.2)
      else searchWith out more nunits n r.2 r.1 (r.2.next r.1)) := by
  induction l generalizing prevp with
  | nil =>
    have hnext : h.next prevp = h.freep := (chain_cons_cons.mp hc).1
    rw [length_nil, Nat.add_zero, searchWith, hnext, if_neg (hx _ (by simp)), if_pos rfl]
  | cons y l ih =>
    obtain ⟨hnext, hc⟩ := chain_cons_cons.mp hc
    have hy : y ≠ h.freep := fun heq => hl (heq ▸ mem_cons_self)
    rw [searchWith, hnext, if_neg (hx y (by simp)), if_neg hy, length_cons, ← Nat.add_assoc]
    exact ih hc (fun hmem => hl (mem_cons_of_mem _ hmem))
      fun x hmem => hx x (mem_cons_of_mem _ hmem)

end

/-- The memory that the loop gets is one more free block, with room for the request. -/
def Supplies (base lo nunits : ℕ) (cells : List Cell) (h' : Heap) : Prop :=
  h'.freep ≠ 0 ∧ ∃ cells', Inv base lo h' cells' ∧ units cells' < 2 ^ 32 ∧
    useds lo cells' = useds lo cells ∧ (frees lo cells').length ≤ (frees lo cells).length + 1 ∧
    ∃ x ∈ frees lo cells', nunits ≤ h'.size x

section
variable (hbase : base < lo)
include hbase

theorem Inv.grow {nu : ℕ} (hi : Inv base lo h cells) (hnu : 0 < nu) :
    Inv base lo (({ h with brk := h.brk + nu * 16 } : Heap).setSize h.brk nu) (cells ++ [⟨nu, some 0⟩]) := by
  set h' := ({ h with brk := h.brk + nu * 16 } : Heap).setSize h.brk nu with hh'
  have hnext : h'.next = h.next := by
    funext y
    rw [hh', Heap.next_setSize]
    rfl
  have hsize : ∀ y ≠ h.brk, h'.size y = h.size y := by
    intro y hy
    rw [hh', Heap.size_setSize, if_neg hy]
    rfl
  have hfrees : frees lo (cells ++ [⟨nu, some 0⟩]) = frees lo cells := by
    rw [frees_append, frees_used, frees, append_nil]
  have hbrk := hi.brk
  refine { brk := ?_, ok := ?_, merged := ?_, headers := ?_, ring := ?_, freep := ?_, base_size := ?_ }
  · rw [units_append, units_cons, units_nil, hh', Heap.brk_setSize]
    dsimp only
    omega
  · intro c hc
    rcases mem_append.mp hc with hc | hc
    · exact hi.ok c hc
    · cases mem_singleton.mp hc
      refine ⟨hnu, ?_⟩
      rintro _ ⟨⟩
      dsimp only
      omega
  · refine isChain_append.mpr ⟨hi.merged, isChain_singleton _, ?_⟩
    rintro c hc _ ⟨⟩ _
    rintro ⟨⟩
  · refine headers_append.mpr ⟨hi.headers.congr hi.ok fun y _ hy => hsize y (by omega), ?_, trivial⟩
    change h'.size (lo + 16 * units cells) = nu
    rw [← hbrk, hh', Heap.size_setSize, if_pos rfl]
  · rw [hfrees, hnext]
    exact hi.ring
  · rw [hfrees]
    exact hi.freep
  · rw [hsize base (by omega), hi.base_size]

theorem morecore_spec (hi : Inv base lo h cells) (hpos : 0 < base) (hlimit : limit < lo + 2 ^ 36) :
    morecore limit grant h nunits = some (0, h) ∨
      ∃ h', morecore limit grant h nunits = some (h'.freep, h') ∧
        Supplies base lo nunits cells h' := by
  have hbrk := hi.brk
  rw [morecore]
  set nu := if nunits < 4096 then 4096 else nunits with hnu
  have hle : nunits ≤ nu := by
    rw [hnu]
    split_ifs <;> omega
  have hnu0 : 0 < nu := by
    rw [hnu]
    split_ifs <;> omega
  dsimp only [sbrk]
  split_ifs with hgrant
  · right
    dsimp only
    have hgrow := hi.grow hbase hnu0
    have hunits : units (cells ++ [⟨nu, some 0⟩]) < 2 ^ 32 := by
      rw [units_append, units_cons, units_nil]
      dsimp only
      omega
    obtain ⟨h', l', m, r', hfree, hi', hm, hu, huseds, hlen⟩ := free_spec hbase hgrow hunits
    rw [← hbrk] at hfree
    rw [hfree]
    have hx : lo + 16 * units l' ∈ frees lo (l' ++ ⟨m, none⟩ :: r') := by
      rw [frees_append, frees_free]
      exact mem_append_right _ mem_cons_self
    refine ⟨h', rfl, ?_, _, hi', hu ▸ hunits, ?_, ?_, _, hx, ?_⟩
    · rcases mem_cons.mp hi'.freep with heq | hmem
      · omega
      · have := (mem_frees hi'.ok hmem).1
        omega
    · rw [huseds]
      exact append_nil _
    · rwa [frees_append (l := cells), frees_used, frees, append_nil] at hlen
    · have hsize : h'.size (lo + 16 * units l') = m := ((headers_append.mp hi'.headers).2).1
      omega
  · exact .inl rfl

theorem Inv.way (hi : Inv base lo h cells) :
    ∃ l, Chain h.next (h.freep :: (l ++ [h.freep])) ∧ h.freep ∉ l ∧
      l.length = (frees lo cells).length ∧
      ∀ x, x ∈ h.freep :: l ↔ x ∈ base :: frees lo cells :=
  hi.ring.way (hi.sorted hbase) hi.freep

theorem searchWith_spec {m : Type → Type} [Monad m] [LawfulMonad m] (out : m (ℕ × Heap))
    {more : Heap → m (ℕ × Heap)} (hi : Inv base lo h cells) (hunits : units cells < 2 ^ 32)
    (hmore : more h = pure (0, h) ∨ ∃ h', more h = pure (h'.freep, h') ∧ Supplies base lo nunits cells h')
    (hn : 0 < nunits) (hk : 16 + k ≤ 16 * nunits) :
    ∃ q h' cells', searchWith out more nunits (2 * h.fuel) h h.freep (h.next h.freep) = pure (q, h') ∧
      Inv base lo h' cells' ∧ units cells' < 2 ^ 32 ∧
      (useds lo cells').Perm (if q = 0 then useds lo cells else (q, k) :: useds lo cells) := by
  obtain ⟨l, hc, hl, hlen, hmem⟩ := hi.way hbase
  have hfuel : 2 * (frees lo cells).length + 3 ≤ 2 * h.fuel := by
    have := length_frees_le hi.ok lo
    rw [Heap.fuel, hi.brk]
    omega
  by_cases hx : ∃ x ∈ l ++ [h.freep], nunits ≤ h.size x
  · obtain ⟨q, hq, hroom, hs⟩ := searchWith_fit out more hc hl hx (n := 2 * h.fuel) (by omega)
    obtain ⟨p, h', cells', ht, hne, hi', hu, huseds⟩ :=
      take_spec hbase hi ((hmem q).mp hq) hroom hn hk
    refine ⟨p, h', cells', by rw [hs, ht], hi', hu ▸ hunits, ?_⟩
    rwa [if_neg hne]
  · obtain ⟨j, hj⟩ : ∃ j, 2 * h.fuel = j + l.length + 1 := ⟨2 * h.fuel - l.length - 1, by omega⟩
    rw [hj, searchWith_small out more hc hl fun x hmem hfit => hx ⟨x, hmem, hfit⟩]
    rcases hmore with hmore | ⟨h₁, hmore, hne, cells₁, hi₁, hu₁, huseds₁, hlen₁, x, hxm, hroom⟩
    · rw [hmore, pure_bind, if_pos rfl]
      exact ⟨0, h, cells, rfl, hi, hunits, by rw [if_pos rfl]⟩
    · obtain ⟨l₁, hc₁, hl₁, hlen', hmem₁⟩ := hi₁.way hbase
      rw [hmore, pure_bind, if_neg hne]
      have hx₁ : ∃ x ∈ l₁ ++ [h₁.freep], nunits ≤ h₁.size x := by
        refine ⟨x, ?_, hroom⟩
        have := (hmem₁ x).mpr (mem_cons_of_mem _ hxm)
        simp only [mem_cons, mem_append, not_mem_nil, or_false] at this ⊢
        tauto
      obtain ⟨q, hq, hroom, hs⟩ := searchWith_fit out more hc₁ hl₁ hx₁ (n := j) (by omega)
      obtain ⟨p, h', cells', ht, hne, hi', hu, huseds⟩ :=
        take_spec hbase hi₁ ((hmem₁ q).mp hq) hroom hn hk
      refine ⟨p, h', cells', by rw [hs, ht], hi', hu ▸ hu₁, ?_⟩
      rw [if_neg hne, ← huseds₁]
      exact huseds

end

instance Legal.instDecidable (w : World) : (op : Op) → Decidable (Legal w op)
  | .malloc n _ => inferInstanceAs (Decidable (n ≤ 2 ^ 30))
  | .free ap => inferInstanceAs (Decidable (ap ∈ w.live.map Prod.fst))
  | .store ap _ => inferInstanceAs (Decidable (ap ∈ w.live.map Prod.fst))

/-- Two unfreed results, with their headers and the bytes asked for, do not overlap. -/
def Apart (q q' : ℕ × ℕ) : Prop := q.1 + q.2 + 16 ≤ q'.1 ∨ q'.1 + q'.2 + 16 ≤ q.1

theorem mem_useds {a : ℕ} {q : ℕ × ℕ} (hok : ∀ c ∈ cells, c.Ok) (hq : q ∈ useds a cells) :
    a + 16 ≤ q.1 ∧ q.1 + q.2 ≤ a + 16 * units cells := by
  obtain ⟨l, m, r, rfl, hq⟩ := exists_of_mem_useds hq
  have hm := (hok ⟨m, some q.2⟩ (by simp)).2 q.2 rfl
  rw [units_append, units_cons]
  dsimp only at hm ⊢
  omega

theorem useds_apart (hok : ∀ c ∈ cells, c.Ok) (a : ℕ) : (useds a cells).Pairwise Apart := by
  induction cells generalizing a with
  | nil => exact .nil
  | cons c cells ih =>
    have hrest := fun d hd => hok d (mem_cons_of_mem _ hd)
    obtain ⟨m, _ | n⟩ := c
    · exact ih hrest _
    · refine pairwise_cons.mpr ⟨fun q hq => .inl ?_, ih hrest _⟩
      have hm := (hok ⟨m, some n⟩ mem_cons_self).2 n rfl
      have hq := (mem_useds hrest hq).1
      dsimp only at hm hq ⊢
      omega

variable {w : World}

theorem Shape.ok {base lo : ℕ} (hs : Shape base lo w cells) : ∀ c ∈ cells, c.Ok := by
  rcases hs.heap with ⟨-, -, rfl⟩ | hi
  · nofun
  · exact hi.ok

theorem Shape.apart (hs : Shape base lo w cells) : w.live.Pairwise Apart :=
  (hs.live.pairwise_iff fun h => h.symm).mpr (useds_apart hs.ok lo)

section
variable (hpos : 0 < base) (hbase : base < lo)
include hpos hbase

theorem Inv.freep_ne_zero (hi : Inv base lo h cells) : h.freep ≠ 0 := by
  rcases mem_cons.mp hi.freep with heq | hmem
  · omega
  · have := (mem_frees hi.ok hmem).1
    omega

theorem Shape.init (hs : Shape base lo w cells) :
    Inv base lo (if w.heap.freep = 0 then
      ({ w.heap.setPtr base base with freep := base } : Heap).setSize base 0 else w.heap) cells := by
  rcases hs.heap with ⟨hfreep, hbrk, rfl⟩ | hi
  · rw [if_pos hfreep]
    refine
      { brk := hbrk, ok := nofun, merged := .nil, headers := trivial, ring := ?_,
        freep := mem_cons_self, base_size := ?_ }
    · refine chain_cons_cons.mpr ⟨?_, chain_singleton _ _⟩
      rw [Heap.next_setSize]
      exact (w.heap.next_setPtr base base base).trans (if_pos rfl)
    · rw [Heap.size_setSize, if_pos rfl]
  · rwa [if_neg (hi.freep_ne_zero hpos hbase)]

theorem malloc_spec (hs : Shape base lo w cells) (hunits : units cells < 2 ^ 32)
    (hlimit : limit < lo + 2 ^ 36) :
    ∃ q h' cells', malloc base limit grant w.heap n = some (q, h') ∧ Inv base lo h' cells' ∧
      units cells' < 2 ^ 32 ∧
      (useds lo cells').Perm (if q = 0 then useds lo cells else (q, n) :: useds lo cells) := by
  have hi := hs.init hpos hbase
  exact searchWith_spec hbase none hi hunits (morecore_spec hbase hi hpos hlimit) (by omega) (by omega)

theorem Inv.store {data : ℕ → Header} (hi : Inv base lo h (l ++ ⟨n, some k⟩ :: r)) :
    Inv base lo (store h (lo + 16 * units l + 16) k data) (l ++ ⟨n, some k⟩ :: r) := by
  have hokl : ∀ c ∈ l, c.Ok := fun c hc => hi.ok c (mem_append_left _ hc)
  have hokr : ∀ c ∈ r, c.Ok := fun c hc => hi.ok c (by simp [hc])
  have hn := (hi.ok ⟨n, some k⟩ (by simp)).2 k rfl
  dsimp only at hn
  set h' := Umalloc.store h (lo + 16 * units l + 16) k data with hh'
  have hmem : ∀ x, x ≤ lo + 16 * units l ∨ lo + 16 * units l + 16 * n ≤ x → h'.mem x = h.mem x := by
    intro x hx
    rw [hh', Umalloc.store]
    dsimp only
    rw [if_neg (by omega)]
  have hring := hi.ring
  refine
    { brk := hi.brk, ok := hi.ok, merged := hi.merged, headers := ?_, ring := ?_,
      freep := hi.freep, base_size := ?_ }
  · obtain ⟨hhl, hhn, hhr⟩ := headers_append.mp hi.headers
    refine headers_append.mpr ⟨hhl.congr hokl ?_, ?_, hhr.congr hokr ?_⟩
    · exact fun x _ hx => congrArg Header.size (hmem x (.inl (by omega)))
    · exact (congrArg Header.size (hmem _ (.inl le_rfl))).trans hhn
    · exact fun x hx _ => congrArg Header.size (hmem x (.inr hx))
  · refine hring.congr fun x hx => congrArg Header.ptr (hmem x ?_)
    rw [frees_append, frees_used] at hx
    rcases mem_cons.mp hx with rfl | hx
    · exact .inl (by omega)
    · rcases mem_append.mp hx with hx | hx
      · exact .inl (mem_frees hokl hx).2.le
      · exact .inr (mem_frees hokr hx).1
  · exact (congrArg Header.size (hmem base (.inl (by omega)))).trans hi.base_size

theorem step_spec {op : Op} (hs : Shape base lo w cells) (hunits : units cells < 2 ^ 32)
    (hlimit : limit < lo + 2 ^ 36) (hlegal : Legal w op) :
    ∃ w' cells', step base limit w op = some w' ∧ Shape base lo w' cells' ∧ units cells' < 2 ^ 32 := by
  have hblock : ∀ q ∈ w.live, Inv base lo w.heap cells ∧
      ∃ l m r, cells = l ++ ⟨m, some q.2⟩ :: r ∧ q.1 = lo + 16 * units l + 16 := by
    intro q hq
    obtain ⟨l, m, r, hcells, hq⟩ := exists_of_mem_useds (hs.live.mem_iff.mp hq)
    rcases hs.heap with ⟨-, -, hnil⟩ | hi
    · rw [hnil] at hcells
      exact absurd hcells.symm (append_ne_nil_of_right_ne_nil _ (cons_ne_nil _ _))
    · exact ⟨hi, l, m, r, hcells, hq⟩
  cases op with
  | malloc n grant =>
    obtain ⟨q, h', cells', hm, hi', hu, huseds⟩ := malloc_spec hpos hbase hs hunits hlimit
    refine ⟨_, cells', by rw [step, hm]; rfl, ⟨.inr hi', ?_⟩, hu⟩
    split_ifs at huseds ⊢
    · exact hs.live.trans huseds.symm
    · exact (hs.live.cons _).trans huseds.symm
  | free ap =>
    obtain ⟨q, hq, rfl⟩ := mem_map.mp hlegal
    obtain ⟨hi, l, m, r, rfl, hap⟩ := hblock q hq
    obtain ⟨h', l', m', r', hf, hi', -, hu, huseds, -⟩ := free_spec hbase hi hunits
    refine ⟨_, _, by rw [step, hap, hf]; rfl, ⟨.inr hi', ?_⟩, hu ▸ hunits⟩
    have hm := (hi.ok ⟨m, some q.2⟩ (by simp)).1
    dsimp only at hm
    -- of the results only the freed one has its address
    have hfilter : (useds lo (l ++ ⟨m, some q.2⟩ :: r)).filter (fun q' => q'.1 ≠ q.1) =
        useds lo l ++ useds (lo + 16 * units l + 16 * m) r := by
      rw [useds_append]
      change (useds lo l ++ (lo + 16 * units l + 16, q.2) :: useds (lo + 16 * units l + 16 * m) r).filter _ = _
      rw [filter_append, filter_cons_of_neg (by simp [hap])]
      congr 1
      · refine filter_eq_self.mpr fun q' hq' => ?_
        have := mem_useds (fun c hc => hi.ok c (mem_append_left _ hc)) hq'
        simp only [ne_eq, decide_eq_true_eq]
        omega
      · refine filter_eq_self.mpr fun q' hq' => ?_
        have := mem_useds (fun c hc => hi.ok c (by simp [hc])) hq'
        simp only [ne_eq, decide_eq_true_eq]
        omega
    rw [huseds, ← hfilter, ← hap]
    exact hs.live.filter _
  | store ap data =>
    cases hfind : w.live.find? fun q => q.1 = ap with
    | none => exact ⟨w, cells, by rw [step, hfind]; rfl, hs, hunits⟩
    | some q =>
      have hap : q.1 = ap := by simpa using find?_some hfind
      obtain ⟨hi, l, m, r, rfl, hq⟩ := hblock q (mem_of_find?_eq_some hfind)
      refine ⟨{ w with heap := store w.heap ap q.2 data }, _, by rw [step, hfind]; rfl,
        ⟨.inr ?_, hs.live⟩, hunits⟩
      rw [← hap, hq]
      exact hi.store hpos hbase

theorem run_spec (hlimit : limit < lo + 2 ^ 36) {ops : List Op} (hs : Shape base lo w cells)
    (hunits : units cells < 2 ^ 32) (hlegal : Along (step base limit) Legal w ops) :
    ∃ w' cells', run (step base limit) w ops = some w' ∧ Shape base lo w' cells' := by
  induction ops generalizing w cells with
  | nil => exact ⟨w, cells, rfl, hs⟩
  | cons op ops ih =>
    obtain ⟨w', cells', hw, hs', hu⟩ := step_spec hpos hbase hs hunits hlimit hlegal.1
    rw [run_cons, hw]
    exact ih hs' hu (hlegal.2 w' hw)

end

/-- In every run of a program that keeps to its results, with less than `2 ^ 36` bytes in the heap, the
loops end, and the heap has its shape afterwards. -/
theorem malloc_free_shape (hpos : 0 < base) (hbase : base + 16 ≤ lo) (hlimit : limit < lo + 2 ^ 36)
    (mem : ℕ → Header) (ops : List Op)
    (hlegal : Along (step base limit) Legal (start mem lo) ops) :
    ∃ w cells, run (step base limit) (start mem lo) ops = some w ∧ Shape base lo w cells ∧
      w.live.Pairwise Apart := by
  have hstart : Shape base lo (start mem lo) [] := ⟨.inl ⟨rfl, rfl, rfl⟩, .nil⟩
  obtain ⟨w, cells, hw, hs⟩ := run_spec hpos (by omega) hlimit hstart (by decide) hlegal
  exact ⟨w, cells, hw, hs, hs.apart⟩

def smallOps : List Op :=
  [.malloc 100 fun _ => true, .malloc 40 fun _ => true, .free (32 + 16 * 4088 + 16),
    .malloc 20 fun _ => false]

theorem malloc_free_shape_smallOps :
    Along (step 16 (2 ^ 30)) Legal (start (fun _ => ⟨0, 0⟩) 32) smallOps ∧
    ∃ w cells, run (step 16 (2 ^ 30)) (start (fun _ => ⟨0, 0⟩) 32) smallOps = some w ∧
      Shape 16 32 w cells ∧ w.live.Pairwise Apart :=
  ⟨by decide +kernel,
    malloc_free_shape (by decide) (by decide) (by decide) _ smallOps (by decide +kernel)⟩

theorem Shape.eq_singleton (hs : Shape base lo w cells) (hlive : w.live = []) (hbrk : w.heap.brk ≠ lo) :
    ∃ m, w.heap.brk = lo + 16 * m ∧ w.heap.size lo = m := by
  have hnil : useds lo cells = [] := by
    have := hs.live
    rw [hlive] at this
    exact this.symm.eq_nil
  rcases hs.heap with ⟨-, hlo, -⟩ | hi
  · exact absurd hlo hbrk
  · have hnone : ∀ {a : ℕ} {cs : List Cell}, useds a cs = [] → ∀ c ∈ cs, c.use = none := by
      intro a cs
      induction cs generalizing a with
      | nil => nofun
      | cons c cs ih =>
        intro h d hd
        obtain ⟨m, _ | k⟩ := c
        · rcases mem_cons.mp hd with rfl | hd
          · rfl
          · exact ih h d hd
        · cases h
    have hbrk' := hi.brk
    have hmerged := hi.merged
    have hheaders := hi.headers
    rcases cells with _ | ⟨c, _ | ⟨d, cells⟩⟩
    · exact absurd hbrk' hbrk
    · exact ⟨c.size, hbrk', hheaders.1⟩
    · exact absurd (hnone hnil d (by simp))
        ((isChain_cons_cons.mp hmerged).1 (hnone hnil c (by simp)))

def wrapOps : List Op :=
  List.replicate 64 (.malloc (2 ^ 30) fun _ => true) ++
    (List.range 64).map fun i => .free (32 + 16 * (2 ^ 26 + 1) * i + 16)

/-- In a heap of `2 ^ 36` bytes the size of the joined block does not fit its header. -/
theorem not_malloc_free_wrapOps :
    Along (step 16 (2 ^ 37)) Legal (start (fun _ => ⟨0, 0⟩) 32) wrapOps ∧
    ∃ w, run (step 16 (2 ^ 37)) (start (fun _ => ⟨0, 0⟩) 32) wrapOps = some w ∧
      ¬∃ cells, Shape 16 32 w cells := by
  refine ⟨by decide +kernel, ?_⟩
  have hrun : (run (step 16 (2 ^ 37)) (start (fun _ => ⟨0, 0⟩) 32) wrapOps).map
      (fun w => (w.live, w.heap.size 32, w.heap.brk)) =
        some ([], 64, 32 + 16 * (64 * (2 ^ 26 + 1))) := by
    decide +kernel
  obtain ⟨w, hw, hfacts⟩ := Option.map_eq_some_iff.mp hrun
  simp only [Prod.mk.injEq] at hfacts
  refine ⟨w, hw, fun ⟨cells, hs⟩ => ?_⟩
  obtain ⟨m, hbrk, hsize⟩ := hs.eq_singleton hfacts.1 (by omega)
  omega

end Xv6.Umalloc
