import Xv6.User.Umalloc

/-! The invariant of the allocator. -/
namespace Xv6.Umalloc
open Links Function List

variable {base lo a x p n k : ℕ} {h : Heap} {mem mem' : ℕ → Header} {c : Cell} {l r cells : List Cell}

namespace Heap
variable (h : Heap) (a v x : ℕ)

@[simp] theorem brk_setPtr : (h.setPtr a v).brk = h.brk := rfl
@[simp] theorem brk_setSize : (h.setSize a v).brk = h.brk := rfl

theorem next_setPtr : (h.setPtr a v).next x = if x = a then v else h.next x := by
  simp only [next, setPtr, update_apply]
  split_ifs <;> rfl

theorem size_setSize : (h.setSize a v).size x = if x = a then v else h.size x := by
  simp only [size, setSize, update_apply]
  split_ifs <;> rfl

@[simp] theorem size_setPtr : (h.setPtr a v).size x = h.size x := by
  simp only [size, setPtr, update_apply]
  split_ifs with hx
  · rw [hx]
  · rfl

@[simp] theorem next_setSize : (h.setSize a v).next x = h.next x := by
  simp only [next, setSize, update_apply]
  split_ifs with hx
  · rw [hx]
  · rfl

end Heap

@[simp] theorem units_nil : units [] = 0 := rfl
@[simp] theorem units_cons : units (c :: cells) = c.size + units cells := sum_cons
@[simp] theorem units_append : units (l ++ r) = units l + units r := by
  rw [units, map_append, sum_append]
  rfl

theorem frees_append : frees a (l ++ r) = frees a l ++ frees (a + 16 * units l) r := by
  induction l generalizing a with
  | nil => rfl
  | cons c l ih =>
    rw [cons_append, frees, frees, ih, append_assoc, units_cons, Nat.mul_add, Nat.add_assoc]

theorem useds_append : useds a (l ++ r) = useds a l ++ useds (a + 16 * units l) r := by
  induction l generalizing a with
  | nil => rfl
  | cons c l ih =>
    rw [cons_append, useds, useds, ih, append_assoc, units_cons, Nat.mul_add, Nat.add_assoc]

theorem headers_append :
    Headers mem a (l ++ r) ↔ Headers mem a l ∧ Headers mem (a + 16 * units l) r := by
  induction l generalizing a with
  | nil => exact (true_and _).symm.to_iff
  | cons c l ih =>
    rw [cons_append, Headers, Headers, ih, and_assoc, units_cons, Nat.mul_add, Nat.add_assoc]

@[simp] theorem frees_free (m : ℕ) : frees a (⟨m, none⟩ :: cells) = a :: frees (a + 16 * m) cells := rfl
@[simp] theorem frees_used (m : ℕ) : frees a (⟨m, some k⟩ :: cells) = frees (a + 16 * m) cells := rfl

section
variable (hok : ∀ c ∈ cells, c.Ok)
include hok

theorem Headers.congr (hh : Headers mem a cells)
    (hm : ∀ x, a ≤ x → x < a + 16 * units cells → (mem' x).size = (mem x).size) :
    Headers mem' a cells := by
  induction cells generalizing a with
  | nil => trivial
  | cons c cells ih =>
    have hc := (hok c mem_cons_self).1
    rw [units_cons] at hm
    refine ⟨(hm a le_rfl (by omega)).trans hh.1, ih (fun d hd => hok d (mem_cons_of_mem _ hd)) hh.2 ?_⟩
    intro x hx hlt
    exact hm x (by omega) (by omega)

theorem mem_frees (hx : x ∈ frees a cells) : a ≤ x ∧ x < a + 16 * units cells := by
  induction cells generalizing a with
  | nil => cases hx
  | cons c cells ih =>
    have hc := (hok c mem_cons_self).1
    rw [frees, mem_append] at hx
    rw [units_cons]
    rcases hx with hx | hx
    · split_ifs at hx
      · have := mem_singleton.mp hx
        omega
      · cases hx
    · have := ih (fun d hd => hok d (mem_cons_of_mem _ hd)) hx
      omega

theorem frees_sorted (a : ℕ) : (frees a cells).Pairwise (· < ·) := by
  induction cells generalizing a with
  | nil => exact .nil
  | cons c cells ih =>
    have hrest := fun d hd => hok d (mem_cons_of_mem _ hd)
    have hc := (hok c mem_cons_self).1
    rw [frees]
    refine pairwise_append.mpr ⟨?_, ih hrest _, ?_⟩
    · split_ifs
      · exact pairwise_singleton _ _
      · exact .nil
    · intro x hx y hy
      have hy := mem_frees hrest hy
      split_ifs at hx
      · have := mem_singleton.mp hx
        omega
      · cases hx

theorem length_frees_le (a : ℕ) : (frees a cells).length ≤ units cells := by
  induction cells generalizing a with
  | nil => exact Nat.zero_le _
  | cons c cells ih =>
    have hrest := ih (fun d hd => hok d (mem_cons_of_mem _ hd)) (a + 16 * c.size)
    have hc := (hok c mem_cons_self).1
    rw [frees, length_append, units_cons]
    split_ifs
    · rw [length_singleton]
      omega
    · rw [length_nil]
      omega

end

theorem exists_of_mem_frees (hx : x ∈ frees a cells) :
    ∃ l m r, cells = l ++ ⟨m, none⟩ :: r ∧ x = a + 16 * units l := by
  induction cells generalizing a with
  | nil => cases hx
  | cons c cells ih =>
    rw [frees, mem_append] at hx
    rcases hx with hx | hx
    · obtain ⟨m, use⟩ := c
      dsimp only at hx
      split_ifs at hx with hu
      · subst hu
        exact ⟨[], m, cells, rfl, mem_singleton.mp hx⟩
      · cases hx
    · obtain ⟨l, m, r, rfl, rfl⟩ := ih hx
      exact ⟨c :: l, m, r, rfl, by rw [units_cons]; omega⟩

theorem exists_of_mem_useds {q : ℕ × ℕ} (hq : q ∈ useds a cells) :
    ∃ l m r, cells = l ++ ⟨m, some q.2⟩ :: r ∧ q.1 = a + 16 * units l + 16 := by
  induction cells generalizing a with
  | nil => cases hq
  | cons c cells ih =>
    rw [useds, mem_append] at hq
    rcases hq with hq | hq
    · obtain ⟨m, use⟩ := c
      cases use with
      | none => cases hq
      | some n =>
        cases mem_singleton.mp hq
        exact ⟨[], m, cells, rfl, rfl⟩
    · obtain ⟨l, m, r, rfl, hr⟩ := ih hq
      exact ⟨c :: l, m, r, rfl, by rw [hr, units_cons]; omega⟩

section
variable {us : List ℕ} {g bp : ℕ}

theorem stops_iff {vs : List ℕ} (hring : Chain h.next (us ++ g :: (vs ++ [base])))
    (hsorted : (us ++ g :: vs).Pairwise (· < ·)) (hhead : ∀ x ∈ us ++ g :: vs, base ≤ x)
    (hlt : ∀ x ∈ us ++ [g], x < bp) (hgt : ∀ x ∈ vs, bp < x) (hx : x ∈ us ++ g :: vs) :
    h.stops bp x = true ↔ x = g := by
  obtain ⟨hus, hgvs⟩ := chain_split.mp hring
  have hbase : base < bp := (hhead g (by simp)).trans_lt (hlt g (by simp))
  simp only [Heap.stops, Bool.or_eq_true, decide_eq_true_eq]
  rcases mem_append.mp hx with hmem | hmem
  · have hsortedL : (us ++ [g]).Pairwise (· < ·) := by
      rw [append_cons] at hsorted
      exact (pairwise_append.mp hsorted).1
    obtain ⟨hnext, hlt'⟩ := hus.next_mem hsortedL hmem
    have hnext := hlt _ hnext
    have hne := (pairwise_append.mp hsortedL).2.2 x hmem g (by simp)
    omega
  · rcases mem_cons.mp hmem with rfl | hmem
    · have hxb := hlt x (by simp)
      have hxbase := hhead x (by simp)
      have hnext := hgvs.next_eq
      cases vs with
      | nil =>
        change h.next x = base at hnext
        omega
      | cons v vs =>
        have := hgt v mem_cons_self
        change h.next x = v at hnext
        omega
    · have hxb := hgt x hmem
      have hgb := hlt g (by simp)
      obtain ⟨v₁, v₂, rfl⟩ := append_of_mem hmem
      have hchain := hgvs.tail
      rw [append_assoc, cons_append] at hchain
      have hnext := (chain_split.mp hchain).2.next_eq
      cases v₂ with
      | nil =>
        change h.next x = base at hnext
        omega
      | cons y v₂ =>
        change h.next x = y at hnext
        have hxy : x < y := by
          have hvs := (pairwise_cons.mp (pairwise_append.mp hsorted).2.1).2
          exact (pairwise_cons.mp (pairwise_append.mp hvs).2.1).1 y mem_cons_self
        omega

end

structure Pending (base lo : ℕ) (h : Heap) (l : List Cell) (n : ℕ) (r : List Cell) : Prop where
  brk : h.brk = lo + 16 * (units l + n + units r)
  okl : ∀ c ∈ l, c.Ok
  okr : ∀ c ∈ r, c.Ok
  pos : 0 < n
  mergedl : l.IsChain fun c d => c.use = none → d.use ≠ none
  mergedr : r.IsChain fun c d => c.use = none → d.use ≠ none
  used : ∀ c ∈ r.head?, c.use ≠ none
  headersl : Headers h.mem lo l
  headersr : Headers h.mem (lo + 16 * units l + 16 * n) r
  size : h.size (lo + 16 * units l) = n
  chainl : Chain h.next (base :: frees lo l)
  chainr : Chain h.next
    ((lo + 16 * units l) :: (frees (lo + 16 * units l + 16 * n) r ++ [base]))
  base_size : h.size base = 0

theorem headD_mem (xs : List ℕ) (z : ℕ) : (xs ++ [z]).headD z ∈ xs ++ [z] := by
  cases xs <;> exact mem_cons_self

theorem exists_concat (x : ℕ) (xs : List ℕ) : ∃ us g, x :: xs = us ++ [g] :=
  ⟨(x :: xs).dropLast, (x :: xs).getLast (cons_ne_nil _ _),
    (dropLast_append_getLast _).symm⟩

theorem Inv.ring_at {us : List ℕ} {g : ℕ} (hi : Inv base lo h (l ++ ⟨n, some k⟩ :: r))
    (hg : base :: frees lo l = us ++ [g]) :
    Chain h.next (us ++ g :: (frees (lo + 16 * units l + 16 * n) r ++ [base])) := by
  have hring := hi.ring
  rwa [frees_append, frees_used, ← cons_append, hg, append_assoc, append_assoc,
    singleton_append] at hring

theorem Pending.ok (hp : Pending base lo h l n r) {l' : List Cell} {m : ℕ} (hl : l' ⊆ l) (hm : 0 < m) :
    ∀ c ∈ l' ++ ⟨m, none⟩ :: r, c.Ok := by
  intro c hc
  rcases mem_append.mp hc with hc | hc
  · exact hp.okl c (hl hc)
  · rcases mem_cons.mp hc with rfl | hc
    · exact ⟨hm, nofun⟩
    · exact hp.okr c hc

section
variable (hbase : base < lo)
include hbase

theorem Inv.pending {h' : Heap} {n' : ℕ} {r' : List Cell}
    (hi : Inv base lo h (l ++ ⟨n, some k⟩ :: r)) (hbrk : h'.brk = h.brk)
    (hother : ∀ x ≠ lo + 16 * units l, h'.size x = h.size x ∧ h'.next x = h.next x)
    (hsize : h'.size (lo + 16 * units l) = n')
    (hnext : h'.next (lo + 16 * units l) =
      (frees (lo + 16 * units l + 16 * n') r' ++ [base]).headD base)
    (hn : n ≤ n') (hunits : n' + units r' = n + units r) (hok : ∀ c ∈ r', c.Ok)
    (hmerged : r'.IsChain fun c d => c.use = none → d.use ≠ none)
    (hused : ∀ c ∈ r'.head?, c.use ≠ none)
    (hheaders : Headers h.mem (lo + 16 * units l + 16 * n') r')
    (hchain : Chain h.next (frees (lo + 16 * units l + 16 * n') r' ++ [base])) :
    Pending base lo h' l n' r' := by
  have hokl : ∀ c ∈ l, c.Ok := fun c hc => hi.ok c (mem_append_left _ hc)
  have hpos : 0 < n := (hi.ok ⟨n, some k⟩ (by simp)).1
  obtain ⟨hhl, -⟩ := headers_append.mp hi.headers
  have hring := hi.ring
  rw [frees_append, frees_used, ← cons_append, append_assoc] at hring
  obtain ⟨us, g, hg⟩ := exists_concat base (frees lo l)
  have hbelow : ∀ x ∈ base :: frees lo l, x < lo + 16 * units l := by
    intro x hx
    rcases mem_cons.mp hx with rfl | hx
    · omega
    · exact (mem_frees hokl hx).2
  have habove : ∀ x ∈ frees (lo + 16 * units l + 16 * n') r', lo + 16 * units l < x := by
    intro x hx
    have := (mem_frees hok hx).1
    omega
  refine
    { brk := ?_, okl := hokl, okr := hok, pos := by omega, used := hused, size := hsize,
      mergedl := (isChain_append.mp hi.merged).1, mergedr := hmerged, headersl := ?_,
      headersr := ?_, chainl := ?_, chainr := ?_, base_size := ?_ }
  · rw [hbrk, hi.brk, units_append, units_cons]
    dsimp only
    omega
  · exact hhl.congr hokl fun x hx hlt => (hother x (by omega)).1
  · exact hheaders.congr hok fun x hx hlt => (hother x (by omega)).1
  · have hc := (chain_split.mp (hi.ring_at hg)).1
    rw [hg]
    refine hc.congr fun x hx => (hother x ?_).2
    exact (hbelow x (by rw [hg]; exact mem_append_left _ hx)).ne
  · refine Chain.cons (hchain.congr fun x hx => (hother x ?_).2) hnext
    exact (habove x hx).ne'
  · rw [(hother base (by omega)).1, hi.base_size]

variable {us : List ℕ} {g : ℕ}

theorem Inv.mergeNext (hi : Inv base lo h (l ++ ⟨n, some k⟩ :: r))
    (hunits : units (l ++ ⟨n, some k⟩ :: r) < 2 ^ 32) (hg : base :: frees lo l = us ++ [g]) :
    ∃ n' r', Pending base lo (mergeNext h g (lo + 16 * units l)) l n' r' ∧ n ≤ n' ∧
      n' + units r' = n + units r ∧
      useds (lo + 16 * units l + 16 * n') r' = useds (lo + 16 * units l + 16 * n) r ∧
      (frees (lo + 16 * units l + 16 * n') r').length ≤
        (frees (lo + 16 * units l + 16 * n) r).length := by
  have hpos : 0 < n := (hi.ok ⟨n, some k⟩ (by simp)).1
  have hokr : ∀ c ∈ r, c.Ok := fun c hc => hi.ok c (by simp [hc])
  have hmerged := ((isChain_append.mp hi.merged).2.1).tail
  obtain ⟨-, hsize, hhr⟩ := headers_append.mp hi.headers
  have hchain := (chain_split.mp (hi.ring_at hg)).2
  have hnext := hchain.next_eq
  rw [units_append, units_cons] at hunits
  change h.size (lo + 16 * units l) = n at hsize
  rw [Umalloc.mergeNext, hsize]
  -- without a free block right behind it the block stays as it is
  have hstay : lo + 16 * units l + 16 * n ≠ h.next g → (∀ c ∈ r.head?, c.use ≠ none) →
      Pending base lo (h.setPtr (lo + 16 * units l) (h.next g)) l n r := by
    intro _ hused
    refine hi.pending hbase rfl ?_ ?_ ?_ le_rfl rfl hokr hmerged hused hhr hchain.tail
    · intro x hx
      exact ⟨h.size_setPtr _ _ _, by rw [h.next_setPtr, if_neg hx]⟩
    · rw [h.size_setPtr, hsize]
    · rw [h.next_setPtr, if_pos rfl, hnext]
  cases r with
  | nil =>
    have hne : lo + 16 * units l + 16 * n ≠ h.next g := by
      change h.next g = base at hnext
      omega
    rw [if_neg hne]
    exact ⟨n, [], hstay hne nofun, le_rfl, rfl, rfl, le_rfl⟩
  | cons c r =>
    obtain ⟨m, _ | k'⟩ := c
    · change h.next g = lo + 16 * units l + 16 * n at hnext
      obtain ⟨hm, hhr⟩ := hhr
      change h.size (lo + 16 * units l + 16 * n) = m at hm
      rw [frees_free] at hchain
      rw [if_pos hnext.symm, hnext, hm, Nat.mod_eq_of_lt (by simp only [units_cons] at hunits; omega)]
      have hbp : lo + 16 * units l + 16 * (n + m) = lo + 16 * units l + 16 * n + 16 * m := by omega
      refine ⟨n + m, r, ?_, Nat.le_add_right n m, ?_, ?_, ?_⟩
      · refine hi.pending hbase rfl ?_ ?_ ?_ (Nat.le_add_right n m) (by rw [units_cons, Nat.add_assoc])
          (fun c hc => hokr c (mem_cons_of_mem _ hc)) hmerged.tail ?_ (hbp ▸ hhr)
          (hbp ▸ hchain.tail.tail)
        · intro x hx
          rw [Heap.size_setPtr, Heap.size_setSize, if_neg hx, Heap.next_setPtr, if_neg hx,
            Heap.next_setSize]
          exact ⟨rfl, rfl⟩
        · rw [Heap.size_setPtr, Heap.size_setSize, if_pos rfl]
        · rw [Heap.next_setPtr, if_pos rfl, Heap.next_setSize, Heap.next_setSize, hnext, hbp]
          exact hchain.tail.next_eq
        · intro c hc
          exact (isChain_cons.mp hmerged).1 c hc rfl
      · rw [units_cons, Nat.add_assoc]
      · rw [useds, hbp]
        rfl
      · rw [frees_free, hbp, length_cons]
        exact Nat.le_succ _
    · have hne : lo + 16 * units l + 16 * n ≠ h.next g := by
        have hm := (hokr ⟨m, some k'⟩ mem_cons_self).1
        rw [frees_used] at hnext
        have hmem : h.next g ∈ frees (lo + 16 * units l + 16 * n + 16 * m) r ++ [base] := by
          rw [hnext]
          exact headD_mem _ _
        rcases mem_append.mp hmem with hmem | hmem
        · have := (mem_frees (fun c hc => hokr c (mem_cons_of_mem _ hc)) hmem).1
          dsimp only at hm
          omega
        · have := mem_singleton.mp hmem
          omega
      rw [if_neg hne]
      exact ⟨n, _, hstay hne (by rintro _ ⟨⟩; nofun), le_rfl, rfl, rfl, le_rfl⟩

theorem add_size_le (hok : ∀ c ∈ l, c.Ok) (hh : Headers h.mem lo l) (hz : h.size base = 0)
    (hg : g ∈ base :: frees lo l) : g + 16 * h.size g ≤ lo + 16 * units l := by
  rcases mem_cons.mp hg with rfl | hg
  · rw [hz]
    omega
  · obtain ⟨l₁, m, l₂, rfl, rfl⟩ := exists_of_mem_frees hg
    have hm : h.size (lo + 16 * units l₁) = m := ((headers_append.mp hh).2).1
    rw [hm, units_append, units_cons]
    dsimp only
    omega

theorem Pending.below (hp : Pending base lo h l n r)
    (hg : base :: frees lo l = us ++ [g]) : g < lo + 16 * units l ∧ ∀ x ∈ us, x < g := by
  have hsorted : (base :: frees lo l).Pairwise (· < ·) := by
    refine pairwise_cons.mpr ⟨fun x hx => ?_, frees_sorted hp.okl lo⟩
    have := (mem_frees hp.okl hx).1
    omega
  rw [hg] at hsorted
  refine ⟨?_, fun x hx => (pairwise_append.mp hsorted).2.2 x hx g (by simp)⟩
  have hmem : g ∈ base :: frees lo l := by
    rw [hg]
    exact mem_append_right _ mem_cons_self
  rcases mem_cons.mp hmem with rfl | hmem
  · omega
  · exact (mem_frees hp.okl hmem).2

theorem Pending.link (hp : Pending base lo h l n r)
    (hg : base :: frees lo l = us ++ [g]) (hused : ∀ c ∈ l.getLast?, c.use ≠ none) :
    Inv base lo { h.setPtr g (lo + 16 * units l) with freep := g } (l ++ ⟨n, none⟩ :: r) := by
  obtain ⟨hgb, hus⟩ := hp.below hbase hg
  have hnext : ∀ x ≠ g, (h.setPtr g (lo + 16 * units l)).next x = h.next x := fun x hx => by
    rw [h.next_setPtr, if_neg hx]
  refine
    { brk := ?_, ok := hp.ok (List.Subset.refl l) hp.pos, merged := ?_, headers := ?_,
      ring := ?_, freep := ?_, base_size := ?_ }
  · rw [units_append, units_cons, ← Nat.add_assoc]
    exact hp.brk
  · refine isChain_append.mpr ⟨hp.mergedl, ?_, fun c hc d _ hnone => absurd hnone (hused c hc)⟩
    exact isChain_cons.mpr ⟨fun c hc _ => hp.used c hc, hp.mergedr⟩
  · refine headers_append.mpr ⟨hp.headersl.congr hp.okl ?_, ?_, hp.headersr.congr hp.okr ?_⟩
    · exact fun x _ _ => h.size_setPtr _ _ x
    · exact (h.size_setPtr _ _ _).trans hp.size
    · exact fun x _ _ => h.size_setPtr _ _ x
  · rw [frees_append, frees_free, ← cons_append, hg, append_assoc, append_assoc]
    have hchain := hp.chainl
    rw [hg] at hchain
    refine chain_split.mpr ⟨hchain.congr fun x hx => hnext x (hus x hx).ne, ?_⟩
    have hself : (h.setPtr g (lo + 16 * units l)).next g = lo + 16 * units l := by
      rw [h.next_setPtr, if_pos rfl]
    refine chain_cons_cons.mpr ⟨hself, ?_⟩
    have hchain := hp.chainr
    rw [← cons_append] at hchain
    refine hchain.congr fun x hx => hnext x ?_
    rcases mem_cons.mp hx with rfl | hx
    · exact hgb.ne'
    · have := (mem_frees hp.okr hx).1
      omega
  · rw [frees_append, ← cons_append, hg]
    simp
  · exact (h.size_setPtr _ _ _).trans hp.base_size

theorem Pending.join {m : ℕ} (hp : Pending base lo h (l ++ [⟨m, none⟩]) n r) :
    Inv base lo
      { (h.setSize (lo + 16 * units l) (m + n)).setPtr (lo + 16 * units l)
          (h.next (lo + 16 * units (l ++ [⟨m, none⟩]))) with freep := lo + 16 * units l }
      (l ++ ⟨m + n, none⟩ :: r) := by
  have hunits : units (l ++ [⟨m, none⟩]) = units l + m := by
    rw [units_append, units_cons]
    rfl
  have hg : base :: frees lo (l ++ [⟨m, none⟩]) = base :: frees lo l ++ [lo + 16 * units l] := by
    rw [frees_append]
    rfl
  obtain ⟨hgb, hus⟩ := hp.below hbase hg
  have hokl : ∀ c ∈ l, c.Ok := fun c hc => hp.okl c (mem_append_left _ hc)
  have hm := (hp.okl ⟨m, none⟩ (by simp)).1
  dsimp only at hm
  rw [hunits] at hgb
  set g := lo + 16 * units l
  set h' := (h.setSize g (m + n)).setPtr g (h.next (lo + 16 * units (l ++ [⟨m, none⟩]))) with hh'
  have hnext : ∀ x ≠ g, h'.next x = h.next x := fun x hx => by
    rw [hh', Heap.next_setPtr, if_neg hx, Heap.next_setSize]
  have hsize : ∀ x ≠ g, h'.size x = h.size x := fun x hx => by
    rw [hh', Heap.size_setPtr, Heap.size_setSize, if_neg hx]
  have hr : lo + 16 * units (l ++ [⟨m, none⟩]) + 16 * n = g + 16 * (m + n) := by
    rw [hunits]
    omega
  obtain ⟨hhl, -⟩ := headers_append.mp hp.headersl
  refine
    { brk := ?_, ok := hp.ok (subset_append_left _ _) (by omega), merged := ?_, headers := ?_,
      ring := ?_, freep := ?_, base_size := ?_ }
  · have hbrk := hp.brk
    rw [hunits] at hbrk
    rw [units_append, units_cons]
    dsimp only
    rw [hh', Heap.brk_setPtr, Heap.brk_setSize, hbrk]
    omega
  · obtain ⟨hml, -, hseam⟩ := isChain_append.mp hp.mergedl
    refine isChain_append.mpr ⟨hml, isChain_cons.mpr ⟨fun c hc _ => hp.used c hc, hp.mergedr⟩, ?_⟩
    rintro c hc _ ⟨⟩ hnone
    exact absurd rfl (hseam c hc _ rfl hnone)
  · refine headers_append.mpr ⟨hhl.congr hokl ?_, ?_, ?_⟩
    · exact fun x _ hx => hsize x (by omega)
    · change h'.size g = m + n
      rw [hh', Heap.size_setPtr, Heap.size_setSize, if_pos rfl]
    · have hheaders := hp.headersr
      rw [hr] at hheaders
      exact hheaders.congr hp.okr fun x hx _ => hsize x (by dsimp only at hx; omega)
  · rw [frees_append, frees_free, ← cons_append, append_assoc, cons_append]
    have hchainl := hp.chainl
    have hchainr := hp.chainr
    rw [hg] at hchainl
    rw [hr] at hchainr
    refine chain_split.mpr ⟨hchainl.congr fun x hx => hnext x (hus x hx).ne, ?_⟩
    refine Chain.cons (hchainr.tail.congr fun x hx => hnext x ?_) ?_
    · have := (mem_frees hp.okr hx).1
      omega
    · rw [hh', Heap.next_setPtr, if_pos rfl, hchainr.next_eq]
  · rw [frees_append, frees_free]
    exact mem_cons_of_mem _ (mem_append_right _ mem_cons_self)
  · rw [← hp.base_size]
    exact hsize base (by omega)

theorem Pending.mergePrev (hp : Pending base lo h l n r)
    (hunits : units l + n < 2 ^ 32) (hg : base :: frees lo l = us ++ [g]) :
    ∃ l' m, Inv base lo { mergePrev h g (lo + 16 * units l) with freep := g } (l' ++ ⟨m, none⟩ :: r) ∧
      n ≤ m ∧ units l' + m = units l + n ∧ useds lo l' = useds lo l ∧
      (frees lo l').length ≤ (frees lo l).length := by
  have hgmem : g ∈ base :: frees lo l := by
    rw [hg]
    exact mem_append_right _ mem_cons_self
  rcases eq_nil_or_concat' l with rfl | ⟨l₀, c, rfl⟩
  · have hne : g + 16 * h.size g ≠ lo + 16 * units [] := by
      rw [mem_singleton.mp hgmem, hp.base_size, units_nil]
      omega
    rw [Umalloc.mergePrev, if_neg hne]
    exact ⟨[], n, hp.link hbase hg nofun, le_rfl, rfl, rfl, le_rfl⟩
  · obtain ⟨m, _ | k'⟩ := c
    · have hfrees : base :: frees lo (l₀ ++ [⟨m, none⟩]) = base :: frees lo l₀ ++ [lo + 16 * units l₀] := by
        rw [frees_append]
        rfl
      have hgl : g = lo + 16 * units l₀ :=
        (append_inj_right' (hg.symm.trans hfrees) rfl |> singleton_injective)
      have hm : h.size (lo + 16 * units l₀) = m := ((headers_append.mp hp.headersl).2).1
      rw [units_append, units_cons, units_nil] at hunits
      dsimp only at hunits
      rw [Umalloc.mergePrev, hgl, if_pos (by rw [hm, units_append, units_cons, units_nil]; dsimp only; omega),
        hm, hp.size, Nat.mod_eq_of_lt (by omega)]
      refine ⟨l₀, m + n, ?_, Nat.le_add_left n m, ?_, ?_, ?_⟩
      · dsimp only
        rw [Heap.next_setSize]
        exact hp.join hbase
      · rw [units_append, units_cons, units_nil]
        dsimp only
        omega
      · rw [useds_append]
        exact (append_nil _).symm
      · rw [frees_append, length_append]
        exact Nat.le_add_right _ _
    · have hne : g + 16 * h.size g ≠ lo + 16 * units (l₀ ++ [⟨m, some k'⟩]) := by
        have hm := (hp.okl ⟨m, some k'⟩ (by simp)).1
        have hle := add_size_le hbase (fun c hc => hp.okl c (mem_append_left _ hc))
          (headers_append.mp hp.headersl).1 hp.base_size
          (by rwa [frees_append, frees_used, frees, append_nil] at hgmem)
        rw [units_append, units_cons]
        dsimp only at hm ⊢
        omega
      rw [Umalloc.mergePrev, if_neg hne]
      refine ⟨_, n, hp.link hbase hg ?_, le_rfl, rfl, rfl, le_rfl⟩
      rw [getLast?_concat]
      rintro _ ⟨⟩
      nofun

/-- `free` makes a free block of a block in use, together with its free neighbours. -/
theorem free_spec (hi : Inv base lo h (l ++ ⟨n, some k⟩ :: r))
    (hunits : units (l ++ ⟨n, some k⟩ :: r) < 2 ^ 32) :
    ∃ h' l' m r', free h (lo + 16 * units l + 16) = some h' ∧
      Inv base lo h' (l' ++ ⟨m, none⟩ :: r') ∧ n ≤ m ∧
      units (l' ++ ⟨m, none⟩ :: r') = units (l ++ ⟨n, some k⟩ :: r) ∧
      useds lo (l' ++ ⟨m, none⟩ :: r') = useds lo l ++ useds (lo + 16 * units l + 16 * n) r ∧
      (frees lo (l' ++ ⟨m, none⟩ :: r')).length ≤ (frees lo (l ++ ⟨n, some k⟩ :: r)).length + 1 := by
  have hokl : ∀ c ∈ l, c.Ok := fun c hc => hi.ok c (mem_append_left _ hc)
  have hokr : ∀ c ∈ r, c.Ok := fun c hc => hi.ok c (by simp [hc])
  have hn := (hi.ok ⟨n, some k⟩ (by simp)).1
  dsimp only at hn
  obtain ⟨us, g, hg⟩ := exists_concat base (frees lo l)
  have hring := hi.ring
  have hcut : base :: frees lo (l ++ ⟨n, some k⟩ :: r) =
      us ++ g :: frees (lo + 16 * units l + 16 * n) r := by
    rw [frees_append, frees_used, ← cons_append, hg, append_assoc, singleton_append]
  have hsorted : (base :: frees lo (l ++ ⟨n, some k⟩ :: r)).Pairwise (· < ·) := by
    refine pairwise_cons.mpr ⟨fun x hx => ?_, frees_sorted hi.ok lo⟩
    have := (mem_frees hi.ok hx).1
    omega
  have hgap : walk h.next (h.stops (lo + 16 * units l)) h.fuel h.freep = some g := by
    refine hring.walk_unique hi.freep (by rw [hcut]; simp) (fun x hx => ?_) ?_
    · rw [hcut] at hx hsorted
      refine stops_iff (hi.ring_at hg) hsorted ?_ ?_ ?_ hx
      · intro y hy
        rw [← hcut] at hy
        rcases mem_cons.mp hy with rfl | hy
        · exact le_rfl
        · have := (mem_frees hi.ok hy).1
          omega
      · intro y hy
        rw [← hg] at hy
        rcases mem_cons.mp hy with rfl | hy
        · omega
        · exact (mem_frees hokl hy).2
      · intro y hy
        have := (mem_frees hokr hy).1
        omega
    · have := length_frees_le hi.ok lo
      rw [Heap.fuel, hi.brk]
      omega
  obtain ⟨n', r', hp, hle, hsum, huseds, hlen⟩ := hi.mergeNext hbase hunits hg
  rw [units_append, units_cons] at hunits
  dsimp only at hunits
  obtain ⟨l', m, hi', hle', hsum', huseds', hlen'⟩ := hp.mergePrev hbase (by omega) hg
  have hend : lo + 16 * units l' + 16 * m = lo + 16 * units l + 16 * n' := by omega
  refine ⟨_, l', m, r', ?_, hi', hle.trans hle', ?_, ?_, ?_⟩
  · rw [free, Nat.add_sub_cancel, hgap]
    rfl
  · rw [units_append, units_append, units_cons, units_cons]
    dsimp only
    omega
  · rw [useds_append, huseds', ← huseds, ← hend]
    rfl
  · rw [frees_append, frees_append, frees_free, frees_used, hend, length_append,
      length_append, length_cons]
    omega

end

end Xv6.Umalloc
