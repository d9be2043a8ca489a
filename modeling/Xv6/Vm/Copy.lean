import Xv6.Vm.Sbrk
import Mathlib.Data.List.TakeWhile

/-! Copies between the kernel and user memory: `copyout`, `copyin` and `copyinstr`. The kernel's
buffer is the function of its bytes on the way out and the list of the bytes put into it on the
way in. -/
namespace Xv6.Vm
open Bytes Radix List BitVec

def copyoutLoop (pagetable : Frame) (src : ℕ → Byte) : ℕ → Word → Word → ℕ → M ℤ
  | 0, _, _, _ => return 0
  | fuel + 1, dstva, len, k =>
    if 0 < len then do
      let va0 := PGROUNDDOWN dstva
      let pa0 ← walkaddr pagetable va0
      if pa0 = 0 then return -1
      else do
        let n := 4096 - (dstva - va0)
        let n := if len < n then len else n
        memmove (pa0 + (dstva - va0)) n.toNat fun i => src (k + i)
        copyoutLoop pagetable src fuel (va0 + 4096) (len - n) (k + n.toNat)
    else return 0

def copyout (pagetable : Frame) (dstva : Word) (src : ℕ → Byte) (len : Word) : M ℤ :=
  copyoutLoop pagetable src len.toNat dstva len 0

def copyinLoop (pagetable : Frame) : ℕ → Word → Word → List Byte → M (ℤ × List Byte)
  | 0, _, _, dst => return (0, dst)
  | fuel + 1, srcva, len, dst =>
    if 0 < len then do
      let va0 := PGROUNDDOWN srcva
      let pa0 ← walkaddr pagetable va0
      if pa0 = 0 then return (-1, dst)
      else do
        let n := 4096 - (srcva - va0)
        let n := if len < n then len else n
        let s ← get
        let p := (pa0 + (srcva - va0)).toNat
        copyinLoop pagetable fuel (va0 + 4096) (len - n)
          (dst ++ (List.range n.toNat).map fun i => s.byte (p + i))
    else return (0, dst)

def copyin (pagetable : Frame) (srcva len : Word) : M (ℤ × List Byte) :=
  copyinLoop pagetable len.toNat srcva len []

def copystr (s : Kmem) : ℕ → ℕ → List Byte → Bool × List Byte
  | 0, _, dst => (false, dst)
  | n + 1, p, dst =>
    if s.byte p = 0 then (true, dst ++ [0]) else copystr s n (p + 1) (dst ++ [s.byte p])

def copyinstrLoop (pagetable : Frame) : ℕ → Word → Word → List Byte → M (ℤ × List Byte)
  | 0, _, _, dst => return (-1, dst)
  | fuel + 1, srcva, max, dst =>
    if 0 < max then do
      let va0 := PGROUNDDOWN srcva
      let pa0 ← walkaddr pagetable va0
      if pa0 = 0 then return (-1, dst)
      else do
        let n := 4096 - (srcva - va0)
        let n := if max < n then max else n
        let s ← get
        let got := copystr s n.toNat (pa0 + (srcva - va0)).toNat dst
        if got.1 then return (0, got.2)
        else copyinstrLoop pagetable fuel (va0 + 4096) (max - n) got.2
    else return (-1, dst)

def copyinstr (pagetable : Frame) (srcva max : Word) : M (ℤ × List Byte) :=
  copyinstrLoop pagetable max.toNat srcva max []

namespace Kmem

/-- The user may access the byte at `x`. -/
def Accessible (s : Kmem) (r : Frame) (x : ℕ) : Prop :=
  x < MAXVA ∧ ∃ e, s.leaf r (x / PGSIZE) = some e ∧ e &&& PTE_U ≠ 0

def place (s : Kmem) (r : Frame) (x : ℕ) : ℕ :=
  ((s.user r (x / PGSIZE)).map BitVec.toNat).getD 0 * PGSIZE + x % PGSIZE

def bytes (s : Kmem) (r : Frame) (x k : ℕ) : List Byte :=
  (List.range k).map fun i => s.byte (s.place r (x + i))

/-- How many of the `n` bytes from `x` on come before the first that the user may not access. -/
def reach (s : Kmem) (r : Frame) (x : ℕ) : ℕ → ℕ
  | 0 => 0
  | n + 1 => if (s.user r (x / PGSIZE)).isSome then reach s r (x + 1) n + 1 else 0

def store (s : Kmem) (x : ℕ) (b : Byte) : Kmem :=
  { s with page := fun f i => if f.toNat * PGSIZE + i = x then b else s.page f i }

def stores (s : Kmem) (dst : ℕ → ℕ) (k : ℕ) (src : ℕ → Byte) : Kmem :=
  (List.range k).foldl (fun t i => t.store (dst i) (src i)) s

end Kmem

variable {s t : Kmem} {r : Frame} {va len : Word} {x n k fuel : ℕ}

theorem accessible_iff : s.Accessible r x ↔ (s.user r (x / PGSIZE)).isSome = true := by
  have hlt : x < MAXVA ↔ x / PGSIZE < MAXVA / PGSIZE := by
    unfold MAXVA PGSIZE
    omega
  rw [Kmem.Accessible, Kmem.user, hlt]
  by_cases h : x / PGSIZE < MAXVA / PGSIZE
  · rw [if_pos h]
    cases hl : s.leaf r (x / PGSIZE) with
    | none => simp
    | some e =>
      by_cases hu : e &&& PTE_U = 0
      · simp [hu]
      · simp [h]
  · simp [h]

theorem reach_le (x n : ℕ) : s.reach r x n ≤ n := by
  induction n generalizing x with
  | zero => exact le_refl 0
  | succ n ih =>
    rw [Kmem.reach]
    split
    · exact Nat.succ_le_succ (ih (x + 1))
    · exact Nat.zero_le _

theorem accessible_of_lt_reach {i : ℕ} (h : i < s.reach r x n) : s.Accessible r (x + i) := by
  induction n generalizing x i with
  | zero => exact absurd h (Nat.not_lt_zero i)
  | succ n ih =>
    rw [Kmem.reach] at h
    split at h
    · rename_i hu
      cases i with
      | zero => exact accessible_iff.mpr hu
      | succ i =>
        rw [show x + (i + 1) = x + 1 + i by omega]
        exact ih (Nat.lt_of_succ_lt_succ h)
    · exact absurd h (Nat.not_lt_zero i)

theorem reach_add {m : ℕ} (h : ∀ i < n, s.Accessible r (x + i)) :
    s.reach r x (n + m) = n + s.reach r (x + n) m := by
  induction n generalizing x with
  | zero => rw [Nat.zero_add, Nat.zero_add, Nat.add_zero]
  | succ n ih =>
    have h0 : (s.user r (x / PGSIZE)).isSome = true := accessible_iff.mp (h 0 (Nat.succ_pos n))
    have hrest : ∀ i < n, s.Accessible r (x + 1 + i) := fun i hi => by
      rw [show x + 1 + i = x + (i + 1) by omega]
      exact h (i + 1) (Nat.succ_lt_succ hi)
    rw [show n + 1 + m = n + m + 1 by omega, Kmem.reach, if_pos h0, ih hrest,
      show x + 1 + n = x + (n + 1) by omega]
    omega

theorem reach_eq_iff : s.reach r x n = n ↔ ∀ i < n, s.Accessible r (x + i) := by
  constructor
  · intro h i hi
    exact accessible_of_lt_reach (h.symm ▸ hi : i < s.reach r x n)
  · exact fun h => (reach_add (m := 0) h)

theorem reach_zero (h : s.user r (x / PGSIZE) = none) : s.reach r x n = 0 := by
  cases n with
  | zero => rfl
  | succ n => rw [Kmem.reach, h, if_neg (by simp)]

theorem bytes_zero (x : ℕ) : s.bytes r x 0 = [] := rfl

theorem bytes_add (x n k : ℕ) : s.bytes r x (n + k) = s.bytes r x n ++ s.bytes r (x + n) k := by
  simp only [Kmem.bytes, range_add, map_append, map_map, Function.comp_def,
    Nat.add_assoc]

structure Chunk (s : Kmem) (r : Frame) (va len : Word) (f : Frame) (n : Word) : Prop where
  start : (addr f + (va - PGROUNDDOWN va)).toNat = s.place r va.toNat
  pos : 0 < n.toNat
  le : n.toNat ≤ len.toNat
  sub : (len - n).toNat = len.toNat - n.toNat
  inside : va.toNat % PGSIZE + n.toNat ≤ PGSIZE
  accessible : ∀ i < n.toNat, s.Accessible r (va.toNat + i)
  place : ∀ i < n.toNat, s.place r (va.toNat + i) = s.place r va.toNat + i
  next : n.toNat < len.toNat → (PGROUNDDOWN va + 4096).toNat = va.toNat + n.toNat

theorem chunk {f : Frame} (hf : s.user r (vpn va) = some f) (hlen : 0 < len) :
    Chunk s r va len f
      (if len < 4096 - (va - PGROUNDDOWN va) then len else 4096 - (va - PGROUNDDOWN va)) := by
  have hdown := toNat_PGROUNDDOWN va
  have hva := va.isLt
  have hl := len.isLt
  have hfl := f.isLt
  have hoff : (va - PGROUNDDOWN va).toNat = va.toNat % 4096 := by
    rw [toNat_sub_of_le (by rw [le_def]; omega)]
    omega
  have hroom : (4096 - (va - PGROUNDDOWN va)).toNat = 4096 - va.toNat % 4096 := by
    rw [toNat_sub_of_le (by rw [le_def, hoff]; change _ ≤ 4096; omega), hoff]
    rfl
  have hlen' : 0 < len.toNat := hlen
  have hacc : s.Accessible r va.toNat := accessible_iff.mpr (by
    change (s.user r (vpn va)).isSome = true
    rw [hf]
    rfl)
  have hmax : va.toNat < 2 ^ 38 := hacc.1
  set n := if len < 4096 - (va - PGROUNDDOWN va) then len else 4096 - (va - PGROUNDDOWN va) with hn
  have hnat : n.toNat = min len.toNat (4096 - va.toNat % 4096) := by
    rw [hn]
    split
    · rename_i h
      rw [lt_def, hroom] at h
      omega
    · rename_i h
      rw [lt_def, hroom] at h
      omega
  have hpage : ∀ i < n.toNat, (va.toNat + i) / PGSIZE = vpn va := by
    intro i hi
    unfold vpn PGSIZE
    omega
  have hplace : ∀ i < n.toNat, s.place r (va.toNat + i) = f.toNat * 4096 + va.toNat % 4096 + i := by
    intro i hi
    rw [Kmem.place, hpage i hi, hf]
    unfold PGSIZE
    simp only [Option.map_some, Option.getD_some]
    omega
  have hpos : 0 < n.toNat := by omega
  have hstart : s.place r va.toNat = f.toNat * 4096 + va.toNat % 4096 := by
    have h := hplace 0 hpos
    rwa [Nat.add_zero, Nat.add_zero] at h
  refine ⟨?_, hpos, by omega, ?_, by unfold PGSIZE; omega, ?_, ?_, ?_⟩
  · rw [toNat_add, toNat_addr, hoff, hstart]
    omega
  · rw [toNat_sub_of_le (by rw [le_def]; omega)]
  · intro i hi
    rw [accessible_iff, hpage i hi, hf]
    rfl
  · intro i hi
    rw [hplace i hi, hstart]
  · intro hlt
    rw [toNat_add, hdown]
    change (_ + 4096) % 2 ^ 64 = _
    omega

section
variable {f : Frame} {m : Word} (h : Chunk s r va len f m)
include h

theorem Chunk.reach_eq : s.reach r va.toNat len.toNat =
    m.toNat + s.reach r (PGROUNDDOWN va + 4096).toNat (len - m).toNat := by
  have hlen : len.toNat = m.toNat + (len - m).toNat := by
    rw [h.sub]
    have := h.le
    omega
  rw [hlen, reach_add h.accessible]
  rcases Nat.lt_or_ge m.toNat len.toNat with hlt | hge
  · rw [h.next hlt]
  · rw [show (len - m).toNat = 0 by rw [h.sub]; omega, Kmem.reach, Kmem.reach]

theorem Chunk.bytes_eq : (List.range m.toNat).map
    (fun i => s.byte ((addr f + (va - PGROUNDDOWN va)).toNat + i)) = s.bytes r va.toNat m.toNat := by
  refine map_congr_left fun i hi => ?_
  rw [h.start, h.place i (mem_range.mp hi)]

theorem Chunk.bytes_reach : s.bytes r va.toNat (s.reach r va.toNat len.toNat) =
    s.bytes r va.toNat m.toNat ++ s.bytes r (PGROUNDDOWN va + 4096).toNat
      (s.reach r (PGROUNDDOWN va + 4096).toNat (len - m).toNat) := by
  rw [h.reach_eq, bytes_add]
  rcases Nat.lt_or_ge m.toNat len.toNat with hlt | hge
  · rw [h.next hlt]
  · rw [show (len - m).toNat = 0 by rw [h.sub]; omega, Kmem.reach, bytes_zero, bytes_zero]

theorem Chunk.complete_iff : s.reach r (PGROUNDDOWN va + 4096).toNat (len - m).toNat =
      (len - m).toNat ↔ s.reach r va.toNat len.toNat = len.toNat := by
  have hle := h.le
  have hsub := h.sub
  rw [h.reach_eq]
  omega

end

/-- No page of user memory is the physical page 0, whose address means failure. -/
def NonNull (s : Kmem) (r : Frame) : Prop := ∀ n f, s.user r n = some f → f ≠ 0

theorem addr_ne_zero {f : Frame} (h : f ≠ 0) : addr f ≠ 0 := by
  intro h0
  apply h
  rw [← frame_addr f, h0]
  rfl

theorem walkaddr_none (h : s.user r (vpn va) = none) :
    walkaddr r (PGROUNDDOWN va) s = .ok (0, s) := by
  rw [walkaddr_run, vpn_PGROUNDDOWN, h]
  rfl

theorem walkaddr_some {f : Frame} (h : s.user r (vpn va) = some f) :
    walkaddr r (PGROUNDDOWN va) s = .ok (addr f, s) := by
  rw [walkaddr_run, vpn_PGROUNDDOWN, h]
  rfl

theorem toNat_eq_zero (h : ¬ 0 < len) : len.toNat = 0 := by
  rw [lt_def] at h
  change ¬ 0 < len.toNat at h
  omega

theorem copyinLoop_run (h0 : NonNull s r) (hfuel : len.toNat ≤ fuel) (dst : List Byte) :
    copyinLoop r fuel va len dst s =
      .ok ((if s.reach r va.toNat len.toNat = len.toNat then 0 else -1,
        dst ++ s.bytes r va.toNat (s.reach r va.toNat len.toNat)), s) := by
  induction fuel generalizing va len dst with
  | zero =>
    rw [Nat.le_zero.mp hfuel, Kmem.reach, if_pos rfl, bytes_zero, append_nil]
    rfl
  | succ fuel ih =>
    rw [copyinLoop]
    by_cases hlen : 0 < len
    · rw [if_pos hlen]
      cases hf : s.user r (vpn va) with
      | none =>
        have hr : s.reach r va.toNat len.toNat = 0 := reach_zero hf
        have hne : 0 ≠ len.toNat := Nat.ne_of_lt hlen
        rw [Sat.run_bind (walkaddr_none hf), if_pos rfl, hr, if_neg hne, bytes_zero,
          append_nil]
        rfl
      | some f =>
        have hc := chunk hf hlen
        rw [Sat.run_bind (walkaddr_some hf), if_neg (addr_ne_zero (h0 _ f hf))]
        dsimp only
        rw [Sat.run_bind (a := s) (t := s) rfl, hc.bytes_eq,
          ih (by rw [hc.sub]; have := hc.pos; omega), hc.bytes_reach, List.append_assoc]
        simp only [hc.complete_iff]
    · rw [if_neg hlen, toNat_eq_zero hlen, Kmem.reach, if_pos rfl, bytes_zero, append_nil]
      rfl

def Apart (s : Kmem) (r : Frame) : Prop := ∀ n f, s.user r n = some f → f ∉ s.tables r

theorem stores_zero (s : Kmem) (dst : ℕ → ℕ) (src : ℕ → Byte) : s.stores dst 0 src = s := rfl

theorem stores_add (s : Kmem) (dst : ℕ → ℕ) (n k : ℕ) (src : ℕ → Byte) :
    s.stores dst (n + k) src =
      (s.stores dst n src).stores (fun i => dst (n + i)) k fun i => src (n + i) := by
  rw [Kmem.stores, range_add, foldl_append, foldl_map]
  rfl

theorem stores_congr {dst dst' : ℕ → ℕ} {src src' : ℕ → Byte}
    (hd : ∀ i < k, dst i = dst' i) (hs : ∀ i < k, src i = src' i) :
    s.stores dst k src = s.stores dst' k src' := by
  refine foldl_ext _ _ _ fun t i hi => ?_
  rw [hd i (mem_range.mp hi), hs i (mem_range.mp hi)]

theorem move_eq_stores (s : Kmem) (p n : ℕ) (src : ℕ → Byte) :
    s.move p n src = s.stores (p + ·) n src := by
  induction n with
  | zero =>
    have hpage : ∀ f i, (s.move p 0 src).page f i = s.page f i := by
      intro f i
      exact if_neg (by omega)
    exact congrArg (fun g => { s with page := g }) (funext fun f => funext (hpage f))
  | succ n ih =>
    have hstep : s.stores (p + ·) (n + 1) src = (s.stores (p + ·) n src).store (p + n) (src n) := by
      rw [Kmem.stores, range_succ, foldl_append]
      rfl
    rw [hstep, ← ih]
    refine congrArg (fun g => { s with page := g }) (funext fun f => funext fun i => ?_)
    simp only [Kmem.move]
    by_cases hlast : f.toNat * PGSIZE + i = p + n
    · rw [if_pos (by omega), if_pos hlast, hlast, Nat.add_sub_cancel_left]
    · rw [if_neg hlast]
      by_cases hin : p ≤ f.toNat * PGSIZE + i ∧ f.toNat * PGSIZE + i < p + n
      · rw [if_pos hin, if_pos (by omega)]
      · rw [if_neg hin, if_neg (by omega)]

theorem move_page {p off : ℕ} {src : ℕ → Byte} {f g : Frame} (hp : p = f.toNat * PGSIZE + off)
    (hin : off + n ≤ PGSIZE) (hg : g ≠ f) : (s.move p n src).page g = s.page g := by
  funext i
  have hi := i.isLt
  have hne : g.toNat ≠ f.toNat := fun h => hg (eq_of_toNat_eq h)
  refine if_neg ?_
  unfold PGSIZE at *
  omega

section
variable (h : ∀ n, t.user r n = s.user r n)
include h

theorem place_congr (x : ℕ) : t.place r x = s.place r x := by
  rw [Kmem.place, Kmem.place, h]

theorem reach_congr (x n : ℕ) : t.reach r x n = s.reach r x n := by
  induction n generalizing x with
  | zero => rfl
  | succ n ih => rw [Kmem.reach, Kmem.reach, h, ih]

end

theorem copyoutLoop_run (h0 : NonNull s r) (ha : Apart s r) (hfuel : len.toNat ≤ fuel)
    (src : ℕ → Byte) (k : ℕ) :
    copyoutLoop r src fuel va len k s =
      .ok (if s.reach r va.toNat len.toNat = len.toNat then 0 else -1,
        s.stores (fun i => s.place r (va.toNat + i)) (s.reach r va.toNat len.toNat)
          fun i => src (k + i)) := by
  induction fuel generalizing s va len k with
  | zero =>
    rw [Nat.le_zero.mp hfuel, Kmem.reach, if_pos rfl]
    rfl
  | succ fuel ih =>
    rw [copyoutLoop]
    by_cases hlen : 0 < len
    · rw [if_pos hlen]
      cases hf : s.user r (vpn va) with
      | none =>
        have hr : s.reach r va.toNat len.toNat = 0 := reach_zero hf
        have hne : 0 ≠ len.toNat := Nat.ne_of_lt hlen
        rw [Sat.run_bind (walkaddr_none hf), if_pos rfl, hr, if_neg hne]
        rfl
      | some f =>
        have hc := chunk hf hlen
        rw [Sat.run_bind (walkaddr_some hf), if_neg (addr_ne_zero (h0 _ f hf))]
        set n := if len < 4096 - (va - PGROUNDDOWN va) then len else 4096 - (va - PGROUNDDOWN va)
        set u := s.move (s.place r va.toNat) n.toNat fun i => src (k + i) with hu
        have hrun : (do memmove (addr f + (va - PGROUNDDOWN va)) n.toNat fun i => src (k + i)
                        copyoutLoop r src fuel (PGROUNDDOWN va + 4096) (len - n) (k + n.toNat)) s =
            copyoutLoop r src fuel (PGROUNDDOWN va + 4096) (len - n) (k + n.toNat) u := by
          rw [hu, ← hc.start]
          rfl
        refine hrun.trans ?_
        -- the table is not in the page written, so that it means the same afterwards
        have hplace : s.place r va.toNat = f.toNat * PGSIZE + va.toNat % PGSIZE := by
          change ((s.user r (vpn va)).map BitVec.toNat).getD 0 * PGSIZE + va.toNat % PGSIZE = _
          rw [hf]
          rfl
        have hagree : ∀ x ∈ s.tables r, u.page x = s.page x := by
          intro x hx
          exact move_page hplace hc.inside fun hxf => ha _ f hf (hxf ▸ hx)
        have huser := user_agree hagree
        have h0u : NonNull u r := fun m g hg => h0 m g ((huser m).symm.trans hg)
        have hau : Apart u r := fun m g hg => by
          rw [tables_agree hagree]
          exact ha m g ((huser m).symm.trans hg)
        have hfuel' : (len - n).toNat ≤ fuel := by
          rw [hc.sub]
          have := hc.pos
          omega
        have hstores : u = s.stores (fun i => s.place r (va.toNat + i)) n.toNat
            fun i => src (k + i) := by
          rw [hu, move_eq_stores]
          exact stores_congr (fun i hi => (hc.place i hi).symm) fun i _ => rfl
        rw [ih h0u hau hfuel', reach_congr huser]
        simp only [hc.complete_iff]
        refine congrArg Except.ok (Prod.ext rfl ?_)
        dsimp only
        rw [hc.reach_eq, stores_add, ← hstores]
        rcases Nat.lt_or_ge n.toNat len.toNat with hlt | hge
        · rw [hc.next hlt]
          refine stores_congr (fun i _ => ?_) fun i _ => ?_
          · rw [place_congr huser, Nat.add_assoc]
          · rw [Nat.add_assoc]
        · have hend : (len - n).toNat = 0 := by
            rw [hc.sub]
            omega
          rw [hend, Kmem.reach, stores_zero, stores_zero]
    · rw [if_neg hlen, toNat_eq_zero hlen, Kmem.reach, if_pos rfl]
      rfl

theorem copystr_eq (s : Kmem) (n p : ℕ) (dst : List Byte) :
    copystr s n p dst =
      let l := (List.range n).map fun i => s.byte (p + i)
      if 0 ∈ l then (true, dst ++ (l.takeWhile (· ≠ 0) ++ [0])) else (false, dst ++ l) := by
  induction n generalizing p dst with
  | zero =>
    rw [copystr]
    simp
  | succ n ih =>
    have hl : (List.range (n + 1)).map (fun i => s.byte (p + i)) =
        s.byte p :: (List.range n).map fun i => s.byte (p + 1 + i) := by
      rw [range_succ_eq_map, map_cons, map_map]
      congr 1
      refine map_congr_left fun i _ => ?_
      rw [Function.comp_apply, show p + (i + 1) = p + 1 + i by omega]
    rw [copystr, hl]
    by_cases h0 : s.byte p = 0
    · rw [if_pos h0]
      simp [h0]
    · have hmem : (0 : Byte) ∈ s.byte p :: (List.range n).map (fun i => s.byte (p + 1 + i)) ↔
          0 ∈ (List.range n).map fun i => s.byte (p + 1 + i) := by
        rw [mem_cons, or_iff_right (Ne.symm h0)]
      rw [if_neg h0, ih]
      dsimp only
      rw [takeWhile_cons_of_pos (by simpa using h0)]
      simp only [hmem, List.append_assoc, List.cons_append, nil_append]

def scan (l : List Byte) : ℤ × List Byte :=
  if 0 ∈ l then (0, l.takeWhile (· ≠ 0) ++ [0]) else (-1, l)

theorem scan_append_of_mem {l m : List Byte} (h : 0 ∈ l) : scan (l ++ m) = scan l := by
  have htake : (l ++ m).takeWhile (· ≠ 0) = l.takeWhile (· ≠ 0) := by
    rw [takeWhile_append, if_neg]
    intro hlen
    have hall := takeWhile_eq_self_iff.mp
      (( takeWhile_prefix _).eq_of_length hlen)
    simpa using hall 0 h
  rw [scan, scan, if_pos (mem_append_left m h), if_pos h, htake]

theorem scan_append_of_notMem {l m : List Byte} (h : 0 ∉ l) :
    scan (l ++ m) = ((scan m).1, l ++ (scan m).2) := by
  have hall : ∀ b ∈ l, decide (b ≠ 0) = true := fun b hb => by
    have hne : b ≠ 0 := fun h0 => h (h0 ▸ hb)
    simpa using hne
  have hmem : (0 : Byte) ∈ l ++ m ↔ 0 ∈ m := by
    rw [mem_append, or_iff_right h]
  rw [scan, scan, takeWhile_append_of_pos hall]
  simp only [hmem]
  split
  · rw [List.append_assoc]
  · rfl

theorem copyinstrLoop_run (h0 : NonNull s r) (hfuel : len.toNat ≤ fuel) (dst : List Byte) :
    copyinstrLoop r fuel va len dst s =
      .ok (((scan (s.bytes r va.toNat (s.reach r va.toNat len.toNat))).1,
        dst ++ (scan (s.bytes r va.toNat (s.reach r va.toNat len.toNat))).2), s) := by
  have hnil : ∀ dst : List Byte, Except.ok (((scan []).1, dst ++ (scan []).2), s) =
      (return (-1, dst) : M (ℤ × List Byte)) s := by
    intro dst
    change Except.ok ((-1, dst ++ []), s) = _
    rw [append_nil]
    rfl
  induction fuel generalizing va len dst with
  | zero =>
    rw [Nat.le_zero.mp hfuel, Kmem.reach, bytes_zero, hnil dst]
    rfl
  | succ fuel ih =>
    rw [copyinstrLoop]
    by_cases hlen : 0 < len
    · rw [if_pos hlen]
      cases hf : s.user r (vpn va) with
      | none =>
        have hr : s.reach r va.toNat len.toNat = 0 := reach_zero hf
        rw [Sat.run_bind (walkaddr_none hf), if_pos rfl, hr, bytes_zero, hnil dst]
      | some f =>
        have hc := chunk hf hlen
        rw [Sat.run_bind (walkaddr_some hf), if_neg (addr_ne_zero (h0 _ f hf))]
        dsimp only
        set n := if len < 4096 - (va - PGROUNDDOWN va) then len else 4096 - (va - PGROUNDDOWN va)
        have hstr := copystr_eq s n.toNat (addr f + (va - PGROUNDDOWN va)).toNat dst
        dsimp only at hstr
        rw [hc.bytes_eq] at hstr
        rw [Sat.run_bind (a := s) (t := s) rfl, hc.bytes_reach, hstr]
        by_cases hz : 0 ∈ s.bytes r va.toNat n.toNat
        · rw [if_pos hz, if_pos rfl, scan_append_of_mem hz, scan, if_pos hz]
          rfl
        · have hfuel' : (len - n).toNat ≤ fuel := by
            rw [hc.sub]
            have := hc.pos
            omega
          rw [if_neg hz, if_neg Bool.false_ne_true, scan_append_of_notMem hz, ih hfuel',
            List.append_assoc]
    · rw [if_neg hlen, toNat_eq_zero hlen, Kmem.reach, bytes_zero, hnil dst]

/-- The two memories look the same to the user of the table, on the `n` bytes from `x` on. -/
structure Alike (s t : Kmem) (r : Frame) (x n : ℕ) : Prop where
  user : ∀ m, t.user r m = s.user r m
  byte : ∀ i < n, s.Accessible r (x + i) → t.byte (s.place r (x + i)) = s.byte (s.place r (x + i))

structure CopiedIn (s : Kmem) (r : Frame) (x n : ℕ) (ret : ℤ) (dst : List Byte) : Prop where
  value : ret = 0 ∨ ret = -1
  zero_iff : ret = 0 ↔ ∀ i < n, s.Accessible r (x + i)
  whole : ret = 0 → dst.length = n
  length_le : dst.length ≤ n
  accessible : ∀ i < dst.length, s.Accessible r (x + i)
  bytes : dst = s.bytes r x dst.length

structure CopiedOut (s : Kmem) (r : Frame) (x n : ℕ) (src : ℕ → Byte) (ret : ℤ) (t : Kmem) :
    Prop where
  value : ret = 0 ∨ ret = -1
  zero_iff : ret = 0 ↔ ∀ i < n, s.Accessible r (x + i)
  bytes : ∃ k ≤ n, (ret = 0 → k = n) ∧ (∀ i < k, s.Accessible r (x + i)) ∧
    t = s.stores (fun i => s.place r (x + i)) k src

structure CopiedStr (s : Kmem) (r : Frame) (x n : ℕ) (ret : ℤ) (dst : List Byte) : Prop where
  value : ret = 0 ∨ ret = -1
  zero_iff : ret = 0 ↔ ∃ k < n, s.byte (s.place r (x + k)) = 0 ∧ ∀ i ≤ k, s.Accessible r (x + i)
  string : ret = 0 → ∃ str : List Byte, dst = str ++ [0] ∧ 0 ∉ str
  length_le : dst.length ≤ n
  accessible : ∀ i < dst.length, s.Accessible r (x + i)
  bytes : dst = s.bytes r x dst.length

theorem length_bytes (x k : ℕ) : (s.bytes r x k).length = k := by
  rw [Kmem.bytes, length_map, length_range]

theorem zero_iff_reach :
    (if s.reach r x n = n then 0 else -1 : ℤ) = 0 ↔ ∀ i < n, s.Accessible r (x + i) := by
  rw [← reach_eq_iff]
  split
  · exact iff_of_true rfl (by assumption)
  · exact iff_of_false (by decide) (by assumption)

theorem value_reach :
    (if s.reach r x n = n then 0 else -1 : ℤ) = 0 ∨ (if s.reach r x n = n then 0 else -1 : ℤ) = -1 := by
  split
  · exact .inl rfl
  · exact .inr rfl

theorem copiedIn (x n : ℕ) :
    CopiedIn s r x n (if s.reach r x n = n then 0 else -1) (s.bytes r x (s.reach r x n)) where
  value := value_reach
  zero_iff := zero_iff_reach
  whole h := by
    rw [length_bytes]
    exact reach_eq_iff.mpr (zero_iff_reach.mp h)
  length_le := by
    rw [length_bytes]
    exact reach_le x n
  accessible i hi := accessible_of_lt_reach (by rwa [length_bytes] at hi)
  bytes := by rw [length_bytes]

theorem copiedOut (x n : ℕ) (src : ℕ → Byte) :
    CopiedOut s r x n src (if s.reach r x n = n then 0 else -1)
      (s.stores (fun i => s.place r (x + i)) (s.reach r x n) src) where
  value := value_reach
  zero_iff := zero_iff_reach
  bytes := ⟨s.reach r x n, reach_le x n, fun h => reach_eq_iff.mpr (zero_iff_reach.mp h),
    fun _ => accessible_of_lt_reach, rfl⟩

theorem take_bytes (x k m : ℕ) : (s.bytes r x k).take m = s.bytes r x (min m k) := by
  rw [Kmem.bytes, ← map_take, take_range]
  rfl

theorem mem_bytes {b : Byte} : b ∈ s.bytes r x k ↔ ∃ i < k, s.byte (s.place r (x + i)) = b := by
  simp only [Kmem.bytes, mem_map, mem_range]

theorem scan_isPrefix (l : List Byte) : (scan l).2 <+: l := by
  rw [scan]
  split
  · rename_i h
    have hne : l.dropWhile (· ≠ 0) ≠ [] := by
      intro hnil
      have hall := dropWhile_eq_nil_iff.mp hnil
      simpa using hall 0 h
    obtain ⟨b, m, hbm⟩ := exists_cons_of_ne_nil hne
    have hb : b = 0 := by
      have hhead := head?_dropWhile_not (fun b : Byte => decide (b ≠ 0)) l
      rw [hbm] at hhead
      simpa using hhead
    refine ⟨m, ?_⟩
    subst hb
    change l.takeWhile (· ≠ 0) ++ [0] ++ m = l
    rw [List.append_assoc, singleton_append, ← hbm, takeWhile_append_dropWhile]
  · exact prefix_rfl

theorem copiedStr (x n : ℕ) :
    CopiedStr s r x n (scan (s.bytes r x (s.reach r x n))).1
      (scan (s.bytes r x (s.reach r x n))).2 := by
  set l := s.bytes r x (s.reach r x n) with hl
  have hlen : l.length = s.reach r x n := length_bytes _ _
  have hpre := scan_isPrefix l
  have hle : (scan l).2.length ≤ s.reach r x n := hlen ▸ hpre.length_le
  have hmem : (scan l).1 = 0 ↔ 0 ∈ l := by
    rw [scan]
    split
    · exact iff_of_true rfl (by assumption)
    · exact iff_of_false (Int.negSucc_ne_zero 0) (by assumption)
  refine ⟨?_, ?_, ?_, hle.trans (reach_le x n), ?_, ?_⟩
  · rw [scan]
    split
    · exact .inl rfl
    · exact .inr rfl
  · rw [hmem, hl, mem_bytes]
    constructor
    · rintro ⟨k, hk, h0⟩
      exact ⟨k, hk.trans_le (reach_le x n), h0, fun i hi =>
        accessible_of_lt_reach (hi.trans_lt hk)⟩
    · rintro ⟨k, hk, h0, hacc⟩
      refine ⟨k, ?_, h0⟩
      have hsplit : n = (k + 1) + (n - (k + 1)) := by omega
      rw [hsplit, reach_add fun i hi => hacc i (Nat.le_of_lt_succ hi)]
      omega
  · intro h
    refine ⟨l.takeWhile (· ≠ 0), ?_, fun h0 => ?_⟩
    · rw [scan, if_pos (hmem.mp h)]
    · simpa using mem_takeWhile_imp h0
  · exact fun i hi => accessible_of_lt_reach (hi.trans_le hle)
  · have htake := prefix_iff_eq_take.mp hpre
    generalize (scan l).2 = d at htake hle ⊢
    rw [hl, take_bytes, min_eq_left hle] at htake
    exact htake

theorem Alike.bytes_eq (h : Alike s t r x n) (hk : k ≤ s.reach r x n) :
    t.bytes r x k = s.bytes r x k := by
  refine map_congr_left fun i hi => ?_
  have hi := (mem_range.mp hi).trans_le hk
  rw [place_congr h.user, h.byte i (hi.trans_le (reach_le x n)) (accessible_of_lt_reach hi)]

theorem Alike.nonNull (h : Alike s t r x n) (h0 : NonNull s r) : NonNull t r :=
  fun m f hf => h0 m f ((h.user m).symm.trans hf)

/-- The copies between the kernel and user memory return 0 exactly if the user may access all
that they need, they move the bytes of the user and change nothing else, and what they bring in
does not depend on any other byte of memory. -/
theorem user_copies (h0 : NonNull s r) (va len : Word) :
    (∃ ret dst, copyin r va len s = .ok ((ret, dst), s) ∧
      CopiedIn s r va.toNat len.toNat ret dst ∧
      ∀ s', Alike s s' r va.toNat len.toNat → copyin r va len s' = .ok ((ret, dst), s')) ∧
    (Apart s r → ∀ src, ∃ ret s', copyout r va src len s = .ok (ret, s') ∧
      CopiedOut s r va.toNat len.toNat src ret s') ∧
    (∃ ret dst, copyinstr r va len s = .ok ((ret, dst), s) ∧
      CopiedStr s r va.toNat len.toNat ret dst ∧
      ∀ s', Alike s s' r va.toNat len.toNat → copyinstr r va len s' = .ok ((ret, dst), s')) := by
  refine ⟨⟨_, _, copyinLoop_run h0 (le_refl _) [], ?_, fun s' hs' => ?_⟩,
    fun ha src => ⟨_, _, copyoutLoop_run h0 ha (le_refl _) src 0, ?_⟩,
    ⟨_, _, copyinstrLoop_run h0 (le_refl _) [], ?_, fun s' hs' => ?_⟩⟩
  · rw [nil_append]
    exact copiedIn _ _
  · rw [copyin, copyinLoop_run (hs'.nonNull h0) (le_refl _), reach_congr hs'.user,
      hs'.bytes_eq (le_refl _)]
  · simp only [Nat.zero_add]
    exact copiedOut _ _ src
  · rw [nil_append]
    exact copiedStr _ _
  · rw [copyinstr, copyinstrLoop_run (hs'.nonNull h0) (le_refl _), reach_congr hs'.user,
      hs'.bytes_eq (le_refl _)]

section
variable {kend : Word} {N : ℕ} (h : Space kend s r N)
  (hhigh : ∀ n e, TRAPFRAME / PGSIZE ≤ n → n < 512 ^ 3 → s.leaf r n = some e → e &&& PTE_U = 0)
include h hhigh

theorem Space.phys_of_user {f : Frame} (hf : s.user r n = some f) : n < N ∧ s.phys r n = f := by
  obtain ⟨hlt, hf⟩ := Option.ite_none_right_eq_some.mp hf
  obtain ⟨e, he, hf⟩ := Option.bind_eq_some_iff.mp hf
  obtain ⟨hu, hf⟩ := Option.ite_none_right_eq_some.mp hf
  obtain rfl := Option.some.inj hf
  refine ⟨Nat.lt_of_not_le fun hle => ?_, phys_of_leaf he⟩
  rcases Nat.lt_or_ge n (TRAPFRAME / PGSIZE) with hlow | hge
  · rw [h.empty n hle hlow] at he
    cases he
  · exact hu (hhigh n e hge (Vm.lt_cube hlt) he)

theorem Space.apart_user : Apart s r := fun n f hf ht => by
  obtain ⟨hn, rfl⟩ := h.phys_of_user hhigh hf
  exact h.apart n hn (.inr ht)

theorem Space.nonNull (hk : 0 < kend) : NonNull s r := fun n f hf h0 => by
  obtain ⟨hn, rfl⟩ := h.phys_of_user hhigh hf
  have hram := (h.ram _ (.inr ⟨n, hn, rfl⟩)).1
  rw [h0] at hram
  exact absurd hk (BitVec.not_lt.mpr hram)

end

/-- The copies with a process whose first page `growproc` has just made. -/
theorem user_copies_freshMem :
    ∃ s', growproc 0x80000000 0x80000 0 4096 freshMem = .ok ((0, 4096), s') ∧
      (∃ dst, copyin 0x80000 0 4096 s' = .ok ((0, dst), s') ∧ dst.length = 4096) ∧
      (∃ s'', copyout 0x80000 4000 (fun _ => 7) 96 s' = .ok (0, s'')) ∧
      ∃ dst, copyin 0x80000 4000 97 s' = .ok ((-1, dst), s') := by
  obtain ⟨⟨z, sz⟩, s', hrun, hfresh, hgrown⟩ := ((growproc_fresh 4096 (by decide) space_freshMem).beside
    (growproc_sat 4096 (by decide) space_freshMem)).exists_ok
  dsimp only at hfresh hgrown
  obtain ⟨rfl, hsz⟩ : z = 0 ∧ sz = 4096 := by
    rcases hgrown.result with ⟨rfl, hsz⟩ | ⟨-, -, -, k, hk, hd | hl⟩
    · have hsz : (sz.toNat : ℤ) = 4096 := by simpa using hsz
      exact ⟨rfl, BitVec.eq_of_toNat_eq (Int.ofNat_inj.mp hsz)⟩
    · cases hd
    · exact absurd hl (Nat.not_le_of_lt hk)
  subst hsz
  have hhigh : ∀ n e, TRAPFRAME / PGSIZE ≤ n → n < 512 ^ 3 → s'.leaf 0x80000 n = some e →
      e &&& PTE_U = 0 := fun n e h1 h2 he => by
    rw [hgrown.resizes.high n h1 h2, leaf_empty rfl] at he
    cases he
  have h0 := hgrown.resizes.space.nonNull hhigh (by decide)
  have hacc : ∀ x < 4096, s'.Accessible 0x80000 x := fun x hx => by
    obtain ⟨hleaf, -⟩ := hfresh 0 (le_refl 0) (by decide)
    rw [← Nat.div_eq_of_lt hx] at hleaf
    refine ⟨hx.trans (by decide), _, hleaf, ?_⟩
    obtain ⟨-, hflags⟩ := Prod.mk.inj (entry_meaning (by decide : uperm.toNat < 1024)
      (addr (s'.phys 0x80000 (x / 4096))))
    rw [← and_PTE_FLAGS, hflags]
    decide
  have hend : ¬ s'.Accessible 0x80000 (4000 + 96) := by
    rintro ⟨-, e, he, -⟩
    rw [hgrown.resizes.space.empty _ (by decide) (by decide)] at he
    cases he
  obtain ⟨⟨ret, dst, hin, hcopied, -⟩, -⟩ := user_copies h0 0 4096
  obtain ⟨-, hout, -⟩ := user_copies h0 4000 96
  obtain ⟨ret', t', hout, hstored⟩ := hout (hgrown.resizes.space.apart_user hhigh) fun _ => 7
  obtain ⟨⟨ret'', dst'', hin', hcut, -⟩, -⟩ := user_copies h0 4000 97
  have hret : ret = 0 := hcopied.zero_iff.mpr fun i hi => by
    rw [show (0 : Word).toNat + i = i from Nat.zero_add i]
    exact hacc i hi
  have hret' : ret' = 0 := hstored.zero_iff.mpr fun i hi => by
    have hi : i < 96 := hi
    exact hacc (4000 + i) (by omega)
  have hret'' : ret'' = -1 := hcut.value.resolve_left fun hz => hend (hcut.zero_iff.mp hz 96 (by decide))
  subst hret hret' hret''
  exact ⟨s', hrun, ⟨dst, hin, hcopied.whole rfl⟩, ⟨t', hout⟩, dst'', hin'⟩

/-- A table whose page 0 is the physical page 0. -/
def nullMem : Kmem :=
  let s : Kmem := { page := fun _ _ => 0, freelist := [] }
  ((s.setPte 1 0 (PA2PTE (addr 2) ||| PTE_V)).setPte 2 0 (PA2PTE (addr 3) ||| PTE_V)).setPte 3 0
    (PA2PTE (addr 0) ||| PTE_V ||| PTE_R ||| PTE_U)

/-- The address of the physical page 0 means that there is no page. -/
theorem not_user_copies : (∀ i < 1, nullMem.Accessible 1 (0 + i)) ∧
    copyin 1 0 1 nullMem = .ok ((-1, []), nullMem) := by
  have huser : nullMem.user 1 (vpn 0) = some 0 := by decide +kernel
  constructor
  · intro i hi
    obtain rfl : i = 0 := by omega
    exact accessible_iff.mpr (Option.isSome_iff_exists.mpr ⟨0, huser⟩)
  · have hlen : (1 : Word).toNat = 0 + 1 := rfl
    rw [copyin, hlen, copyinLoop, if_pos (by decide), Sat.run_bind (walkaddr_some huser),
      if_pos (by decide)]
    rfl

end Xv6.Vm
