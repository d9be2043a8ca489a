import Xv6.Vm.Table
import Xv6.Lib.Radix

/-! What a page table means: its pages are the nodes of a tree, and it maps page numbers to
entries. The functions that only look at a table are computed here. -/
namespace Xv6.Vm
open Bytes Radix Option

/-- The number of the page that an address is in. -/
def vpn (va : Word) : ℕ := va.toNat / PGSIZE

def ix (level n : ℕ) : Index := Fin.ofNat 512 (n / 512 ^ level)

def path (n : ℕ) : List Index := [ix 2 n, ix 1 n]

namespace Kmem

def child (s : Kmem) (t : Frame) (i : Index) : Option Frame :=
  if s.pte t i &&& PTE_V ≠ 0 then some (frame (PTE2PA (s.pte t i))) else none

def tables (s : Kmem) (r : Frame) : Set Frame := nodes s.child r 2

/-- The valid entry for a page. -/
def leaf (s : Kmem) (r : Frame) (n : ℕ) : Option Word :=
  (node s.child r (path n)).bind fun t =>
    if s.pte t (ix 0 n) &&& PTE_V ≠ 0 then some (s.pte t (ix 0 n)) else none

/-- The page of physical memory that a page of user memory is in. -/
def user (s : Kmem) (r : Frame) (n : ℕ) : Option Frame :=
  if n < MAXVA / PGSIZE then
    (s.leaf r n).bind fun e => if e &&& PTE_U ≠ 0 then some (frame (PTE2PA e)) else none
  else none

end Kmem

variable {s : Kmem} {r : Frame} {va : Word} {n m : ℕ}

theorem PX_eq (level : ℕ) (va : Word) : PX level va = ix level (vpn va) := by
  apply Fin.ext
  have hpow : 2 ^ PXSHIFT level = PGSIZE * 512 ^ level := by
    rw [PXSHIFT, pow_add, pow_mul]
    rfl
  rw [val_PX, hpow, ← Nat.div_div_eq_div_mul]
  rfl

theorem val_ix (level n : ℕ) : (ix level n).val = n / 512 ^ level % 512 := rfl

theorem ix_inj (hn : n < 512 ^ 3) (hm : m < 512 ^ 3) (hp : path n = path m)
    (h0 : ix 0 n = ix 0 m) : n = m := by
  rw [path, path, List.cons.injEq, List.cons.injEq] at hp
  have h2 := congrArg Fin.val hp.1
  have h1 := congrArg Fin.val hp.2.1
  have h0 := congrArg Fin.val h0
  simp only [val_ix] at h0 h1 h2
  omega

theorem vpn_lt (h : va.toNat < MAXVA) : vpn va < MAXVA / PGSIZE :=
  Nat.div_lt_div_of_lt_of_dvd (by decide) h

theorem vpn_ge (h : MAXVA ≤ va.toNat) : MAXVA / PGSIZE ≤ vpn va := Nat.div_le_div_right h

theorem vpn_PGROUNDDOWN (va : Word) : vpn (PGROUNDDOWN va) = vpn va := by
  rw [vpn, vpn, toNat_PGROUNDDOWN]
  exact Nat.mul_div_cancel _ (by decide)

section
variable {t : Kmem}

theorem pte_congr {x : Frame} (h : t.page x = s.page x) (i : Index) : t.pte x i = s.pte x i :=
  congrArg (fun b => getDword b (8 * i)) h

theorem child_congr {x : Frame} (h : t.page x = s.page x) : t.child x = s.child x := by
  funext i
  rw [Kmem.child, Kmem.child, pte_congr h]

variable (h : ∀ x ∈ s.tables r, t.page x = s.page x)
include h

theorem node_agree {p : List Index} (hp : p.length ≤ 2) :
    node t.child r p = node s.child r p :=
  node_congr (fun p x hp hx => child_congr (h x ⟨p, hp.le, hx⟩)) hp

theorem tables_agree : t.tables r = s.tables r :=
  nodes_congr fun p x hp hx => child_congr (h x ⟨p, hp.le, hx⟩)

theorem isTree_agree (ht : IsTree s.child r 2) : IsTree t.child r 2 :=
  ht.congr fun p x hp hx => child_congr (h x ⟨p, hp.le, hx⟩)

theorem leaf_agree (n : ℕ) : t.leaf r n = s.leaf r n := by
  have hnode := node_agree h (p := path n) (le_refl 2)
  rw [Kmem.leaf, Kmem.leaf, hnode]
  cases hn : node s.child r (path n) with
  | none => rw [bind_none, bind_none]
  | some x =>
    have hpte := pte_congr (h x ⟨path n, le_refl 2, hn⟩) (ix 0 n)
    rw [bind_some, bind_some, hpte]

theorem user_agree (n : ℕ) : t.user r n = s.user r n := by
  rw [Kmem.user, Kmem.user, leaf_agree h]

end

theorem getPte_run (t : Frame) (i : Index) : getPte t i s = .ok (s.pte t i, s) := rfl

theorem walkLoop_false (va : Word) (level : ℕ) (t : Frame) :
    walkLoop va false level t s =
      .ok ((node s.child t ((List.range level).reverse.map fun l => PX (l + 1) va)).map
        (·, PX 0 va), s) := by
  induction level generalizing t with
  | zero => rfl
  | succ level ih =>
    have hpath : (List.range (level + 1)).reverse.map (fun l => PX (l + 1) va) =
        PX (level + 1) va :: (List.range level).reverse.map fun l => PX (l + 1) va := by
      rw [List.range_succ, List.reverse_append]
      rfl
    rw [hpath, node, Kmem.child]
    by_cases hv : s.pte t (PX (level + 1) va) &&& PTE_V ≠ 0
    · have hrun : walkLoop va false (level + 1) t s =
          walkLoop va false level (frame (PTE2PA (s.pte t (PX (level + 1) va)))) s := by
        change (if s.pte t (PX (level + 1) va) &&& PTE_V ≠ 0 then _ else _ : M _) s = _
        rw [if_pos hv]
      rw [hrun, ih, if_pos hv]
      rfl
    · change (if s.pte t (PX (level + 1) va) &&& PTE_V ≠ 0 then _ else _ : M _) s = _
      rw [if_neg hv, if_neg hv]
      rfl

theorem walk_false (h : va.toNat < MAXVA) :
    walk r va false s = .ok ((node s.child r (path (vpn va))).map (·, ix 0 (vpn va)), s) := by
  rw [walk, if_neg (Nat.not_le_of_lt h), walkLoop_false, PX_eq]
  have hpath : (List.range 2).reverse.map (fun l => PX (l + 1) va) = path (vpn va) := by
    change [PX 2 va, PX 1 va] = _
    rw [PX_eq, PX_eq]
    rfl
  rw [hpath]

theorem walkaddr_run (va : Word) :
    walkaddr r va s = .ok (((s.user r (vpn va)).map addr).getD 0, s) := by
  by_cases h : va.toNat < MAXVA
  · rw [walkaddr, if_neg (Nat.not_le_of_lt h), Kmem.user, if_pos (vpn_lt h), Kmem.leaf]
    change (walk r va false s).bind _ = _
    rw [walk_false h]
    cases hn : node s.child r (path (vpn va)) with
    | none => rfl
    | some t =>
      change (if s.pte t (ix 0 (vpn va)) &&& PTE_V = 0 then _ else _ : M _) s = _
      by_cases hv : s.pte t (ix 0 (vpn va)) &&& PTE_V = 0
      · rw [if_pos hv, bind_some, if_neg (not_not.mpr hv)]
        rfl
      · rw [if_neg hv, bind_some, if_pos hv, bind_some]
        by_cases hu : s.pte t (ix 0 (vpn va)) &&& PTE_U = 0
        · rw [if_pos hu, if_neg (not_not.mpr hu)]
          rfl
        · rw [if_neg hu, if_pos hu, map_some, addr_frame_PTE2PA]
          rfl
  · rw [walkaddr, if_pos (Nat.le_of_not_lt h), Kmem.user,
      if_neg (Nat.not_lt_of_le (vpn_ge (Nat.le_of_not_lt h)))]
    rfl

end Xv6.Vm
