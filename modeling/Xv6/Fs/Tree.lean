import Xv6.Fs.Change

/-! The directories as a tree, and link counts: what every change of the files keeps. -/
namespace Xv6.Fs
open Bytes Count Function List BitVec

variable {sb : Superblock} {strict : Prop} {F : ℕ → Node} {n f g : Node} {de : Dirent}
  {name a b : List Byte} {d i k : ℕ}

theorem strncmp_eq_zero {n : ℕ} {p q : List Byte} :
    strncmp n p q = 0 ↔ strncpy n p = strncpy n q := by
  induction n generalizing p q with
  | zero => simp [strncmp, strncpy]
  | succ n ih =>
    simp only [strncmp, strncpy]
    split
    · rename_i h
      rw [if_neg h.1, if_neg (h.2 ▸ h.1), ih, h.2]
      simp
    · rename_i h
      have hsub : (((p.headD 0).toNat : ℤ) - (q.headD 0).toNat = 0) ↔ p.headD 0 = q.headD 0 := by
        rw [sub_eq_zero, Nat.cast_inj]
        exact toNat_inj
      rw [hsub]
      by_cases hp : p.headD 0 = 0
      · rw [if_pos hp, hp]
        by_cases hq : q.headD 0 = 0
        · rw [if_pos hq, hq]
          simp
        · rw [if_neg hq, List.replicate_succ]
          simp only [List.cons.injEq]
          exact ⟨fun he => absurd he.symm hq, fun he => absurd he.1.symm hq⟩
      · have hne : p.headD 0 ≠ q.headD 0 := fun he => h ⟨hp, he⟩
        rw [if_neg hp]
        refine ⟨fun he => absurd he hne, fun he => absurd ?_ hne⟩
        split at he
        · rename_i hq
          rw [List.replicate_succ, List.cons.injEq] at he
          exact he.1.trans hq.symm
        · exact (List.cons.inj he).1

def cutTo (n : ℕ) (name : List Byte) : List Byte := (name.take n).takeWhile (· ≠ 0)

def cutName (name : List Byte) : List Byte := cutTo DIRSIZ name

theorem cutTo_succ (n : ℕ) (a : List Byte) :
    cutTo (n + 1) a = if a.headD 0 = 0 then [] else a.headD 0 :: cutTo n a.tail := by
  cases a with
  | nil => rfl
  | cons x a =>
    rw [cutTo, List.take_succ_cons, List.headD_cons, List.tail_cons]
    split
    · rename_i hx
      exact List.takeWhile_cons_of_neg (by simpa using hx)
    · rename_i hx
      exact List.takeWhile_cons_of_pos (by simpa using hx)

theorem cutTo_strncpy (n : ℕ) (name : List Byte) : cutTo n (strncpy n name) = cutTo n name := by
  induction n generalizing name with
  | zero => rfl
  | succ n ih =>
    rw [strncpy, cutTo_succ n name]
    split
    · rfl
    · rename_i hx
      rw [cutTo_succ, List.headD_cons, if_neg hx, List.tail_cons, ih]

theorem strncpy_eq (n : ℕ) (a : List Byte) :
    strncpy n a = cutTo n a ++ List.replicate (n - (cutTo n a).length) 0 := by
  induction n generalizing a with
  | zero => rfl
  | succ n ih =>
    rw [strncpy, cutTo_succ]
    split
    · rfl
    · rw [ih a.tail, List.cons_append, List.length_cons, Nat.add_sub_add_right]

theorem strncpy_strncpy (n : ℕ) (s : List Byte) : strncpy n (strncpy n s) = strncpy n s := by
  rw [strncpy_eq, cutTo_strncpy, ← strncpy_eq]

theorem namecmp_eq_zero {s t : List Byte} :
    namecmp s t = 0 ↔ strncpy DIRSIZ s = strncpy DIRSIZ t := strncmp_eq_zero

/-- `namecmp` says whether two names are the same as far as they count. -/
theorem namecmp_eq_zero_iff : namecmp a b = 0 ↔ cutName a = cutName b := by
  rw [namecmp_eq_zero]
  refine ⟨fun h => ?_, fun h => ?_⟩
  · rw [cutName, ← cutTo_strncpy, h, cutTo_strncpy, cutName]
  · rw [strncpy_eq, strncpy_eq, ← cutName, ← cutName, h]

theorem namecmp_newEnt {s : List Byte} :
    namecmp s (newEnt name i).name = 0 ↔ namecmp s name = 0 := by
  rw [namecmp_eq_zero, namecmp_eq_zero, newEnt, strncpy_strncpy]

theorem namecmp_symm {s t : List Byte} : namecmp s t = 0 ↔ namecmp t s = 0 := by
  rw [namecmp_eq_zero, namecmp_eq_zero, eq_comm]

theorem namecmp_trans {s t u : List Byte} (h : namecmp s t = 0) (h' : namecmp t u = 0) :
    namecmp s u = 0 :=
  namecmp_eq_zero.mpr ((namecmp_eq_zero.mp h).trans (namecmp_eq_zero.mp h'))

/-- The entries of a directory: `.` and `..` first, and no others with these names. -/
structure Dots (d : ℕ) (n : Node) : Prop where
  two : 2 ≤ n.nents
  self : (n.ent 0).inum.toNat = d
  dot : namecmp dot (n.ent 0).name = 0
  up : (n.ent 1).inum ≠ 0
  dotdot : namecmp dotdot (n.ent 1).name = 0
  rest : ∀ k, 2 ≤ k → k < n.nents → (n.ent k).inum ≠ 0 →
    namecmp Fs.dot (n.ent k).name ≠ 0 ∧ namecmp Fs.dotdot (n.ent k).name ≠ 0

instance : Decidable (Dots d n) :=
  decidable_of_iff ((2 ≤ n.nents ∧ (n.ent 0).inum.toNat = d ∧ namecmp dot (n.ent 0).name = 0) ∧
    ((n.ent 1).inum ≠ 0 ∧ namecmp dotdot (n.ent 1).name = 0) ∧ ∀ k < n.nents, 2 ≤ k →
      (n.ent k).inum ≠ 0 → namecmp dot (n.ent k).name ≠ 0 ∧ namecmp dotdot (n.ent k).name ≠ 0)
    ⟨fun ⟨⟨h1, h2, h3⟩, ⟨h4, h5⟩, h6⟩ => ⟨h1, h2, h3, h4, h5, fun k hk hlt => h6 k hlt hk⟩,
      fun h => ⟨⟨h.two, h.self, h.dot⟩, ⟨h.up, h.dotdot⟩, fun k hlt hk => h.rest k hk hlt⟩⟩

def Node.slot (n : Node) (k : ℕ) : ℕ :=
  if n.type = T_DIR ∧ 2 ≤ k ∧ k < n.nents then (n.ent k).inum.toNat else 0

def Node.up (n : Node) : ℕ := if n.type = T_DIR ∧ n.nlink ≠ 0 then n.parent else 0

theorem Node.slot_ne_zero (h : n.slot k ≠ 0) : n.type = T_DIR ∧ 2 ≤ k ∧ k < n.nents ∧
    n.slot k = (n.ent k).inum.toNat := by
  unfold Node.slot at h ⊢
  split
  · rename_i hk
    exact ⟨hk.1, hk.2.1, hk.2.2, rfl⟩
  · rename_i hk
    rw [if_neg hk] at h
    exact absurd rfl h

theorem Node.up_ne_zero (h : n.up ≠ 0) : n.type = T_DIR ∧ n.nlink ≠ 0 ∧ n.up = n.parent := by
  unfold Node.up at h ⊢
  split
  · rename_i hn
    exact ⟨hn.1, hn.2, rfl⟩
  · rename_i hn
    rw [if_neg hn] at h
    exact absurd rfl h

theorem Node.up_congr (ht : f.type = n.type) (hn : f.nlink = 0 ↔ n.nlink = 0)
    (hp : f.parent = n.parent) : f.up = n.up := by
  simp only [Node.up, ht, hp, ne_eq, hn]

namespace Dots

variable (h : Dots d n)
include h

theorem self_ne (hd : 0 < d) : (n.ent 0).inum ≠ 0 := by
  intro h0
  have hself := h.self
  rw [h0] at hself
  exact absurd hself (Nat.ne_of_lt hd)

theorem vacant (hd : 0 < d) (hk : n.vacant k) : 2 ≤ k ∧ k ≤ n.nents := by
  have htwo := h.two
  rcases hk with ⟨hk, h0⟩ | hk
  · refine ⟨?_, Nat.le_of_lt hk⟩
    rcases Nat.lt_or_ge k 2 with hlt | hge
    · obtain rfl | rfl : k = 0 ∨ k = 1 := by omega
      · exact absurd h0 (h.self_ne hd)
      · exact absurd h0 h.up
    · exact hge
  · have : n.nents = k := by
      rw [Node.nents, ← hk]
      exact Nat.mul_div_cancel _ (by decide)
    omega

theorem two_le (hk : n.lookup name = some k) (hdot : namecmp name Fs.dot ≠ 0)
    (hdotdot : namecmp name Fs.dotdot ≠ 0) : 2 ≤ k := by
  obtain ⟨-, -, hname⟩ := Node.of_lookup_some hk
  by_contra hlt
  obtain rfl | rfl : k = 0 ∨ k = 1 := by omega
  · exact hdot (namecmp_trans hname (namecmp_symm.mp h.dot))
  · exact hdotdot (namecmp_trans hname (namecmp_symm.mp h.dotdot))

theorem absent (hd : 0 < d) (hname : n.lookup name = none) :
    namecmp Fs.dot (newEnt name i).name ≠ 0 ∧ namecmp Fs.dotdot (newEnt name i).name ≠ 0 := by
  have htwo := h.two
  have h0 := Node.of_lookup_none hname 0 (by omega)
  have h1 := Node.of_lookup_none hname 1 (by omega)
  rw [Node.skips, or_iff_right (h.self_ne hd)] at h0
  rw [Node.skips, or_iff_right h.up] at h1
  rw [Ne, namecmp_newEnt, Ne, namecmp_newEnt]
  exact ⟨fun hz => h0 (namecmp_trans (namecmp_symm.mp hz) h.dot),
    fun hz => h1 (namecmp_trans (namecmp_symm.mp hz) h.dotdot)⟩

theorem setEnt (hk : 2 ≤ k ∧ k ≤ n.nents) (hf : SetEnt n k de f)
    (hde : de.inum ≠ 0 → namecmp Fs.dot de.name ≠ 0 ∧ namecmp Fs.dotdot de.name ≠ 0) :
    Dots d f := by
  have htwo := h.two
  have h0 : f.ent 0 = n.ent 0 := hf.other 0 (by omega) (by omega)
  have h1 : f.ent 1 = n.ent 1 := hf.other 1 (by omega) (by omega)
  refine ⟨by rw [hf.nents]; omega, by rw [h0]; exact h.self, by rw [h0]; exact h.dot,
    by rw [h1]; exact h.up, by rw [h1]; exact h.dotdot, fun j hj hlt hne => ?_⟩
  rw [hf.nents] at hlt
  rcases eq_or_ne j k with rfl | hjk
  · rw [hf.self] at hne ⊢
    exact hde hne
  · have hother := hf.other j (by omega) hjk
    rw [hother] at hne ⊢
    exact h.rest j hj (by omega) hne

theorem setNlink (x : BitVec 16) : Dots d { n with nlink := x } :=
  ⟨h.two, h.self, h.dot, h.up, h.dotdot, h.rest⟩

end Dots

theorem dots_new (hi : i < sb.ninodes) (hd : 0 < d) (hlt : d < sb.ninodes) (hents : n.nents = 2)
    (hdot : n.ent 0 = newEnt dot i) (hdotdot : n.ent 1 = newEnt dotdot d) : Dots i n := by
  refine ⟨Nat.le_of_eq hents.symm, by rw [hdot, newEnt_inum hi], ?_, ?_, ?_, fun j hj hlt' => ?_⟩
  · rw [hdot, namecmp_newEnt]
    rfl
  · rw [hdotdot]
    exact newEnt_ne_zero hd hlt
  · rw [hdotdot, namecmp_newEnt]
    rfl
  · rw [hents] at hlt'
    omega

theorem SetEnt.type (hf : SetEnt n k de f) : f.type = n.type := by
  obtain ⟨bs, rfl⟩ := hf.fields
  rfl

theorem SetEnt.nlink (hf : SetEnt n k de f) : f.nlink = n.nlink := by
  obtain ⟨bs, rfl⟩ := hf.fields
  rfl

theorem SetEnt.parent (hf : SetEnt n k de f) (hk : 2 ≤ k) (hn : 2 ≤ n.nents) :
    f.parent = n.parent := by
  rw [Node.parent, hf.other 1 (by omega) (by omega), Node.parent]

theorem SetEnt.slot (hf : SetEnt n k de f) (hd : n.type = T_DIR) (hk : 2 ≤ k ∧ k ≤ n.nents) :
    f.slot = update n.slot k de.inum.toNat := by
  funext j
  have hnents := hf.nents
  rw [update_apply, Node.slot, hf.type]
  split_ifs with h1 h2 h2
  · rw [h2, hf.self]
  · rw [Node.slot, if_pos ⟨hd, h1.2.1, by omega⟩, hf.other j (by omega) h2]
  · exact absurd ⟨hd, h2 ▸ hk.1, by omega⟩ h1
  · rw [Node.slot, if_neg]
    exact fun h => h1 ⟨hd, h.2.1, by omega⟩

def slot (F : ℕ → Node) (p : ℕ × ℕ) : ℕ := (F p.1).slot p.2

def up (F : ℕ → Node) (c : ℕ) : ℕ := (F c).up

theorem slot_update_same (h : n.slot = (F i).slot) : slot (update F i n) = slot F := by
  funext p
  rw [slot, update_apply]
  split
  · rename_i hp
    rw [h, ← hp, slot]
  · rfl

theorem slot_update {v : ℕ} (h : n.slot = update (F d).slot k v) :
    slot (update F d n) = update (slot F) (d, k) v := by
  funext p
  rw [slot, update_apply, update_apply]
  rcases eq_or_ne p.1 d with hp | hp
  · rw [if_pos hp, h, update_apply]
    by_cases hk : p.2 = k
    · rw [if_pos hk, if_pos (Prod.ext hp hk)]
    · rw [if_neg hk, if_neg fun he => hk (congrArg Prod.snd he), slot, hp]
  · rw [if_neg hp, if_neg fun he => hp (congrArg Prod.fst he), slot]

theorem up_update : up (update F i n) = update (up F) i n.up := by
  funext c
  rw [up, update_apply, update_apply]
  split <;> rfl

/-- Directories are named once, in their parents, and the root is above all linked ones. -/
structure Shape (F : ℕ → Node) : Prop where
  zero : (F 0).type ≠ T_DIR
  root : up F ROOTINO = ROOTINO
  owner : ∀ p, (F (slot F p)).type = T_DIR → up F (slot F p) = p.1 ∧ slot F p ≠ ROOTINO
  once : ∀ p q, slot F p = slot F q → (F (slot F p)).type = T_DIR → p = q
  entry : ∀ c, up F c ≠ 0 → c ≠ ROOTINO → ∃ k, slot F (up F c, k) = c
  rank : ∃ rank : ℕ → ℕ, ∀ c, up F c ≠ 0 → c ≠ ROOTINO → rank (up F c) < rank c

namespace Shape
variable {G : ℕ → Node}

theorem dir_of_up (h : up F i ≠ 0) : (F i).type = T_DIR := (Node.up_ne_zero h).1

theorem same (h : Shape F) (hup : up G = up F) (hdir : ∀ j, (G j).type = T_DIR → (F j).type = T_DIR)
    (hold : ∀ p, (F (slot F p)).type = T_DIR → slot G p = slot F p)
    (hnew : ∀ p, (G (slot G p)).type = T_DIR → slot G p = slot F p) : Shape G := by
  refine ⟨fun h0 => h.zero (hdir 0 h0), by rw [hup]; exact h.root, fun p hp => ?_,
    fun p q hpq hp => ?_, fun c hc hroot => ?_, ?_⟩
  · have hp' := hdir _ hp
    rw [hnew p hp] at hp' ⊢
    rw [hup]
    exact h.owner p hp'
  · have hq : slot G q = slot F q := hnew q (hpq ▸ hp)
    have hp' := hdir _ hp
    rw [hnew p hp] at hp' hpq
    exact h.once p q (hpq.trans hq) hp'
  · rw [hup] at hc ⊢
    obtain ⟨k, hk⟩ := h.entry c hc hroot
    exact ⟨k, (hold _ (by rw [hk]; exact dir_of_up hc)).trans hk⟩
  · rw [hup]
    exact h.rank

theorem insert (h : Shape F) (hslot : slot G = update (slot F) (d, k) i)
    (hup : up G = update (up F) i d) (hi : i ≠ 0) (hroot : i ≠ ROOTINO) (hne : d ≠ i)
    (hdir : ∀ j, j ≠ i → (G j).type = T_DIR → (F j).type = T_DIR)
    (hunused : slot F (d, k) = 0) (hnames : ∀ p, slot F p ≠ i) (hkids : ∀ c, up F c ≠ i) :
    Shape G := by
  have hother : ∀ {p}, p ≠ (d, k) → slot G p = slot F p := fun hp => by
    rw [hslot, update_of_ne hp]
  have hself : slot G (d, k) = i := by rw [hslot, update_self]
  have hupo : ∀ {c}, c ≠ i → up G c = up F c := fun hc => by rw [hup, update_of_ne hc]
  have hupi : up G i = d := by rw [hup, update_self]
  refine ⟨fun h0 => h.zero (hdir 0 hi.symm h0), by rw [hupo hroot.symm]; exact h.root, fun p hp => ?_,
    fun p q hpq hp => ?_, fun c hc hcr => ?_, ?_⟩
  · rcases eq_or_ne p (d, k) with rfl | hpk
    · rw [hself, hupi]
      exact ⟨rfl, hroot⟩
    · rw [hother hpk] at hp ⊢
      rw [hupo (hnames p)]
      exact h.owner p (hdir _ (hnames p) hp)
  · rcases eq_or_ne p (d, k) with rfl | hpk <;> rcases eq_or_ne q (d, k) with rfl | hqk
    · rfl
    · rw [hself, hother hqk] at hpq
      exact absurd hpq.symm (hnames q)
    · rw [hself, hother hpk] at hpq
      exact absurd hpq (hnames p)
    · rw [hother hpk] at hp hpq
      rw [hother hqk] at hpq
      exact h.once p q hpq (hdir _ (hnames p) hp)
  · rcases eq_or_ne c i with rfl | hci
    · exact ⟨k, by rw [hupi, hself]⟩
    · rw [hupo hci] at hc ⊢
      obtain ⟨k', hk'⟩ := h.entry c hc hcr
      refine ⟨k', ?_⟩
      rw [hother, hk']
      intro he
      rw [he, hunused] at hk'
      exact h.zero (hk' ▸ dir_of_up hc)
  · obtain ⟨rank, hrank⟩ := h.rank
    refine ⟨update rank i (rank d + 1), fun c hc hcr => ?_⟩
    rcases eq_or_ne c i with rfl | hci
    · rw [hupi, update_self, update_of_ne hne]
      exact Nat.lt_succ_self _
    · rw [hupo hci] at hc ⊢
      rw [update_of_ne hci, update_of_ne (hkids c)]
      exact hrank c hc hcr

theorem erase (h : Shape F) (hslot : slot G = update (slot F) (d, k) 0)
    (hup : up G = update (up F) i 0) (hentry : slot F (d, k) = i)
    (hi : (F i).type = T_DIR) (hdir : ∀ j, (G j).type = T_DIR → (F j).type = T_DIR) : Shape G := by
  have hroot : i ≠ ROOTINO := hentry ▸ (h.owner (d, k) (hentry ▸ hi)).2
  have hother : ∀ {p}, p ≠ (d, k) → slot G p = slot F p := fun hp => by
    rw [hslot, update_of_ne hp]
  have hupo : ∀ {c}, c ≠ i → up G c = up F c := fun hc => by rw [hup, update_of_ne hc]
  -- what is still named is another entry, for another directory
  have hstays : ∀ {p}, (G (slot G p)).type = T_DIR → p ≠ (d, k) ∧ slot G p = slot F p ∧
      slot F p ≠ i := by
    intro p hp
    have hpk : p ≠ (d, k) := by
      rintro rfl
      rw [hslot, update_self] at hp
      exact h.zero (hdir 0 hp)
    have hp' := hdir _ hp
    rw [hother hpk] at hp'
    exact ⟨hpk, hother hpk, fun he => hpk (h.once p (d, k) (he.trans hentry.symm) hp')⟩
  refine ⟨fun h0 => h.zero (hdir 0 h0), by rw [hupo hroot.symm]; exact h.root, fun p hp => ?_,
    fun p q hpq hp => ?_, fun c hc hcr => ?_, ?_⟩
  · obtain ⟨-, hs, hne⟩ := hstays hp
    have hp' := hdir _ hp
    rw [hs] at hp' ⊢
    rw [hupo hne]
    exact h.owner p hp'
  · obtain ⟨-, hs, -⟩ := hstays hp
    obtain ⟨-, hs', -⟩ := hstays (hpq ▸ hp)
    have hp' := hdir _ hp
    rw [hs] at hp' hpq
    exact h.once p q (hpq.trans hs') hp'
  · have hci : c ≠ i := by
      rintro rfl
      rw [hup, update_self] at hc
      exact hc rfl
    rw [hupo hci] at hc ⊢
    obtain ⟨k', hk'⟩ := h.entry c hc hcr
    refine ⟨k', ?_⟩
    rw [hother, hk']
    intro he
    rw [he, hentry] at hk'
    exact hci hk'.symm
  · obtain ⟨rank, hrank⟩ := h.rank
    refine ⟨rank, fun c hc hcr => ?_⟩
    have hci : c ≠ i := by
      rintro rfl
      rw [hup, update_self] at hc
      exact hc rfl
    rw [hupo hci] at hc ⊢
    exact hrank c hc hcr

theorem ne_of_slot (h : Shape F) (hp : (F (slot F (d, k))).type = T_DIR) : slot F (d, k) ≠ d := by
  intro he
  obtain ⟨hup, hroot⟩ := h.owner _ hp
  obtain ⟨rank, hrank⟩ := h.rank
  rw [he] at hup hroot hp
  have hd : up F d ≠ 0 := by
    rw [hup]
    rintro rfl
    exact h.zero hp
  have := hrank d hd hroot
  rw [hup] at this
  exact absurd this (lt_irrefl _)

end Shape

/-- Every inode has as many links as entries name it, where the `..` of the linked directories count;
with `strict` a file may have more. An unlinked directory is empty, or with `strict` not the `..` of
another one. -/
structure Tree (sb : Superblock) (strict : Prop) (F : ℕ → Node) : Prop extends Shape F where
  bounded : ∀ i, (F i).type ≠ 0 → 0 < i ∧ i < sb.ninodes
  blank : ∀ i, (F i).type = 0 → (F i).nlink = 0
  dots : ∀ d, (F d).type = T_DIR → Dots d (F d)
  small : ∀ i, (F i).nlink.toNat ≤ maxLink.toNat
  le : ∀ i, 0 < i → (fiber (slot F) i).ncard + (fiber (up F) i).ncard ≤ (F i).nlink.toNat
  ge : ∀ i, 0 < i → ¬ strict ∨ (F i).type = T_DIR →
    (F i).nlink.toNat ≤ (fiber (slot F) i).ncard + (fiber (up F) i).ncard
  above : ∀ c, (F c).type = T_DIR → strict ∨ (F c).nlink ≠ 0 → (F (F c).parent).type = T_DIR
  empty : ¬ strict → ∀ d, (F d).type = T_DIR → (F d).nlink = 0 → ∀ k, slot F (d, k) = 0
  childless : strict → ∀ d, (F d).type = T_DIR → (F d).nlink = 0 → Childless F d

/-- The links to inode `j`: entries, and the `..` of linked directories. -/
noncomputable def links (F : ℕ → Node) (j : ℕ) : ℕ := (fiber (slot F) j).ncard + (fiber (up F) j).ncard

/-- What the tree asks of one inode `j` with `c` links to it. -/
structure Sound (sb : Superblock) (strict : Prop) (j : ℕ) (n : Node) (c : ℕ) : Prop where
  bounded : n.type ≠ 0 → 0 < j ∧ j < sb.ninodes
  blank : n.type = 0 → n.nlink = 0
  dots : n.type = T_DIR → Dots j n
  small : n.nlink.toNat ≤ maxLink.toNat
  le : 0 < j → c ≤ n.nlink.toNat
  ge : 0 < j → ¬ strict ∨ n.type = T_DIR → n.nlink.toNat ≤ c

namespace Tree
variable {G : ℕ → Node} {j : ℕ}

theorem of_sound (hshape : Shape G) (hs : ∀ j, Sound sb strict j (G j) (links G j))
    (habove : ∀ c, (G c).type = T_DIR → strict ∨ (G c).nlink ≠ 0 → (G (G c).parent).type = T_DIR)
    (hempty : ¬ strict → ∀ d, (G d).type = T_DIR → (G d).nlink = 0 → ∀ k, slot G (d, k) = 0)
    (hchildless : strict → ∀ d, (G d).type = T_DIR → (G d).nlink = 0 → Childless G d) :
    Tree sb strict G :=
  ⟨hshape, fun j => (hs j).bounded, fun j => (hs j).blank, fun j => (hs j).dots,
    fun j => (hs j).small, fun j => (hs j).le, fun j => (hs j).ge, habove, hempty, hchildless⟩

variable (h : Tree sb strict F)
include h

/-- An inode stays as it is, and so do its links; some may go that need not be there. -/
theorem sound_of_le (hle : 0 < j → links G j ≤ links F j)
    (hge : 0 < j → ¬ strict ∨ (F j).type = T_DIR → links F j ≤ links G j) :
    Sound sb strict j (F j) (links G j) :=
  ⟨h.bounded j, h.blank j, h.dots j, h.small j, fun hj => (hle hj).trans (h.le j hj),
    fun hj hs => (h.ge j hj hs).trans (hge hj hs)⟩

theorem sound_congr (heq : 0 < j → links G j = links F j) : Sound sb strict j (F j) (links G j) :=
  h.sound_of_le (fun hj => (heq hj).le) fun hj _ => (heq hj).ge

theorem sound_dir (hd : (F d).type = T_DIR) (ht : f.type = (F d).type) (hdots : Dots d f)
    (hsmall : f.nlink.toNat ≤ maxLink.toNat)
    (hcount : links G d + (F d).nlink.toNat = links F d + f.nlink.toNat) :
    Sound sb strict d f (links G d) := by
  have hne : f.type ≠ 0 := by
    rw [ht, hd]
    decide
  refine ⟨fun _ => h.bounded d (ht ▸ hne), fun h0 => absurd h0 hne, fun _ => hdots, hsmall,
    fun hj => ?_, fun hj _ => ?_⟩
  · have : links F d ≤ _ := h.le d hj
    omega
  · have : _ ≤ links F d := h.ge d hj (.inr hd)
    omega

theorem finite_names (hi : 0 < i) : (fiber (slot F) i).Finite := by
  refine (Finset.finite_toSet ((Finset.range sb.ninodes).biUnion fun d =>
    (Finset.range (F d).nents).image (Prod.mk d))).subset fun p hp => ?_
  have hne : (F p.1).slot p.2 ≠ 0 := by
    rw [show (F p.1).slot p.2 = i from hp]
    exact Nat.ne_of_gt hi
  obtain ⟨hd, -, hlt, -⟩ := Node.slot_ne_zero hne
  have hdlt := (h.bounded p.1 (by rw [hd]; decide)).2
  simp only [Finset.coe_biUnion, Finset.coe_image, Set.mem_iUnion, Set.mem_image]
  exact ⟨p.1, by simpa using hdlt, p.2, by simpa using hlt, rfl⟩

theorem finite_kids (hi : 0 < i) : (fiber (up F) i).Finite := by
  refine (Finset.finite_toSet (Finset.range sb.ninodes)).subset fun c hc => ?_
  have hne : (F c).up ≠ 0 := by
    rw [show (F c).up = i from hc]
    exact Nat.ne_of_gt hi
  obtain ⟨hd, -⟩ := Node.up_ne_zero hne
  simpa using (h.bounded c (by rw [hd]; decide)).2

theorem unlinked (hi : 0 < i) (hn : (F i).nlink = 0) :
    fiber (slot F) i = ∅ ∧ fiber (up F) i = ∅ := by
  have hle := h.le i hi
  rwa [hn, show (0 : BitVec 16).toNat = 0 from rfl, Nat.le_zero, Nat.add_eq_zero_iff,
    Set.ncard_eq_zero (h.finite_names hi), Set.ncard_eq_zero (h.finite_kids hi)] at hle

theorem not_named (hi : 0 < i) (hn : (F i).nlink = 0) (p : ℕ × ℕ) :
    slot F p ≠ i := Set.eq_empty_iff_forall_notMem.mp (h.unlinked hi hn).1 p

theorem not_above (hi : 0 < i) (hn : (F i).nlink = 0) (c : ℕ) :
    up F c ≠ i := Set.eq_empty_iff_forall_notMem.mp (h.unlinked hi hn).2 c

theorem pos_of_dir (hd : (F d).type = T_DIR) : 0 < d :=
  (h.bounded d (by rw [hd]; decide)).1

theorem linked_of_slot (hp : (F (slot F (d, k))).type = T_DIR) :
    (F d).type = T_DIR ∧ (F d).nlink ≠ 0 := by
  have hne : (F d).slot k ≠ 0 := Nat.ne_of_gt (h.pos_of_dir hp)
  obtain ⟨hd, -⟩ := Node.slot_ne_zero hne
  refine ⟨hd, fun hn => ?_⟩
  by_cases hs : strict
  · obtain ⟨hup, -⟩ := h.owner _ hp
    have hup' : up F (slot F (d, k)) ≠ 0 := by
      rw [hup]
      exact Nat.ne_of_gt (h.pos_of_dir hd)
    refine h.childless hs d hd hn _ hp (h.ne_of_slot hp) ?_
    exact (Node.up_ne_zero hup').2.2.symm.trans hup
  · exact hne (h.empty hs d hd hn k)

omit h

theorem slot_file (h : n.type ≠ T_DIR) : n.slot = fun _ => 0 :=
  funext fun _ => if_neg fun hn => h hn.1

theorem up_file (h : n.type ≠ T_DIR) : n.up = 0 := if_neg fun hn => h hn.1

theorem setFile (h : Tree sb strict F) (hold : (F i).type ≠ T_DIR) (hnew : g.type ≠ T_DIR)
    (hn : g.nlink = (F i).nlink) (ht : g.type ≠ 0 → (F i).type ≠ 0)
    (hblank : g.type = 0 → g.nlink = 0) : Tree sb strict (update F i g) := by
  have hslot : slot (update F i g) = slot F :=
    slot_update_same (by rw [slot_file hold, slot_file hnew])
  have hup : up (update F i g) = up F := by
    rw [up_update, up_file hnew, ← up_file hold]
    exact update_eq_self i (up F)
  have hself : ∀ {j}, (update F i g j).type = T_DIR →
      update F i g j = F j ∧ (F j).type = T_DIR := by
    intro j hj
    rcases eq_or_ne j i with rfl | hji
    · rw [update_self] at hj
      exact absurd hj hnew
    · rw [update_of_ne hji] at hj ⊢
      exact ⟨rfl, hj⟩
  have hnlink : ∀ j, (update F i g j).nlink = (F j).nlink := by
    intro j
    rcases eq_or_ne j i with rfl | hji
    · rw [update_self, hn]
    · rw [update_of_ne hji]
  have hdir : ∀ {j}, (F j).type = T_DIR → (update F i g j).type = T_DIR := by
    intro j hj
    have hji : j ≠ i := by
      rintro rfl
      exact hold hj
    rwa [update_of_ne hji]
  have hlinks : links (update F i g) = links F := by
    funext j
    rw [links, hslot, hup, links]
  refine of_sound (h.toShape.same hup (fun j hj => (hself hj).2) (fun p _ => by rw [hslot])
    (fun p _ => by rw [hslot])) (fun j => ?_) (fun c hc hs => ?_) (fun hs e he hen k => ?_)
    fun hs e he hen c hc hce => ?_
  · rw [hlinks]
    rcases eq_or_ne j i with rfl | hji
    · rw [update_self]
      refine ⟨fun h0 => h.bounded j (ht h0), hblank, fun h0 => absurd h0 hnew, hn ▸ h.small j,
        fun hj => hn ▸ h.le j hj, fun hj hs => hn ▸ h.ge j hj (hs.imp_right ?_)⟩
      exact fun h0 => absurd h0 hnew
    · rw [update_of_ne hji]
      exact h.sound_congr fun _ => rfl
  · obtain ⟨heq, hc'⟩ := hself hc
    rw [hnlink] at hs
    rw [heq]
    exact hdir (h.above c hc' hs)
  · obtain ⟨-, he'⟩ := hself he
    rw [hnlink] at hen
    rw [hslot]
    exact h.empty hs e he' hen k
  · obtain ⟨-, he'⟩ := hself he
    obtain ⟨heq, hc'⟩ := hself hc
    rw [hnlink] at hen
    rw [heq]
    exact h.childless hs e he' hen c hc' hce

theorem freeDir (h : Tree sb strict F) (hi : (F i).type = T_DIR) (hn : (F i).nlink = 0) :
    Tree sb strict (update F i {}) := by
  have hpos := h.pos_of_dir hi
  have hup : up (update F i {}) = up F := by
    have hold : (F i).up = 0 := if_neg fun hd => hd.2 hn
    rw [up_update, show (({} : Node).up) = 0 from up_file (by decide), ← hold]
    exact update_eq_self i (up F)
  have hother : ∀ {p : ℕ × ℕ}, p.1 ≠ i → slot (update F i {}) p = slot F p := by
    intro p hp
    rw [slot, update_of_ne hp, slot]
  have hgone : ∀ {p : ℕ × ℕ}, p.1 = i → slot (update F i {}) p = 0 := by
    intro p hp
    rw [slot, hp, update_self, slot_file (by decide)]
  have hself : ∀ {j}, (update F i {} j).type = T_DIR →
      j ≠ i ∧ update F i {} j = F j ∧ (F j).type = T_DIR := by
    intro j hj
    rcases eq_or_ne j i with rfl | hji
    · rw [update_self] at hj
      exact absurd hj (by decide)
    · rw [update_of_ne hji] at hj ⊢
      exact ⟨hji, rfl, hj⟩
  -- no directory is named in it
  have hkeep : ∀ p, (F (slot F p)).type = T_DIR → p.1 ≠ i := by
    rintro p hp rfl
    exact (h.linked_of_slot hp).2 hn
  have hsub : ∀ {j}, 0 < j → fiber (slot (update F i {})) j ⊆ fiber (slot F) j := by
    intro j hj p hp
    have hpi : p.1 ≠ i := fun he => Nat.ne_of_lt hj ((hgone he).symm.trans hp)
    exact (hother hpi).symm.trans hp
  have hle : ∀ {j}, 0 < j → links (update F i {}) j ≤ links F j := by
    intro j hj
    rw [links, links, hup]
    exact Nat.add_le_add_right (Set.ncard_le_ncard (hsub hj) (h.finite_names hj)) _
  refine of_sound (h.toShape.same hup (fun j hj => (hself hj).2.2) (fun p hp => hother (hkeep p hp))
    fun p hp => hother fun he => ?_) (fun j => ?_) (fun c hc hs => ?_) (fun hs e he hen k => ?_)
    fun hs e he hen c hc hce => ?_
  · rw [hgone he] at hp
    exact h.zero (hself hp).2.2
  · rcases eq_or_ne j i with rfl | hji
    · rw [update_self]
      refine ⟨fun h0 => absurd rfl h0, fun _ => rfl, fun h0 => absurd h0 (by decide),
        Nat.zero_le _, fun hj => (hle hj).trans ?_, fun _ _ => Nat.zero_le _⟩
      have hj' := h.le j hj
      rwa [hn] at hj'
    · rw [update_of_ne hji]
      refine h.sound_of_le hle fun hj hs => ?_
      have heq : fiber (slot (update F i {})) j = fiber (slot F) j := by
        refine (hsub hj).antisymm fun p hp => ?_
        have hp' : slot F p = j := hp
        have hpi : p.1 ≠ i := by
          rintro rfl
          rcases hs with hs | hs
          · have hz : slot F (p.1, p.2) = 0 := h.empty hs p.1 hi hn p.2
            exact Nat.ne_of_lt hj (hz.symm.trans hp')
          · exact hkeep p (hp' ▸ hs) rfl
        exact (hother hpi).trans hp
      rw [links, links, heq, hup]
  · obtain ⟨hci, heq, hc'⟩ := hself hc
    rw [heq] at hs ⊢
    have hne : (F c).parent ≠ i := by
      rcases hs with hs | hs
      · exact h.childless hs i hi hn c hc' hci
      · have hupc : up F c = (F c).parent := if_pos ⟨hc', hs⟩
        rw [← hupc]
        exact h.not_above hpos hn c
    rw [update_of_ne hne]
    exact h.above c hc' hs
  · obtain ⟨hei, heq, he'⟩ := hself he
    rw [heq] at hen
    rw [hother hei]
    exact h.empty hs e he' hen k
  · obtain ⟨-, heq', he'⟩ := hself he
    obtain ⟨-, heq, hc'⟩ := hself hc
    rw [heq'] at hen
    rw [heq]
    exact h.childless hs e he' hen c hc' hce

theorem withEntry_dir : withEntry F i g d f d = f := update_self _ _ _

theorem withEntry_inode (h : i ≠ d) : withEntry F i g d f i = g := by
  rw [withEntry, update_of_ne h, update_self]

theorem withEntry_of_ne {j : ℕ} (hd : j ≠ d) (hi : j ≠ i) : withEntry F i g d f j = F j := by
  rw [withEntry, update_of_ne hd, update_of_ne hi]

theorem slot_withEntry (hid : i ≠ d) (hg : g.slot = (F i).slot)
    (hf : f.slot = update (F d).slot k de.inum.toNat) :
    slot (withEntry F i g d f) = update (slot F) (d, k) de.inum.toNat := by
  rw [withEntry, slot_update (F := update F i g) (v := de.inum.toNat),
    slot_update_same hg]
  rw [update_of_ne hid.symm]
  exact hf

theorem up_withEntry (hid : i ≠ d) (hf : f.up = (F d).up) :
    up (withEntry F i g d f) = update (up F) i g.up := by
  rw [withEntry, up_update, up_update, hf]
  refine update_eq_self_iff.mpr ?_
  rw [update_of_ne hid.symm, up]

theorem entry_sound (h : Tree sb strict F) (hid : i ≠ d)
    (hf : Sound sb strict d f (links (withEntry F i g d f) d))
    (hg : Sound sb strict i g (links (withEntry F i g d f) i))
    (hrest : ∀ j, 0 < j → j ≠ d → j ≠ i → links (withEntry F i g d f) j = links F j) (j : ℕ) :
    Sound sb strict j (withEntry F i g d f j) (links (withEntry F i g d f) j) := by
  rcases eq_or_ne j d with rfl | hjd
  · rwa [withEntry_dir]
  · rcases eq_or_ne j i with rfl | hji
    · rwa [withEntry_inode hid]
    · rw [withEntry_of_ne hjd hji]
      exact h.sound_congr fun hj => hrest j hj hjd hji

theorem relink (h : Tree sb strict F) (hd : (F d).type = T_DIR) (hk : 2 ≤ k ∧ k ≤ (F d).nents)
    (hf : SetEnt (F d) k de f) (hold : (F i).type ≠ T_DIR) (hnew : g.type ≠ T_DIR)
    (ht : g.type ≠ 0) (hi : 0 < i) (hlt : i < sb.ninodes) (hsmall : g.nlink.toNat ≤ maxLink.toNat)
    (hde : de.inum ≠ 0 → namecmp dot de.name ≠ 0 ∧ namecmp dotdot de.name ≠ 0)
    (hfrom : slot F (d, k) = 0 ∨ slot F (d, k) = i) (hto : de.inum.toNat = 0 ∨ de.inum.toNat = i)
    (hcount : (fiber (update (slot F) (d, k) de.inum.toNat) i).ncard +
      (F i).nlink.toNat = (fiber (slot F) i).ncard + g.nlink.toNat)
    (hdead : ¬ strict → (F d).nlink = 0 → de.inum.toNat = 0) :
    Tree sb strict (withEntry F i g d f) := by
  have hid : i ≠ d := by
    rintro rfl
    exact hold hd
  have hdots := h.dots d hd
  have hslot : slot (withEntry F i g d f) = update (slot F) (d, k) de.inum.toNat :=
    slot_withEntry hid (by rw [slot_file hold, slot_file hnew]) (hf.slot hd hk)
  have hparent := hf.parent hk.1 hdots.two
  -- directories are as before, but for the entry
  have hdir : ∀ {j}, (withEntry F i g d f j).type = T_DIR → (F j).type = T_DIR ∧
      (withEntry F i g d f j).nlink = (F j).nlink ∧ (withEntry F i g d f j).parent = (F j).parent := by
    intro j hj
    rcases eq_or_ne j d with rfl | hjd
    · rw [withEntry_dir]
      exact ⟨hd, hf.nlink, hparent⟩
    · rcases eq_or_ne j i with rfl | hji
      · rw [withEntry_inode hid] at hj
        exact absurd hj hnew
      · rw [withEntry_of_ne hjd hji] at hj ⊢
        exact ⟨hj, rfl, rfl⟩
  have hdir' : ∀ {j}, (F j).type = T_DIR → (withEntry F i g d f j).type = T_DIR := by
    intro j hj
    rcases eq_or_ne j d with rfl | hjd
    · rw [withEntry_dir, hf.type, hj]
    · have hji : j ≠ i := by
        rintro rfl
        exact hold hj
      rwa [withEntry_of_ne hjd hji]
  have hup : up (withEntry F i g d f) = up F := by
    rw [up_withEntry hid (Node.up_congr hf.type (by rw [hf.nlink]) hparent), up_file hnew]
    exact update_eq_self_iff.mpr (up_file hold).symm
  have hlinks : ∀ {j}, 0 < j → j ≠ i → links (withEntry F i g d f) j = links F j := by
    intro j hj hji
    rw [links, hslot, hup, fiber_update_same, links]
    · rcases hfrom with he | he <;> rw [he] <;> omega
    · rcases hto with he | he <;> rw [he] <;> omega
  have hslots : ∀ p, p ≠ (d, k) → slot (withEntry F i g d f) p = slot F p := by
    intro p hp
    rw [hslot, update_of_ne hp]
  refine of_sound (h.toShape.same hup (fun j hj => (hdir hj).1) (fun p hp => hslots p ?_)
    fun p hp => hslots p ?_) (h.entry_sound hid ?_ ?_ fun j hj _ hji => hlinks hj hji)
    (fun c hc hs => ?_) (fun hs e he hen k' => ?_) fun hs e he hen c hc hce => ?_
  · rintro rfl
    rcases hfrom with he | he <;> rw [he] at hp
    · exact h.zero hp
    · exact hold hp
  · rintro rfl
    rw [hslot, update_self] at hp
    rcases hto with he | he <;> rw [he] at hp
    · exact h.zero (hdir hp).1
    · exact hold (hdir hp).1
  · refine h.sound_dir hd hf.type (hdots.setEnt hk hf hde) ?_ ?_ <;> rw [hf.nlink]
    · exact h.small d
    · rw [hlinks (h.pos_of_dir hd) hid.symm]
  · refine ⟨fun _ => ⟨hi, hlt⟩, fun h0 => absurd h0 ht, fun h0 => absurd h0 hnew, hsmall,
      fun hj => ?_, fun hj hs => ?_⟩
    · have := h.le i hj
      rw [links, hslot, hup]
      omega
    · have := h.ge i hj (hs.imp_right fun hj' => absurd hj' hnew)
      rw [links, hslot, hup]
      omega
  · obtain ⟨hc', hn, hp⟩ := hdir hc
    rw [hn] at hs
    rw [hp]
    exact hdir' (h.above c hc' hs)
  · obtain ⟨he', hn, -⟩ := hdir he
    rw [hn] at hen
    rw [hslot, update_apply]
    split
    · rename_i hek
      obtain ⟨rfl, rfl⟩ := Prod.mk.inj hek
      exact hdead hs hen
    · exact h.empty hs e he' hen k'
  · obtain ⟨he', hn, -⟩ := hdir he
    obtain ⟨hc', -, hp⟩ := hdir hc
    rw [hn] at hen
    rw [hp]
    exact h.childless hs e he' hen c hc' hce

theorem toNat_link (hle : n.nlink.toNat ≤ maxLink.toNat) (hne : n.nlink ≠ maxLink) :
    (n.nlink + 1).toNat = n.nlink.toNat + 1 ∧ (n.nlink + 1).toNat ≤ maxLink.toNat := by
  have hmax : maxLink.toNat = 32767 := rfl
  have hne' : n.nlink.toNat ≠ maxLink.toNat := fun he => hne (eq_of_toNat_eq he)
  rw [hmax] at hle hne' ⊢
  rw [toNat_add, show (1 : BitVec 16).toNat = 1 from rfl]
  omega

theorem toNat_unlink (h : n.nlink.toNat ≠ 0) : (n.nlink - 1).toNat + 1 = n.nlink.toNat := by
  have := n.nlink.isLt
  rw [toNat_sub, show (1 : BitVec 16).toNat = 1 from rfl]
  omega

theorem slot_vacant (h : Dots d (F d)) (hd : 0 < d) (hk : (F d).vacant k) : slot F (d, k) = 0 := by
  obtain ⟨-, hle⟩ := h.vacant hd hk
  rcases hk with ⟨-, h0⟩ | hk
  · rw [slot, Node.slot]
    split
    · rw [h0]
      rfl
    · rfl
  · refine if_neg fun hn => ?_
    have hnents : (F d).nents = k := by
      rw [Node.nents, ← hk]
      exact Nat.mul_div_cancel _ (by decide)
    exact absurd hn.2.2 (by rw [hnents]; exact lt_irrefl _)

theorem slot_lookup (h : Dots d (F d)) (hd : (F d).type = T_DIR) (hk : (F d).lookup name = some k)
    (hdot : namecmp name dot ≠ 0) (hdotdot : namecmp name dotdot ≠ 0) :
    (2 ≤ k ∧ k ≤ (F d).nents) ∧ slot F (d, k) = ((F d).ent k).inum.toNat := by
  have htwo := h.two_le hk hdot hdotdot
  obtain ⟨hlt, -⟩ := Node.of_lookup_some hk
  exact ⟨⟨htwo, Nat.le_of_lt hlt⟩, if_pos ⟨hd, htwo, hlt⟩⟩

theorem enter (h : Tree sb strict F) (hd : (F d).type = T_DIR) (hl : ¬ strict → (F d).nlink ≠ 0)
    (hname : (F d).lookup name = none) (hk : (F d).vacant k)
    (hf : SetEnt (F d) k (newEnt name i) f) (hi : 0 < i) (hlt : i < sb.ninodes)
    (hold : (F i).type ≠ T_DIR) (ht : g.type ≠ 0) (hg : g.type ≠ T_DIR)
    (hmax : (F i).nlink ≠ maxLink) (hn : g.nlink = (F i).nlink + 1) :
    Tree sb strict (withEntry F i g d f) := by
  have hdots := h.dots d hd
  have hpos := h.pos_of_dir hd
  have hzero := slot_vacant hdots hpos hk
  obtain ⟨hadd, hsmall⟩ := toNat_link (h.small i) hmax
  have hinum : (newEnt name i).inum.toNat = i := newEnt_inum hlt
  refine h.relink hd (hdots.vacant hpos hk) hf hold hg ht hi hlt (by rw [hn]; exact hsmall)
    (fun _ => hdots.absent hpos hname) (.inl hzero) (.inr hinum) ?_ fun hs h0 => absurd h0 (hl hs)
  have hne : slot F (d, k) ≠ i := by
    rw [hzero]
    exact Nat.ne_of_lt hi
  rw [hinum, ncard_fiber_insert hne (h.finite_names hi), hn, hadd]
  omega

theorem unlink (h : Tree sb strict F) (hd : (F d).type = T_DIR)
    (hk : (F d).lookup name = some k) (hdot : namecmp name dot ≠ 0)
    (hdotdot : namecmp name dotdot ≠ 0) (hi : ((F d).ent k).inum.toNat = i)
    (hf : SetEnt (F d) k emptyEnt f) (hold : (F i).type ≠ T_DIR) :
    Tree sb strict (withEntry F i { F i with nlink := (F i).nlink - 1 } d f) := by
  obtain ⟨hrange, hslot⟩ := slot_lookup (h.dots d hd) hd hk hdot hdotdot
  have hentry : slot F (d, k) = i := hslot.trans hi
  have hpos : 0 < i := by
    obtain ⟨-, hne, -⟩ := Node.of_lookup_some hk
    rw [← hi]
    exact Nat.pos_of_ne_zero fun h0 => hne (eq_of_toNat_eq h0)
  have hn : (F i).nlink ≠ 0 := fun h0 => h.not_named hpos h0 _ hentry
  have htype : (F i).type ≠ 0 := fun h0 => hn (h.blank i h0)
  have hsub := toNat_unlink (n := F i) fun h0 => hn (eq_of_toNat_eq h0)
  have hsmall := h.small i
  refine h.relink hd hrange hf hold hold htype hpos (h.bounded i htype).2 ?_ (fun h0 => absurd rfl h0)
    (.inr hentry) (.inl rfl) ?_ fun _ _ => rfl
  · dsimp only
    omega
  · have hcard := ncard_fiber_erase (x := 0) hentry (Nat.ne_of_lt hpos) (h.finite_names hpos)
    rw [show emptyEnt.inum.toNat = 0 from rfl]
    dsimp only
    omega

/-- A directory `i` is made in `d` or removed from it: the entry `k` of `d` and the `..` of `i`
change together, between nothing and `i`, and between nothing and `d`. -/
structure Graft (F : ℕ → Node) (i : ℕ) (g : Node) (d k : ℕ) (f : Node) (v w : ℕ) : Prop where
  ne : i ≠ d
  type : f.type = (F d).type
  parent : f.parent = (F d).parent
  before : (F d).nlink ≠ 0
  after : f.nlink ≠ 0
  dir : (F i).type = T_DIR → g.type = T_DIR
  slot : slot (withEntry F i g d f) = update (slot F) (d, k) v
  up : up (withEntry F i g d f) = update (up F) i w
  entry : ∀ j, 0 < j → j ≠ i → Fs.slot F (d, k) ≠ j ∧ v ≠ j
  dotdot : ∀ j, 0 < j → j ≠ d → Fs.up F i ≠ j ∧ w ≠ j

namespace Graft
variable {v w : ℕ} (hg : Graft F i g d k f v w)
include hg

theorem node (hj : j ≠ i) : (withEntry F i g d f j).type = (F j).type ∧
    (withEntry F i g d f j).parent = (F j).parent ∧
    ((withEntry F i g d f j).nlink = 0 ↔ (F j).nlink = 0) := by
  rcases eq_or_ne j d with rfl | hjd
  · rw [withEntry_dir]
    exact ⟨hg.type, hg.parent, iff_of_false hg.after hg.before⟩
  · rw [withEntry_of_ne hjd hj]
    exact ⟨rfl, rfl, Iff.rfl⟩

theorem toDir (hj : (F j).type = T_DIR) : (withEntry F i g d f j).type = T_DIR := by
  rcases eq_or_ne j i with rfl | hji
  · rw [withEntry_inode hg.ne]
    exact hg.dir hj
  · rw [(hg.node hji).1, hj]

theorem names (hj : 0 < j) (hji : j ≠ i) :
    fiber (Fs.slot (withEntry F i g d f)) j = fiber (Fs.slot F) j := by
  rw [hg.slot]
  exact fiber_update_same (hg.entry j hj hji).1 (hg.entry j hj hji).2

theorem kids (hj : 0 < j) (hjd : j ≠ d) :
    fiber (Fs.up (withEntry F i g d f)) j = fiber (Fs.up F) j := by
  rw [hg.up]
  exact fiber_update_same (hg.dotdot j hj hjd).1 (hg.dotdot j hj hjd).2

theorem tree (h : Tree sb strict F) (hshape : Shape (withEntry F i g d f))
    (hsd : Sound sb strict d f (links (withEntry F i g d f) d))
    (hsi : Sound sb strict i g (links (withEntry F i g d f) i))
    (habove : strict ∨ g.nlink ≠ 0 → (F g.parent).type = T_DIR)
    (hempty : ¬ strict → g.nlink = 0 → ∀ k, Fs.slot F (i, k) = 0)
    (hkids : strict → g.nlink = 0 → Childless F i)
    (hkid : strict → ∀ e, (F e).type = T_DIR → (F e).nlink = 0 → g.parent ≠ e) :
    Tree sb strict (withEntry F i g d f) := by
  have hlive : ∀ {e}, (withEntry F i g d f e).nlink = 0 → e ≠ d := by
    rintro e he rfl
    rw [withEntry_dir] at he
    exact hg.after he
  refine of_sound hshape (h.entry_sound hg.ne hsd hsi fun j hj hjd hji => ?_) (fun c hc hs => ?_)
    (fun hs e he hen k' => ?_) fun hs e he hen c hc hce => ?_
  · rw [links, hg.names hj hji, hg.kids hj hjd, links]
  · rcases eq_or_ne c i with rfl | hci
    · rw [withEntry_inode hg.ne] at hs ⊢
      exact hg.toDir (habove hs)
    · obtain ⟨htype, hparent, hzero⟩ := hg.node hci
      rw [hparent]
      exact hg.toDir (h.above c (htype ▸ hc) (hs.imp_right (mt hzero.mpr)))
  · rw [hg.slot, update_of_ne fun heq => hlive hen (congrArg Prod.fst heq)]
    rcases eq_or_ne e i with rfl | hei
    · rw [withEntry_inode hg.ne] at hen
      exact hempty hs hen k'
    · obtain ⟨htype, -, hzero⟩ := hg.node hei
      exact h.empty hs e (htype ▸ he) (hzero.mp hen) k'
  · rcases eq_or_ne e i with rfl | hei
    · obtain ⟨htype, hparent, -⟩ := hg.node hce
      rw [withEntry_inode hg.ne] at hen
      rw [hparent]
      exact hkids hs hen c (htype ▸ hc) hce
    · obtain ⟨htype, -, hzero⟩ := hg.node hei
      have he' : (F e).type = T_DIR := htype ▸ he
      rcases eq_or_ne c i with rfl | hci
      · rw [withEntry_inode hg.ne]
        exact hkid hs e he' (hzero.mp hen)
      · obtain ⟨htype', hparent, -⟩ := hg.node hci
        rw [hparent]
        exact h.childless hs e he' (hzero.mp hen) c (htype' ▸ hc) hce

end Graft

theorem mkdir (h : Tree sb strict F) (hd : (F d).type = T_DIR) (hl : (F d).nlink ≠ 0)
    (hmax : (F d).nlink ≠ maxLink) (hname : (F d).lookup name = none) (hk : (F d).vacant k)
    (hf : SetEnt { F d with nlink := (F d).nlink + 1 } k (newEnt name i) f) (hi : 0 < i)
    (hlt : i < sb.ninodes) (hfree : (F i).type = 0) (hg : g.type = T_DIR) (hn : g.nlink = 1)
    (hents : g.nents = 2) (hdot : g.ent 0 = newEnt dot i) (hdotdot : g.ent 1 = newEnt dotdot d) :
    Tree sb strict (withEntry F i g d f) := by
  have hdots := h.dots d hd
  obtain ⟨hpos, hdlt⟩ := h.bounded d (by rw [hd]; decide)
  have hrange := hdots.vacant hpos hk
  have hzero := slot_vacant hdots hpos hk
  have hold : (F i).type ≠ T_DIR := by
    rw [hfree]
    decide
  have hnone := h.blank i hfree
  have hid : i ≠ d := by
    rintro rfl
    exact hold hd
  have hroot : i ≠ ROOTINO := by
    rintro rfl
    refine hold (Shape.dir_of_up (F := F) ?_)
    rw [h.root]
    decide
  obtain ⟨hadd, hsmall⟩ := toNat_link (h.small d) hmax
  have hpar : g.parent = d := by
    rw [Node.parent, hdotdot, newEnt_inum hdlt]
  have hfl : f.nlink = (F d).nlink + 1 := hf.nlink
  have hfl0 : f.nlink ≠ 0 := by
    intro h0
    rw [hfl] at h0
    rw [h0] at hadd
    exact absurd hadd (Nat.succ_ne_zero _).symm
  have hupi : up F i = 0 := up_file hold
  have hlinked : g.nlink ≠ 0 := by
    rw [hn]
    decide
  have hgraft : Graft F i g d k f i d := by
    have hfpar : f.parent = (F d).parent := hf.parent hrange.1 hdots.two
    refine ⟨hid, hf.type, hfpar, hl, hfl0, fun _ => hg, ?_, ?_, fun j hj hji => ?_, fun j hj hjd => ?_⟩
    · have hgslot : g.slot = (F i).slot := by
        rw [slot_file hold]
        exact funext fun j => if_neg fun hj => by
          rw [hents] at hj
          omega
      have hfs : f.slot = update (F d).slot k (newEnt name i).inum.toNat := hf.slot hd hrange
      rw [slot_withEntry hid hgslot hfs, newEnt_inum hlt]
    · have hgu : g.up = d := by
        rw [Node.up, if_pos ⟨hg, hlinked⟩, hpar]
      rw [up_withEntry hid (Node.up_congr hf.type (iff_of_false hfl0 hl) hfpar), hgu]
    · exact ⟨by rw [hzero]; exact Nat.ne_of_lt hj, hji.symm⟩
    · exact ⟨by rw [hupi]; exact Nat.ne_of_lt hj, hjd.symm⟩
  -- the counts of the new directory and of its parent
  have hcounti : links (withEntry F i g d f) i = 1 := by
    obtain ⟨h1, h2⟩ := h.unlinked hi hnone
    rw [links, hgraft.kids hi hid, hgraft.slot,
      ncard_fiber_insert (h.not_named hi hnone _) (h.finite_names hi), h1, h2, Set.ncard_empty,
      Set.ncard_empty]
  have hcountd : links (withEntry F i g d f) d = links F d + 1 := by
    have hne : up F i ≠ d := by
      rw [hupi]
      exact Nat.ne_of_lt hpos
    rw [links, hgraft.names hpos hid.symm, hgraft.up, ncard_fiber_insert hne (h.finite_kids hpos),
      ← Nat.add_assoc]
    rfl
  refine hgraft.tree h (h.toShape.insert hgraft.slot hgraft.up (Nat.ne_of_gt hi) hroot hid.symm
    (fun j hji hj => (hgraft.node hji).1 ▸ hj) hzero (h.not_named hi hnone) (h.not_above hi hnone))
    ?_ ?_ (fun _ => by rw [hpar]; exact hd) (fun _ h0 => absurd h0 hlinked)
    (fun _ h0 => absurd h0 hlinked) fun _ e _ hen he => ?_
  · have hfdots : Dots d f :=
      (hdots.setNlink ((F d).nlink + 1)).setEnt hrange hf fun _ => hdots.absent hpos hname
    refine h.sound_dir hd hf.type hfdots (hfl ▸ hsmall) ?_
    rw [hcountd, hfl, hadd]
    omega
  · rw [hcounti]
    refine ⟨fun _ => ⟨hi, hlt⟩, fun h0 => ?_, fun _ => ?_, ?_, fun _ => ?_, fun _ _ => ?_⟩
    · rw [hg] at h0
      exact absurd h0 (by decide)
    · exact dots_new hlt hpos hdlt hents hdot hdotdot
    all_goals
      rw [hn]
      decide
  · rw [← he, hpar] at hen
    exact hl hen

theorem slot_bare (hbare : (F i).bare) (k : ℕ) : slot F (i, k) = 0 := by
  rw [slot, Node.slot]
  split
  · rename_i hk
    rw [hbare k hk.2.1 hk.2.2]
    rfl
  · rfl

theorem count_of_bare (h : Tree sb strict F) (hi : (F i).type = T_DIR) (hbare : (F i).bare)
    (hentry : slot F (d, k) = i) :
    (fiber (slot F) i).ncard = 1 ∧ (fiber (up F) i).ncard = 0 ∧ (F i).nlink.toNat = 1 := by
  have hpos := h.pos_of_dir hi
  have hnames : fiber (slot F) i = {(d, k)} := by
    ext p
    refine ⟨fun hp => ?_, fun hp => ?_⟩
    · have hp' : slot F p = i := hp
      exact h.once p (d, k) (hp'.trans hentry.symm) (hp' ▸ hi)
    · rw [Set.mem_singleton_iff.mp hp]
      exact hentry
  -- a directory in it would have an entry in it
  have hkids : fiber (up F) i = ∅ := by
    refine Set.eq_empty_of_forall_notMem fun c hc => ?_
    have hc' : up F c = i := hc
    have hroot : c ≠ ROOTINO := by
      rintro rfl
      have := (h.owner (d, k) (hentry ▸ hi)).2
      rw [hentry, ← hc', h.root] at this
      exact this rfl
    obtain ⟨k', hk'⟩ := h.entry c (by rw [hc']; exact Nat.ne_of_gt hpos) hroot
    rw [hc'] at hk'
    have hdir : (F c).type = T_DIR :=
      Shape.dir_of_up (by rw [hc']; exact Nat.ne_of_gt hpos)
    rw [← hk', slot_bare hbare] at hdir
    exact h.zero hdir
  have hle := h.le i hpos
  have hge := h.ge i hpos (.inr hi)
  rw [hnames, hkids, Set.ncard_singleton, Set.ncard_empty] at hle hge
  exact ⟨by rw [hnames, Set.ncard_singleton], by rw [hkids, Set.ncard_empty],
    Nat.le_antisymm hge hle⟩

theorem two_le_nlink (h : Tree sb strict F) (hp : (F (slot F (d, k))).type = T_DIR) :
    2 ≤ (F d).nlink.toNat := by
  obtain ⟨hd, hl⟩ := h.linked_of_slot hp
  have hpos := h.pos_of_dir hd
  obtain ⟨hup, hroot⟩ := h.owner (d, k) hp
  have hle := h.le d hpos
  by_cases hdr : d = ROOTINO
  · subst hdr
    have htwo : ({slot F (ROOTINO, k), ROOTINO} : Set ℕ).ncard ≤ (fiber (up F) ROOTINO).ncard := by
      refine Set.ncard_le_ncard ?_ (h.finite_kids hpos)
      rintro c (rfl | rfl)
      · exact hup
      · exact h.root
    rw [Set.ncard_pair hroot] at htwo
    omega
  · have hupd : up F d ≠ 0 := by
      have hud : up F d = (F d).parent := if_pos ⟨hd, hl⟩
      rw [hud]
      exact Nat.ne_of_gt (h.pos_of_dir (h.above d hd (.inr hl)))
    obtain ⟨k', hk'⟩ := h.entry d hupd hdr
    have h1 : 0 < (fiber (slot F) d).ncard :=
      (Set.ncard_pos (h.finite_names hpos)).mpr ⟨_, hk'⟩
    have h2 : 0 < (fiber (up F) d).ncard := (Set.ncard_pos (h.finite_kids hpos)).mpr ⟨_, hup⟩
    omega

theorem rmdir (h : Tree sb strict F) (hd : (F d).type = T_DIR)
    (hk : (F d).lookup name = some k) (hdot : namecmp name dot ≠ 0)
    (hdotdot : namecmp name dotdot ≠ 0) (hi : ((F d).ent k).inum.toNat = i)
    (hf : SetEnt (F d) k emptyEnt f) (hold : (F i).type = T_DIR) (hbare : (F i).bare)
    (hstrict : strict → Childless F i) :
    Tree sb strict (withEntry F i { F i with nlink := (F i).nlink - 1 } d
      { f with nlink := f.nlink - 1 }) := by
  have hdots := h.dots d hd
  obtain ⟨hrange, hslot₀⟩ := slot_lookup hdots hd hk hdot hdotdot
  have hentry : slot F (d, k) = i := hslot₀.trans hi
  have hdirp : (F (slot F (d, k))).type = T_DIR := hentry ▸ hold
  have hid : i ≠ d := hentry ▸ h.ne_of_slot hdirp
  have hpos := h.pos_of_dir hd
  have hipos := h.pos_of_dir hold
  obtain ⟨hnames1, hkids0, hone⟩ := h.count_of_bare hold hbare hentry
  have htwo := h.two_le_nlink hdirp
  have hupi : up F i = d := by
    have := (h.owner (d, k) hdirp).1
    rwa [hentry] at this
  obtain ⟨-, hl⟩ := h.linked_of_slot hdirp
  set g : Node := { F i with nlink := (F i).nlink - 1 } with hg
  set f' : Node := { f with nlink := f.nlink - 1 } with hf'
  have hgn : g.nlink.toNat = 0 := by
    have := toNat_unlink (n := F i) (by omega)
    rw [hg]
    dsimp only
    omega
  have hgl : g.nlink = 0 := eq_of_toNat_eq hgn
  have hfn : f'.nlink.toNat + 1 = (F d).nlink.toNat := by
    rw [hf', ← hf.nlink]
    exact toNat_unlink (n := f) (by rw [hf.nlink]; omega)
  have hfl : f'.nlink ≠ 0 := by
    intro h0
    rw [h0, show (0 : BitVec 16).toNat = 0 from rfl] at hfn
    omega
  have hgraft : Graft F i g d k f' 0 0 := by
    have hfpar : f'.parent = (F d).parent := hf.parent hrange.1 hdots.two
    have htype : f'.type = (F d).type := hf.type
    refine ⟨hid, htype, hfpar, hl, hfl, id, ?_, ?_, fun j hj hji => ?_, fun j hj hjd => ?_⟩
    · have hfs : f'.slot = update (F d).slot k emptyEnt.inum.toNat := hf.slot hd hrange
      exact slot_withEntry hid (show g.slot = (F i).slot from rfl) hfs
    · have hgu : g.up = 0 := if_neg fun hn => hn.2 hgl
      rw [up_withEntry hid (Node.up_congr htype (iff_of_false hfl hl) hfpar), hgu]
    · exact ⟨by rw [hentry]; exact hji.symm, Nat.ne_of_lt hj⟩
    · exact ⟨by rw [hupi]; exact hjd.symm, Nat.ne_of_lt hj⟩
  -- the entry was a name of `i`, and the `..` of `i` a link to `d`
  have hcounti : links (withEntry F i g d f') i = 0 := by
    have herase := ncard_fiber_erase (x := 0) hentry (Nat.ne_of_lt hipos) (h.finite_names hipos)
    rw [links, hgraft.kids hipos hid, hgraft.slot]
    omega
  have hcountd : links (withEntry F i g d f') d + 1 = links F d := by
    have herase := ncard_fiber_erase (x := 0) hupi (Nat.ne_of_lt hpos) (h.finite_kids hpos)
    rw [links, links, hgraft.names hpos hid.symm, hgraft.up]
    omega
  have hdir : ∀ j, (withEntry F i g d f' j).type = T_DIR → (F j).type = T_DIR := fun j hj => by
    rcases eq_or_ne j i with rfl | hji
    · exact hold
    · exact (hgraft.node hji).1 ▸ hj
  refine hgraft.tree h (h.toShape.erase hgraft.slot hgraft.up hentry hold hdir) ?_ ?_
    (fun _ => h.above i hold (.inr fun h0 => ?_)) (fun _ _ => slot_bare hbare)
    (fun hs _ => hstrict hs) fun hs e he hen => h.childless hs e he hen i hold fun hie => ?_
  · have hfdots : Dots d f' := (hdots.setEnt hrange hf fun h0 => absurd rfl h0).setNlink _
    have hsmall := h.small d
    exact h.sound_dir hd hgraft.type hfdots (by omega) (by omega)
  · rw [hcounti]
    exact ⟨h.bounded i, fun _ => hgl, fun _ => (h.dots i hold).setNlink _, by rw [hgn]; exact Nat.zero_le _,
      fun _ => Nat.zero_le _, fun _ _ => hgn.le⟩
  · rw [h0, show (0 : BitVec 16).toNat = 0 from rfl] at hone
    omega
  · rw [← hie] at hen
    rw [hen, show (0 : BitVec 16).toNat = 0 from rfl] at hone
    omega

theorem change (h : Tree sb strict F) (hc : Change sb strict F G) : Tree sb strict G := by
  cases hc with
  | write bs ht hd => exact h.setFile hd hd rfl id fun h0 => absurd h0 ht
  | @free i hn =>
    by_cases hd : (F i).type = T_DIR
    · exact h.freeDir hd hn
    · exact h.setFile hd (by decide) hn.symm (fun h0 => absurd rfl h0) fun _ => rfl
  | enter hd hl hname hk hf hi hlt hold ht hg hmax hn =>
    exact h.enter hd hl hname hk hf hi hlt hold ht hg hmax hn
  | mkdir hd hl hmax hname hk hf hi hlt hfree hg hn hents hdot hdotdot =>
    exact h.mkdir hd hl hmax hname hk hf hi hlt hfree hg hn hents hdot hdotdot
  | unlink hd hk hdot hdotdot hi hf hold => exact h.unlink hd hk hdot hdotdot hi hf hold
  | rmdir hd hk hdot hdotdot hi hf hold hbare hstrict =>
    exact h.rmdir hd hk hdot hdotdot hi hf hold hbare hstrict

theorem changes (h : Tree sb strict F) (hc : Changes sb strict F G) : Tree sb strict G := by
  induction hc with
  | refl => exact h
  | tail _ hc ih => exact ih.change hc

end Tree

end Xv6.Fs
