import Xv6.Fs.CallSpec
import Xv6.Lib.Run

/-! Whole runs of the file system: every data block is owned once, in every state reached from a
consistent image. -/
namespace Xv6.Fs
open Bytes PartialRun Function
open Xv6.Log (BSIZE Block)

variable {sb : Superblock} {s t : State} {d : ℕ → Block} {p : Fin NPROC} {x : Proc}
  {cs : List (Fin NPROC × Call)}

/-- A consistent image: the blocks are accounted for, and directories name inodes of the disk. -/
structure Consistent (sb : Superblock) (d : ℕ → Block) : Prop where
  blocks : Wf sb (diskVol sb d)
  entries : ∀ i, InRange sb ((diskVol sb d).file i)

theorem cwds_boot (d : ℕ → Block) : cwds (boot d) = {⟨0, by decide⟩} := by
  obtain ⟨R, hR, hset⟩ := cwds_setProc { boot d with procs := fun _ => none } initproc
  have h0 : cwds { boot d with procs := fun _ => none } = 0 := Finset.sum_const_zero
  rw [h0] at hR
  obtain rfl : R = 0 := by rw [hR]; exact (zero_add R).symm
  exact hset (some { cwd := ⟨0, by decide⟩ })

theorem boot_itable_of_ne {ip : InodePtr} (h : ip ≠ ⟨0, by decide⟩) :
    (boot d).itable ip = {} := by
  unfold boot
  dsimp only
  rw [update_of_ne h]

theorem boot_inv (h : Consistent sb d) : Inv sb (cwds (boot d)) (boot d) := by
  have hvalid : ∀ ip, ((boot d).itable ip).valid = false := by
    intro ip
    rcases eq_or_ne ip ⟨0, by decide⟩ with rfl | hne
    · rfl
    · rw [boot_itable_of_ne hne]
  have hcached : ∀ ip i, ¬ Cached ((boot d).itable ip) i := by
    intro ip i hc
    have := hc.2.2
    rw [hvalid ip] at this
    cases this
  have href : ∀ ip, 0 < ((boot d).itable ip).ref → ip = ⟨0, by decide⟩ := by
    intro ip hr
    by_contra hne
    rw [boot_itable_of_ne hne] at hr
    exact absurd hr (lt_irrefl 0)
  refine ⟨⟨Nat.zero_le _, nofun⟩, h.blocks, fun ip jp hi hj _ => ?_, fun ip hr => ?_,
    fun ip i hc => absurd hc (hcached ip i), fun ip i hc => absurd hc (hcached ip i), fun ip => ?_,
    h.entries, nofun, fun _ _ => rfl⟩
  · rw [href ip hi, href jp hj]
  · rw [href ip hr]
    exact ⟨Nat.one_pos, sb.root_lt⟩
  · have hu : users (boot d) ip = 0 := Count.occ_eq_zero.mpr fun _ _ => nofun
    rw [hu, cwds_boot, zero_add]
    rcases eq_or_ne ip ⟨0, by decide⟩ with rfl | hne
    · rw [Multiset.count_singleton_self]
      rfl
    · rw [boot_itable_of_ne hne, Multiset.count_eq_zero.mpr fun hm =>
        hne (Multiset.mem_singleton.mp hm)]

theorem callable_proc {c : Call} (h : callable s p c = true) : ∃ x, s.procs p = some x := by
  refine Option.isSome_iff_exists.mp ?_
  cases c <;> simp_all [callable]

theorem step_returns (strict : Prop) {c : Fin NPROC × Call} (h : Inv sb (cwds s) s)
    (hs : step sb s c = some t) : ∃ x, s.procs c.1 = some x ∧
      Returns sb strict (NoSelf (files sb s) ∧
        Allowed strict (files sb s) (s.itable x.cwd).inum c.2) s t := by
  unfold step at hs
  split at hs
  · rename_i hc
    obtain ⟨x, hx⟩ := callable_proc hc
    refine ⟨x, hx, ?_⟩
    split at hs
    · rename_i r hr
      cases hs
      exact (call_sat strict c.2 h hx hc).ok hr
    · cases hs
  · cases hs

theorem run_inv (h : Consistent sb d) (hr : run (step sb) (boot d) cs = some s) :
    Inv sb (cwds s) s :=
  run_invariant (I := fun s => Inv sb (cwds s) s) (boot_inv h)
    (fun _ _ _ hi _ hs => by
      obtain ⟨x, -, hret⟩ := step_returns True hi hs
      exact hret.inv) (along_true _ cs) hr

/-- The bitmap, the inodes and the indirect blocks of a disk account for every data block. -/
structure BlocksOwned (sb : Superblock) (v : Vol) : Prop where
  stored : ∀ q ∈ places sb, v.place q ≠ 0 → sb.IsData (v.place q) ∧ v.bit (v.place q) = true
  once : ∀ q ∈ places sb, ∀ r ∈ places sb, v.place q ≠ 0 → v.place r = v.place q → r = q
  owner : ∀ b, sb.IsData b → v.bit b = true → ∃! q, q ∈ places sb ∧ v.place q = b
  full : ∀ i < sb.ninodes, (v.node i).type ≠ 0 →
    ∀ j, j * BSIZE < (v.node i).size.toNat → v.block i j ≠ 0

theorem Wf.blocksOwned {v : Vol} (h : Wf sb v) : BlocksOwned sb v where
  stored q hq hne := ⟨h.owned.data q hq hne, h.owned.bit_set hq hne⟩
  once q hq r hr hne he := h.owned.inj hq hr hne he
  owner b hb hbit := by
    have hocc := h.owned.once b hb
    rw [if_pos hbit] at hocc
    obtain ⟨q, hq, rfl⟩ := Count.occ_pos.mp (show 0 < Count.occ (places sb) v.place b by omega)
    exact ⟨q, ⟨hq, rfl⟩, fun r hr => h.owned.inj hq hr.1 hb.ne_zero hr.2⟩
  full := h.full

/-- In every state reached from a consistent image each data block in use is stored in exactly
one place, files have no holes, and no call frees a free block. -/
theorem blocks_owned (h : Consistent sb d) (hr : run (step sb) (boot d) cs = some s) :
    BlocksOwned sb (disk sb s) ∧
      ∀ p c, callable s p c = true → call sb p c s ≠ .error .freeingFreeBlock := by
  have hinv := run_inv h hr
  refine ⟨hinv.wf.blocksOwned, fun p c hc he => ?_⟩
  obtain ⟨x, hx⟩ := callable_proc hc
  exact ((call_sat True c hinv hx hc).error he).1 rfl

/-- A disk with eight inodes, one bitmap block and 30 data blocks. -/
def smallDisk : Superblock where
  size := 64
  nblocks := 30
  ninodes := 8
  nlog := 30
  logstart := 2
  inodestart := 32
  bmapstart := 33
  log_pos := by decide
  log_fits := by decide
  inodes_fit := by decide
  bmap_fits := by decide
  size_lt := by decide
  root_lt := by decide
  ninodes_le := by decide

def panicOf {α : Type} : Except Panic α → Option Panic
  | .error e => some e
  | .ok _ => none

theorem eq_of_panicOf {α : Type} {r : Except Panic α} {e : Panic} (h : panicOf r = some e) :
    r = .error e := by
  cases r with
  | error e' => rw [Option.some.inj h]
  | ok a => cases h

def dirInode (nlink : BitVec 16) (size b : BitVec 32) : Dinode :=
  { type := T_DIR, nlink := nlink, size := size, addrs := fun j => if j = 0 then b else 0 }

def dirBlock (es : List (ℕ × List Byte)) : Block := fun k =>
  (es.flatMap fun e => (newEnt e.2 e.1).bytes).getD k.val 0

def nameA : List Byte := [97]
def nameB : List Byte := [98]

/-- An image with the directories `/a` and `/a/b`. -/
def smallImage (b : ℕ) : Block :=
  if b = 32 then
    writeDinode (writeDinode (writeDinode (fun _ => 0) 1 (dirInode 2 48 34)) 2 (dirInode 2 48 35)) 3
      (dirInode 1 32 36)
  else if b = 33 then fun k => if k.val < 4 then 0xff else if k.val = 4 then 0x1f else 0
  else if b = 34 then dirBlock [(1, dot), (1, dotdot), (2, nameA)]
  else if b = 35 then dirBlock [(2, dot), (1, dotdot), (3, nameB)]
  else if b = 36 then dirBlock [(3, dot), (2, dotdot)]
  else fun _ => 0

def smallNode (i : ℕ) : Dinode :=
  if i = 1 then dirInode 2 48 34
  else if i = 2 then dirInode 2 48 35
  else if i = 3 then dirInode 1 32 36
  else {}

theorem Dinode.eq_of_fields {x y : Dinode} (h : x.type = y.type ∧ x.major = y.major ∧
    x.minor = y.minor ∧ x.nlink = y.nlink ∧ x.size = y.size ∧ ∀ j, x.addrs j = y.addrs j) :
    x = y := by
  obtain ⟨h1, h2, h3, h4, h5, h6⟩ := h
  cases x
  cases y
  simp only at h1 h2 h3 h4 h5
  rw [Dinode.mk.injEq]
  exact ⟨h1, h2, h3, h4, h5, funext h6⟩

theorem smallImage_node {i : ℕ} (hi : i < smallDisk.ninodes) :
    (diskVol smallDisk smallImage).node i = smallNode i := by
  have h : ∀ i < 8, readDinode (smallImage 32) i = smallNode i := by
    intro i hi
    refine Dinode.eq_of_fields ?_
    revert i
    decide +kernel
  have hi' : i < 8 := hi
  have hb : smallDisk.IBLOCK i = 32 := by
    simp only [Superblock.IBLOCK, IPB, BSIZE, dinodeSize, smallDisk]
    omega
  have hslot : i % IPB = i := by
    simp only [IPB, BSIZE, dinodeSize]
    omega
  rw [← h i hi', diskVol]
  dsimp only
  rw [if_pos hi, hb, hslot]

theorem place_dirInode {v : Vol} {i : ℕ} {n : BitVec 16} {size b : BitVec 32}
    (h : v.node i = dirInode n size b) (j : ℕ) :
    v.place (i, j) = if j = 0 then b.toNat else 0 := by
  have ht : (dirInode n size b).type ≠ 0 := by
    change T_DIR ≠ 0
    decide
  simp only [Vol.place, h, if_neg ht]
  by_cases hj : j ≤ NDIRECT
  · have hz : Fin.ofNat (NDIRECT + 1) j = 0 ↔ j = 0 := by
      rw [Fin.ext_iff, Fin.val_ofNat, Nat.mod_eq_of_lt (by omega)]
      rfl
    simp only [if_pos hj, dirInode, hz]
    split <;> rfl
  · rw [if_neg hj, if_pos (by rfl), if_neg (by omega)]

theorem place_free {v : Vol} {i : ℕ} (h : v.node i = {}) (j : ℕ) : v.place (i, j) = 0 := by
  simp [Vol.place, h]

def smallPlace : ℕ × ℕ → ℕ :=
  update (update (update (fun _ => 0) (1, 0) 34) (2, 0) 35) (3, 0) 36

theorem smallImage_place {q : ℕ × ℕ} (hq : q ∈ places smallDisk) :
    (diskVol smallDisk smallImage).place q = smallPlace q := by
  obtain ⟨i, j⟩ := q
  have hi : i < smallDisk.ninodes := by
    simp only [places, Finset.mem_product, Finset.mem_range] at hq
    exact hq.1
  have hnode := smallImage_node hi
  simp only [smallPlace, update_apply, Prod.mk.injEq]
  unfold smallNode at hnode
  split at hnode
  · rw [place_dirInode hnode]
    simp_all
  split at hnode
  · rw [place_dirInode hnode]
    simp_all
  split at hnode
  · rw [place_dirInode hnode]
    simp_all
  · rw [place_free hnode]
    simp_all

theorem smallImage_owned : Owned smallDisk (diskVol smallDisk smallImage).place
    (diskVol smallDisk smallImage).bit := by
  have h0 : Owned smallDisk (fun _ => 0) fun _ => false := by
    refine ⟨fun _ _ h => absurd rfl h, fun b hb => ?_⟩
    exact Count.occ_eq_zero.mpr fun _ _ => hb.ne_zero.symm
  have hmem : ∀ i < 8, (i, 0) ∈ places smallDisk := fun i hi => mem_places hi (by decide)
  have h3 : Owned smallDisk smallPlace _ :=
    ((h0.alloc (b := 34) (by decide) rfl (hmem 1 (by decide)) rfl).alloc (b := 35) (by decide)
      (by decide) (hmem 2 (by decide)) (by decide)).alloc (b := 36) (by decide) (by decide)
      (hmem 3 (by decide)) (by decide)
  have hbit : ∀ b < 64, 34 ≤ b → (diskVol smallDisk smallImage).bit b =
      update (update (update (fun _ => false) 34 true) 35 true) 36
        true b := by
    decide +kernel
  have h4 := h3.congr fun _ hq => smallImage_place hq
  refine ⟨h4.data, fun b hb => ?_⟩
  rw [hbit b hb.2 hb.1]
  exact h4.once b hb

theorem smallImage_consistent : Consistent smallDisk smallImage where
  blocks := by
    have hnode : ∀ i < 8, (smallNode i).size.toNat ≤ 48 ∧
        ((smallNode i).type ≠ 0 → smallPlace (i, 0) ≠ 0) := by decide
    refine ⟨smallImage_owned, fun i hi ht j hj => ?_, fun i hi _ => ?_, by decide +kernel⟩
    · rw [smallImage_node hi] at ht hj
      obtain ⟨hs, h0⟩ := hnode i hi
      obtain rfl : j = 0 := by
        simp only [BSIZE] at hj
        omega
      rw [Vol.block, smallImage_place (mem_places hi (by decide))]
      exact h0 ht
    · rw [smallImage_node hi]
      exact (hnode i hi).1.trans (by decide)
  entries i := by
    by_cases hi : i < 8
    · unfold InRange
      revert i
      decide +kernel
    · have hfree : (diskVol smallDisk smallImage).file i = {} :=
        if_pos (congrArg Dinode.type (if_neg hi))
      rw [hfree]
      exact inRange_empty rfl

def pathA : List Byte := [slash] ++ nameA
def pathAB : List Byte := pathA ++ [slash] ++ nameB

def someCalls : List (Fin NPROC × Call) :=
  [(initproc, .chdir (some pathA)), (initproc, .unlink (some pathAB))]

theorem blocks_owned_someCalls : ∃ s, run (step smallDisk) (boot smallImage) someCalls = some s ∧
    BlocksOwned smallDisk (disk smallDisk s) ∧ ∀ p c, callable s p c = true →
      call smallDisk p c s ≠ .error .freeingFreeBlock := by
  have hrun : (run (step smallDisk) (boot smallImage) someCalls).isSome = true := by
    decide +kernel
  obtain ⟨s, hs⟩ := Option.isSome_iff_exists.mp hrun
  exact ⟨s, hs, blocks_owned smallImage_consistent hs⟩

end Xv6.Fs
