import Xv6.Fs.LinkSpec
import Mathlib.Data.Finset.Card

/-! How many blocks the functions of the file system log. A block is counted when it is first
reserved; after that it may be logged any number of times. -/
namespace Xv6.Fs
open Bytes BitVec Finset
open Xv6.Log (BSIZE LOGSIZE MAXOPBLOCKS)

/-- With the blocks of `S` counted as logged, there is room for `k` more. -/
structure Room (S : Finset ℕ) (k : ℕ) (s : State) : Prop where
  nodup : s.m.lh.Nodup
  le : (s.m.lh.toFinset ∪ S).card + k ≤ MAXOPBLOCKS

/-- The layout that `mkfs` writes: a log of `LOGSIZE` blocks and one bitmap block. -/
structure Mkfs (sb : Superblock) : Prop where
  nlog : sb.nlog = LOGSIZE
  bitmap : sb.size ≤ BPB

def NotBig (e : Panic) : Prop := e ≠ .tooBigTransaction

variable {sb : Superblock} {S S' : Finset ℕ} {k k' : ℕ} {s t u : State} {ip dp : InodePtr} {b i d : ℕ}
  {H K : Multiset InodePtr}

namespace Room

theorem same (h : Room S k s) (ht : t.m.lh = s.m.lh) : Room S k t :=
  ⟨ht ▸ h.nodup, ht ▸ h.le⟩

theorem mono (h : Room S k s) (hS : S' ⊆ S) (hk : k' ≤ k) : Room S' k' s := by
  refine ⟨h.nodup, ?_⟩
  have hcard := card_le_card (union_subset_union_right (s := s.m.lh.toFinset) hS)
  have := h.le
  omega

theorem reserve (h : Room S (k + 1) s) (b : ℕ) : Room (insert b S) k s := by
  refine ⟨h.nodup, ?_⟩
  rw [union_insert]
  have hcard := card_insert_le b (s.m.lh.toFinset ∪ S)
  have := h.le
  omega

theorem length_le (h : Room S k s) : s.m.lh.length ≤ MAXOPBLOCKS := by
  have hsub : s.m.lh.toFinset.card ≤ (s.m.lh.toFinset ∪ S).card :=
    card_le_card subset_union_left
  rw [List.toFinset_card_of_nodup h.nodup] at hsub
  have := h.le
  omega

theorem log (h : Room S k s) (hb : b ∈ S) :
    Room S k { s with m := { s.m with lh := if b ∈ s.m.lh then s.m.lh else s.m.lh ++ [b] } } := by
  by_cases hmem : b ∈ s.m.lh
  · exact h.same (if_pos hmem)
  · have hset : (s.m.lh ++ [b]).toFinset ∪ S = s.m.lh.toFinset ∪ S := by
      ext c
      simp only [mem_union, List.mem_toFinset, List.mem_append, List.mem_singleton]
      constructor
      · rintro ((hc | rfl) | hc)
        · exact .inl hc
        · exact .inr hb
        · exact .inr hc
      · rintro (hc | hc)
        · exact .inl (.inl hc)
        · exact .inr hc
    refine ⟨?_, ?_⟩ <;> dsimp only <;> rw [if_neg hmem]
    · exact List.nodup_append.mpr ⟨h.nodup, List.nodup_singleton b, fun c hc d hd => by
        rw [List.mem_singleton.mp hd]
        exact fun he => hmem (he ▸ hc)⟩
    · rw [hset]
      exact h.le

end Room

theorem logWrite_room (hg : Mkfs sb) (h : Room S k s) (hb : b ∈ S) :
    Sat (logWrite sb b) s (fun _ t => Room S k t ∧ t = { s with m := t.m }) NotBig := by
  have hlen := h.length_le
  have hfits : ¬ (LOGSIZE ≤ s.m.lh.length ∨ sb.nlog - 1 ≤ s.m.lh.length) := by
    rw [hg.nlog]
    simp only [LOGSIZE, MAXOPBLOCKS] at hlen ⊢
    omega
  unfold logWrite
  refine Sat.get_bind ?_
  rw [Log.logWrite, if_neg hfits]
  refine Sat.ite (fun _ => Sat.throw (by rintro ⟨⟩)) fun _ => ?_
  refine ⟨(h.log hb).same ?_, rfl⟩
  dsimp only
  split <;> rfl

theorem put_room (hg : Mkfs sb) (h : Room S k s) (hb : b ∈ S) (x : Log.Block) :
    Sat (do storeBlock b x; logWrite sb b) s
      (fun _ t => Room S k t ∧ t = { s with m := t.m }) NotBig := by
  have hs : Room S k { s with m := s.m.store b x } := h.same rfl
  exact storeBlock_bind (logWrite_room hg hs hb)

theorem Mkfs.BBLOCK_eq (hg : Mkfs sb) (hb : b < sb.size) : sb.BBLOCK b = sb.bmapstart := by
  rw [Superblock.BBLOCK, Nat.div_eq_of_lt (Nat.lt_of_lt_of_le hb hg.bitmap), Nat.zero_add]

theorem ballocFrom_room (hg : Mkfs sb) {n : ℕ} (h : Room S (k + 1) s) (hS : sb.bmapstart ∈ S) :
    Sat (ballocFrom sb n b) s (fun a t => Room (insert a S) k t ∧ t = { s with m := t.m })
      NotBig := by
  induction n generalizing b with
  | zero => exact Sat.throw nofun
  | succ n ih =>
    rw [ballocFrom]
    refine Sat.ite (fun hlt => ?_) fun _ => Sat.throw nofun
    refine bread_bind ?_
    split
    · rename_i bi hbi
      rw [hg.BBLOCK_eq hlt, ← bind_assoc]
      refine Sat.bind (put_room hg h hS _) ?_
      rintro _ t ⟨ht, heq⟩
      refine Sat.bind (put_room hg (ht.reserve (b + bi)) (mem_insert_self _ _) _) ?_
      rintro _ u ⟨hu, heq'⟩
      exact Sat.pure ⟨hu, heq'.trans (by rw [heq])⟩
    · exact ih

theorem balloc_room (hg : Mkfs sb) (h : Room S (k + 1) s) (hS : sb.bmapstart ∈ S) :
    Sat (balloc sb) s (fun a t => Room (insert a S) k t ∧ t = { s with m := t.m }) NotBig :=
  ballocFrom_room hg h hS

theorem bfree_room (hg : Mkfs sb) (h : Room S k s) (hS : sb.bmapstart ∈ S) (hb : b < sb.size) :
    Sat (bfree sb b) s (fun _ t => Room S k t ∧ t = { s with m := t.m }) NotBig := by
  unfold bfree
  refine bread_bind (Sat.ite (fun _ => ?_) fun _ => Sat.throw nofun)
  rw [hg.BBLOCK_eq hb]
  exact put_room hg h hS _

def homeBlock (sb : Superblock) (s : State) (ip : InodePtr) : ℕ := sb.IBLOCK (s.itable ip).inum

theorem Touched.of_m (h : t = { s with m := t.m }) (ip : InodePtr) : Touched ip s t :=
  ⟨(s.itable ip).d, by rw [State.setD, State.setInode, Function.update_eq_self]; exact h⟩

theorem Touched.homeBlock (h : Touched ip s t) (jp : InodePtr) :
    homeBlock sb t jp = homeBlock sb s jp := by
  rw [Fs.homeBlock, Fs.homeBlock, (h.ref jp).2.1]

theorem iupdate_room (hg : Mkfs sb) (h : Room S k s) (hi : homeBlock sb s ip ∈ S) :
    Sat (iupdate sb ip) s (fun _ t => Room S k t ∧ t = { s with m := t.m }) NotBig := by
  unfold iupdate
  exact getInode_bind (bread_bind (put_room hg h hi _))

theorem addrBlock_room (hg : Mkfs sb) (h : Room S (k + 1) s) (hS : sb.bmapstart ∈ S)
    (j : Fin (NDIRECT + 1)) :
    Sat (addrBlock sb ip j) s (fun a t => Room (insert a S) k t ∧ Touched ip s t) NotBig := by
  unfold addrBlock
  refine getInode_bind (Sat.ite (fun _ => ?_) fun _ => Sat.pure ⟨h.reserve _, Touched.refl ip s⟩)
  refine Sat.bind (balloc_room hg h hS) ?_
  rintro a t ⟨ht, heq⟩
  refine modifyDinode_bind (Sat.pure ⟨ht.same rfl, ?_⟩)
  exact (Touched.of_m heq ip).trans (touched_setD t ip _)

/-- `bmap` counts its block, and at most one more: the indirect block. -/
theorem bmap_room (hg : Mkfs sb) (h : Room S (k + 2) s) (hS : sb.bmapstart ∈ S) (bn : ℕ) :
    Sat (bmap sb ip bn) s (fun a t => Room (insert a S) k t ∧ Touched ip s t) NotBig := by
  unfold bmap
  refine Sat.ite (fun _ => ?_) fun _ => Sat.ite (fun _ => ?_) fun _ => Sat.throw nofun
  · exact addrBlock_room hg (h.mono (Finset.Subset.refl S) (by omega)) hS _
  · refine Sat.bind (addrBlock_room hg h hS _) ?_
    rintro ind t ⟨ht, htouch⟩
    have hsub (a : ℕ) : insert a S ⊆ insert a (insert ind S) :=
      insert_subset_insert a (subset_insert ind S)
    refine bread_bind (Sat.ite (fun _ => ?_) fun _ => ?_)
    · refine Sat.bind (balloc_room hg ht (mem_insert_of_mem hS)) ?_
      rintro a u ⟨hu, heq⟩
      have hind : ind ∈ insert a (insert ind S) :=
        mem_insert_of_mem (mem_insert_self ind S)
      refine bread_bind ?_
      rw [← bind_assoc]
      refine Sat.bind (put_room hg hu hind _) ?_
      rintro _ v ⟨hv, heq'⟩
      refine Sat.pure ⟨hv.mono (hsub a) le_rfl, htouch.trans ?_⟩
      exact (Touched.of_m heq ip).trans (Touched.of_m heq' ip)
    · exact Sat.pure ⟨(ht.reserve _).mono (hsub _) le_rfl, htouch⟩

variable {src : ℕ → Option Byte}

theorem writeiLoop_room (hg : Mkfs sb) {n fuel tot off j : ℕ}
    (h : Room S (k + 2 * j) s) (hS : sb.bmapstart ∈ S)
    (hj : n ≤ tot ∨ off % BSIZE + (n - tot) ≤ j * BSIZE) :
    Sat (writeiLoop sb ip src n fuel tot off) s (fun _ t => Room S k t ∧ Touched ip s t)
      NotBig := by
  induction fuel generalizing tot off j s with
  | zero => exact Sat.pure ⟨h.mono (Finset.Subset.refl S) (by omega), Touched.refl ip s⟩
  | succ fuel ih =>
    rw [writeiLoop]
    refine Sat.ite (fun hlt => ?_) fun _ =>
      Sat.pure ⟨h.mono (Finset.Subset.refl S) (by omega), Touched.refl ip s⟩
    obtain ⟨j, rfl⟩ : ∃ i, j = i + 1 := by
      refine Nat.exists_eq_add_one.mpr (Nat.pos_of_ne_zero fun h0 => ?_)
      subst h0
      omega
    refine Sat.bind (bmap_room hg (k := k + 2 * j) (h.mono (Finset.Subset.refl S) (by omega)) hS _) ?_
    rintro a t ⟨ht, htouch⟩
    refine bread_bind ?_
    have hmem := mem_insert_self a S
    have hsub := subset_insert a S
    refine storeBlock_bind (Sat.ite (fun _ => Sat.pure ⟨(ht.mono hsub (by omega)).same rfl, ?_⟩)
      fun _ => ?_)
    · exact htouch.trans (Touched.of_m rfl ip)
    · refine Sat.bind (logWrite_room hg (ht.same rfl) hmem) ?_
      rintro _ u ⟨hu, heq⟩
      have hru : Touched ip s u :=
        (htouch.trans (Touched.of_m rfl ip)).trans (Touched.of_m heq ip)
      refine (ih (hu.mono hsub le_rfl) ?_).post fun _ v hv => ⟨hv.1, hru.trans hv.2⟩
      simp only [BSIZE] at hj ⊢
      omega

theorem writei_room (hg : Mkfs sb) {off n : BitVec 32} {j : ℕ}
    (h : Room S (k + 2 * j) s) (hS : sb.bmapstart ∈ S) (hi : homeBlock sb s ip ∈ S)
    (hj : off.toNat % BSIZE + n.toNat ≤ j * BSIZE) :
    Sat (writei sb ip src off n) s (fun _ t => Room S k t ∧ Touched ip s t) NotBig := by
  have hless : Room S k s := h.mono (Finset.Subset.refl S) (by omega)
  unfold writei
  refine getInode_bind (Sat.ite (fun _ => Sat.pure ⟨hless, Touched.refl ip s⟩) fun _ =>
    Sat.ite (fun _ => Sat.pure ⟨hless, Touched.refl ip s⟩) fun _ => ?_)
  refine Sat.bind (writeiLoop_room hg h hS (.inr hj)) ?_
  rintro ⟨tot, off'⟩ t ⟨ht, htouch⟩
  refine getInode_bind ?_
  have hsize : Sat (doIf ((t.itable ip).d.size.toNat < off') (modifyDinode ip fun d =>
      { d with size := BitVec.ofNat 32 off' })) t (fun _ u => Room S k u ∧ Touched ip s u)
      NotBig := by
    refine doIf_sat (fun _ => ?_) fun _ => ⟨ht, htouch⟩
    exact ⟨ht.same rfl, htouch.trans (touched_setD t ip _)⟩
  refine Sat.bind hsize ?_
  rintro _ u ⟨hu, hsu⟩
  refine Sat.bind (iupdate_room hg hu (by rwa [hsu.homeBlock])) ?_
  rintro _ v ⟨hv, heq⟩
  exact Sat.pure ⟨hv, hsu.trans (Touched.of_m heq ip)⟩

def AddrsFit (sb : Superblock) (s : State) (ip : InodePtr) : Prop :=
  ∀ j, (s.itable ip).d.addrs j ≠ 0 → ((s.itable ip).d.addrs j).toNat < sb.size

theorem Live.addrsFit (h : Live sb s ip i) : AddrsFit sb s ip := by
  intro j hj
  rw [h.d] at hj ⊢
  have hplace := place_of_addr (v := view sb s) (i := i) (j := j) h.type
  rw [← hplace]
  refine (h.wf.owned.data _ (mem_places h.lt (Nat.lt_add_right _ j.isLt)) ?_).2
  rw [hplace]
  exact fun h0 => hj (eq_of_toNat_eq h0)

variable {js : List (Fin (NDIRECT + 1))}

theorem freeDirect_room (hg : Mkfs sb) (h : Room S k s)
    (hS : sb.bmapstart ∈ S) (hfit : AddrsFit sb s ip) :
    Sat (freeDirect sb ip js) s (fun _ t => Room S k t) NotBig := by
  induction js generalizing s with
  | nil => exact Sat.pure h
  | cons j js ih =>
    refine getInode_bind (Sat.bind (R := fun _ t => Room S k t ∧ AddrsFit sb t ip)
      (doIf_sat (fun hne => ?_) fun _ => ⟨h, hfit⟩) fun _ t ht => ih ht.1 ht.2)
    refine Sat.bind (bfree_room hg h hS (hfit j hne)) ?_
    rintro _ t ⟨ht, heq⟩
    have hit : t.itable = s.itable := by rw [heq]
    change Room S k (t.setD ip ((t.itable ip).d.setAddr j 0)) ∧
      AddrsFit sb (t.setD ip ((t.itable ip).d.setAddr j 0)) ip
    refine ⟨ht.same rfl, fun l hl => ?_⟩
    rw [setD_d, hit, Dinode.setAddr] at hl ⊢
    dsimp only at hl ⊢
    rw [Function.update_apply] at hl ⊢
    split at hl
    · exact absurd rfl hl
    · rw [if_neg (by assumption)]
      exact hfit l hl

theorem freeIndirect_room (hg : Mkfs sb) {bp : Log.Block} {js : List ℕ} (h : Room S k s)
    (hS : sb.bmapstart ∈ S)
    (hfit : ∀ j ∈ js, getWord bp (4 * j) ≠ 0 → (getWord bp (4 * j)).toNat < sb.size) :
    Sat (freeIndirect sb bp js) s (fun _ t => Room S k t ∧ t = { s with m := t.m }) NotBig := by
  induction js generalizing s with
  | nil => exact Sat.pure ⟨h, rfl⟩
  | cons j js ih =>
    have hrest := fun l (hl : l ∈ js) => hfit l (List.mem_cons_of_mem j hl)
    refine Sat.bind (R := fun _ t => Room S k t ∧ t = { s with m := t.m })
      (doIf_sat (fun hne => bfree_room hg h hS (hfit j List.mem_cons_self hne))
        fun _ => ⟨h, rfl⟩) ?_
    rintro _ t ⟨ht, heq⟩
    refine (ih ht hrest).post ?_
    rintro _ u ⟨hu, heq'⟩
    exact ⟨hu, heq'.trans (by rw [heq])⟩

theorem Cleared.entriesFit (h : Cleared sb ip i js s t) (ht : ((view sb t).node i).type ≠ 0)
    (hne : ((view sb t).node i).addrs (Fin.last NDIRECT) ≠ 0) {j : ℕ} (hj : j < NINDIRECT)
    (hw : getWord (t.m.buf (((view sb t).node i).addrs (Fin.last NDIRECT)).toNat) (4 * j) ≠ 0) :
    (getWord (t.m.buf (((view sb t).node i).addrs (Fin.last NDIRECT)).toNat) (4 * j)).toNat <
      sb.size := by
  have hlast := place_last (view sb t) ht
  have hind : sb.IsData (((view sb t).node i).addrs (Fin.last NDIRECT)).toNat := by
    rw [← hlast]
    refine h.freeing.owned.data _ (mem_places h.held.lt (by decide)) ?_
    rw [hlast]
    exact fun h0 => hne (eq_of_toNat_eq h0)
  rw [buf_eq_data hind] at hw ⊢
  rw [← Vol.place_entry ht hne]
  refine (h.freeing.owned.data _ (mem_places h.held.lt (by omega)) ?_).2
  rw [Vol.place_entry ht hne]
  exact fun h0 => hw (eq_of_toNat_eq h0)

theorem freeBlocks_room (hg : Mkfs sb) (h : Room S k s) (hS : sb.bmapstart ∈ S)
    (hl : Live sb s ip i) : Sat (freeBlocks sb ip) s (fun _ t => Room S k t) NotBig := by
  unfold freeBlocks
  refine Sat.bind (((freeDirect_sat hl.toHeld hl.type (hl.wf.freeing i)
    last_notMem_directs).and (freeDirect_room hg h hS hl.addrsFit)).weaken fun _ he => he.2) ?_
  rintro _ t ⟨ht, hroom⟩
  obtain ⟨a, ha, -⟩ := ht.node
  have htype : ((view sb t).node i).type ≠ 0 := by
    rw [ha, Function.update_self]
    exact hl.type
  refine getInode_bind ?_
  rw [ht.held.d]
  refine doIf_sat (fun hne => bread_bind ?_) fun _ => hroom
  refine Sat.bind (freeIndirect_room hg hroom hS fun j hj =>
    ht.entriesFit htype hne (List.mem_range.mp hj)) ?_
  rintro _ u ⟨hu, -⟩
  have hind : (((view sb t).node i).addrs (Fin.last NDIRECT)).toNat < sb.size := by
    rw [← place_last (view sb t) htype]
    refine (ht.freeing.owned.data _ (mem_places ht.held.lt (by decide)) ?_).2
    rw [place_last (view sb t) htype]
    exact fun h0 => hne (eq_of_toNat_eq h0)
  refine Sat.bind (bfree_room hg hu hS hind) ?_
  rintro _ v ⟨hv, -⟩
  exact hv.same rfl

theorem itrunc_room (hg : Mkfs sb) (h : Room S k s) (hS : sb.bmapstart ∈ S)
    (hi : homeBlock sb s ip ∈ S) (hl : Live sb s ip i) :
    Sat (itrunc sb ip) s (fun _ t => Room S k t) NotBig := by
  rw [itrunc_eq]
  refine Sat.bind (((freeBlocks_sat hl).and (freeBlocks_room hg h hS hl)).weaken
    fun _ he => he.2) ?_
  rintro _ t ⟨ht, hroom⟩
  refine modifyDinode_bind ?_
  generalize hd : ({ (t.itable ip).d with size := 0 } : Dinode) = d'
  have hroom' : Room S k (t.setD ip d') := hroom.same rfl
  have hhome : homeBlock sb (t.setD ip d') ip ∈ S := by
    rwa [(touched_setD t ip _).homeBlock, ht.touched.homeBlock]
  exact (iupdate_room hg hroom' hhome).post fun _ _ hu => hu.1

end Xv6.Fs
