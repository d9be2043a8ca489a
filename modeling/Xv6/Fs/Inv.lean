import Xv6.Fs.TruncSpec
import Xv6.Log.Crash
import Mathlib.Data.Multiset.Count
import Mathlib.Data.Fintype.Basic

/-! The invariant of the file system inside a call, and who refers to the inodes in the table. -/
namespace Xv6.Fs
open Xv6.Log (BSIZE Block)

def fileUser (x : File) : Option InodePtr :=
  if x.type = .inode ∨ x.type = .device then some x.ip else none

def users (s : State) (ip : InodePtr) : ℕ :=
  Count.occ Finset.univ (fileUser ∘ s.ftable) (some ip)

theorem users_of_file {s : State} {f : FilePtr} {ip : InodePtr}
    (h : fileUser (s.ftable f) = some ip) : 0 < users s ip :=
  Count.occ_pos.mpr ⟨f, Finset.mem_univ f, h⟩

theorem users_congr {s t : State} (hf : t.ftable = s.ftable) (ip : InodePtr) :
    users t ip = users s ip := by rw [users, users, hf]

variable (sb : Superblock)

def files (s : State) : ℕ → Node := (disk sb s).file

def InRange (f : Node) : Prop :=
  f.type = T_DIR → ∀ k < f.nents, (f.ent k).inum.toNat < sb.ninodes

/-- What holds inside a call: the blocks are accounted for, the table is a cache of allocated disk
inodes, and every reference to one of its entries counts. `H` are the references that are not from
open files: the current directories, and those the call has taken. -/
structure Inv (H : Multiset InodePtr) (s : State) : Prop where
  log : LogOk sb s.m
  wf : Wf sb (disk sb s)
  uniq : Uniq s.itable
  range : ∀ ip, 0 < (s.itable ip).ref → 0 < (s.itable ip).inum ∧ (s.itable ip).inum < sb.ninodes
  sync : ∀ ip i, Cached (s.itable ip) i → (s.itable ip).d = (disk sb s).node i
  live : ∀ ip i, Cached (s.itable ip) i → ((disk sb s).node i).type ≠ 0
  refs : ∀ ip, (s.itable ip).ref = users s ip + H.count ip
  ents : ∀ i, InRange sb (files sb s i)
  opened : ∀ f ip, fileUser (s.ftable f) = some ip → (s.itable ip).valid = true ∧
    ((s.ftable f).writable = true → (s.itable ip).d.type ≠ T_DIR)
  idle : ∀ f, (s.ftable f).ref = 0 → fileUser (s.ftable f) = none

/-- From `s` to `t` files and processes stayed as they were, and so did the entries that they or
`K` refer to; entries may have been filled in. -/
structure Frame (K : Multiset InodePtr) (s t : State) : Prop where
  ftable : t.ftable = s.ftable
  procs : t.procs = s.procs
  keep : ∀ ip, 0 < users s ip + K.count ip → (t.itable ip).inum = (s.itable ip).inum ∧
    ((s.itable ip).valid = true → (t.itable ip).valid = true)

variable {sb} {s t u : State} {ip : InodePtr} {i : ℕ} {H K : Multiset InodePtr}

namespace Frame

theorem refl (K : Multiset InodePtr) (s : State) : Frame K s s := ⟨rfl, rfl, fun _ _ => ⟨rfl, id⟩⟩

theorem users (h : Frame K s t) (ip : InodePtr) : users t ip = users s ip :=
  users_congr h.ftable ip

theorem trans (h : Frame K s t) (h' : Frame K t u) : Frame K s u where
  ftable := h'.ftable.trans h.ftable
  procs := h'.procs.trans h.procs
  keep ip hip := by
    obtain ⟨h1, h2⟩ := h.keep ip hip
    obtain ⟨h3, h4⟩ := h'.keep ip (by rwa [h.users])
    exact ⟨h3.trans h1, h4 ∘ h2⟩

theorem mono {K' : Multiset InodePtr} (h : Frame K s t) (hK : K' ≤ K) : Frame K' s t where
  ftable := h.ftable
  procs := h.procs
  keep ip hip := h.keep ip (by have := Multiset.count_le_of_le ip hK; omega)

end Frame

theorem Touched.frame (h : Touched ip s t) (K : Multiset InodePtr) : Frame K s t := by
  obtain ⟨d, hd⟩ := h
  have hit : t.itable = (s.setD ip d).itable := by rw [hd]
  refine ⟨by rw [hd]; rfl, by rw [hd]; rfl, fun jp _ => ?_⟩
  rw [hit, State.setD, State.setInode]
  dsimp only
  rw [Function.update_apply]
  split
  · rename_i hj
    rw [hj]
    exact ⟨rfl, id⟩
  · exact ⟨rfl, id⟩

theorem view_eq_disk (hu : Uniq s.itable)
    (hs : ∀ ip i, Cached (s.itable ip) i → (s.itable ip).d = (disk sb s).node i) :
    view sb s = disk sb s := by
  have hnode : (fun i => (tableNode s.itable i).getD ((disk sb s).node i)) =
      (disk sb s).node := by
    funext i
    by_cases hex : ∃ ip, Cached (s.itable ip) i
    · obtain ⟨ip, hip⟩ := hex
      rw [tableNode_eq_some hu hip, Option.getD_some, hs ip i hip]
    · rw [tableNode_eq_none fun ip hip => hex ⟨ip, hip⟩, Option.getD_none]
  rw [view, hnode]

theorem disk_node_ge {i : ℕ} (hi : sb.ninodes ≤ i) : (disk sb s).node i = {} :=
  if_neg (Nat.not_lt.mpr hi)

theorem files_ge {i : ℕ} (hi : sb.ninodes ≤ i) : files sb s i = {} := by
  unfold files Vol.file
  rw [disk_node_ge hi]
  exact if_pos rfl

theorem files_type (s : State) (i : ℕ) : (files sb s i).type = ((disk sb s).node i).type :=
  Vol.file_type _ _

theorem lt_of_type {i : ℕ} (h : (files sb s i).type ≠ 0) : i < sb.ninodes := by
  by_contra hi
  rw [files_ge (Nat.not_lt.mp hi)] at h
  exact h rfl

namespace Inv

theorem view (h : Inv sb H s) : view sb s = disk sb s := view_eq_disk h.uniq h.sync

theorem toLive (h : Inv sb H s) (hc : Cached (s.itable ip) i) : Live sb s ip i where
  uniq := h.uniq
  cached := hc
  lt := hc.2.1 ▸ (h.range ip hc.1).2
  log := h.log
  wf := by
    rw [h.view]
    exact h.wf
  type := by
    rw [h.view]
    exact h.live ip i hc

theorem setInode {H' : Multiset InodePtr} (h : Inv sb H s) {e : Inode}
    (hu : Uniq (Function.update s.itable ip e)) (hcount : ∀ jp, jp ≠ ip → H'.count jp = H.count jp)
    (href : e.ref = users s ip + H'.count ip)
    (hrange : 0 < e.ref → 0 < e.inum ∧ e.inum < sb.ninodes)
    (hsync : 0 < e.ref → e.valid = true →
      e.d = (disk sb s).node e.inum ∧ ((disk sb s).node e.inum).type ≠ 0)
    (hopen : 0 < users s ip → (s.itable ip).valid = true →
      e.valid = true ∧ e.d.type = (s.itable ip).d.type) :
    Inv sb H' (s.setInode ip e) where
  log := h.log
  wf := h.wf
  uniq := hu
  range jp := by
    rcases eq_or_ne jp ip with rfl | hj
    · rw [setInode_self]
      exact hrange
    · rw [setInode_of_ne _ _ hj]
      exact h.range jp
  sync jp k hc := by
    rcases eq_or_ne jp ip with rfl | hj
    · rw [setInode_self] at hc ⊢
      exact hc.2.1 ▸ (hsync hc.1 hc.2.2).1
    · rw [setInode_of_ne _ _ hj] at hc ⊢
      exact h.sync jp k hc
  live jp k hc := by
    rcases eq_or_ne jp ip with rfl | hj
    · rw [setInode_self] at hc
      exact hc.2.1 ▸ (hsync hc.1 hc.2.2).2
    · rw [setInode_of_ne _ _ hj] at hc
      exact h.live jp k hc
  refs jp := by
    have hus : users (s.setInode ip e) jp = users s jp := rfl
    rw [hus]
    rcases eq_or_ne jp ip with rfl | hj
    · rw [setInode_self]
      exact href
    · rw [setInode_of_ne _ _ hj, hcount jp hj]
      exact h.refs jp
  ents := h.ents
  opened f jp hf := by
    have hold := h.opened f jp hf
    rcases eq_or_ne jp ip with rfl | hj
    · rw [setInode_self]
      obtain ⟨h1, h2⟩ := hopen (users_of_file hf) hold.1
      exact ⟨h1, by rw [h2]; exact hold.2⟩
    · rw [setInode_of_ne _ _ hj]
      exact hold
  idle := h.idle

end Inv
end Xv6.Fs
