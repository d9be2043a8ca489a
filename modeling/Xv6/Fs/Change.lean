import Xv6.Fs.PathSpec
import Mathlib.Logic.Relation

/-! The changes that the calls make to the files, and what they do with the references they have
taken. -/
namespace Xv6.Fs
open Bytes Function

variable {sb : Superblock} {s t u : State} {ip : InodePtr} {i : ℕ} {H K : Multiset InodePtr}

def maxLink : BitVec 16 := 0x7fff

def emptyEnt : Dirent := { inum := 0, name := List.replicate DIRSIZ 0 }

def Node.parent (n : Node) : ℕ := (n.ent 1).inum.toNat

def Childless (F : ℕ → Node) (i : ℕ) : Prop :=
  ∀ c, (F c).type = T_DIR → c ≠ i → (F c).parent ≠ i

/-- The files with a new entry for the inode `i`, now `g`, in the directory `d`. -/
def withEntry (F : ℕ → Node) (i : ℕ) (g : Node) (d : ℕ) (f : Node) : ℕ → Node :=
  update (update F i g) d f

/-- One change of the files. With `strict` a directory is removed only if no directory that was
removed from it before is still there; without it, entries are made in linked directories only. -/
inductive Change (sb : Superblock) (strict : Prop) (F : ℕ → Node) : (ℕ → Node) → Prop
  | write {i : ℕ} (bs : List Byte) (ht : (F i).type ≠ 0) (hd : (F i).type ≠ T_DIR) :
    Change sb strict F (update F i { F i with bytes := bs })
  | free {i : ℕ} (hn : (F i).nlink = 0) : Change sb strict F (update F i {})
  | enter {d k i : ℕ} {name : List Byte} {f g : Node} (hd : (F d).type = T_DIR)
    (hl : ¬ strict → (F d).nlink ≠ 0) (hname : (F d).lookup name = none) (hk : (F d).vacant k)
    (hf : SetEnt (F d) k (newEnt name i) f) (hi : 0 < i) (hlt : i < sb.ninodes)
    (hold : (F i).type ≠ T_DIR) (ht : g.type ≠ 0) (hg : g.type ≠ T_DIR)
    (hmax : (F i).nlink ≠ maxLink) (hn : g.nlink = (F i).nlink + 1) :
    Change sb strict F (withEntry F i g d f)
  | mkdir {d k i : ℕ} {name : List Byte} {f g : Node} (hd : (F d).type = T_DIR)
    (hl : (F d).nlink ≠ 0) (hmax : (F d).nlink ≠ maxLink) (hname : (F d).lookup name = none)
    (hk : (F d).vacant k)
    (hf : SetEnt { F d with nlink := (F d).nlink + 1 } k (newEnt name i) f) (hi : 0 < i)
    (hlt : i < sb.ninodes) (hfree : (F i).type = 0) (hg : g.type = T_DIR) (hn : g.nlink = 1)
    (hents : g.nents = 2) (hdot : g.ent 0 = newEnt dot i) (hdotdot : g.ent 1 = newEnt dotdot d) :
    Change sb strict F (withEntry F i g d f)
  | unlink {d k i : ℕ} {name : List Byte} {f : Node} (hd : (F d).type = T_DIR)
    (hk : (F d).lookup name = some k) (hdot : namecmp name dot ≠ 0)
    (hdotdot : namecmp name dotdot ≠ 0) (hi : ((F d).ent k).inum.toNat = i)
    (hf : SetEnt (F d) k emptyEnt f) (hold : (F i).type ≠ T_DIR) :
    Change sb strict F (withEntry F i { F i with nlink := (F i).nlink - 1 } d f)
  | rmdir {d k i : ℕ} {name : List Byte} {f : Node} (hd : (F d).type = T_DIR)
    (hk : (F d).lookup name = some k) (hdot : namecmp name dot ≠ 0)
    (hdotdot : namecmp name dotdot ≠ 0) (hi : ((F d).ent k).inum.toNat = i)
    (hf : SetEnt (F d) k emptyEnt f) (hold : (F i).type = T_DIR) (hbare : (F i).bare)
    (hstrict : strict → Childless F i) :
    Change sb strict F (withEntry F i { F i with nlink := (F i).nlink - 1 } d
      { f with nlink := f.nlink - 1 })

abbrev Changes (sb : Superblock) (strict : Prop) : (ℕ → Node) → (ℕ → Node) → Prop :=
  Relation.ReflTransGen (Change sb strict)

theorem mem_count {H : Multiset InodePtr} (h : ip ∈ H) : 0 < users s ip + H.count ip :=
  Nat.add_pos_right _ (Multiset.count_pos.mpr h)

theorem Inv.ref_of_mem (h : Inv sb H s) (hip : ip ∈ H) : 0 < (s.itable ip).ref := by
  rw [h.refs]
  exact mem_count hip

theorem Step.cached {F : ℕ → Node} (h : Step sb K H F s t) (hK : ip ∈ K) (hH : ip ∈ H)
    (hc : Cached (s.itable ip) i) : Cached (t.itable ip) i := by
  obtain ⟨h1, h2⟩ := h.frame.keep ip (mem_count hK)
  exact ⟨h.inv.ref_of_mem hH, h1.trans hc.2.1, h2 hc.2.2⟩

theorem Step.inum {F : ℕ → Node} (h : Step sb K H F s t) (hK : ip ∈ K) :
    (t.itable ip).inum = (s.itable ip).inum := (h.frame.keep ip (mem_count hK)).1

theorem Steady.of_frame (hst : Steady sb H s) (hf : Frame H s t)
    (hF : ∀ j, (files sb t j).type ≠ 0 → (files sb t j).nlink = 0 →
      (files sb s j).type ≠ 0 ∧ (files sb s j).nlink = 0) : Steady sb H t := fun i ht hn =>
  (hst i (hF i ht hn).1 (hF i ht hn).2).frame hf

theorem Steady.iput (hst : Steady sb (ip ::ₘ H) s) (h : Inv sb (ip ::ₘ H) s)
    (ht : Step sb H H (dropped (files sb s) (s.itable ip)) s t) : Steady sb H t := by
  have hheld : ∀ j, HeldBy (ip ::ₘ H) s j → ((s.itable ip).inum = j → ¬ (s.itable ip).ref = 1) →
      HeldBy H t j := by
    rintro j ⟨jp, hjp, hj, hv⟩ hone
    refine HeldBy.frame ⟨jp, ?_, hj, hv⟩ ht.frame
    rcases eq_or_ne jp ip with rfl | hne
    · have hrefs := h.refs jp
      have := hone hj
      have := h.ref_pos
      rw [Multiset.count_cons_self] at hrefs
      omega
    · rwa [count_cons_ne hne] at hjp
  intro j htype hn
  rw [ht.files, dropped] at htype hn
  split at htype
  · rename_i hlast
    rcases eq_or_ne j (s.itable ip).inum with rfl | hj
    · rw [update_self] at htype
      exact absurd rfl htype
    · rw [if_pos hlast, update_of_ne hj] at hn
      rw [update_of_ne hj] at htype
      exact hheld j (hst j htype hn) fun he => absurd he.symm hj
  · rename_i hlast
    rw [if_neg hlast] at hn
    refine hheld j (hst j htype hn) fun he hr => hlast ?_
    obtain ⟨jp, hjp, hj, hv⟩ := hst j htype hn
    have hjr : 0 < (s.itable jp).ref := by
      rw [h.refs]
      exact hjp
    obtain rfl := h.uniq jp ip hjr h.ref_pos (hj.trans he.symm)
    refine ⟨hr, hv, ?_⟩
    rw [h.nlink ⟨hjr, hj, hv⟩, hn]

theorem dropped_changes {strict : Prop} (h : Inv sb (ip ::ₘ H) s) :
    Changes sb strict (files sb s) (dropped (files sb s) (s.itable ip)) := by
  unfold dropped
  split
  · rename_i hlast
    refine .single (.free ?_)
    rw [← h.nlink ⟨h.ref_pos, rfl, hlast.2.1⟩]
    exact hlast.2.2
  · exact .refl

end Xv6.Fs
