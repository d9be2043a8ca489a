import Xv6.Fs.BlockSpec

/-! The inode table in front of the disk inodes. -/
namespace Xv6.Fs
open Function List
open Xv6.Log (BSIZE Block)

def Cached (e : Inode) (i : ℕ) : Prop := 0 < e.ref ∧ e.inum = i ∧ e.valid = true

instance (e : Inode) (i : ℕ) : Decidable (Cached e i) := inferInstanceAs (Decidable (_ ∧ _))

def tableNode (t : InodePtr → Inode) (i : ℕ) : Option Dinode :=
  ((List.finRange NINODE).find? fun ip => Cached (t ip) i).map fun ip => (t ip).d

def Uniq (t : InodePtr → Inode) : Prop :=
  ∀ ip jp, 0 < (t ip).ref → 0 < (t jp).ref → (t ip).inum = (t jp).inum → ip = jp

variable {t : InodePtr → Inode} {ip : InodePtr} {i : ℕ}

theorem tableNode_eq_some (hu : Uniq t) (h : Cached (t ip) i) : tableNode t i = some (t ip).d := by
  unfold tableNode
  cases hf : (List.finRange NINODE).find? fun ip => Cached (t ip) i with
  | none => exact absurd h (by simpa using find?_eq_none.mp hf ip (mem_finRange ip))
  | some jp =>
    have hj : Cached (t jp) i := by simpa using find?_some hf
    obtain rfl := hu jp ip hj.1 h.1 (hj.2.1.trans h.2.1.symm)
    rfl

theorem tableNode_eq_none (h : ∀ ip, ¬ Cached (t ip) i) : tableNode t i = none := by
  unfold tableNode
  rw [find?_eq_none.mpr fun ip _ => by simpa using h ip]
  rfl

variable {e : Inode}

theorem tableNode_update (hu : Uniq t) (hu' : Uniq (update t ip e)) (i : ℕ) :
    tableNode (update t ip e) i =
      if Cached e i then some e.d else if Cached (t ip) i then none else tableNode t i := by
  split
  · rename_i he
    have hc : Cached (update t ip e ip) i := by rwa [update_self]
    have := tableNode_eq_some hu' hc
    rwa [update_self] at this
  · rename_i he
    by_cases hex : ∃ jp, jp ≠ ip ∧ Cached (t jp) i
    · obtain ⟨jp, hne, hj⟩ := hex
      have hc : Cached (update t ip e jp) i := by rwa [update_of_ne hne]
      have h' := tableNode_eq_some hu' hc
      rw [update_of_ne hne] at h'
      rw [if_neg, h', tableNode_eq_some hu hj]
      exact fun hc => hne (hu jp ip hj.1 hc.1 (hj.2.1.trans hc.2.1.symm))
    · have hnone : ∀ jp, ¬ Cached (update t ip e jp) i := by
        intro jp hj
        rcases eq_or_ne jp ip with rfl | hne
        · rw [update_self] at hj
          exact he hj
        · rw [update_of_ne hne] at hj
          exact hex ⟨jp, hne, hj⟩
      rw [tableNode_eq_none hnone]
      split
      · rfl
      · rename_i hc
        refine (tableNode_eq_none fun jp hj => ?_).symm
        rcases eq_or_ne jp ip with rfl | hne
        · exact hc hj
        · exact hex ⟨jp, hne, hj⟩

/-- Entries may be changed as long as an entry in use keeps its inode number. -/
theorem Uniq.update (hu : Uniq t)
    (he : 0 < e.ref → ∀ jp, jp ≠ ip → 0 < (t jp).ref → (t jp).inum ≠ e.inum) :
    Uniq (update t ip e) := by
  intro jp kp hj hk heq
  rcases eq_or_ne jp ip with rfl | hjp <;> rcases eq_or_ne kp jp with rfl | hkj
  · rfl
  · rw [update_self] at hj heq
    rw [update_of_ne hkj] at hk heq
    exact absurd heq.symm (he hj kp hkj hk)
  · rfl
  · rw [update_of_ne hjp] at hj heq
    rcases eq_or_ne kp ip with rfl | hkp
    · rw [update_self] at hk heq
      exact absurd heq (he hk jp hjp hj)
    · rw [update_of_ne hkp] at hk heq
      exact hu jp kp hj hk heq

theorem Uniq.same (hu : Uniq t) (hr : 0 < e.ref → 0 < (t ip).ref)
    (hi : e.inum = (t ip).inum) : Uniq (Function.update t ip e) :=
  hu.update fun he jp hne hj heq => hne (hu jp ip hj (hr he) (heq.trans hi))

variable (sb : Superblock)

def view (s : State) : Vol :=
  { disk sb s with node := fun i => (tableNode s.itable i).getD ((disk sb s).node i) }

variable {sb} {s : State}

theorem view_cached (hu : Uniq s.itable) (h : Cached (s.itable ip) i) :
    (view sb s).node i = (s.itable ip).d := by
  simp only [view, tableNode_eq_some hu h, Option.getD_some]

theorem Moves.view {u : State} {bit : ℕ → Bool} {data : ℕ → Block}
    (h : Moves sb s u { disk sb s with bit := bit, data := data }) :
    view sb u = { view sb s with bit := bit, data := data } := by
  have hu := h.eq
  have ht : u.itable = s.itable := by rw [hu]
  simp only [Fs.view, h.vol, ht]

def State.setInode (s : State) (ip : InodePtr) (e : Inode) : State :=
  { s with itable := update s.itable ip e }

@[simp] theorem setInode_self (s : State) (ip : InodePtr) (e : Inode) :
    (s.setInode ip e).itable ip = e := update_self _ _ _

theorem setInode_of_ne (s : State) (e : Inode) {ip jp : InodePtr} (h : jp ≠ ip) :
    (s.setInode ip e).itable jp = s.itable jp := update_of_ne h _ _

theorem setInode_setInode (s : State) (ip : InodePtr) (e e' : Inode) :
    (s.setInode ip e).setInode ip e' = s.setInode ip e' := by
  simp only [State.setInode, update_idem]

theorem view_setInode (hu : Uniq s.itable) (hu' : Uniq (update s.itable ip e)) :
    view sb (s.setInode ip e) = { view sb s with
      node := fun i => if Cached e i then e.d else if Cached (s.itable ip) i then (disk sb s).node i
        else (view sb s).node i } := by
  have hd : disk sb (s.setInode ip e) = disk sb s := rfl
  simp only [view, hd]
  congr 1
  funext i
  rw [State.setInode, tableNode_update hu hu']
  split
  · rfl
  · split <;> rfl

theorem view_setDinode (hu : Uniq s.itable) (h : Cached (s.itable ip) i) (d : Dinode) :
    view sb (s.setInode ip { s.itable ip with d := d }) =
      { view sb s with node := update (view sb s).node i d } := by
  have hc : ∀ k, Cached { s.itable ip with d := d } k ↔ k = i := fun k =>
    ⟨fun hk => hk.2.1.symm.trans h.2.1, fun hk => hk ▸ h⟩
  have hu' : Uniq (update s.itable ip { s.itable ip with d := d }) :=
    hu.same (fun h => h) rfl
  rw [view_setInode hu hu']
  refine congrArg (fun n => ({ view sb s with node := n } : Vol)) (funext fun k => ?_)
  rcases eq_or_ne k i with rfl | hk
  · rw [if_pos ((hc k).mpr rfl), update_self]
  · rw [if_neg fun h' => hk ((hc k).mp h'), update_of_ne hk]
    exact if_neg fun h' => hk (h'.2.1.symm.trans h.2.1)

theorem view_writeback (hu : Uniq s.itable) (h : Cached (s.itable ip) i)
    {u : State} (hm : Moves sb s u
      { disk sb s with node := update (disk sb s).node i (s.itable ip).d }) :
    view sb u = view sb s := by
  have hu' := hm.eq
  have ht : u.itable = s.itable := by rw [hu']
  simp only [view, hm.vol, ht]
  congr 1
  funext k
  rcases eq_or_ne k i with rfl | hk
  · rw [tableNode_eq_some hu h]
    rfl
  · rw [update_of_ne hk]

end Xv6.Fs
