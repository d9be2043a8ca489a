import Xv6.Fs.CallPass
import Xv6.Fs.Ownership

/-! Whole runs of calls, `exec` included: the references to the inode table, its locks, and its
copies of the disk inodes. -/
namespace Xv6.Fs
open Bytes PartialRun Function
open Xv6.Log (BSIZE Block)

variable {sb : Superblock} {s t : State} {d : ℕ → Block} {p : Fin NPROC} {x : Proc}
  {H : Multiset InodePtr} {ip : InodePtr} {i : ℕ} {path : List Byte} {vm : ℕ → Bool}

def execFiles (sb : Superblock) (p : Fin NPROC) (path : Option (List Byte)) (vm : ℕ → Bool) :
    M Bool :=
  match path with
  | none => return false
  | some path => transaction sb (execTx sb p path vm)

inductive Event where
  | call (c : Call)
  | exec (path : Option (List Byte)) (vm : ℕ → Bool)

def fire (sb : Superblock) (s : State) (e : Fin NPROC × Event) : Option State :=
  match e.2 with
  | .call c => step sb s (e.1, c)
  | .exec path vm =>
    if (s.procs e.1).isSome then
      match execFiles sb e.1 path vm s with
      | .ok r => some r.2
      | .error _ => none
    else none

theorem execTx_sat (h : Inv sb H s) (hx : s.procs p = some x) (hcwd : x.cwd ∈ H) :
    Sat (execTx sb p path vm) s (fun _ t => Moved sb True True H H s t) (SafeErr sb H x.cwd s) := by
  unfold execTx
  refine myproc_bind hx (lookup_sat True h (h.ref_of_mem hcwd) (fun ip u i h1 hc => ?_)
    fun u h1 => Sat.pure h1.moved)
  have h1 := h1.moved
  refine Sat.bind ((execLoad_sat (E := Mild) (h1.inv.toLive hc) ⟨nofun, nofun⟩ vm).weaken
    fun _ he => he.safeErr) ?_
  rintro ok u rfl
  exact Sat.bind ((iunlockput_sat h1.inv).weaken fun _ he => he.safeErr) fun _ v hv =>
    Sat.pure (h1.trans (moved_iput h1.inv hv) fun _ hj _ => Multiset.mem_cons_of_mem hj)

theorem execFiles_sat (h : Inv sb H s) (hx : s.procs p = some x) (hcwd : x.cwd ∈ H)
    (path : Option (List Byte)) :
    Sat (execFiles sb p path vm) s (fun _ t => Moved sb True True H H s t)
      (SafeErr sb H x.cwd s) := by
  cases path with
  | none => exact Sat.pure (.refl h)
  | some path =>
    exact enter_moved (A := fun _ _ => True) h hx fun _ ht hxt => execTx_sat ht hxt hcwd

theorem execFiles_kept (h : Inv sb H s) (hx : s.procs p = some x) (hcwd : x.cwd ∈ H)
    (path : Option (List Byte)) :
    Sat (execFiles sb p path vm) s (fun _ t => Kept sb s t) Any := by
  cases path with
  | none => exact Sat.pure (.refl s)
  | some path =>
    exact walk_kept h hx fun t ht hxt =>
      execTx_pass (R := fun _ => True) nofun ht nofun hxt hcwd nofun path vm

theorem fire_inv {e : Fin NPROC × Event} (h : Inv sb (cwds s) s) (hs : fire sb s e = some t) :
    Inv sb (cwds t) t ∧ Kept sb s t := by
  obtain ⟨p, e⟩ := e
  cases e with
  | call c =>
    obtain ⟨x, hx, hret⟩ := step_returns True h hs
    refine ⟨hret.inv, ?_⟩
    simp only [fire, step] at hs
    split at hs
    · rename_i hc
      split at hs
      · rename_i r hr
        cases hs
        exact (call_kept c h hx (mem_cwds hx) hc).ok hr
      · cases hs
    · cases hs
  | exec path vm =>
    simp only [fire] at hs
    split at hs
    · rename_i hp
      obtain ⟨x, hx⟩ := Option.isSome_iff_exists.mp hp
      have hcwd := mem_cwds hx
      split at hs
      · rename_i r hr
        cases hs
        exact ⟨((execFiles_sat h hx hcwd path).ok hr).returns.inv,
          (execFiles_kept h hx hcwd path).ok hr⟩
      · cases hs
    · cases hs

theorem fire_run {es : List (Fin NPROC × Event)} (h : Consistent sb d)
    (hr : run (fire sb) (boot d) es = some s) : Inv sb (cwds s) s ∧ ∀ ip, locks s ip = false := by
  refine run_invariant (I := fun s => Inv sb (cwds s) s ∧ ∀ ip, locks s ip = false)
    ⟨boot_inv h, fun ip => ?_⟩ (fun t e u ht _ hs => ?_) (along_true _ es) hr
  · rcases eq_or_ne ip ⟨0, by decide⟩ with rfl | hne
    · rfl
    · rw [locks, boot_itable_of_ne hne]
  · obtain ⟨hinv, hk⟩ := fire_inv ht.1 hs
    exact ⟨hinv, fun ip => by rw [hk.locks]; exact ht.2 ip⟩

/-- The references to the inode table are those of open files and current directories, no lock is
held, and no inode has two entries in use. -/
structure TableCounted (s : State) : Prop where
  refs : ∀ ip, (s.itable ip).ref =
    (Finset.univ.filter fun f : FilePtr => ((s.ftable f).type = .inode ∨
      (s.ftable f).type = .device) ∧ (s.ftable f).ip = ip).card +
    (Finset.univ.filter fun p : Fin NPROC => (s.procs p).map Proc.cwd = some ip).card
  unlocked : ∀ ip, (s.itable ip).locked = false
  once : ∀ ip jp, 0 < (s.itable ip).ref → 0 < (s.itable jp).ref →
    (s.itable ip).inum = (s.itable jp).inum → ip = jp

theorem users_eq (s : State) (ip : InodePtr) : users s ip =
    (Finset.univ.filter fun f : FilePtr => ((s.ftable f).type = .inode ∨
      (s.ftable f).type = .device) ∧ (s.ftable f).ip = ip).card := by
  unfold users Count.occ
  congr 1
  refine Finset.filter_congr fun f _ => ?_
  simp only [comp_apply, fileUser]
  split <;> simp_all

theorem count_cwds (s : State) (ip : InodePtr) : (cwds s).count ip =
    (Finset.univ.filter fun p : Fin NPROC => (s.procs p).map Proc.cwd = some ip).card := by
  rw [cwds, Multiset.count_sum', Finset.card_filter]
  refine Finset.sum_congr rfl fun p _ => ?_
  cases (s.procs p).map Proc.cwd with
  | none => rfl
  | some jp =>
    change ({jp} : Multiset InodePtr).count ip = _
    rw [Multiset.count_singleton]
    simp only [Option.some.injEq, eq_comm]

/-- After every completed call of a run from a consistent image each entry of the inode table has as
many references as there are open files and current directories at it. -/
theorem table_counted {es : List (Fin NPROC × Event)} (h : Consistent sb d)
    (hr : run (fire sb) (boot d) es = some s) : TableCounted s := by
  obtain ⟨hinv, hlocks⟩ := fire_run h hr
  refine ⟨fun ip => ?_, hlocks, hinv.uniq⟩
  rw [hinv.refs, users_eq, count_cwds]

def execRun : List (Fin NPROC × Event) :=
  [(initproc, .call (.open (some pathA) 0)), (initproc, .exec (some pathA) fun _ => true),
    (initproc, .call (.chdir (some pathA))), (initproc, .call (.unlink (some nameB)))]

theorem execRun_isSome : (run (fire smallDisk) (boot smallImage) execRun).isSome = true := by
  decide +kernel

theorem table_counted_execRun : ∃ s, run (fire smallDisk) (boot smallImage) execRun = some s ∧
    TableCounted s := by
  obtain ⟨s, hs⟩ := Option.isSome_iff_exists.mp execRun_isSome
  exact ⟨s, hs, table_counted smallImage_consistent hs⟩

def dinode (sb : Superblock) (s : State) (i : ℕ) : Dinode :=
  readDinode (s.m.buf (sb.IBLOCK i)) (i % IPB)

theorem dinode_eq (hi : i < sb.ninodes) : dinode sb s i = (disk sb s).node i := readDinode_eq hi

theorem putDinode_sat (hi : i < sb.ninodes) (x : Dinode) :
    Sat (do
      storeBlock (sb.IBLOCK i) (writeDinode (s.m.buf (sb.IBLOCK i)) (i % IPB) x)
      logWrite sb (sb.IBLOCK i)) s (fun _ t => t.itable = s.itable ∧
        ∀ j, j ≠ i → (disk sb t).node j = (disk sb s).node j) Any := by
  refine storeBlock_bind ((logWrite_run sb _ _).mono ?_ fun _ _ => trivial)
  rintro _ t ⟨lh, rfl, -⟩
  refine ⟨rfl, fun j hj => ?_⟩
  have hd := congrFun (congrArg Vol.node (diskVol_dinode s.m.buf hi x)) j
  exact hd.trans (update_of_ne hj _ _)

theorem iget_inum (inum : ℕ) :
    Sat (iget inum) s (fun ip t => t.m = s.m ∧ (t.itable ip).inum = inum) Any := by
  unfold iget
  refine Sat.get_bind ?_
  split
  · rename_i ip hip
    refine getInode_bind ?_
    split
    · rename_i hr
      refine setInode_bind (Sat.pure ⟨rfl, ?_⟩)
      rw [setInode_self]
      obtain ⟨-, hnum⟩ | ⟨h0, -⟩ := findInode_some hip
      · exact hnum
      · omega
    · exact setInode_bind (Sat.pure ⟨rfl, by rw [setInode_self]⟩)
  · exact Sat.throw trivial

theorem iupdate_others (hi : (s.itable ip).inum < sb.ninodes) :
    Sat (iupdate sb ip) s (fun _ t => ∀ j, j ≠ (s.itable ip).inum →
      (disk sb t).node j = (disk sb s).node j) Any := by
  unfold iupdate
  exact getInode_bind (bread_bind ((putDinode_sat hi _).post fun _ _ ht => ht.2))

theorem iallocFrom_others {type : BitVec 16} {n inum : ℕ} :
    Sat (iallocFrom sb type n inum) s (fun ip t => ∀ j, j ≠ (t.itable ip).inum →
      (disk sb t).node j = (disk sb s).node j) Any := by
  induction n generalizing inum with
  | zero => exact Sat.throw trivial
  | succ n ih =>
    rw [iallocFrom]
    refine Sat.ite (fun hlt => bread_bind (Sat.ite (fun _ => ?_) fun _ => ih))
      fun _ => Sat.throw trivial
    rw [← bind_assoc]
    refine Sat.bind (putDinode_sat hlt { type := type }) ?_
    rintro _ t ⟨-, ht⟩
    refine (iget_inum inum).post ?_
    rintro ip u ⟨hm, hnum⟩ j hj
    rw [hnum] at hj
    have hd : (disk sb u).node j = (disk sb t).node j := by rw [disk, disk, hm]
    rw [hd, ht j hj]

/-- The copies in the table agree with the disk inodes, and of these a call changes only the ones it
locked. -/
structure InodesAgree (sb : Superblock) (s : State) : Prop where
  copy : ∀ ip, 0 < (s.itable ip).ref → (s.itable ip).valid = true →
    (s.itable ip).d = dinode sb s (s.itable ip).inum
  others : ∀ e t, fire sb { s with taken := [] } e = some t → ∀ i < sb.ninodes, i ∉ t.taken →
    dinode sb t i = dinode sb s i

/-- After every completed call of a run from a consistent image the inodes in memory and on the disk
agree; `iupdate` and `ialloc` leave the other inodes of a block as they were. -/
theorem inodes_agree {es : List (Fin NPROC × Event)} (h : Consistent sb d)
    (hr : run (fire sb) (boot d) es = some s) : InodesAgree sb s ∧
      (∀ u ip r, (u.itable ip).inum < sb.ninodes → iupdate sb ip u = .ok r →
        ∀ j < sb.ninodes, j ≠ (u.itable ip).inum → dinode sb r.2 j = dinode sb u j) ∧
      ∀ u type r, ialloc sb type u = .ok r →
        ∀ j < sb.ninodes, j ≠ (r.2.itable r.1).inum → dinode sb r.2 j = dinode sb u j := by
  obtain ⟨hinv, -⟩ := fire_run h hr
  refine ⟨⟨fun ip href hv => ?_, fun e t ht i hi htaken => ?_⟩, fun u ip r hi hu j hj hne => ?_,
    fun u type r hu j hj hne => ?_⟩
  · rw [dinode_eq (hinv.range ip href).2]
    exact hinv.sync ip _ ⟨href, rfl, hv⟩
  · have hinv' : Inv sb (cwds s) { s with taken := [] } := ⟨hinv.log, hinv.wf, hinv.uniq, hinv.range,
      hinv.sync, hinv.live, hinv.refs, hinv.ents, hinv.opened, hinv.idle⟩
    obtain ⟨-, hk⟩ := fire_inv hinv' ht
    rw [dinode_eq hi, dinode_eq hi]
    exact hk.leaves.node i htaken
  · rw [dinode_eq hj, dinode_eq hj]
    exact (iupdate_others hi).ok hu j hne
  · rw [dinode_eq hj, dinode_eq hj]
    exact iallocFrom_others.ok hu j hne

theorem inodes_agree_execRun : ∃ s, run (fire smallDisk) (boot smallImage) execRun = some s ∧
    InodesAgree smallDisk s := by
  obtain ⟨s, hs⟩ := Option.isSome_iff_exists.mp execRun_isSome
  exact ⟨s, hs, (inodes_agree smallImage_consistent hs).1⟩

end Xv6.Fs
