import Xv6.Fs.Idle
import Xv6.Fs.TreeRun

/-! Calls on the name space that fail: `sys_link`, `sys_unlink`, `sys_mkdir`, `sys_mknod` and
`sys_chdir` leave everything as it was when they return -1. -/
namespace Xv6.Fs
open Bytes List PartialRun

variable {sb : Superblock} {s t u : State} {ip dp cwd : InodePtr} {i d b : ℕ}
  {H K : Multiset InodePtr} {name path old new : List Byte} {p : Fin NPROC} {x : Proc}

theorem commit_disk {m : Log.Mach} (hl : LogOk sb m) (hb : sb.inodestart ≤ b) :
    (Log.commit sb.logstart m).disk b = if b ∈ m.lh then m.buf b else m.disk b := by
  obtain ⟨ws, hdisk, -, hws⟩ := commit_home hl
  rw [hdisk, hws b hb]

theorem diskVol_commit_disk {m : Log.Mach} (hl : LogOk sb m)
    (hlogged : ∀ b ∈ m.lh, ∃ i < sb.ninodes, b = sb.IBLOCK i)
    (hnode : (diskVol sb m.buf).node = (diskVol sb m.disk).node) :
    diskVol sb (Log.commit sb.logstart m).disk = diskVol sb m.disk := by
  have hout : ∀ b, sb.inodestart ≤ b → (∀ i < sb.ninodes, b ≠ sb.IBLOCK i) →
      (Log.commit sb.logstart m).disk b = m.disk b := fun b hb hne => by
    rw [commit_disk hl hb, if_neg]
    intro hmem
    obtain ⟨i, hi, heq⟩ := hlogged b hmem
    exact hne i hi heq
  simp only [diskVol, Vol.mk.injEq]
  refine ⟨funext fun b => ?_, funext fun i => ?_, funext fun b => ?_⟩
  · by_cases hb : b < sb.size
    · rw [hout _ (BBLOCK_range hb).1]
      intro i hi
      have := sb.IBLOCK_lt hi
      have := sb.BBLOCK_lt hb
      omega
    · simp [hb]
  · split
    · rename_i hi
      rw [commit_disk hl (IBLOCK_range hi).1]
      split
      · have := congrFun hnode i
        simpa only [diskVol, if_pos hi] using this
      · rfl
    · rfl
  · split
    · rename_i hb
      rw [hout _ (IsData.range hb).1]
      intro i hi
      have := sb.IBLOCK_lt hi
      have := sb.BBLOCK_lt hb.2
      have := hb.1
      omega
    · rfl

def SameFiles (s t : State) : Prop :=
  ∀ f, (t.ftable f).ref = (s.ftable f).ref ∧ ((s.ftable f).ref ≠ 0 → t.ftable f = s.ftable f)

theorem SameFiles.of_eq (h : t.ftable = s.ftable) : SameFiles s t := fun f => by
  rw [h]
  exact ⟨rfl, fun _ => rfl⟩

/-- The bitmap, the inodes and the data blocks in the cache, the inodes in the table, the open files,
and the processes with their descriptors and current directories are as they were. -/
structure Same (sb : Superblock) (s t : State) : Prop where
  cache : disk sb t = disk sb s
  inodes : ∀ ip i, Cached (t.itable ip) i → (t.itable ip).d = (disk sb s).node i
  ftable : SameFiles s t
  procs : t.procs = s.procs
  cwd : ∀ p x, s.procs p = some x → (t.itable x.cwd).inum = (s.itable x.cwd).inum

/-- What a failed call leaves as it was, also on the disk. -/
structure Unchanged (sb : Superblock) (s t : State) : Prop extends Same sb s t where
  written : diskVol sb t.m.disk = diskVol sb s.m.disk

structure Undone (sb : Superblock) (K H : Multiset InodePtr) (s t : State) : Prop where
  inv : Inv sb H t
  frame : Frame K s t
  cache : disk sb t = disk sb s
  written : t.m.disk = s.m.disk
  logged : ∀ b ∈ t.m.lh, ∃ i < sb.ninodes, b = sb.IBLOCK i

/-- A state between two calls: nothing is logged, and the inodes in the cache are those on the
disk. -/
structure Rest (sb : Superblock) (s : State) : Prop where
  log : s.m.lh = []
  nodes : (disk sb s).node = (diskVol sb s.m.disk).node

theorem Idle.undone (h : Idle sb K H s t) (hr : Rest sb s) : Undone sb K H s t where
  inv := h.inv
  frame := h.frame
  cache := h.disk
  written := by rw [h.m]
  logged b hb := by
    rw [h.m, hr.log] at hb
    exact absurd hb not_mem_nil

theorem Undone.idle {L : Multiset InodePtr} (h : Undone sb K H s t) (h' : Idle sb K L t u) :
    Undone sb K L s u where
  inv := h'.inv
  frame := h.frame.trans h'.frame
  cache := h'.disk.trans h.cache
  written := by rw [h'.m, h.written]
  logged := by
    rw [h'.m]
    exact h.logged

theorem Inv.same (h : Inv sb H t) (hf : Frame K s t) (hd : disk sb t = disk sb s)
    (hcwd : ∀ p x, s.procs p = some x → x.cwd ∈ K) : Same sb s t where
  cache := hd
  inodes ip i hc := by
    rw [← hd]
    exact h.sync ip i hc
  ftable := .of_eq hf.ftable
  procs := hf.procs
  cwd p x hx := (hf.keep _ (mem_count (hcwd p x hx))).1

theorem Idle.same (h : Idle sb K H s t) (hcwd : ∀ p x, s.procs p = some x → x.cwd ∈ K) :
    Same sb s t := h.inv.same h.frame h.disk hcwd

theorem endOp_same (h : Inv sb H t) (hf : Frame H s t) (hd : disk sb t = disk sb s)
    (hcwd : ∀ p x, s.procs p = some x → x.cwd ∈ H) :
    Sat (endOp sb) t (fun _ u => Same sb s u) fun _ => True := by
  have hcache : Sat (endOp sb) t (fun _ u => disk sb u = disk sb t) fun _ => True := by
    unfold endOp
    exact Sat.get_bind (Sat.ite (fun _ => diskVol_commit h.log) fun _ => rfl)
  refine ((endOp_sat h).beside hcache).post ?_
  rintro _ u ⟨⟨-, hu⟩, hcache⟩
  exact hu.inv.same (hf.trans hu.frame) (hcache.trans hd) hcwd

theorem Undone.endOp (h : Undone sb H H s t) (hr : Rest sb s)
    (hcwd : ∀ p x, s.procs p = some x → x.cwd ∈ H) :
    Sat (endOp sb) t (fun _ u => Unchanged sb s u) fun _ => True := by
  have hwritten : Sat (Fs.endOp sb) t (fun _ u => diskVol sb u.m.disk = diskVol sb s.m.disk)
      fun _ => True := by
    unfold Fs.endOp
    refine Sat.get_bind (Sat.ite (fun _ => ?_) fun _ => ?_)
    · have hnode : (diskVol sb t.m.buf).node = (diskVol sb t.m.disk).node := by
        have hc : diskVol sb t.m.buf = disk sb s := h.cache
        rw [hc, hr.nodes, h.written]
      have := diskVol_commit_disk h.inv.log h.logged hnode
      rw [h.written] at this
      exact this
    · change diskVol sb t.m.disk = _
      rw [h.written]
  exact ((endOp_same h.inv h.frame h.cache hcwd).beside hwritten).post
    fun _ _ hu => ⟨hu.1, hu.2⟩

def Fails (sb : Superblock) (s : State) (m : M ℤ) (t : State) : Prop :=
  Sat m t (fun r u => r = -1 → Unchanged sb s u) fun _ => True

theorem beginOp_idle (h : Inv sb H s) :
    Sat beginOp s (fun _ t => Idle sb H H s t ∧ t.itable = s.itable) fun _ => True := by
  have hm : Sat beginOp s (fun _ t => t.m = s.m) fun _ => True := by
    unfold beginOp
    exact Sat.get_bind (Sat.ite (fun _ => Sat.throw trivial) fun _ => rfl)
  refine ((beginOp_sat h).beside hm).post ?_
  rintro _ t ⟨⟨hit, ht⟩, hm⟩
  exact ⟨.of_step ht hm, hit⟩

theorem Same.refl (h : Inv sb H s) : Same sb s s :=
  ⟨rfl, h.sync, .of_eq rfl, rfl, fun _ _ _ => rfl⟩

theorem Unchanged.refl (h : Inv sb H s) : Unchanged sb s s := ⟨.refl h, rfl⟩

/-- The directory of the path is there, and the path is not. -/
def Creates (F : ℕ → Node) (cwd : ℕ) (path : List Byte) : Prop :=
  ∃ d nm, resolve F cwd path true = some (d, nm) ∧ (F d).lookup nm = none

structure Made (sb : Superblock) (H : Multiset InodePtr) (type : BitVec 16) (ip : InodePtr)
    (s t : State) : Prop where
  inv : Inv sb (ip ::ₘ H) t
  frame : Frame H s t
  inode : ∃ i, Cached (t.itable ip) i ∧ (files sb s i).type = 0 ∧ (files sb t i).type = type ∧
    (files sb t i).nlink = 1

theorem create_cases {type major minor : BitVec 16} (h : Inv sb H s) (hst : Steady sb H s)
    (hr : 0 < (s.itable cwd).ref) (htype : type ≠ 0) :
    Sat (create sb cwd path type major minor) s (fun r t =>
      (Idle sb H (r.elim H (· ::ₘ H)) s t ∧ ¬ Creates (files sb s) (s.itable cwd).inum path) ∨
      (∃ ip, r = some ip ∧ Made sb H type ip s t) ∧
        Creates (files sb s) (s.itable cwd).inum path) fun _ => True := by
  unfold create nameiparent
  refine Sat.bind (namex_idle h hst hr) ?_
  rintro r t ⟨ht, hres⟩
  cases r with
  | none =>
    refine Sat.pure (.inl ⟨ht, ?_⟩)
    rintro ⟨d, nm, hsome, -⟩
    rw [← hres] at hsome
    cases hsome
  | some y =>
    obtain ⟨dp, nm⟩ := y
    have ht' : Idle sb H (dp ::ₘ H) s t := ht
    have hle := Multiset.le_cons_self H dp
    refine Sat.bind (ilock_idle ht'.inv ht'.inv.ref_pos) ?_
    rintro _ u ⟨hu, hcu⟩
    have hsu : Idle sb H (dp ::ₘ H) s u := ht'.trans (hu.mono hle)
    refine Sat.bind (dirlookup_idle nm hu.inv hcu) ?_
    rintro r v ⟨⟨-, hv⟩, hm⟩
    split
    · rename_i jp off
      obtain ⟨k, hk, -, hv, -, -⟩ := hv
      have hthere : ¬ Creates (files sb s) (s.itable cwd).inum path := by
        rintro ⟨d, nm', hsome, hnone⟩
        rw [← hres] at hsome
        cases hsome
        rw [hsu.files, hnone] at hk
        cases hk
      have hinv : Inv sb (dp ::ₘ jp ::ₘ H) v := by
        rw [Multiset.cons_swap]
        exact hv.inv
      have hlej := Multiset.le_cons_self H jp
      have hsv : Idle sb H (jp ::ₘ dp ::ₘ H) s v := hsu.trans ((Idle.of_step hv hm).mono hle)
      refine Sat.bind (iunlockput_idle hinv ((hsv.steady hst).mono hlej)) ?_
      intro _ w hw
      have hsw : Idle sb H (jp ::ₘ H) s w := hsv.trans (hw.mono hlej)
      refine Sat.bind (ilock_idle hw.inv hw.inv.ref_pos) ?_
      rintro _ y ⟨hy, -⟩
      have hsy : Idle sb H (jp ::ₘ H) s y := hsw.trans (hy.mono hlej)
      refine getInode_bind (Sat.ite (fun _ => Sat.pure (.inl ⟨hsy, hthere⟩)) fun _ => ?_)
      exact Sat.bind (iunlockput_idle hy.inv (hsy.steady hst)) fun _ z hz =>
        Sat.pure (.inl ⟨hsy.trans hz, hthere⟩)
    · obtain ⟨rfl, hnone⟩ := hv
      refine Sat.bind ((createNew_sat True hu.inv hcu htype).weaken fun _ _ => trivial) ?_
      rintro ip w ⟨⟨i, hci, hfree, hnew⟩, F, hw, -⟩
      rw [hsu.files] at hfree hnone
      exact Sat.pure (.inr ⟨⟨ip, rfl, hw.inv, hsu.frame.trans hw.frame, i, hci, hfree, hnew⟩,
        _, nm, hres.symm, hnone⟩)

section
variable (h : Inv sb H s) (hst : Steady sb H s) (hrest : Rest sb s) (hx : s.procs p = some x)
  (hcwd : ∀ p x, s.procs p = some x → x.cwd ∈ H)

include h hrest hcwd in
theorem transaction_fails {α : Type} {a : α} {body : M α} (hbody : ∀ t, Idle sb H H s t →
    Sat body t (fun r u => r = a → Undone sb H H s u) fun _ => True) :
    Sat (transaction sb body) s (fun r u => r = a → Unchanged sb s u) fun _ => True := by
  unfold transaction
  refine Sat.bind (beginOp_idle h) fun _ t ht => Sat.bind (hbody t ht.1) fun r u hu => ?_
  by_cases hr : r = a
  · exact Sat.bind ((hu hr).endOp hrest hcwd) fun _ _ hv => Sat.pure fun _ => hv
  · exact Sat.skip fun _ _ => Sat.pure fun hra => absurd hra hr

include h hst hrest hx hcwd

theorem sysMake_fails {type major minor : BitVec 16} {path : Option (List Byte)}
    (htype : type ≠ 0) : Fails sb s (sysMake sb p path type major minor) s := by
  refine transaction_fails h hrest hcwd fun t ht => ?_
  cases path with
  | none => exact Sat.pure fun _ => ht.undone hrest
  | some path =>
    unfold makeTx
    refine myproc_bind (by rw [ht.frame.procs]; exact hx) (Sat.bind (create_cases ht.inv
      (ht.steady hst) (ht.inv.ref_of_mem (hcwd p x hx)) htype) ?_)
    intro r u hu
    cases r with
    | none =>
      rcases hu with ⟨hu, -⟩ | ⟨⟨ip, hip, -⟩, -⟩
      · exact Sat.pure fun _ => (ht.trans hu).undone hrest
      · cases hip
    | some jp => exact Sat.skip fun _ _ => Sat.pure nofun

omit h in
theorem chdirTx_fails {path : List Byte} (ht : Idle sb H H s t) :
    Sat (chdirTx sb p path) t (fun r u => r = none → Undone sb H H s u) fun _ => True := by
  unfold chdirTx namei
  refine myproc_bind (by rw [ht.frame.procs]; exact hx) ?_
  rw [bind_assoc]
  refine Sat.bind (namex_idle ht.inv (ht.steady hst) (ht.inv.ref_of_mem (hcwd p x hx))) ?_
  rintro r u ⟨hu, -⟩
  rw [pure_bind]
  cases r with
  | none => exact Sat.pure fun _ => (ht.trans hu).undone hrest
  | some y =>
    obtain ⟨jp, nm⟩ := y
    have hu' : Idle sb H (jp ::ₘ H) t u := hu
    refine Sat.bind (ilock_idle hu'.inv hu'.inv.ref_pos) ?_
    rintro _ v ⟨hv, -⟩
    have hsv : Idle sb H (jp ::ₘ H) s v :=
      (ht.trans hu').trans (hv.mono (Multiset.le_cons_self H jp))
    refine getInode_bind (Sat.ite (fun _ => ?_) fun _ => ?_)
    · exact Sat.bind (iunlockput_idle hv.inv (hsv.steady hst)) fun _ w hw =>
        Sat.pure fun _ => (hsv.trans hw).undone hrest
    · exact Sat.skip fun _ _ => Sat.skip fun _ _ => Sat.pure nofun

theorem sysChdir_fails {path : Option (List Byte)} : Fails sb s (sysChdir sb p path) s := by
  unfold sysChdir
  refine Sat.bind (transaction_fails (a := none) h hrest hcwd fun t ht => ?_) fun r u hu => ?_
  · cases path with
    | none => exact Sat.pure fun _ => ht.undone hrest
    | some path => exact chdirTx_fails hst hrest hx hcwd ht
  · cases r with
    | none => exact Sat.pure fun _ => hu rfl
    | some ip => exact Sat.skip fun _ _ => Sat.skip fun _ _ => Sat.pure nofun

omit h hx hcwd in
theorem unlinkBad_fails (h : Idle sb H (dp ::ₘ H) s t) :
    Sat (unlinkBad sb dp) t (fun r u => r = -1 → Undone sb H H s u) fun _ => True :=
  Sat.bind (iunlockput_idle h.inv (h.steady hst)) fun _ _ hu =>
    Sat.pure fun _ => (h.trans hu).undone hrest

theorem sysUnlink_fails {path : Option (List Byte)} : Fails sb s (sysUnlink sb p path) s := by
  cases path with
  | none => exact Sat.pure fun _ => .refl h
  | some path =>
    refine transaction_fails h hrest hcwd fun t ht => ?_
    unfold unlinkTx nameiparent
    refine myproc_bind (by rw [ht.frame.procs]; exact hx) ?_
    refine Sat.bind (namex_idle ht.inv (ht.steady hst) (ht.inv.ref_of_mem (hcwd p x hx))) ?_
    rintro r u ⟨hu, -⟩
    cases r with
    | none => exact Sat.pure fun _ => (ht.trans hu).undone hrest
    | some y =>
      obtain ⟨dp, nm⟩ := y
      have hu' : Idle sb H (dp ::ₘ H) t u := hu
      have hle := Multiset.le_cons_self H dp
      have hbad : ∀ {v}, Idle sb H (dp ::ₘ H) s v → Sat (unlinkBad sb dp) v
          (fun r u => r = -1 → Undone sb H H s u) fun _ => True := unlinkBad_fails hst hrest
      refine Sat.bind (ilock_idle hu'.inv hu'.inv.ref_pos) ?_
      rintro _ v ⟨hv, hcv⟩
      have hsv : Idle sb H (dp ::ₘ H) s v := (ht.trans hu').trans (hv.mono hle)
      refine Sat.ite (fun _ => hbad hsv) fun _ => ?_
      refine Sat.bind (dirlookup_idle nm hv.inv hcv) ?_
      rintro r w ⟨⟨-, hw⟩, hm⟩
      split
      · obtain ⟨rfl, -⟩ := hw
        exact hbad hsv
      · rename_i jp off
        obtain ⟨k, -, -, hw, -, -⟩ := hw
        have hlej := Multiset.le_cons_self (dp ::ₘ H) jp
        have hvw : Idle sb (dp ::ₘ H) (jp ::ₘ dp ::ₘ H) v w := .of_step hw hm
        refine Sat.bind (ilock_idle hw.inv hw.inv.ref_pos) ?_
        rintro _ y ⟨hy, hcy⟩
        have hvy := hvw.trans (hy.mono hlej)
        have hsy : Idle sb H (jp ::ₘ dp ::ₘ H) s y := hsv.trans (hvy.mono hle)
        refine getInode_bind (Sat.ite (fun _ => Sat.throw trivial) fun _ => ?_)
        refine Sat.bind ((inUse_sat hy.inv hcy).weaken fun _ _ => trivial) ?_
        rintro used z ⟨rfl, -⟩
        refine Sat.ite (fun _ => ?_) fun _ => ?_
        · exact Sat.bind (iunlockput_idle hy.inv ((hsy.steady hst).mono hle)) fun _ a ha =>
            hbad (hsy.trans (ha.mono hle))
        · -- from here on the call returns 0
          refine Sat.skip fun _ _ => Sat.ite (fun _ => Sat.throw trivial) fun _ => ?_
          exact Sat.skip fun _ _ => Sat.skip fun _ _ => Sat.skip fun _ _ => Sat.skip fun _ _ =>
            Sat.skip fun _ _ => Sat.pure nofun

end

structure Relinked (sb : Superblock) (i : ℕ) (n : BitVec 16) (s t : State) : Prop where
  cache : disk sb t = (disk sb s).setNode i { (disk sb s).node i with nlink := n }
  written : t.m.disk = s.m.disk
  logged : ∀ b ∈ t.m.lh, b ∈ s.m.lh ∨ b = sb.IBLOCK i

theorem logWrite_keeps (sb : Superblock) (b : ℕ) (s : State) :
    Sat (logWrite sb b) s (fun _ t => t.m.buf = s.m.buf ∧ t.m.disk = s.m.disk ∧
      ∀ c ∈ t.m.lh, c ∈ s.m.lh ∨ c = b) fun _ => True := by
  refine (logWrite_run sb b s).mono ?_ fun _ _ => trivial
  rintro _ t ⟨lh, rfl, ⟨rfl, -⟩ | ⟨rfl, -⟩⟩
  · exact ⟨rfl, rfl, fun _ => .inl⟩
  · refine ⟨rfl, rfl, fun c hc => ?_⟩
    exact (mem_append.mp hc).imp_right mem_singleton.mp

theorem setNlink_relinked {g : BitVec 16 → BitVec 16} (h : Inv sb H s)
    (hc : Cached (s.itable ip) i) :
    Sat (do
      modifyDinode ip fun d => { d with nlink := g d.nlink }
      iupdate sb ip) s (fun _ t => Step sb H H (Function.update (files sb s) i
        { files sb s i with nlink := g (files sb s i).nlink }) s t ∧
        Relinked sb i (g ((disk sb s).node i).nlink) s t) fun _ => True := by
  have hlt : i < sb.ninodes := (h.toLive hc).lt
  have hraw : Sat (do
      modifyDinode ip fun d => { d with nlink := g d.nlink }
      iupdate sb ip) s (fun _ t => Relinked sb i (g ((disk sb s).node i).nlink) s t)
      fun _ => True := by
    refine modifyDinode_bind ?_
    rw [h.sync ip i hc]
    unfold iupdate
    refine getInode_bind ?_
    rw [setD_d, show ((s.setD ip _).itable ip).inum = i from
      ((setD_cached s ip ip _ i).mpr hc).2.1]
    refine bread_bind (storeBlock_bind ((logWrite_keeps sb _ _).post ?_))
    rintro _ t ⟨hbuf, hdisk, hlh⟩
    refine ⟨?_, hdisk, hlh⟩
    rw [disk, hbuf]
    exact diskVol_dinode s.m.buf hlt _
  exact (setNlink_sat h hc).beside hraw

theorem Relinked.idle {n : BitVec 16} (h : Relinked sb i n s t) (h' : Idle sb K H t u) :
    Relinked sb i n s u where
  cache := h'.disk.trans h.cache
  written := by rw [h'.m, h.written]
  logged := by
    rw [h'.m]
    exact h.logged

theorem Idle.relinked {n : BitVec 16} (h : Idle sb K H s t) (h' : Relinked sb i n t u) :
    Relinked sb i n s u where
  cache := by rw [h'.cache, h.disk]
  written := by rw [h'.written, h.m]
  logged b hb := by
    rw [← h.m]
    exact h'.logged b hb

theorem linkBad_fails (h : Inv sb (ip ::ₘ H) t) (hc : Cached (t.itable ip) i) (hf : Frame H s t)
    (hre : Relinked sb i (((disk sb s).node i).nlink + 1) s t) (hst : Steady sb H s)
    (hrest : Rest sb s) :
    Sat (linkBad sb ip) t (fun r u => r = -1 → Undone sb H H s u) fun _ => True := by
  have hlt : i < sb.ninodes := (h.toLive hc).lt
  have hle := Multiset.le_cons_self H ip
  unfold linkBad
  refine Sat.bind (ilock_idle h h.ref_pos) ?_
  rintro _ u ⟨hu, hcu⟩
  rw [hc.2.1] at hcu
  rw [← bind_assoc]
  refine Sat.bind (setNlink_relinked (g := fun n => n - 1) hu.inv hcu) ?_
  rintro _ v ⟨hv, hrv⟩
  have hru := hre.idle hu
  have hback : disk sb v = disk sb s := by
    rw [hrv.cache, hru.cache, Vol.setNode_node_self, BitVec.add_sub_cancel]
    simp only [Vol.setNode, Function.update_idem, Function.update_eq_self]
  have hfv : Frame H s v := hf.trans ((hu.frame.trans hv.frame).mono hle)
  have hun : Undone sb H (ip ::ₘ H) s v := by
    refine ⟨hv.inv, hfv, hback, by rw [hrv.written, hru.written], fun b hb => ?_⟩
    rcases hrv.logged b hb with hb | hb
    · rcases hru.logged b hb with hb | hb
      · rw [hrest.log] at hb
        exact absurd hb not_mem_nil
      · exact ⟨i, hlt, hb⟩
    · exact ⟨i, hlt, hb⟩
  have hstv : Steady sb H v := hst.frame hfv (by rw [files, hback]; rfl)
  exact Sat.bind (iunlockput_idle hv.inv hstv) fun _ w hw => Sat.pure fun _ => hun.idle hw

theorem dirlink_idle (name : List Byte) (h : Inv sb H s) (hc : Cached (s.itable dp) d)
    (hi : i < sb.ninodes) :
    Sat (dirlink sb dp name i) s (fun r t => r = false → Idle sb H H s t) fun _ => True := by
  have hm : Sat (dirlink sb dp name i) s (fun r t => r = false → t.m = s.m) fun _ => True := by
    unfold dirlink
    refine Sat.bind (dirlookup_idle name h hc) ?_
    rintro r t ⟨⟨-, hr⟩, hm⟩
    split
    · rename_i jp off
      obtain ⟨k, -, -, hstep, -, hfresh⟩ := hr
      have hlast : ¬ Last (t.itable jp) := by
        rintro ⟨h1, h2, -⟩
        rw [hfresh h1] at h2
        cases h2
      exact Sat.bind (iput_idle hstep.inv hlast) fun _ u hu => Sat.pure fun _ => hu.m.trans hm
    · refine getInode_bind (Sat.skip fun _ _ => Sat.skip fun _ _ => ?_)
      exact Sat.ite (fun _ => Sat.throw trivial) fun _ => Sat.pure nofun
  refine ((dirlink_sat name h hc hi).beside hm).post ?_
  rintro r t ⟨⟨-, hr⟩, hm⟩ rfl
  exact .of_step hr.2 (hm rfl)

theorem sysLink_fails {old new : Option (List Byte)} (h : Inv sb H s) (hst : Steady sb H s)
    (hrest : Rest sb s) (hx : s.procs p = some x)
    (hcwd : ∀ p x, s.procs p = some x → x.cwd ∈ H) :
    Fails sb s (sysLink sb p old new) s := by
  cases old with
  | none => exact Sat.pure fun _ => .refl h
  | some old =>
    cases new with
    | none => exact Sat.pure fun _ => .refl h
    | some new =>
      refine transaction_fails h hrest hcwd fun t ht => ?_
      unfold linkTx namei nameiparent
      refine myproc_bind (by rw [ht.frame.procs]; exact hx) ?_
      rw [bind_assoc]
      refine Sat.bind (namex_idle ht.inv (ht.steady hst) (ht.inv.ref_of_mem (hcwd p x hx))) ?_
      rintro r u ⟨hu, -⟩
      rw [pure_bind]
      cases r with
      | none => exact Sat.pure fun _ => (ht.trans hu).undone hrest
      | some y =>
        obtain ⟨ip, nm⟩ := y
        have hu' : Idle sb H (ip ::ₘ H) t u := hu
        have hle := Multiset.le_cons_self H ip
        have hmem := Multiset.mem_cons_self ip H
        refine Sat.bind (ilock_idle hu'.inv hu'.inv.ref_pos) ?_
        rintro _ v ⟨hv, hcv⟩
        set i := (u.itable ip).inum
        have hsv : Idle sb H (ip ::ₘ H) s v := (ht.trans hu').trans (hv.mono hle)
        refine getInode_bind (Sat.ite (fun _ => ?_) fun _ => ?_)
        · exact Sat.bind (iunlockput_idle hv.inv (hsv.steady hst)) fun _ w hw =>
            Sat.pure fun _ => (hsv.trans hw).undone hrest
        rw [← bind_assoc]
        refine Sat.bind (setNlink_relinked (g := fun n => n + 1) hv.inv hcv) ?_
        rintro _ w ⟨hw, hrw⟩
        refine Sat.bind (iunlock_idle hw.inv) fun _ z hz => ?_
        have hcz := hz.cached hmem hmem (hw.cached hmem hmem hcv)
        have hfz : Frame H s z := hsv.frame.trans ((hw.frame.trans hz.frame).mono hle)
        have hrz : Relinked sb i (((disk sb s).node i).nlink + 1) s z := by
          have := (hsv.relinked hrw).idle hz
          rwa [hsv.disk] at this
        have hstz : Steady sb (ip ::ₘ H) z :=
          hz.steady (((hsv.steady hst).mono hle).setNlink hcv hw)
        have hbad : ∀ {y}, Idle sb (ip ::ₘ H) (ip ::ₘ H) z y → Sat (linkBad sb ip) y
            (fun r u => r = -1 → Undone sb H H s u) fun _ => True := fun hy =>
          linkBad_fails hy.inv (hy.cached hmem hmem hcz) (hfz.trans (hy.frame.mono hle))
            (hrz.idle hy) hst hrest
        refine Sat.bind (namex_idle hz.inv hstz (hz.inv.ref_of_mem
          (Multiset.mem_cons_of_mem (hcwd p x hx)))) ?_
        rintro r y ⟨hy, -⟩
        cases r with
        | none => exact hbad hy
        | some q =>
          obtain ⟨dp, name⟩ := q
          have hy' : Idle sb (ip ::ₘ H) (dp ::ₘ ip ::ₘ H) z y := hy
          have hled := Multiset.le_cons_self (ip ::ₘ H) dp
          refine Sat.bind (ilock_idle hy'.inv hy'.inv.ref_pos) ?_
          rintro _ a ⟨ha, hca⟩
          have hza := hy'.trans (ha.mono hled)
          rw [hcv.2.1]
          refine Sat.bind (dirlink_idle name ha.inv hca (hz.inv.toLive hcz).lt) ?_
          intro linked c hc
          cases linked with
          | false =>
            have hzc := hza.trans ((hc rfl).mono hled)
            exact Sat.bind (iunlockput_idle (hc rfl).inv (hzc.steady hstz)) fun _ e he =>
              hbad (hzc.trans he)
          | true =>
            exact Sat.skip fun _ _ => Sat.skip fun _ _ => Sat.pure nofun

def Call.OnNames : Call → Prop
  | .link _ _ | .unlink _ | .mkdir _ | .mknod _ _ _ | .chdir _ => True
  | _ => False

/-- A call on names that returns -1 has changed nothing. -/
theorem failed_unchanged {c : Call} (hc : c.OnNames) (h : Inv sb (cwds s) s)
    (hst : Steady sb (cwds s) s) (hrest : Rest sb s) (hx : s.procs p = some x)
    (hr : call sb p c s = .ok (-1, t)) : Unchanged sb s t := by
  have hcwd : ∀ p x, s.procs p = some x → x.cwd ∈ cwds s := fun p x hx => mem_cwds hx
  have hsat : Fails sb s (call sb p c) s := by
    cases c with
    | link old new => exact sysLink_fails h hst hrest hx hcwd
    | unlink path => exact sysUnlink_fails h hst hrest hx hcwd
    | mkdir path => exact sysMake_fails h hst hrest hx hcwd (by decide)
    | mknod path major minor => exact sysMake_fails h hst hrest hx hcwd (by decide)
    | chdir path => exact sysChdir_fails h hst hrest hx hcwd
    | _ => exact hc.elim
  exact hsat.ok hr rfl

def fileRun : List (Fin NPROC × Call) := [(initproc, .open (some pathX) O_CREATE)]

def fileState : State := (run (step smallDisk) (boot smallImage) fileRun).getD (boot smallImage)

theorem fileState_good : Good smallDisk True fileState := by
  have hsome : (run (step smallDisk) (boot smallImage) fileRun).isSome = true := by decide +kernel
  obtain ⟨s, hs⟩ := Option.isSome_iff_exists.mp hsome
  rw [fileState, hs, Option.getD_some]
  exact run_good smallImage_tree hs ⟨fun x _ _ d nm _ _ => ⟨fun h => absurd h (by decide),
    fun h => absurd h (by decide)⟩, fun _ _ => trivial⟩

/-- `/x` is a file, and linking it to itself takes back the link that was counted first. -/
theorem failed_unchanged_link : (files smallDisk fileState 4).type = T_FILE ∧
    resolve (files smallDisk fileState) ROOTINO pathX false = some (4, nameX) ∧
    ∃ t, call smallDisk initproc (.link (some pathX) (some pathX)) fileState = .ok (-1, t) ∧
      Unchanged smallDisk fileState t := by
  have heval : ((files smallDisk fileState 4).type = T_FILE ∧
      resolve (files smallDisk fileState) ROOTINO pathX false = some (4, nameX)) ∧
      (fileState.procs initproc).isSome = true ∧ fileState.m.lh = [] ∧
      (call smallDisk initproc (.link (some pathX) (some pathX)) fileState).toOption.map Prod.fst =
        some (-1) := by decide +kernel
  have hnode : ∀ i < 8, (disk smallDisk fileState).node i =
      (diskVol smallDisk fileState.m.disk).node i := by
    intro i hi
    refine Dinode.eq_of_fields ?_
    revert i
    decide +kernel
  obtain ⟨⟨htype, hres⟩, hproc, hlog, hcall⟩ := heval
  obtain ⟨x, hx⟩ := Option.isSome_iff_exists.mp hproc
  obtain ⟨_, t, ht, rfl⟩ := Sat.of_toOption hcall
  refine ⟨htype, hres, t, ht, failed_unchanged (c := .link (some pathX) (some pathX)) trivial
    fileState_good.inv fileState_good.steady ⟨hlog, funext fun i => ?_⟩ hx ht⟩
  by_cases hi : i < 8
  · exact hnode i hi
  · exact (if_neg hi).trans (if_neg hi).symm

end Xv6.Fs
