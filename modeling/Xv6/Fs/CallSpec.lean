import Xv6.Fs.FileSpec
import Mathlib.Algebra.BigOperators.Group.Finset.Basic
import Mathlib.Algebra.Order.Group.Multiset

/-! What each call does: the references that are left are those of open files and current
directories, and the files go through changes. -/
namespace Xv6.Fs
open Bytes

variable {sb : Superblock} {strict ok : Prop} {s t u : State} {ip : InodePtr} {i : ℕ}
  {H K : Multiset InodePtr} {p : Fin NPROC} {x : Proc} {f : FilePtr} {path : List Byte}

def dirOf (o : Option InodePtr) : Multiset InodePtr := o.elim 0 fun d => {d}

def cwds (s : State) : Multiset InodePtr := ∑ p, dirOf ((s.procs p).map Proc.cwd)

theorem SameDirs.cwds (h : SameDirs s t) : cwds t = cwds s :=
  Finset.sum_congr rfl fun q _ => by rw [h q]

theorem cwds_setProc (s : State) (p : Fin NPROC) :
    ∃ R, cwds s = dirOf ((s.procs p).map Proc.cwd) + R ∧
      ∀ v, cwds (s.setProc p v) = dirOf (v.map Proc.cwd) + R := by
  refine ⟨∑ q ∈ Finset.univ.erase p, dirOf ((s.procs q).map Proc.cwd), ?_, fun v => ?_⟩
  · exact (Finset.add_sum_erase _ (fun q => dirOf ((s.procs q).map Proc.cwd))
      (Finset.mem_univ p)).symm
  · rw [Fs.cwds, ← Finset.add_sum_erase _ _ (Finset.mem_univ p)]
    congr 1
    · rw [setProc_self]
    · exact Finset.sum_congr rfl fun q hq => by
        rw [setProc_of_ne _ _ (Finset.ne_of_mem_erase hq)]

theorem cwds_proc (hx : s.procs p = some x) : ∃ R, cwds s = x.cwd ::ₘ R ∧
    ∀ v, cwds (s.setProc p v) = dirOf (v.map Proc.cwd) + R := by
  obtain ⟨R, hR, h⟩ := cwds_setProc s p
  rw [hx] at hR
  exact ⟨R, hR, h⟩

theorem mem_cwds (hx : s.procs p = some x) : x.cwd ∈ cwds s := by
  obtain ⟨R, hR, -⟩ := cwds_proc hx
  rw [hR]
  exact Multiset.mem_cons_self _ _

structure Returns (sb : Superblock) (strict ok : Prop) (s t : State) : Prop where
  inv : Inv sb (cwds t) t
  entered : ∀ jp ∈ cwds t, (t.itable jp).valid = true ∨ (jp ∈ cwds s ∧
    (t.itable jp).inum = (s.itable jp).inum ∧
    ((s.itable jp).valid = true → (t.itable jp).valid = true))
  steady : Steady sb (cwds s) s → ok → Steady sb (cwds t) t ∧
    Changes sb strict (files sb s) (files sb t)

theorem Returns.mono {ok' : Prop} (h : Returns sb strict ok s t) (hok : ok' → ok) :
    Returns sb strict ok' s t := ⟨h.inv, h.entered, fun hst h' => h.steady hst (hok h')⟩

theorem Moved.returns (h : Moved sb strict ok (cwds s) (cwds s) s t) :
    Returns sb strict ok s t := by
  have hc := h.dirs.cwds
  refine ⟨by rw [hc]; exact h.inv, fun jp hj => ?_, by rw [hc]; exact h.steady⟩
  rw [hc] at hj
  exact .inr ⟨hj, h.keep jp hj hj⟩

theorem sysDup_sat (strict : Prop) (h : Inv sb H s) (hx : s.procs p = some x) (fd : ℕ) :
    Sat (sysDup p fd) s (fun _ t => Moved sb strict True H H s t) Mild := by
  unfold sysDup
  refine Sat.bind (argfd_sat hx fd) ?_
  rintro r _ rfl
  split
  · exact Sat.pure (.refl h)
  · refine Sat.bind (fdalloc_sat strict h hx) ?_
    rintro r t ⟨h1, -⟩
    split
    · exact Sat.pure h1
    · exact Sat.bind (filedup_sat strict h1.inv) fun _ _ h2 => Sat.pure (h1.then h2)

theorem sysRead_sat (strict : Prop) (h : Inv sb H s) (hx : s.procs p = some x) (fd : ℕ)
    (dst : ℕ → Bool) (n : BitVec 32) (other : ℤ) :
    Sat (sysRead sb p fd dst n other) s (fun _ t => Moved sb strict True H H s t) Mild := by
  unfold sysRead
  refine Sat.bind (argfd_sat hx fd) ?_
  rintro r _ rfl
  split
  · exact Sat.pure (.refl h)
  · exact fileread_sat strict h dst n other

theorem sysWrite_sat (strict : Prop) (h : Inv sb H s) (hx : s.procs p = some x) (fd : ℕ)
    (src : ℕ → Option Byte) (n : BitVec 32) (other : ℤ) :
    Sat (sysWrite sb p fd src n other) s (fun _ t => Moved sb strict True H H s t) Mild := by
  unfold sysWrite
  refine Sat.bind (argfd_sat hx fd) ?_
  rintro r _ rfl
  split
  · exact Sat.pure (.refl h)
  · exact filewrite_sat strict h src n other

theorem sysClose_sat (strict : Prop) (h : Inv sb H s) (hx : s.procs p = some x) (fd : ℕ) :
    Sat (sysClose sb p fd) s (fun _ t => Moved sb strict True H H s t) Mild := by
  unfold sysClose
  refine Sat.bind (argfd_sat hx fd) ?_
  rintro r _ rfl
  split
  · exact Sat.pure (.refl h)
  · refine Sat.bind (setFd_sat strict h hx _ none) ?_
    rintro _ t ⟨h1, -⟩
    exact Sat.bind (fileclose_sat strict h1.inv) fun _ _ h2 => Sat.pure (h1.then h2)

theorem openBad_sat (strict : Prop) (h : Inv sb (ip ::ₘ H) s) :
    Sat (openBad sb ip) s (fun _ t => Moved sb strict True (ip ::ₘ H) H s t) Mild := by
  unfold openBad
  exact Sat.bind (iunlockput_sat h) fun _ t ht => Sat.pure (moved_iput h ht)

theorem Inv.openedFile {y : File} (h : Inv sb (ip ::ₘ H) s) (hc : Cached (s.itable ip) i)
    (hfree : fileUser (s.ftable f) = none) (hy : fileUser y = some ip) (hr : y.ref ≠ 0)
    (hw : y.writable = true → (files sb s i).type ≠ T_DIR) :
    Moved sb strict ok (ip ::ₘ H) H s (s.setFile f y) := by
  refine h.setFile (fun jp => ?_) (fun jp hj => ?_) fun h0 => absurd h0 hr
  · have hu := users_setFile s f y jp
    rw [hfree, hy, if_neg (Option.some_ne_none jp).symm] at hu
    rcases eq_or_ne jp ip with rfl | hne
    · rw [if_pos rfl] at hu
      rw [Multiset.count_cons_self]
      omega
    · rw [if_neg fun he => hne (Option.some.inj he).symm] at hu
      rw [count_cons_ne hne]
      omega
  · rw [hy] at hj
    obtain rfl := Option.some.inj hj
    refine ⟨hc.2.2, ?_⟩
    rw [h.dtype hc]
    exact hw

theorem openEnd_sat (strict : Prop) {y : File} {c : Prop} [Decidable c] {r : ℤ}
    (h : Inv sb (ip ::ₘ H) s) (hc : Cached (s.itable ip) i)
    (hfree : fileUser (s.ftable f) = none) (hy : fileUser y = some ip) (hr : y.ref ≠ 0)
    (hw : y.writable = true → (files sb s i).type ≠ T_DIR)
    (hfile : c → (files sb s i).type = T_FILE) :
    Sat (do
      setFile f y
      doIf c (itrunc sb ip)
      iunlock ip
      return r) s (fun _ t => Moved sb strict True (ip ::ₘ H) H s t) Mild := by
  have h1 : Moved sb strict True (ip ::ₘ H) H s (s.setFile f y) :=
    h.openedFile hc hfree hy hr hw
  refine setFile_bind (Sat.bind (R := fun _ t => Moved sb strict True (ip ::ₘ H) H s t)
    (doIf_sat (fun hc' => ?_) fun _ => h1) fun _ t h2 => ?_)
  · have hc1 : Cached ((s.setFile f y).itable ip) i := hc
    refine (itrunc_sat (h1.inv.toLive hc1)).post ?_
    rintro _ t ⟨hput, -⟩
    rw [h1.inv.view] at hput
    have hnd : (files sb (s.setFile f y) i).type ≠ T_DIR := by
      change (files sb s i).type ≠ T_DIR
      rw [hfile hc']
      decide
    exact h1.then (moved_write hc1 h1.inv hnd (hput.step h1.inv (by rfl) (inRange_empty rfl)))
  · refine Sat.bind (iunlock_sat h2.inv) ?_
    rintro _ u ⟨-, hu⟩
    exact Sat.pure (h2.then (moved_step hu))

variable {omode : BitVec 32}

theorem openFile_sat (strict : Prop) (h : Inv sb (ip ::ₘ H) s)
    (hx : s.procs p = some x) (hc : Cached (s.itable ip) i)
    (hd : (files sb s i).type = T_DIR → omode = 0) :
    Sat (openFile sb p ip omode) s (fun _ t => Moved sb strict True (ip ::ₘ H) H s t) Mild := by
  unfold openFile
  refine getInode_bind ?_
  rw [h.dtype hc]
  refine Sat.ite (fun _ => openBad_sat strict h) fun _ => Sat.bind (filealloc_sat s) ?_
  intro r t hr
  cases r with
  | none =>
    obtain rfl := hr
    exact openBad_sat strict h
  | some f =>
    obtain ⟨h0, rfl⟩ := hr
    have hnone := h.idle f h0
    have h1 : Moved sb strict True (ip ::ₘ H) (ip ::ₘ H) s
        (s.setFile f { s.ftable f with ref := 1 }) := h.sameUser rfl rfl nofun
    refine Sat.bind (fdalloc_sat strict h1.inv hx) ?_
    rintro r t ⟨h2, ht⟩
    have h12 := h1.then h2
    cases r with
    | none =>
      refine Sat.bind (fileclose_sat strict h12.inv) fun _ u h3 => ?_
      exact (openBad_sat strict h3.inv).post fun _ v h4 => (h12.then h3).trans h4 fun _ _ hk => hk
    | some fd =>
      have hft : t.ftable f = { s.ftable f with ref := 1 } := by
        rw [ht]
        exact setFile_self _ _ _
      have hFt : files sb t = files sb s := by
        rw [ht]
        rfl
      refine getFile_bind ((openEnd_sat strict h12.inv (i := i) (by rw [ht]; exact hc) ?_ ?_ ?_ ?_
        ?_).post fun _ v h4 => h12.trans h4 fun _ _ hk => hk)
      · rw [hft]
        exact hnone
      · refine if_pos ?_
        dsimp only
        split
        · exact .inr rfl
        · exact .inl rfl
      · dsimp only
        rw [hft]
        exact one_ne_zero
      · intro hw htd
        rw [hFt] at htd
        rw [hd htd] at hw
        dsimp only at hw
        exact absurd hw (by decide)
      · rintro ⟨-, htf⟩
        rwa [hFt]

section
variable {α : Type} {body : M α} {cwd : InodePtr}

theorem enter_sat {Q : α → State → Prop} (h : Inv sb H s)
    (hbody : ∀ t, t.itable = s.itable → Step sb H H (files sb s) s t →
      Sat body t Q (SafeErr sb H cwd t))
    (hend : ∀ r u, Q r u → Sat (endOp sb) u (fun _ v => Q r v) Mild) :
    Sat (transaction sb body) s Q (SafeErr sb H cwd s) := by
  refine transaction_sat (fun _ he => he.safeErr) h (fun t hit ht => ?_) hend
  refine (hbody t hit ht).weaken fun _ he => ⟨he.1, fun hs => he.2 ?_⟩
  refine ⟨hs.steady.frame ht.frame ht.files, ?_, ?_, ?_⟩
  · rw [ht.files]
    exact hs.entries
  · rw [ht.files]
    exact hs.root
  · rw [ht.files, hit]
    exact hs.cwd

/-- The body of a transaction, from the state after `begin_op`, is the whole of it. -/
theorem enter_moved {A : (ℕ → Node) → ℕ → Prop} (h : Inv sb H s) (hx : s.procs p = some x)
    (hbody : ∀ t, Inv sb H t → t.procs p = some x → Sat body t (fun _ u => Moved sb strict
      (A (files sb t) (t.itable x.cwd).inum) H H t u) (SafeErr sb H x.cwd t)) :
    Sat (transaction sb body) s (fun _ t => Moved sb strict
      (A (files sb s) (s.itable x.cwd).inum) H H s t) (SafeErr sb H x.cwd s) := by
  refine enter_sat h (fun t hit ht => ?_) fun _ _ => Moved.endOp
  have hb := hbody t ht.inv (by rw [ht.frame.procs, hx])
  rw [ht.files, hit] at hb
  exact hb.post fun _ _ hu => (moved_step ht).then hu

end

theorem lookup_sat (strict : Prop) {α : Type} {k : InodePtr → M α} {k' : M α} {Q : α → State → Prop}
    {cwd : InodePtr} (h : Inv sb H s) (hr : 0 < (s.itable cwd).ref)
    (hk : ∀ ip t i, Done sb strict H (ip ::ₘ H) True s t → Cached (t.itable ip) i →
      Sat (k ip) t Q (SafeErr sb H cwd s))
    (hk' : ∀ t, Done sb strict H H True s t → Sat k' t Q (SafeErr sb H cwd s)) :
    Sat (do
      match ← namei sb cwd path with
      | none => k'
      | some ip => do
        ilock sb ip
        k ip) s Q (SafeErr sb H cwd s) := by
  unfold namei
  rw [bind_assoc]
  refine Sat.bind (namex_safe h hr) ?_
  rintro r t ⟨F, ht, hF⟩
  rw [pure_bind]
  have hFt : Steady sb H s → files sb t = files sb s := fun hst => ht.files.trans (hF hst).1
  have hst : Steady sb H s → Steady sb H t := fun hst => hst.frame ht.frame (hFt hst)
  cases r with
  | none =>
    refine hk' t ⟨_, ht, fun hs _ => ⟨hst hs, ?_⟩⟩
    rw [(hF hs).1]
  | some y =>
    obtain ⟨ip, nm⟩ := y
    have ht' : Step sb H (ip ::ₘ H) F s t := ht
    have hle := Multiset.le_cons_self H ip
    refine Sat.bind ((ilock_sat ht'.inv ht'.inv.ref_pos).weaken fun _ he =>
      he.safeErr fun hs => ?_) ?_
    · rw [hFt hs.steady]
      exact hs.resolve (hF hs.steady).2.symm
    · rintro _ u ⟨hu, hcu⟩
      refine hk ip u _ ⟨_, ⟨hu.inv, ht'.frame.trans (hu.frame.mono hle), rfl⟩, fun hs _ => ?_⟩ hcu
      refine ⟨((hst hs).frame (hu.frame.mono hle) hu.files).mono hle, ?_⟩
      rw [hu.files, hFt hs]

theorem openInode_sat (strict : Prop) {cwd : InodePtr} (h : Inv sb H s)
    (hr : 0 < (s.itable cwd).ref) :
    Sat (openInode sb cwd path omode) s (fun r t =>
      Moved sb strict (omode &&& O_CREATE ≠ 0 →
        MayEnter strict (files sb s) (s.itable cwd).inum path T_FILE) H (r.elim H (· ::ₘ H)) s t ∧
      ∀ ip, r = some ip → ∃ i, Cached (t.itable ip) i ∧
        ((files sb t i).type = T_DIR → omode = 0)) (SafeErr sb H cwd s) := by
  unfold openInode
  refine Sat.ite (fun hcr => ?_) fun _ => ?_
  · refine (create_sat strict h hr (by decide)).post ?_
    rintro r t ⟨h1, hip⟩
    refine ⟨h1.moved.mono fun hok => hok hcr, fun ip hr => ?_⟩
    obtain ⟨i, hc, hd⟩ := hip ip hr
    exact ⟨i, hc, fun htd => absurd htd (hd (by decide))⟩
  · refine lookup_sat strict h hr (fun ip t i h1 hc => ?_) fun t h1 =>
      Sat.pure ⟨h1.moved.weaken, nofun⟩
    have h1' := h1.moved
    refine getInode_bind ?_
    rw [h1'.inv.dtype hc]
    refine Sat.ite (fun _ => ?_) fun hne => Sat.pure ⟨h1'.weaken, ?_⟩
    · refine Sat.bind ((iunlockput_sat h1'.inv).weaken fun _ he => he.safeErr) ?_
      intro _ u hu
      exact Sat.pure ⟨(h1'.trans (moved_iput h1'.inv hu) fun _ hj _ =>
        Multiset.mem_cons_of_mem hj).weaken, nofun⟩
    · intro jp hj
      cases hj
      exact ⟨i, hc, fun htd => by_contra fun h0 => hne ⟨htd, h0⟩⟩

theorem openTx_sat (strict : Prop) (h : Inv sb H s) (hx : s.procs p = some x) (hcwd : x.cwd ∈ H) :
    Sat (openTx sb p path omode) s (fun _ t => Moved sb strict (omode &&& O_CREATE ≠ 0 →
      MayEnter strict (files sb s) (s.itable x.cwd).inum path T_FILE) H H s t)
      (SafeErr sb H x.cwd s) := by
  unfold openTx
  refine myproc_bind hx (Sat.bind (openInode_sat strict h (h.ref_of_mem hcwd)) ?_)
  rintro r u ⟨h1, hip⟩
  cases r with
  | none => exact Sat.pure h1
  | some ip =>
    obtain ⟨i, hc, hd⟩ := hip ip rfl
    obtain ⟨y, hy, -⟩ := h1.dirs.proc hx
    exact (openFile_sat strict h1.inv hy hc hd).mono (fun _ v h2 => h1.trans h2.weaken
      fun _ hj _ => Multiset.mem_cons_of_mem hj) fun _ he => he.safeErr

theorem makeTx_sat (strict : Prop) {type major minor : BitVec 16} (h : Inv sb H s)
    (hx : s.procs p = some x) (hcwd : x.cwd ∈ H) (htype : type ≠ 0) :
    Sat (makeTx sb p path type major minor) s (fun _ t => Moved sb strict
      (MayEnter strict (files sb s) (s.itable x.cwd).inum path type) H H s t)
      (SafeErr sb H x.cwd s) := by
  unfold makeTx
  refine myproc_bind hx (Sat.bind (create_sat strict h (h.ref_of_mem hcwd) htype) ?_)
  rintro r u ⟨h1, -⟩
  have h2 := h1.moved
  cases r with
  | none => exact Sat.pure h2
  | some ip =>
    exact Sat.bind ((iunlockput_sat h2.inv).weaken fun _ he => he.safeErr) fun _ v hv =>
      Sat.pure (h2.trans (moved_iput h2.inv hv) fun _ hj _ => Multiset.mem_cons_of_mem hj)

theorem chdirTx_sat (strict : Prop) {R : Multiset InodePtr} (h : Inv sb H s)
    (hx : s.procs p = some x) (hR : H = x.cwd ::ₘ R) :
    Sat (chdirTx sb p path) s (fun r t => Moved sb strict True H (r.elim H (· ::ₘ R)) s t ∧
      ∀ ip, r = some ip → (t.itable ip).valid = true) (SafeErr sb H x.cwd s) := by
  have hcwd : x.cwd ∈ H := hR ▸ Multiset.mem_cons_self _ _
  unfold chdirTx
  refine myproc_bind hx (lookup_sat strict h (h.ref_of_mem hcwd) (fun ip u i h1 hc => ?_)
    fun u h1 => Sat.pure ⟨h1.moved, nofun⟩)
  have h1 := h1.moved
  refine getInode_bind (Sat.ite (fun _ => ?_) fun _ => ?_)
  · exact Sat.bind ((iunlockput_sat h1.inv).weaken fun _ he => he.safeErr) fun _ v hv =>
      Sat.pure ⟨h1.trans (moved_iput h1.inv hv) fun _ hj _ => Multiset.mem_cons_of_mem hj, nofun⟩
  · refine Sat.bind ((iunlock_sat h1.inv).weaken fun _ he => he.safeErr) ?_
    rintro _ v ⟨-, hv⟩
    have h2 := h1.then (moved_step hv)
    have hinv := h2.inv
    have hcv := hv.cached (Multiset.mem_cons_self ip _) (Multiset.mem_cons_self ip _) hc
    rw [hR, Multiset.cons_swap] at hinv h2
    have hmem := Multiset.mem_cons_self ip R
    refine Sat.bind ((iput_sat hinv).weaken fun _ he => he.safeErr) fun _ w hw => Sat.pure ⟨?_, ?_⟩
    · rw [hR]
      exact h2.trans (moved_iput hinv hw) fun _ hj _ => Multiset.mem_cons_of_mem hj
    · rintro _ ⟨rfl⟩
      exact (hw.cached hmem hmem hcv).2.2

theorem sysChdir_sat (strict : Prop) (path : Option (List Byte)) (h : Inv sb (cwds s) s)
    (hx : s.procs p = some x) :
    Sat (sysChdir sb p path) s (fun _ t => Returns sb strict True s t)
      (SafeErr sb (cwds s) x.cwd s) := by
  obtain ⟨R, hR, -⟩ := cwds_proc hx
  refine Sat.bind (enter_sat (Q := fun r t => Moved sb strict True (cwds s)
    (r.elim (cwds s) (· ::ₘ R)) s t ∧ ∀ ip, r = some ip → (t.itable ip).valid = true) h
    (fun t hit ht => ?_) fun r u hu => ?_) ?_
  · cases path with
    | none => exact Sat.pure ⟨moved_step ht, nofun⟩
    | some path =>
      refine (chdirTx_sat strict ht.inv (by rw [ht.frame.procs, hx]) hR).post ?_
      exact fun r u hu => ⟨(moved_step ht).trans hu.1 fun _ _ hj => hj, hu.2⟩
  · refine (endOp_sat hu.1.inv).post ?_
    rintro _ v ⟨hit, hv⟩
    exact ⟨hu.1.then (moved_step hv), by rw [hit]; exact hu.2⟩
  · rintro r y ⟨h4, hvalid⟩
    cases r with
    | none => exact Sat.pure (h4.returns)
    | some ip =>
      obtain ⟨x', hx', hcwd'⟩ := h4.dirs.proc hx
      obtain ⟨R', hR', hset⟩ := cwds_proc hx'
      obtain rfl : R' = R := by
        rw [h4.dirs.cwds, hR, hcwd'] at hR'
        exact ((Multiset.cons_inj_right _).mp hR').symm
      refine myproc_bind hx' (setProc_bind (Sat.pure ?_))
      have hz : cwds (y.setProc p (some { x' with cwd := ip })) = ip ::ₘ R' := hset _
      refine ⟨by rw [hz]; exact h4.inv.setProc _ _, fun jp hj => ?_, by rw [hz]; exact h4.steady⟩
      rw [hz] at hj
      rcases Multiset.mem_cons.mp hj with rfl | hjR
      · exact .inl (hvalid jp rfl)
      · have hjs : jp ∈ cwds s := by
          rw [hR]
          exact Multiset.mem_cons_of_mem hjR
        exact .inr ⟨hjs, h4.keep jp hj hjs⟩

variable {fds : List (Fin NOFILE)}

theorem forkFiles_sat (strict : Prop) {q : Fin NPROC} {y : Proc}
    (h : Inv sb H s) (hx : s.procs p = some x) (hy : s.procs q = some y) :
    Sat (forkFiles p q fds) s (fun _ t => Moved sb strict True H H s t) Mild := by
  induction fds generalizing s x y with
  | nil => exact Sat.pure (.refl h)
  | cons fd fds ih =>
    rw [forkFiles]
    refine myproc_bind hx ?_
    split
    · refine Sat.bind (filedup_sat strict h) fun _ t h1 => ?_
      obtain ⟨y', hy', -⟩ := h1.dirs.proc hy
      refine Sat.bind (setFd_sat strict h1.inv hy' fd _) ?_
      rintro _ u ⟨h2, -⟩
      have h12 := h1.then h2
      obtain ⟨_, hx'', -⟩ := h12.dirs.proc hx
      obtain ⟨_, hy'', -⟩ := h12.dirs.proc hy
      exact (ih h12.inv hx'' hy'').post fun _ _ h3 => h12.then h3
    · exact ih h hx hy

theorem fork_sat (strict : Prop) {q : Fin NPROC} (h : Inv sb (cwds s) s)
    (hx : s.procs p = some x) (hq : s.procs q = none) :
    Sat (fork p q) s (fun _ t => Returns sb strict True s t) Mild := by
  have hpq : p ≠ q := by
    rintro rfl
    rw [hx] at hq
    cases hq
  unfold fork
  refine myproc_bind hx (setProc_bind ?_)
  have hs1 := h.setProc q (some { cwd := x.cwd })
  have hx1 : (s.setProc q (some { cwd := x.cwd })).procs p = some x := by
    rw [setProc_of_ne _ _ hpq, hx]
  refine Sat.bind (forkFiles_sat strict hs1 hx1 (setProc_self _ _ _)) fun _ t h1 => ?_
  refine Sat.bind (idup_sat h1.inv (h1.inv.ref_of_mem (mem_cwds hx))) ?_
  rintro _ u ⟨-, hu, -⟩
  have h2 : Moved sb strict True (cwds s) (x.cwd ::ₘ cwds s) t u :=
    Done.moved ⟨_, hu, fun hst _ =>
      ⟨(hst.frame hu.frame hu.files).mono (Multiset.le_cons_self _ _), .refl⟩⟩
  have h3 := h1.trans h2 fun _ _ hk => hk
  have hcwds : cwds u = x.cwd ::ₘ cwds s := by
    obtain ⟨R, hR, hset⟩ := cwds_setProc s q
    rw [hq] at hR
    have hR' : R = cwds s := by rw [hR]; exact (zero_add R).symm
    rw [h3.dirs.cwds, hset, hR']
    rfl
  refine Sat.pure ⟨by rw [hcwds]; exact h3.inv, fun jp hj => ?_, by rw [hcwds]; exact h3.steady⟩
  rw [hcwds] at hj
  have hjs : jp ∈ cwds s := by
    rcases Multiset.mem_cons.mp hj with rfl | hj
    · exact mem_cwds hx
    · exact hj
  exact .inr ⟨hjs, h3.keep jp hj hjs⟩

theorem closeAll_sat (strict : Prop) (h : Inv sb H s) (hx : s.procs p = some x) :
    Sat (closeAll sb p fds) s (fun _ t => Moved sb strict True H H s t) Mild := by
  induction fds generalizing s x with
  | nil => exact Sat.pure (.refl h)
  | cons fd fds ih =>
    rw [closeAll]
    refine myproc_bind hx ?_
    split
    · refine Sat.bind (fileclose_sat strict h) fun _ t h1 => ?_
      obtain ⟨x', hx', -⟩ := h1.dirs.proc hx
      refine Sat.bind (setFd_sat strict h1.inv hx' fd none) ?_
      rintro _ u ⟨h2, -⟩
      have h12 := h1.then h2
      obtain ⟨_, hx'', -⟩ := h12.dirs.proc hx
      exact (ih h12.inv hx'').post fun _ _ h3 => h12.then h3
    · exact ih h hx

theorem exit_sat (strict : Prop) (h : Inv sb (cwds s) s) (hx : s.procs p = some x) :
    Sat (exit sb p) s (fun _ t => Returns sb strict True s t) Mild := by
  obtain ⟨R, hR, -⟩ := cwds_proc hx
  unfold exit
  refine Sat.ite (fun _ => Sat.throw ⟨nofun, nofun⟩) fun _ => ?_
  refine Sat.bind (closeAll_sat strict h hx) fun _ t h1 => ?_
  refine Sat.bind (transaction_sat (Q := fun _ v => Moved sb strict True (cwds s) R s v)
    (fun _ he => he) h1.inv (fun u _ hu => ?_) fun _ _ => Moved.endOp) fun _ w h3 => ?_
  · have h2 := h1.then (moved_step hu)
    obtain ⟨x', hx', hcwd'⟩ := h2.dirs.proc hx
    have hinv := h2.inv
    rw [hR] at hinv h2 ⊢
    refine myproc_bind hx' ?_
    rw [hcwd']
    exact (iput_sat hinv).post fun _ v hv =>
      h2.trans (moved_iput hinv hv) fun _ hj _ => Multiset.mem_cons_of_mem hj
  obtain ⟨x'', hx'', hcwd''⟩ := h3.dirs.proc hx
  obtain ⟨R', hR', hset⟩ := cwds_proc hx''
  obtain rfl : R' = R := by
    rw [h3.dirs.cwds, hR, hcwd''] at hR'
    exact ((Multiset.cons_inj_right _).mp hR').symm
  have hz : cwds (w.setProc p none) = R' := (hset none).trans (zero_add R')
  refine setProc_bind (Sat.pure ⟨by rw [hz]; exact h3.inv.setProc _ _, fun jp hj => ?_,
    by rw [hz]; exact h3.steady⟩)
  rw [hz] at hj
  have hjs : jp ∈ cwds s := by
    rw [hR]
    exact Multiset.mem_cons_of_mem hj
  exact .inr ⟨hjs, h3.keep jp hj hjs⟩

/-- With `strict` a path that is removed names no directory that is the `..` of another one. -/
def MayRemove (strict : Prop) (F : ℕ → Node) (cwd : ℕ) (path : List Byte) : Prop :=
  strict → ∀ d nm k, resolve F cwd path true = some (d, nm) → (F d).lookup nm = some k →
    (F ((F d).ent k).inum.toNat).type = T_DIR → Childless F ((F d).ent k).inum.toNat

def Allowed (strict : Prop) (F : ℕ → Node) (cwd : ℕ) : Call → Prop
  | .open (some path) omode => omode &&& O_CREATE ≠ 0 → MayEnter strict F cwd path T_FILE
  | .mkdir (some path) => MayEnter strict F cwd path T_DIR
  | .mknod (some path) _ _ => MayEnter strict F cwd path T_DEVICE
  | .link (some old) (some new) => MayLink strict F cwd old new
  | .unlink (some path) => MayRemove strict F cwd path
  | _ => True

def NoSelf (F : ℕ → Node) : Prop :=
  ∀ d nm k, (F d).type = T_DIR → namecmp nm dot ≠ 0 → namecmp nm dotdot ≠ 0 →
    (F d).lookup nm = some k → ((F d).ent k).inum.toNat ≠ d

theorem call_sat (strict : Prop) (c : Call) (h : Inv sb (cwds s) s) (hx : s.procs p = some x)
    (hc : callable s p c = true) :
    Sat (call sb p c) s (fun _ t => Returns sb strict (NoSelf (files sb s) ∧
      Allowed strict (files sb s) (s.itable x.cwd).inum c) s t) (SafeErr sb (cwds s) x.cwd s) := by
  have hcwd := mem_cwds hx
  have hnone : Sat (transaction sb (return (-1 : ℤ))) s (fun _ t => Moved sb strict True (cwds s)
      (cwds s) s t) (SafeErr sb (cwds s) x.cwd s) :=
    enter_moved (A := fun _ _ => True) h hx fun _ ht _ => Sat.pure (.refl ht)
  cases c with
  | «open» path omode =>
    cases path with
    | none => exact Sat.pure (Moved.returns (.refl h))
    | some path =>
      exact (enter_moved (A := fun F c => omode &&& O_CREATE ≠ 0 → MayEnter strict F c path T_FILE)
        h hx fun _ ht hxt => openTx_sat strict ht hxt hcwd).post
          fun _ _ h1 => (h1.mono And.right).returns
  | read fd dst n other =>
    exact (sysRead_sat strict h hx fd dst n other).mono (fun _ _ h1 => h1.weaken.returns)
      fun _ he => he.safeErr
  | write fd src n other =>
    exact (sysWrite_sat strict h hx fd src n other).mono (fun _ _ h1 => h1.weaken.returns)
      fun _ he => he.safeErr
  | mkdir path =>
    cases path with
    | none => exact hnone.post fun _ _ h1 => h1.weaken.returns
    | some path =>
      exact (enter_moved (A := fun F c => MayEnter strict F c path T_DIR) h hx fun _ ht hxt =>
        makeTx_sat strict ht hxt hcwd (by decide)).post fun _ _ h1 => (h1.mono And.right).returns
  | mknod path major minor =>
    cases path with
    | none => exact hnone.post fun _ _ h1 => h1.weaken.returns
    | some path =>
      exact (enter_moved (A := fun F c => MayEnter strict F c path T_DEVICE) h hx fun _ ht hxt =>
        makeTx_sat strict ht hxt hcwd (by decide)).post fun _ _ h1 => (h1.mono And.right).returns
  | link old new =>
    cases old with
    | none => exact Sat.pure (Moved.returns (.refl h))
    | some old =>
      cases new with
      | none => exact Sat.pure (Moved.returns (.refl h))
      | some new =>
        exact (enter_moved (A := fun F c => MayLink strict F c old new) h hx fun _ ht hxt =>
          (linkTx_sat strict ht hxt hcwd).post fun _ _ h1 => h1.moved).post
            fun _ _ h1 => (h1.mono And.right).returns
  | unlink path =>
    cases path with
    | none => exact Sat.pure (Moved.returns (.refl h))
    | some path =>
      refine (enter_moved (A := fun F c => MayUnlink strict F c path) h hx fun _ ht hxt =>
        (unlinkTx_sat strict ht hxt hcwd).post fun _ _ h1 => h1.moved).post
          fun _ _ h1 => (h1.mono ?_).returns
      rintro ⟨hself, hremove⟩
      exact ⟨fun d nm k _ hdot hdotdot hdir hk => hself d nm k hdir hdot hdotdot hk, hremove⟩
  | close fd =>
    exact (sysClose_sat strict h hx fd).mono (fun _ _ h1 => h1.weaken.returns)
      fun _ he => he.safeErr
  | dup fd =>
    exact (sysDup_sat strict h hx fd).mono (fun _ _ h1 => h1.weaken.returns)
      fun _ he => he.safeErr
  | chdir path =>
    exact (sysChdir_sat strict path h hx).post fun _ _ h1 => h1.mono fun _ => trivial
  | fork q =>
    have hq : s.procs q = none := by simpa [callable, hx] using hc
    exact (fork_sat strict h hx hq).mono (fun _ _ h1 => h1.mono fun _ => trivial)
      fun _ he => he.safeErr
  | exit =>
    exact (exit_sat strict h hx).mono (fun _ _ h1 => h1.mono fun _ => trivial) fun _ he => he.safeErr

end Xv6.Fs
