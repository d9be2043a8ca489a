import Xv6.Fs.TxPass

/-! What every call leaves behind, next to the files: no lock of its own, and every inode that it did
not lock as it was. -/
namespace Xv6.Fs
open Bytes
open Xv6.Log (BSIZE)

variable {sb : Superblock} {s t u : State} {ip : InodePtr} {H : Multiset InodePtr} {p : Fin NPROC}
  {x : Proc} {f : FilePtr} {path : List Byte} {α : Type}

structure Kept (sb : Superblock) (s t : State) : Prop where
  locks : locks t = locks s
  leaves : Leaves sb s t

def Any (_ : Panic) : Prop := True

theorem Kept.refl (s : State) : Kept sb s s := ⟨rfl, Leaves.of_m rfl (List.Subset.refl _)⟩

theorem Kept.trans (h : Kept sb s t) (h' : Kept sb t u) : Kept sb s u :=
  ⟨h'.locks.trans h.locks, h.leaves.trans h'.leaves⟩

theorem Quiet.kept (h : Quiet s t) : Kept sb s t :=
  ⟨h.2.2, Leaves.of_m h.1 (by rw [h.2.1]; exact List.Subset.refl _)⟩

theorem kept_of_itable (hm : t.m = s.m) (ht : t.taken = s.taken) (hi : t.itable = s.itable) :
    Kept sb s t := (quiet_of_itable hm ht hi).kept

theorem kept_of_pass {m : M α}
    (h : Sat m s (fun _ t => Pass sb False ∅ 0 (locks s) s t) (Fine False)) :
    Sat m s (fun _ t => Kept sb s t) Any :=
  h.mono (fun _ _ hp => ⟨hp.locks, hp.leaves⟩) fun _ _ => trivial

theorem Kept.andThen {m : M α} (h : Kept sb s t) (hm : Sat m t (fun _ u => Kept sb t u) Any) :
    Sat m t (fun _ u => Kept sb s u) Any := hm.mono (fun _ _ hu => h.trans hu) fun _ _ => trivial

theorem beginOp_kept (sb : Superblock) : Sat beginOp s (fun _ t => Kept sb s t) Any := by
  unfold beginOp
  exact Sat.get_bind (Sat.ite (fun _ => Sat.throw trivial) fun _ => kept_of_itable rfl rfl rfl)

theorem endOp_kept (hl : LogOk sb s.m) : Sat (endOp sb) s (fun _ t => Kept sb s t) Any := by
  unfold endOp
  refine Sat.get_bind (Sat.ite (fun _ => ?_) fun _ => kept_of_itable rfl rfl rfl)
  refine ⟨rfl, fun _ => commit_logOk hl, List.Subset.refl s.taken, fun i _ => ?_⟩
  exact congrArg (fun v : Vol => v.node i) (diskVol_commit hl)

theorem transaction_kept {body : M α} (h : Inv sb H s)
    (hbody : ∀ t, Step sb H H (files sb s) s t → t.itable = s.itable →
      Sat body t (fun _ u => Kept sb t u) Any) :
    Sat (transaction sb body) s (fun _ t => Kept sb s t) Any := by
  unfold transaction
  refine Sat.bind ((beginOp_sat h).beside (beginOp_kept sb)) ?_
  rintro _ t ⟨⟨hit, ht⟩, h1⟩
  refine Sat.bind (hbody t ht hit) fun r u h2 => ?_
  exact Sat.bind (endOp_kept (h2.leaves.log ht.inv.log)) fun _ v h3 =>
    Sat.pure ((h1.trans h2).trans h3)

theorem walk_kept {body : M α} (h : Inv sb H s) (hx : s.procs p = some x)
    (hbody : ∀ t, Inv sb H t → t.procs p = some x →
      Sat body t (fun _ u => Pass sb False ∅ 0 (locks t) t u) (Fine False)) :
    Sat (transaction sb body) s (fun _ t => Kept sb s t) Any :=
  transaction_kept h fun t ht _ =>
    kept_of_pass (hbody t ht.inv (by rw [ht.frame.procs, hx]))

theorem kept_of_procs (h : t = { s with procs := t.procs }) : Kept sb s t :=
  kept_of_itable (by rw [h]) (by rw [h]) (by rw [h])

theorem filedup_kept (sb : Superblock) (f : FilePtr) : Sat (filedup f) s (fun _ t => Kept sb s t) Any := by
  unfold filedup
  exact getFile_bind (Sat.ite (fun _ => Sat.throw trivial) fun _ => kept_of_itable rfl rfl rfl)

theorem fileclose_kept (h : Inv sb H s) :
    Sat (fileclose sb f) s (fun _ t => Kept sb s t) Any := by
  unfold fileclose
  refine getFile_bind (Sat.ite (fun _ => Sat.throw trivial) fun _ => Sat.ite
    (fun _ => kept_of_itable rfl rfl rfl) fun _ => setFile_bind (doIf_sat (fun ht => ?_)
      fun _ => kept_of_itable rfl rfl rfl))
  have h1 : Moved sb True True H ((s.ftable f).ip ::ₘ H) s _ := h.closed ht
  have hk : Kept sb s (s.setFile f (s.ftable f).closed) := kept_of_itable rfl rfl rfl
  refine hk.andThen (transaction_kept h1.inv fun t ht _ => kept_of_pass ?_)
  exact iputTx_pass nofun ht.inv nofun (Multiset.mem_cons_self _ _)

theorem fileread_kept (h : Inv sb H s) (dst : ℕ → Bool) (n : BitVec 32) (other : ℤ) :
    Sat (fileread sb f dst n other) s (fun _ t => Kept sb s t) Any := by
  unfold fileread
  refine getFile_bind (Sat.ite (fun _ => Sat.pure (.refl s)) fun _ => ?_)
  split
  · exact Sat.pure (.refl s)
  · exact Sat.pure (.refl s)
  · rename_i ht
    have hu : fileUser (s.ftable f) = some (s.ftable f).ip := if_pos (.inl ht)
    have hc := h.cached_file hu
    have hlock : Sat (ilock sb (s.ftable f).ip) s _ (Fine False) :=
      lock_pass (S := ∅) (k := 0) h hc.1 nofun nofun
    refine Sat.bind (hlock.weaken fun _ _ => trivial) ?_
    rintro _ t ⟨hst, hold, hfree, hp⟩
    refine Sat.bind (readi_sat (hst.inv.toLive hold.cached) dst _ n) ?_
    rintro r t ⟨rfl, -⟩
    -- `iunlock` ends both cases
    have hend : ∀ (v : State) (r : ℤ), v.m = t.m → v.taken = t.taken → v.itable = t.itable →
        Sat (do iunlock (s.ftable f).ip; return r) v (fun _ w => Kept sb s w) Any := by
      intro v r hm htk hit
      have hp' : Pass sb False ∅ 0 _ t v := (quiet_of_itable hm htk hit).pass nofun
      refine Sat.bind ((iunlock_pass sb hp'.room).weaken fun _ _ => trivial) ?_
      rintro _ w ⟨-, hw⟩
      rw [hp'.locks, hp.locks, update_unlock hfree] at hw
      exact Sat.pure ⟨hw.locks, (hp.leaves.trans hp'.leaves).trans hw.leaves⟩
    split
    · refine Sat.bind (R := fun _ v => v.m = t.m ∧ v.taken = t.taken ∧ v.itable = t.itable)
        (doIf_sat (fun _ => ⟨rfl, rfl, rfl⟩) fun _ => ⟨rfl, rfl, rfl⟩) ?_
      rintro _ v ⟨hm, htk, hit⟩
      exact hend v _ hm htk hit
    · exact hend t _ rfl rfl rfl
  · exact Sat.throw trivial

theorem filewriteLoop_kept {src : ℕ → Option Byte} {n fuel j : ℕ} (h : Inv sb H s)
    (hu : fileUser (s.ftable f) = some (s.ftable f).ip) (hw : (s.ftable f).writable = true) :
    Sat (filewriteLoop sb f src n fuel j) s (fun _ t => Kept sb s t) Any := by
  induction fuel generalizing s j with
  | zero => exact Sat.pure (.refl s)
  | succ fuel ih =>
    rw [filewriteLoop]
    refine Sat.ite (fun _ => ?_) fun _ => Sat.pure (.refl s)
    have htx : Sat (transaction sb (writeTx sb f (fun k => src (j + k)) (min (n - j) maxWrite))) s
        (fun _ t => Kept sb s t) Any := by
      refine transaction_kept h fun t ht _ => kept_of_pass (writeTx_pass False.elim ht.inv False.elim
        ((Nat.min_le_right _ _).trans (by decide)) ?_)
      rw [ht.frame.ftable]
      exact hu
    refine Sat.bind ((writeTx_sat True h hu hw).beside htx) ?_
    rintro r t ⟨⟨h1, hchunk⟩, hk⟩
    obtain ⟨hut, hwt⟩ := hchunk.open hu hw
    exact Sat.ite (fun _ => Sat.pure hk) fun _ => hk.andThen (ih h1.inv hut hwt)

theorem filewrite_kept (h : Inv sb H s) (src : ℕ → Option Byte) (n : BitVec 32) (other : ℤ) :
    Sat (filewrite sb f src n other) s (fun _ t => Kept sb s t) Any := by
  unfold filewrite
  refine getFile_bind (Sat.ite (fun _ => Sat.pure (.refl s)) fun hw => ?_)
  split
  · exact Sat.pure (.refl s)
  · exact Sat.pure (.refl s)
  · rename_i ht
    exact Sat.bind (filewriteLoop_kept h (if_pos (.inl ht)) (by simpa using hw))
      fun _ _ h1 => Sat.pure h1
  · exact Sat.throw trivial

variable {fds : List (Fin NOFILE)} (h : Inv sb H s)
include h

theorem forkFiles_kept {q : Fin NPROC} {y : Proc}
    (hx : s.procs p = some x) (hy : s.procs q = some y) :
    Sat (forkFiles p q fds) s (fun _ t => Kept sb s t) Any := by
  induction fds generalizing s x y with
  | nil => exact Sat.pure (.refl s)
  | cons fd fds ih =>
    rw [forkFiles]
    refine myproc_bind hx ?_
    split
    · refine Sat.bind ((filedup_sat True h).beside (filedup_kept sb _)) ?_
      rintro _ t ⟨h1, hk1⟩
      obtain ⟨y', hy', -⟩ := h1.dirs.proc hy
      refine Sat.bind (setFd_sat True h1.inv hy' fd _) ?_
      rintro _ u ⟨h2, hu⟩
      have h12 := h1.then h2
      obtain ⟨_, hx'', -⟩ := h12.dirs.proc hx
      obtain ⟨_, hy'', -⟩ := h12.dirs.proc hy
      exact (hk1.trans (kept_of_procs hu)).andThen (ih h12.inv hx'' hy'')
    · exact ih h hx hy

theorem fork_kept {q : Fin NPROC} (hx : s.procs p = some x)
    (hq : s.procs q = none) : Sat (fork p q) s (fun _ t => Kept sb s t) Any := by
  have hpq : p ≠ q := by
    rintro rfl
    rw [hx] at hq
    cases hq
  unfold fork
  refine myproc_bind hx (setProc_bind ?_)
  have hx1 : (s.setProc q (some { cwd := x.cwd })).procs p = some x := by
    rw [setProc_of_ne _ _ hpq, hx]
  have hk : Kept sb s (s.setProc q (some { cwd := x.cwd })) := kept_of_itable rfl rfl rfl
  refine Sat.bind (hk.andThen (forkFiles_kept (h.setProc q _) hx1 (setProc_self _ _ _))) ?_
  intro _ t h1
  have hdup : Sat (idup x.cwd) t (fun _ u => Quiet t u) (Fine False) := idup_quiet x.cwd
  exact Sat.bind (hdup.weaken fun _ _ => trivial) fun _ _ hu => Sat.pure (h1.trans hu.kept)

theorem closeAll_kept (hx : s.procs p = some x) :
    Sat (closeAll sb p fds) s (fun _ t => Kept sb s t) Any := by
  induction fds generalizing s x with
  | nil => exact Sat.pure (.refl s)
  | cons fd fds ih =>
    rw [closeAll]
    refine myproc_bind hx ?_
    split
    · refine Sat.bind ((fileclose_sat True h).beside (fileclose_kept h)) ?_
      rintro _ t ⟨h1, hk1⟩
      obtain ⟨x', hx', -⟩ := h1.dirs.proc hx
      refine Sat.bind (setFd_sat True h1.inv hx' fd none) ?_
      rintro _ u ⟨h2, hu⟩
      have h12 := h1.then h2
      obtain ⟨_, hx'', -⟩ := h12.dirs.proc hx
      exact (hk1.trans (kept_of_procs hu)).andThen (ih h12.inv hx'')
    · exact ih h hx

theorem exit_kept (hx : s.procs p = some x) (hcwd : x.cwd ∈ H) :
    Sat (exit sb p) s (fun _ t => Kept sb s t) Any := by
  unfold exit
  refine Sat.ite (fun _ => Sat.throw trivial) fun _ => ?_
  refine Sat.bind ((closeAll_sat True h hx).beside (closeAll_kept h hx)) ?_
  rintro _ t ⟨h1, hk1⟩
  obtain ⟨x', hx', hcwd'⟩ := h1.dirs.proc hx
  refine Sat.bind (walk_kept h1.inv hx' fun u hu hxu => ?_) fun _ u hk2 => setProc_bind
    (Sat.pure ((hk1.trans hk2).trans (kept_of_itable rfl rfl rfl)))
  exact myproc_bind hxu (iputTx_pass nofun hu nofun (by rwa [hcwd']))

theorem noPath_kept (r : α) : Sat (transaction sb (return r)) s (fun _ t => Kept sb s t) Any :=
  transaction_kept h fun t _ _ => Sat.pure (.refl t)

omit h

theorem call_kept (c : Call) (h : Inv sb H s) (hx : s.procs p = some x) (hcwd : x.cwd ∈ H)
    (hc : callable s p c = true) : Sat (call sb p c) s (fun _ t => Kept sb s t) Any := by
  cases c with
  | «open» path omode =>
    cases path with
    | none => exact Sat.pure (.refl s)
    | some path =>
      exact walk_kept h hx fun t ht hxt => openTx_pass (R := fun _ => True) nofun ht hxt hcwd nofun nofun omode
  | read fd dst n other =>
    refine Sat.bind (argfd_sat hx fd) ?_
    rintro r _ rfl
    split
    · exact Sat.pure (.refl _)
    · exact fileread_kept h dst n other
  | write fd src n other =>
    refine Sat.bind (argfd_sat hx fd) ?_
    rintro r _ rfl
    split
    · exact Sat.pure (.refl _)
    · exact filewrite_kept h src n other
  | mkdir path =>
    cases path with
    | none => exact noPath_kept h _
    | some path =>
      exact walk_kept h hx fun t ht hxt => makeTx_pass (R := fun _ => True) nofun ht hxt hcwd nofun nofun (by decide)
  | mknod path major minor =>
    cases path with
    | none => exact noPath_kept h _
    | some path =>
      exact walk_kept h hx fun t ht hxt => makeTx_pass (R := fun _ => True) nofun ht hxt hcwd nofun nofun (by decide)
  | link old new =>
    cases old with
    | none => exact Sat.pure (.refl s)
    | some old =>
      cases new with
      | none => exact Sat.pure (.refl s)
      | some new =>
        exact walk_kept h hx fun t ht hxt => linkTx_pass (R := fun _ => True) nofun ht hxt hcwd nofun nofun old new
  | unlink path =>
    cases path with
    | none => exact Sat.pure (.refl s)
    | some path =>
      exact walk_kept h hx fun t ht hxt => unlinkTx_pass (R := fun _ => True) nofun ht hxt hcwd nofun nofun path
  | close fd =>
    refine Sat.bind (argfd_sat hx fd) ?_
    rintro r _ rfl
    split
    · exact Sat.pure (.refl _)
    · refine Sat.bind (setFd_sat True h hx _ none) ?_
      rintro _ t ⟨h1, ht⟩
      exact Sat.bind ((kept_of_procs ht).andThen (fileclose_kept h1.inv))
        fun _ _ h2 => Sat.pure h2
  | dup fd =>
    refine Sat.bind (argfd_sat hx fd) ?_
    rintro r _ rfl
    split
    · exact Sat.pure (.refl _)
    · refine Sat.bind (fdalloc_sat True h hx) ?_
      rintro r t ⟨-, ht⟩
      have hk : Kept sb _ t := kept_of_procs ht
      split
      · exact Sat.pure hk
      · exact Sat.bind (hk.andThen (filedup_kept sb _)) fun _ _ h2 => Sat.pure h2
  | chdir path =>
    refine Sat.bind (R := fun _ t => Kept sb s t) ?_ fun r t hk => ?_
    · cases path with
      | none => exact noPath_kept h _
      | some path =>
        exact walk_kept h hx fun t ht hxt =>
          chdirTx_pass (R := fun _ => True) nofun ht hxt hcwd nofun nofun path
    · split
      · exact Sat.pure hk
      · exact hk.trans (kept_of_itable rfl rfl rfl)
  | fork q =>
    have hq : s.procs q = none := by simpa [callable] using (show _ ∧ _ by simpa [callable] using hc).2
    exact fork_kept h hx hq
  | exit => exact exit_kept h hx hcwd

end Xv6.Fs
