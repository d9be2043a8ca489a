import Xv6.Fs.FailSpec

/-! `sys_open` that fails. Nothing has changed then, except that with `O_CREATE` the file is made
before the tables are looked at: with a full table the call returns -1 and the new file stays. -/
namespace Xv6.Fs
open Bytes PartialRun List

variable {sb : Superblock} {s t u : State} {ip cwd : InodePtr} {i : ℕ} {H : Multiset InodePtr}
  {path : List Byte} {p : Fin NPROC} {x : Proc} {omode : BitVec 32} {f : FilePtr}

def Full (s : State) (x : Proc) : Prop :=
  (∀ f, (s.ftable f).ref ≠ 0) ∨ ∀ fd, x.ofile fd ≠ none

theorem filealloc_none (s : State) {E : Panic → Prop} :
    Sat filealloc s (fun r _ => r = none ↔ ∀ f, (s.ftable f).ref ≠ 0) E := by
  unfold filealloc
  refine Sat.get_bind ?_
  split
  · rename_i f hf
    have h0 : (s.ftable f).ref = 0 := by simpa using find?_some hf
    exact setFile_bind (Sat.pure ⟨nofun, fun hall => absurd h0 (hall f)⟩)
  · rename_i hnone
    refine Sat.pure ⟨fun _ f => ?_, fun _ => rfl⟩
    simpa using find?_eq_none.mp hnone f (mem_finRange f)

theorem fdalloc_none (hx : s.procs p = some x) {E : Panic → Prop} :
    Sat (fdalloc p f) s (fun r t => (r = none ↔ ∀ fd, x.ofile fd ≠ none) ∧ (r = none → t = s))
      E := by
  unfold fdalloc
  refine myproc_bind hx ?_
  split
  · rename_i fd hfd
    have h0 : x.ofile fd = none := by simpa using find?_some hfd
    unfold setFd
    rw [bind_assoc]
    exact myproc_bind hx ⟨⟨nofun, fun hall => absurd h0 (hall fd)⟩, nofun⟩
  · rename_i hnone
    refine Sat.pure ⟨⟨fun _ fd => ?_, fun _ => rfl⟩, fun _ => rfl⟩
    simpa using find?_eq_none.mp hnone fd (mem_finRange fd)

structure Aside (sb : Superblock) (H : Multiset InodePtr) (s t : State) : Prop where
  inv : Inv sb H t
  files : SameFiles s t
  users : ∀ jp, users t jp = users s jp
  rest : t = { s with ftable := t.ftable }

namespace Aside

theorem refl (h : Inv sb H s) : Aside sb H s s := ⟨h, .of_eq rfl, fun _ => rfl, rfl⟩

theorem steady {K : Multiset InodePtr} (h : Aside sb H s t) (hst : Steady sb K s) :
    Steady sb K t := by
  have hit : t.itable = s.itable := by rw [h.rest]
  have hF : Fs.files sb t = Fs.files sb s := by rw [h.rest]; rfl
  intro i ht hn
  rw [hF] at ht hn
  obtain ⟨jp, hjp, hi, hv⟩ := hst i ht hn
  exact ⟨jp, by rwa [h.users], by rwa [hit], by rwa [hit]⟩

theorem same (h : Aside sb H s t) : Same sb s t := by
  have hdisk : disk sb t = disk sb s := by rw [h.rest]; rfl
  refine ⟨hdisk, fun ip i hc => ?_, h.files, by rw [h.rest], fun _ x _ => by rw [h.rest]⟩
  rw [← hdisk]
  exact h.inv.sync ip i hc

end Aside

theorem Same.trans (h : Same sb s t) (h' : Same sb t u) : Same sb s u where
  cache := h'.cache.trans h.cache
  inodes ip i hc := by
    rw [← h.cache]
    exact h'.inodes ip i hc
  ftable f := by
    obtain ⟨hr, hf⟩ := h.ftable f
    obtain ⟨hr', hf'⟩ := h'.ftable f
    exact ⟨hr'.trans hr, fun h0 => (hf' (by rwa [hr])).trans (hf h0)⟩
  procs := h'.procs.trans h.procs
  cwd p x hx := (h'.cwd p x (by rw [h.procs]; exact hx)).trans (h.cwd p x hx)

theorem Inv.aside (h : Inv sb H s) (h0 : (s.ftable f).ref = 0) :
    Aside sb H s ((s.setFile f { s.ftable f with ref := 1 }).setFile f
      ((s.setFile f { s.ftable f with ref := 1 }).ftable f).closed) := by
  have hall : (s.setFile f { s.ftable f with ref := 1 }).setFile f
      ((s.setFile f { s.ftable f with ref := 1 }).ftable f).closed =
      s.setFile f (s.ftable f).closed := by
    rw [setFile_self]
    simp only [State.setFile, Function.update_idem]
    rfl
  have hold := h.idle f h0
  have hnew : fileUser (s.ftable f).closed = none := rfl
  rw [hall]
  have hmoved : Moved sb True True H H s (s.setFile f (s.ftable f).closed) :=
    h.sameUser (hnew.trans hold.symm) rfl fun _ => hnew
  refine ⟨hmoved.inv, fun g => ?_, fun jp => ?_, rfl⟩
  · rcases eq_or_ne g f with rfl | hne
    · rw [setFile_self]
      exact ⟨h0.symm, fun hr => absurd h0 hr⟩
    · rw [State.setFile]
      dsimp only
      rw [Function.update_of_ne hne]
      exact ⟨rfl, fun _ => rfl⟩
  · have := users_setFile s f (s.ftable f).closed jp
    rw [hold, hnew] at this
    omega

theorem openFile_fails {Q : State → Prop} (h : Inv sb (ip ::ₘ H) s) (hx : s.procs p = some x)
    (hbad : ∀ t, Aside sb (ip ::ₘ H) s t →
      Sat (openBad sb ip) t (fun r u => r = -1 ∧ Q u) fun _ => True) :
    Sat (openFile sb p ip omode) s (fun r t => (r = -1 → Q t) ∧
      ((s.itable ip).d.type ≠ T_DEVICE → (r = -1 ↔ Full s x))) fun _ => True := by
  have hquit : ∀ {c : Prop} {t : State}, c → Aside sb (ip ::ₘ H) s t →
      Sat (openBad sb ip) t (fun r t => (r = -1 → Q t) ∧ (r = -1 ↔ c)) fun _ => True :=
    fun hc ht => (hbad _ ht).post fun _ _ hr => ⟨fun _ => hr.2, fun _ => hc, fun _ => hr.1⟩
  unfold openFile
  refine getInode_bind (Sat.ite (fun hdev => ?_) fun _ => ?_)
  · exact (hquit trivial (.refl h)).post fun _ _ hr => ⟨hr.1, fun hne => absurd hdev.1 hne⟩
  refine Sat.bind ((filealloc_sat s (E := fun _ => True)).beside (filealloc_none s)) ?_
  rintro r t ⟨hr, hfull⟩
  cases r with
  | none =>
    obtain rfl := hr
    exact (hquit (.inl (hfull.mp rfl)) (.refl h)).post fun _ _ hr => ⟨hr.1, fun _ => hr.2⟩
  | some f =>
    obtain ⟨h0, rfl⟩ := hr
    have hroom : ¬ ∀ f, (s.ftable f).ref ≠ 0 := fun hall => hall f h0
    refine Sat.bind (fdalloc_none (s := s.setFile f _) hx) ?_
    rintro r t ⟨hfd, hsame⟩
    cases r with
    | none =>
      obtain rfl := hsame rfl
      have hnone : fileUser ((s.setFile f { s.ftable f with ref := 1 }).ftable f) = none := by
        rw [setFile_self]
        exact h.idle f h0
      refine Sat.bind (fileclose_fresh (by rw [setFile_self]) hnone) ?_
      rintro _ u rfl
      exact (hquit (.inr (hfd.mp rfl)) (h.aside h0)).post fun _ _ hr => ⟨hr.1, fun _ => hr.2⟩
    | some fd =>
      have hpos : (fd.val : ℤ) ≠ -1 := by omega
      have hspare : ¬ ∀ fd, x.ofile fd ≠ none := fun hall => by simpa using hfd.mpr hall
      refine getFile_bind (Sat.skip fun _ _ => Sat.skip fun _ _ => Sat.skip fun _ _ =>
        Sat.pure ⟨fun hr => absurd hr hpos, fun _ => ⟨fun hr => absurd hr hpos, fun hf => ?_⟩⟩)
      exact (hf.elim hroom hspare).elim

def Makes (F : ℕ → Node) (cwd : ℕ) (path : Option (List Byte)) (omode : BitVec 32) : Prop :=
  omode &&& O_CREATE ≠ 0 ∧ ∃ q, path = some q ∧ Creates F cwd q

theorem openInode_cases (h : Inv sb H s) (hst : Steady sb H s) (hr : 0 < (s.itable cwd).ref) :
    Sat (openInode sb cwd path omode) s (fun r t =>
      (Idle sb H (r.elim H (· ::ₘ H)) s t ∧
        ¬ Makes (files sb s) (s.itable cwd).inum (some path) omode) ∨
      (∃ ip, r = some ip ∧ Made sb H T_FILE ip s t) ∧
        Makes (files sb s) (s.itable cwd).inum (some path) omode) fun _ => True := by
  unfold openInode
  refine Sat.ite (fun hcreate => ?_) fun hno => ?_
  · refine (create_cases h hst hr (by decide)).post ?_
    rintro r t (⟨ht, hnot⟩ | ⟨hmade, hmakes⟩)
    · refine .inl ⟨ht, ?_⟩
      rintro ⟨-, q, hq, hc⟩
      cases hq
      exact hnot hc
    · exact .inr ⟨hmade, hcreate, path, rfl, hmakes⟩
  · have hnot : ¬ Makes (files sb s) (s.itable cwd).inum (some path) omode := fun hm => hno hm.1
    unfold namei
    rw [bind_assoc]
    refine Sat.bind (namex_idle h hst hr) ?_
    rintro r t ⟨ht, -⟩
    cases r with
    | none => exact Sat.pure (.inl ⟨ht, hnot⟩)
    | some y =>
      obtain ⟨ip, nm⟩ := y
      have ht' : Idle sb H (ip ::ₘ H) s t := ht
      rw [pure_bind, Option.map_some]
      refine Sat.bind (ilock_idle ht'.inv ht'.inv.ref_pos) ?_
      rintro _ u ⟨hu, -⟩
      have hsu : Idle sb H (ip ::ₘ H) s u := ht'.trans (hu.mono (Multiset.le_cons_self H ip))
      refine getInode_bind (Sat.ite (fun _ => ?_) fun _ => Sat.pure (.inl ⟨hsu, hnot⟩))
      exact Sat.bind (iunlockput_idle hu.inv (hsu.steady hst)) fun _ v hv =>
        Sat.pure (.inl ⟨hsu.trans hv, hnot⟩)

theorem Aside.openBad (h : Aside sb (ip ::ₘ H) s t) (hst : Steady sb H s)
    (hcwd : ∀ p x, s.procs p = some x → x.cwd ∈ H) :
    Sat (openBad sb ip) t (fun r u => r = -1 ∧ Inv sb H u ∧ Same sb s u) fun _ => True := by
  unfold Fs.openBad
  refine Sat.bind (iunlockput_idle h.inv (h.steady hst)) fun _ u hu => ?_
  exact Sat.pure ⟨rfl, hu.inv, h.same.trans (hu.same (by rw [h.same.procs]; exact hcwd))⟩

theorem Made.openBad (h : Made sb H T_FILE ip s t) (ht : Aside sb (ip ::ₘ H) t u) :
    Sat (openBad sb ip) u (fun r v => r = -1 ∧ Inv sb H v ∧ files sb v ≠ files sb s)
      fun _ => True := by
  obtain ⟨i, hc, hfree, htype, hlink⟩ := h.inode
  have hF : files sb u = files sb t := by rw [ht.rest]; rfl
  have hcu : Cached (u.itable ip) i := by rwa [ht.rest]
  have hmem := Multiset.mem_cons_self ip H
  unfold Fs.openBad iunlockput
  rw [bind_assoc]
  refine Sat.bind (iunlock_idle ht.inv) fun _ v hv => ?_
  have hlast : ¬ Last (v.itable ip) := by
    rintro ⟨-, -, h0⟩
    rw [hv.inv.nlink (hv.cached hmem hmem hcu), hv.files, hF, hlink] at h0
    cases h0
  refine Sat.bind (iput_idle hv.inv hlast) fun _ w hw => Sat.pure ⟨rfl, hw.inv, fun hfiles => ?_⟩
  rw [hw.files, hv.files, hF] at hfiles
  rw [hfiles, hfree] at htype
  exact absurd htype (by decide)

theorem openTx_cases (h : Inv sb H s) (hst : Steady sb H s) (hx : s.procs p = some x)
    (hcwd : ∀ p x, s.procs p = some x → x.cwd ∈ H) :
    Sat (openTx sb p path omode) s (fun r t => (r = -1 → Inv sb H t) ∧
      (¬ Makes (files sb s) (s.itable x.cwd).inum (some path) omode → r = -1 → Same sb s t) ∧
      (Makes (files sb s) (s.itable x.cwd).inum (some path) omode →
        (r = -1 ↔ Full s x) ∧ (r = -1 → files sb t ≠ files sb s))) fun _ => True := by
  unfold openTx
  refine myproc_bind hx (Sat.bind (openInode_cases h hst (h.ref_of_mem (hcwd p x hx))) ?_)
  rintro r u (⟨hu, hnot⟩ | ⟨⟨ip, rfl, hmade⟩, hmakes⟩)
  · cases r with
    | none => exact Sat.pure ⟨fun _ => hu.inv, fun _ _ => hu.same hcwd, fun hm => absurd hm hnot⟩
    | some ip =>
      refine (openFile_fails hu.inv (by rw [hu.frame.procs]; exact hx)
        (Q := fun v => Inv sb H v ∧ Same sb s v) fun v hv => ?_).post ?_
      · refine (hv.openBad (hu.steady hst) (by rw [hu.frame.procs]; exact hcwd)).post ?_
        exact fun _ _ hr => ⟨hr.1, hr.2.1, (hu.same hcwd).trans hr.2.2⟩
      · exact fun _ _ hr => ⟨fun h0 => (hr.1 h0).1, fun _ h0 => (hr.1 h0).2,
          fun hm => absurd hm hnot⟩
  · obtain ⟨i, hc, -, htype, -⟩ := hmade.inode
    refine (openFile_fails hmade.inv (by rw [hmade.frame.procs]; exact hx)
      fun v hv => hmade.openBad hv).post ?_
    rintro r v ⟨hbad, hfull⟩
    refine ⟨fun h0 => (hbad h0).1, fun hnot => absurd hmakes hnot,
      fun _ => ⟨?_, fun h0 => (hbad h0).2⟩⟩
    have := hfull (by rw [hmade.inv.dtype hc, htype]; decide)
    rwa [Full, hmade.frame.ftable] at this

theorem sysOpen_cases {path : Option (List Byte)} (h : Inv sb H s) (hst : Steady sb H s)
    (hx : s.procs p = some x) (hcwd : ∀ p x, s.procs p = some x → x.cwd ∈ H) :
    Sat (sysOpen sb p path omode) s (fun r t =>
      (¬ Makes (files sb s) (s.itable x.cwd).inum path omode → r = -1 → Same sb s t) ∧
      (Makes (files sb s) (s.itable x.cwd).inum path omode →
        (r = -1 ↔ Full s x) ∧ (r = -1 → ¬ Same sb s t))) fun _ => True := by
  cases path with
  | none => exact Sat.pure ⟨fun _ _ => .refl h, fun ⟨_, _, hq, _⟩ => nomatch hq⟩
  | some path =>
    unfold sysOpen transaction
    refine Sat.bind (beginOp_idle h) ?_
    rintro _ t ⟨ht, hit⟩
    have hprocs : ∀ p x, t.procs p = some x → x.cwd ∈ H := by rw [ht.frame.procs]; exact hcwd
    refine Sat.bind (openTx_cases ht.inv (ht.steady hst) (by rw [ht.frame.procs]; exact hx)
      hprocs) ?_
    rw [ht.files, hit, Full, ht.frame.ftable, ← Full]
    rintro r u ⟨hinv, hsame, hmakes⟩
    by_cases hr : r = -1
    · have hend := endOp_sat (hinv hr)
      by_cases hm : Makes (files sb s) (s.itable x.cwd).inum (some path) omode
      · refine Sat.bind (hend.weaken fun _ _ => trivial) ?_
        rintro _ v ⟨-, hv⟩
        refine Sat.pure ⟨fun hnot => absurd hm hnot, fun _ => ⟨(hmakes hm).1, fun _ hs => ?_⟩⟩
        refine (hmakes hm).2 hr (hv.files.symm.trans ?_)
        rw [files, hs.cache]
        rfl
      · have hsu := hsame hm hr
        refine Sat.bind (endOp_same (hinv hr) (.refl _ _) rfl (by rw [hsu.procs]; exact hprocs)) ?_
        exact fun _ v hv => Sat.pure ⟨fun _ _ => ((ht.same hcwd).trans hsu).trans hv,
          fun hm' => absurd hm' hm⟩
    · exact Sat.skip fun _ _ => Sat.pure ⟨fun _ h0 => absurd h0 hr,
        fun hm => ⟨(hmakes hm).1, fun h0 => absurd h0 hr⟩⟩

/-- A failed `sys_open` has changed nothing, except when it was to make the file and a table is
full. -/
theorem sysOpen_same_iff {path : Option (List Byte)} {r : ℤ} (h : Inv sb (cwds s) s)
    (hst : Steady sb (cwds s) s) (hx : s.procs p = some x)
    (hr : sysOpen sb p path omode s = .ok (r, t)) :
    (r = -1 → Same sb s t) ↔
      ¬ (Makes (files sb s) (s.itable x.cwd).inum path omode ∧ Full s x) := by
  obtain ⟨hnot, hmakes⟩ := (sysOpen_cases h hst hx fun _ _ hx => mem_cwds hx).ok hr
  refine ⟨fun hsame hm => ?_, fun hno hr => ?_⟩
  · obtain ⟨hfull, hchanged⟩ := hmakes hm.1
    have hneg := hfull.mpr hm.2
    exact hchanged hneg (hsame hneg)
  · refine hnot (fun hm => ?_) hr
    exact hno ⟨hm, (hmakes hm).1.mp hr⟩

/-- There is no `/x` to open. -/
theorem sysOpen_same_iff_missing : ∃ t,
    sysOpen smallDisk initproc (some pathX) O_RDWR (boot smallImage) = .ok (-1, t) ∧
    Same smallDisk (boot smallImage) t := by
  have hopen : (sysOpen smallDisk initproc (some pathX) O_RDWR
      (boot smallImage)).toOption.map Prod.fst = some (-1) := by decide +kernel
  obtain ⟨_, t, ht, rfl⟩ := Sat.of_toOption hopen
  have hgood : Good smallDisk True (boot smallImage) := good_boot smallImage_tree
  refine ⟨t, ht, (sysOpen_same_iff hgood.inv hgood.steady rfl ht).mpr ?_ rfl⟩
  rintro ⟨⟨hcreate, -⟩, -⟩
  exact hcreate (by decide)

def fullRun : List (Fin NPROC × Call) :=
  (initproc, .open (some pathA) 0) :: List.replicate 15 (initproc, .dup 0)

/-- It opens `/x` with `O_CREATE`: the call fails, and there is a new inode. -/
theorem not_sysOpen_same : ∃ s t, run (step smallDisk) (boot smallImage) fullRun = some s ∧
    sysOpen smallDisk initproc (some pathX) (O_CREATE ||| O_RDWR) s = .ok (-1, t) ∧
    ¬ Same smallDisk s t := by
  have hrun : (run (step smallDisk) (boot smallImage) fullRun).bind (fun s =>
      (sysOpen smallDisk initproc (some pathX) (O_CREATE ||| O_RDWR) s).toOption.map fun r =>
        (r.1, (files smallDisk s 4).type, (files smallDisk r.2 4).type)) =
      some (-1, 0, T_FILE) := by decide +kernel
  obtain ⟨s, hs, hopen⟩ := Option.bind_eq_some_iff.mp hrun
  obtain ⟨r, t, ht, hr⟩ := Sat.of_toOption hopen
  obtain ⟨rfl, hr⟩ := Prod.mk.inj hr
  obtain ⟨hbefore, hafter⟩ := Prod.mk.inj hr
  refine ⟨s, t, hs, ht, fun hsame => ?_⟩
  have hfiles : files smallDisk t = files smallDisk s := by rw [files, hsame.cache]; rfl
  dsimp only at hafter
  rw [hfiles, hbefore] at hafter
  exact absurd hafter (by decide)

end Xv6.Fs
