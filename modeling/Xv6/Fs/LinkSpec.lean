import Xv6.Fs.CreateSpec

/-! What `sys_link` and `sys_unlink` do to the files. -/
namespace Xv6.Fs
open Bytes Function

variable {sb : Superblock} {strict : Prop} {s t u : State} {ip dp cwd : InodePtr} {i d : ℕ}
  {H K : Multiset InodePtr} {name path old new : List Byte} {p : Fin NPROC} {x : Proc}

theorem myproc_bind {α : Type} {f : Proc → M α} {Q : α → State → Prop} {E : Panic → Prop}
    (hx : s.procs p = some x) (h : Sat (f x) s Q E) : Sat (myproc p >>= f) s Q E := by
  change Sat (f ((s.procs p).getD _)) s Q E
  rwa [hx]

def SameTree (F F' : ℕ → Node) : Prop :=
  ∀ j, (F' j).type = (F j).type ∧ (F' j).bytes = (F j).bytes

variable {F F' : ℕ → Node}

theorem SameTree.nents (h : SameTree F F') (j : ℕ) :
    (F' j).nents = (F j).nents := by rw [Node.nents, Node.nents, (h j).2]

theorem SameTree.ent (h : SameTree F F') (j k : ℕ) :
    (F' j).ent k = (F j).ent k := by rw [Node.ent, Node.ent, (h j).2]

theorem SameTree.lookup (h : SameTree F F') (j : ℕ) (name : List Byte) :
    (F' j).lookup name = (F j).lookup name := by
  simp only [Node.lookup, h.nents, h.ent]

theorem SameTree.noDangling (h : SameTree F F') (hF : NoDangling F) : NoDangling F' := by
  intro j hj k hk hne
  rw [(h j).1] at hj
  rw [h.nents] at hk
  rw [h.ent] at hne ⊢
  rw [(h _).1]
  exact hF j hj k hk hne

theorem SameTree.walkFrom (h : SameTree F F') (parent : Bool) (n j : ℕ) (path name : List Byte) :
    Fs.walkFrom F' parent n j path name = Fs.walkFrom F parent n j path name := by
  induction n generalizing j path name with
  | zero => rfl
  | succ n ih => simp only [Fs.walkFrom, h.lookup, h.ent, (h j).1, ih]

theorem SameTree.resolve (h : SameTree F F') (cwd : ℕ) (path : List Byte)
    (parent : Bool) : Fs.resolve F' cwd path parent = Fs.resolve F cwd path parent :=
  h.walkFrom parent _ _ _ _

theorem sameTree_setNlink (F : ℕ → Node) (i : ℕ) (n : BitVec 16) :
    SameTree F (update F i { F i with nlink := n }) := by
  intro j
  rw [update_apply]
  split
  · rename_i hj
    rw [hj]
    exact ⟨rfl, rfl⟩
  · exact ⟨rfl, rfl⟩

theorem Steady.setNlink {n : BitVec 16} (hst : Steady sb (ip ::ₘ H) s)
    (hc : Cached (s.itable ip) i) (h : Step sb (ip ::ₘ H) (ip ::ₘ H) (update (files sb s) i
      { files sb s i with nlink := n }) s t) : Steady sb (ip ::ₘ H) t := by
  have hmem := Multiset.mem_cons_self ip H
  intro j ht hn
  rcases eq_or_ne j i with rfl | hj
  · have hct := h.cached hmem hmem hc
    exact ⟨ip, mem_count hmem, hct.2.1, hct.2.2⟩
  · rw [h.files, update_of_ne hj] at ht hn
    exact (hst j ht hn).frame h.frame

theorem Safe.setNlink {n : BitVec 16} (hs : Safe sb H cwd s) (hcwd : cwd ∈ H)
    (hc : Cached (t.itable ip) i) (hsteady : Steady sb (ip ::ₘ H) t)
    (hf : Frame H s t) (ht : files sb t = files sb s)
    (h : Step sb (ip ::ₘ H) (ip ::ₘ H) (update (files sb t) i
      { files sb t i with nlink := n }) t u) : Safe sb (ip ::ₘ H) cwd u := by
  have hsame : SameTree (files sb s) (files sb u) := by
    rw [h.files, ht]
    exact sameTree_setNlink _ _ _
  have hnum : (u.itable cwd).inum = (s.itable cwd).inum :=
    (h.inum (Multiset.mem_cons_of_mem hcwd)).trans (hf.keep cwd (mem_count hcwd)).1
  refine ⟨hsteady.setNlink hc h, hsame.noDangling hs.entries, ?_, ?_⟩
  · rw [(hsame _).1]
    exact hs.root
  · rw [(hsame _).1, hnum]
    exact hs.cwd

theorem linkBad_sat (h : Inv sb (ip ::ₘ H) s) (hc : Cached (s.itable ip) i) :
    Sat (linkBad sb ip) s (fun _ u => ∃ t, Step sb (ip ::ₘ H) (ip ::ₘ H) (update
      (files sb s) i { files sb s i with nlink := (files sb s i).nlink - 1 }) s t ∧
      Step sb H H (dropped (files sb t) (t.itable ip)) t u) Mild := by
  have hmem := Multiset.mem_cons_self ip H
  have htype : (files sb s i).type ≠ 0 := by
    rw [files_type]
    exact h.live ip i hc
  unfold linkBad
  refine Sat.bind ((ilock_sat h h.ref_pos).weaken fun _ he =>
    he.mild (by rw [hc.2.1]; exact htype)) ?_
  rintro _ t ⟨ht, hct⟩
  rw [hc.2.1] at hct
  rw [← bind_assoc]
  refine Sat.bind (setNlink_sat (g := fun n => n - 1) ht.inv hct) ?_
  intro _ u hu
  rw [ht.files] at hu
  exact Sat.bind (iunlockput_sat hu.inv) fun _ v hv => Sat.pure ⟨u, ht.trans hu, hv⟩

def MayLink (strict : Prop) (F : ℕ → Node) (cwd : ℕ) (old new : List Byte) : Prop :=
  ∀ i nm, resolve F cwd old false = some (i, nm) → (F i).type ≠ T_DIR →
    ∀ d nm', resolve F cwd new true = some (d, nm') → (F d).lookup nm' = none →
      (F i).nlink.toInt < maxLink.toInt ∧ Enterable strict (F d) T_FILE

def raised (F : ℕ → Node) (i : ℕ) : ℕ → Node :=
  update F i { F i with nlink := (F i).nlink + 1 }

theorem lower_raised (F : ℕ → Node) (i : ℕ) : update (raised F i) i
    { raised F i i with nlink := (raised F i i).nlink - 1 } = F := by
  have hi : ({ raised F i i with nlink := (raised F i i).nlink - 1 } : Node) = F i := by
    simp only [raised, update_self, BitVec.add_sub_cancel]
  rw [hi, raised, update_idem, update_eq_self]

variable {ok : Prop}

theorem linkBad_done (h : Inv sb (ip ::ₘ H) t) (hc : Cached (t.itable ip) i)
    (hf : Frame H s t) (hF : Steady sb H s → files sb t = raised (files sb s) i) :
    Sat (linkBad sb ip) t (fun _ u => Done sb strict H H ok s u) Mild := by
  refine (linkBad_sat h hc).post ?_
  rintro _ v ⟨u, hu, hv⟩
  have hsu : Frame H s u := hf.trans (hu.frame.mono (Multiset.le_cons_self H ip))
  refine ⟨_, ⟨hv.inv, hsu.trans hv.frame, hv.files⟩, fun hst _ => ?_⟩
  have hFu : files sb u = files sb s := by rw [hu.files, hF hst, lower_raised]
  have hstu := hst.frame hsu hFu
  have hdr := hstu.dropped_eq hu.inv
  rw [hdr] at hv ⊢
  exact ⟨hstu.frame hv.frame hv.files, by rw [hFu]⟩

theorem change_link {k : ℕ} {f : Node} (hdir : (F d).type = T_DIR)
    (hname : (F d).lookup name = none) (hk : (F d).vacant k)
    (hset : SetEnt (F d) k (newEnt name i) f) (hpos : 0 < i) (hlt : i < sb.ninodes)
    (hnd : (F i).type ≠ T_DIR) (htype : (F i).type ≠ 0)
    (hroom : (F i).nlink.toInt < maxLink.toInt) (hent : Enterable strict (F d) T_FILE) :
    Change sb strict F (update (raised F i) d f) := by
  refine .enter hdir (fun hs => hent.ne_zero (.inl hs)) hname hk hset hpos hlt hnd htype hnd ?_ rfl
  intro hmax
  rw [hmax] at hroom
  exact absurd hroom (lt_irrefl _)

theorem Steady.setEnt {k : ℕ} {de : Dirent} {f : Node} (hst : Steady sb H t) (hf : Frame H t u)
    (hset : SetEnt (files sb t d) k de f) (hF : files sb u = update (files sb t) d f) :
    Steady sb H u := by
  refine hst.of_frame hf fun j htj hnj => ?_
  rw [hF] at htj hnj
  rcases eq_or_ne j d with rfl | hj
  · rw [update_self] at htj hnj
    obtain ⟨bs, rfl⟩ := hset.fields
    exact ⟨htj, hnj⟩
  · rw [update_of_ne hj] at htj hnj
    exact ⟨htj, hnj⟩

/-- What `sys_link` does in the directory `dp` of the new name. -/
theorem linkInto_sat (h : Inv sb (dp ::ₘ ip ::ₘ H) t) (hc : Cached (t.itable ip) i)
    (hd : (t.itable dp).inum = d) (hf : Frame H s t)
    (hF : Steady sb H s → files sb t = raised (files sb s) i)
    (hst : Steady sb H s → Steady sb (ip ::ₘ H) t)
    (hnd : Steady sb H s → (files sb s i).type ≠ T_DIR)
    (hsafe : Safe sb H cwd s → (files sb t d).type ≠ 0)
    (hok : Steady sb H s → ok → (files sb s d).lookup name = none →
      (files sb s i).nlink.toInt < maxLink.toInt ∧ Enterable strict (files sb s d) T_FILE) :
    Sat (do
      ilock sb dp
      let linked ← dirlink sb dp name i
      iunlockput sb dp
      if linked then do
        iput sb ip
        return 0
      else linkBad sb ip) t (fun _ u => Done sb strict H H ok s u) (SafeErr sb H cwd s) := by
  have hmem := Multiset.mem_cons_self ip H
  have hmem' : ip ∈ dp ::ₘ ip ::ₘ H := Multiset.mem_cons_of_mem hmem
  have hle := Multiset.le_cons_self H ip
  have hled := Multiset.le_cons_self (ip ::ₘ H) dp
  have hlt := (h.toLive hc).lt
  refine Sat.bind ((ilock_sat h h.ref_pos).weaken fun _ he => he.safeErr (hd.symm ▸ hsafe)) ?_
  rintro _ v ⟨hv, hcv⟩
  rw [hd] at hcv
  have hiv := hv.cached hmem' hmem' hc
  have hFv : Steady sb H s → files sb v = raised (files sb s) i := fun hs => hv.files.trans (hF hs)
  refine Sat.bind ((dirlink_sat name hv.inv hcv hlt).weaken fun _ he => he.safeErr) ?_
  rintro linked w ⟨hdir, hw⟩
  cases linked with
  | false =>
    obtain ⟨-, hw⟩ := hw
    refine Sat.bind ((iunlockput_sat hw.inv).weaken fun _ he => he.safeErr) fun _ z hz => ?_
    have htw : Frame (ip ::ₘ H) t w := (hv.frame.trans hw.frame).mono hled
    refine (linkBad_done hz.inv (hz.cached hmem hmem (hw.cached hmem' hmem' hiv))
      (hf.trans ((htw.trans hz.frame).mono hle)) fun hs => ?_).weaken fun _ he => he.safeErr
    have hstw := (hst hs).frame htw (hw.files.trans hv.files)
    rw [hz.files, hstw.dropped_eq hw.inv, hw.files, hFv hs]
  | true =>
    obtain ⟨hname, k, f, hk, hset, hw⟩ := hw
    refine Sat.bind ((iunlockput_sat hw.inv).weaken fun _ he => he.safeErr) fun _ z hz => ?_
    refine Sat.bind ((iput_sat hz.inv).weaken fun _ he => he.safeErr) fun _ a ha => ?_
    have hvw : Frame (ip ::ₘ H) v w := hw.frame.mono hled
    have htw : Frame (ip ::ₘ H) t w := (hv.frame.mono hled).trans hvw
    refine Sat.pure ⟨_, ⟨ha.inv, hf.trans (((htw.trans hz.frame).mono hle).trans ha.frame),
      ha.files⟩, fun hs hok' => ?_⟩
    have hstv := (hst hs).frame (hv.frame.mono hled) hv.files
    have hstw := hstv.setEnt hvw hset hw.files
    refine ⟨((hstw.mono hled).iput hw.inv hz).iput hz.inv ha, ?_⟩
    refine Relation.ReflTransGen.trans ?_ (dropped_changes hz.inv)
    rw [hz.files]
    refine Relation.ReflTransGen.trans (.single ?_) (dropped_changes hw.inv)
    have htype : (files sb v i).type ≠ 0 := by
      rw [files_type]
      exact hv.inv.live ip i hiv
    rw [hw.files]
    rw [hFv hs] at hdir hname hk hset htype ⊢
    have hne : d ≠ i := by
      rintro rfl
      rw [raised, update_self] at hdir
      exact hnd hs hdir
    rw [raised, update_self] at htype
    rw [raised, update_of_ne hne] at hdir hname hk hset
    obtain ⟨hroom, hent⟩ := hok hs hok' hname
    exact change_link hdir hname hk hset (hc.2.1 ▸ (h.range ip hc.1).1) hlt (hnd hs) htype hroom
      hent

theorem linkNew_sat (strict : Prop) (h : Inv sb (ip ::ₘ H) t) (hc : Cached (t.itable ip) i)
    (hcwd : cwd ∈ H) (hf : Frame H s t) (hF : Steady sb H s → files sb t = raised (files sb s) i)
    (hst : Steady sb H s → Steady sb (ip ::ₘ H) t)
    (hold : Steady sb H s → ∃ nm, resolve (files sb s) (s.itable cwd).inum old false = some (i, nm))
    (hnd : Steady sb H s → (files sb s i).type ≠ T_DIR)
    (hsafe : Safe sb H cwd s → Safe sb (ip ::ₘ H) cwd t) :
    Sat (do
      match ← nameiparent sb cwd new with
      | none => linkBad sb ip
      | some (dp, name) => do
        ilock sb dp
        let linked ← dirlink sb dp name i
        iunlockput sb dp
        if linked then do
          iput sb ip
          return 0
        else linkBad sb ip) t (fun _ u => Done sb strict H H
      (MayLink strict (files sb s) (s.itable cwd).inum old new) s u) (SafeErr sb H cwd s) := by
  have hmem := Multiset.mem_cons_self ip H
  have hle := Multiset.le_cons_self H ip
  refine Sat.bind ((namex_safe h (h.ref_of_mem (Multiset.mem_cons_of_mem hcwd))).weaken
    fun _ he => ⟨he.1, fun hs => he.2 (hsafe hs)⟩) ?_
  rintro r u ⟨F, hu, hFu⟩
  have hFu' : Steady sb H s → files sb u = files sb t := fun hs => by
    rw [hu.files, (hFu (hst hs)).1]
  have hsu : Frame H s u := hf.trans (hu.frame.mono hle)
  cases r with
  | none =>
    exact (linkBad_done hu.inv (hu.cached hmem hmem hc) hsu fun hs =>
      (hFu' hs).trans (hF hs)).weaken fun _ he => he.safeErr
  | some y =>
    obtain ⟨dp, name⟩ := y
    have hu' : Step sb (ip ::ₘ H) (dp ::ₘ ip ::ₘ H) F t u := hu
    have hres : Steady sb H s →
        resolve (files sb t) (t.itable cwd).inum new true = some ((u.itable dp).inum, name) :=
      fun hs => (hFu (hst hs)).2.symm
    refine linkInto_sat hu'.inv (hu'.cached hmem (Multiset.mem_cons_of_mem hmem) hc) rfl hsu
      (fun hs => (hFu' hs).trans (hF hs)) (fun hs => (hst hs).frame hu'.frame (hFu' hs)) hnd
      (fun hs => ?_) fun hs hok hname => ?_
    · rw [hFu' hs.steady]
      exact (hsafe hs).resolve (hres hs.steady)
    · obtain ⟨nm, hnm⟩ := hold hs
      refine hok i nm hnm (hnd hs) _ name ?_ hname
      rw [← hres hs, hF hs, (hf.keep cwd (mem_count hcwd)).1]
      exact ((sameTree_setNlink _ _ _).resolve _ _ _).symm

theorem done_same (h : Inv sb H t) (hf : Frame H s t)
    (hF : Steady sb H s → files sb t = files sb s) : Done sb strict H H ok s t :=
  ⟨_, ⟨h, hf, rfl⟩, fun hst _ => ⟨hst.frame hf (hF hst), by rw [hF hst]⟩⟩

theorem linkTx_sat (strict : Prop) (h : Inv sb H s) (hx : s.procs p = some x) (hcwd : x.cwd ∈ H) :
    Sat (linkTx sb p old new) s (fun _ t => Done sb strict H H
      (MayLink strict (files sb s) (s.itable x.cwd).inum old new) s t) (SafeErr sb H x.cwd s) := by
  unfold linkTx namei
  refine myproc_bind hx ?_
  rw [bind_assoc]
  refine Sat.bind (namex_safe h (h.ref_of_mem hcwd)) ?_
  rintro r u ⟨F, hu, hF⟩
  have hFu : Steady sb H s → files sb u = files sb s := fun hst => hu.files.trans (hF hst).1
  rw [pure_bind]
  cases r with
  | none => exact Sat.pure (done_same hu.inv hu.frame hFu)
  | some y =>
    obtain ⟨ip, nm⟩ := y
    have hu' : Step sb H (ip ::ₘ H) F s u := hu
    have hmem := Multiset.mem_cons_self ip H
    have hle := Multiset.le_cons_self H ip
    have hres : Steady sb H s →
        resolve (files sb s) (s.itable x.cwd).inum old false = some ((u.itable ip).inum, nm) :=
      fun hst => (hF hst).2.symm
    rw [Option.map_some]
    refine Sat.bind ((ilock_sat hu'.inv hu'.inv.ref_pos).weaken fun _ he =>
      he.safeErr fun hs => by
        rw [hFu hs.steady]
        exact hs.resolve (hres hs.steady)) ?_
    rintro _ v ⟨hv, hcv⟩
    have hsv : Frame H s v := hu'.frame.trans (hv.frame.mono hle)
    have hFv : Steady sb H s → files sb v = files sb s := fun hst => hv.files.trans (hFu hst)
    refine getInode_bind ?_
    rw [hv.inv.dtype hcv, hcv.2.1]
    refine Sat.ite (fun _ => ?_) fun hnd => ?_
    · refine Sat.bind ((iunlockput_sat hv.inv).weaken fun _ he => he.safeErr) fun _ w hw => ?_
      refine Sat.pure (done_same hw.inv (hsv.trans hw.frame) fun hst => ?_)
      rw [hw.files, (hst.frame hsv (hFv hst)).dropped_eq hv.inv, hFv hst]
    · rw [← bind_assoc]
      refine Sat.bind ((setNlink_sat (g := fun n => n + 1) hv.inv hcv).weaken
        fun _ he => he.safeErr) fun _ w hw => ?_
      refine Sat.bind ((iunlock_sat hw.inv).weaken fun _ he => he.safeErr) ?_
      rintro _ z ⟨-, hz⟩
      have hvz := hw.trans hz
      rw [hw.files] at hvz
      have hstv : Steady sb H s → Steady sb (ip ::ₘ H) v := fun hst =>
        (hst.frame hsv (hFv hst)).mono hle
      refine linkNew_sat strict hvz.inv (hvz.cached hmem hmem hcv) hcwd
        (hsv.trans (hvz.frame.mono hle)) (fun hst => ?_) (fun hst => (hstv hst).setNlink hcv hvz)
        (fun hst => ⟨nm, hres hst⟩) (fun hst => ?_) (fun hs => ?_)
      · rw [hvz.files, hFv hst]
        rfl
      · rwa [hFv hst] at hnd
      · exact hs.setNlink hcwd hcv (hstv hs.steady) hsv (hFv hs.steady) hvz

theorem unlinkBad_done (h : Inv sb (dp ::ₘ H) t) (hf : Frame H s t)
    (hF : Steady sb H s → files sb t = files sb s) :
    Sat (unlinkBad sb dp) t (fun _ u => Done sb strict H H ok s u) Mild := by
  unfold unlinkBad
  refine Sat.bind (iunlockput_sat h) fun _ u hu => Sat.pure ?_
  refine done_same hu.inv (hf.trans hu.frame) fun hst => ?_
  rw [hu.files, (hst.frame hf (hF hst)).dropped_eq h, hF hst]

theorem inUse_sat (h : Inv sb H s) (hc : Cached (s.itable ip) i) :
    Sat (inUse sb ip) s (fun r t => t = s ∧
      (r = false → (files sb s i).type = T_DIR → (files sb s i).bare)) Mild := by
  unfold inUse
  refine getInode_bind ?_
  rw [h.dtype hc]
  refine Sat.ite (fun _ => ?_) fun hnd => Sat.pure ⟨rfl, fun _ hd => absurd hd hnd⟩
  refine Sat.bind (isdirempty_sat ⟨nofun, nofun⟩ h hc) ?_
  rintro r t ⟨rfl, hr⟩
  refine Sat.pure ⟨rfl, fun hf _ => hr.mp ?_⟩
  simpa using hf

theorem removeEntry_sat (h : Inv sb H s) (hdp : dp ∈ H) (hcd : Cached (s.itable dp) d) {k : ℕ}
    (hk : k < (files sb s d).nents) {α : Type} {rest : M α} {isDir : Prop} [Decidable isDir]
    {Q : α → State → Prop} {E : Panic → Prop} (hE : ∀ e, Mild e → E e)
    (hrest : ∀ t f, SetEnt (files sb s d) k emptyEnt f →
      f.bytes.length = (files sb s d).bytes.length → Step sb H H (update (files sb s) d
        (if isDir then { f with nlink := f.nlink - 1 } else f)) s t → Sat rest t Q E) :
    Sat (do
      let r ← writeDe sb dp (k * direntSize) { inum := 0, name := List.replicate DIRSIZ 0 }
      if r ≠ direntSize then throw .unlinkWritei
      else do
        doIf isDir do
          modifyDinode dp fun d => { d with nlink := d.nlink - 1 }
          iupdate sb dp
        rest) s Q E := by
  have hlt : (0 : BitVec 16).toNat < sb.ninodes := (Nat.zero_le _).trans_lt sb.root_lt
  refine Sat.bind ((writeDe_sat h hcd List.length_replicate hlt
    (.inl hk)).weaken hE) ?_
  rintro r t (⟨rfl, rfl⟩ | ⟨rfl, f, hset, hlen, ht⟩)
  · exact Sat.ite (fun _ => Sat.throw (hE _ ⟨nofun, nofun⟩)) fun hne => absurd (by decide) hne
  · refine Sat.ite (fun hne => absurd rfl hne) fun _ => ?_
    rw [max_eq_left (lt_nents.mp hk)] at hlen
    refine Sat.bind (R := fun _ u => Step sb H H (update (files sb s) d
      (if isDir then { f with nlink := f.nlink - 1 } else f)) s u) ?_
      fun _ u hu => hrest u f hset hlen hu
    refine doIf_sat (fun hd => ?_) fun hd => ?_
    · rw [if_pos hd]
      have hc := ht.cached hdp hdp hcd
      have hfd : files sb t d = f := by rw [ht.files, update_self]
      refine ((setNlink_sat (g := fun n => n - 1) ht.inv hc).weaken hE).post ?_
      intro _ u hu
      rw [hfd, ht.files, update_idem] at hu
      exact ht.trans hu
    · rwa [if_neg hd]

structure MayUnlink (strict : Prop) (F : ℕ → Node) (cwd : ℕ) (path : List Byte) : Prop where
  other : ∀ d nm k, resolve F cwd path true = some (d, nm) → namecmp nm dot ≠ 0 →
    namecmp nm dotdot ≠ 0 → (F d).type = T_DIR → (F d).lookup nm = some k →
    ((F d).ent k).inum.toNat ≠ d
  leaf : strict → ∀ d nm k, resolve F cwd path true = some (d, nm) → (F d).lookup nm = some k →
    (F ((F d).ent k).inum.toNat).type = T_DIR → Childless F ((F d).ent k).inum.toNat

def unlinked (F : ℕ → Node) (i d : ℕ) (f : Node) : ℕ → Node :=
  withEntry F i { F i with nlink := (F i).nlink - 1 } d f

theorem unlinkEnd_sat {v : State} {f : Node}
    (h : Step sb (ip ::ₘ dp ::ₘ H) (ip ::ₘ dp ::ₘ H) (update (files sb v) d f) v t)
    (hcd : Cached (v.itable dp) d) (hci : Cached (v.itable ip) i) (hf : Frame H s v)
    (hF : Steady sb H s → files sb v = files sb s) (hne : Steady sb H s → ok → i ≠ d)
    (hch : Steady sb H s → ok → Change sb strict (files sb s) (unlinked (files sb s) i d f)) :
    Sat (do
      iunlockput sb dp
      modifyDinode ip fun d => { d with nlink := d.nlink - 1 }
      iupdate sb ip
      iunlockput sb ip
      return (0 : ℤ)) t (fun _ u => Done sb strict H H ok s u) Mild := by
  have hmem := Multiset.mem_cons_self ip H
  have hle := Multiset.le_cons_self H ip
  have hdmem : dp ∈ ip ::ₘ dp ::ₘ H := Multiset.mem_cons_of_mem (Multiset.mem_cons_self dp H)
  have himem : ip ∈ ip ::ₘ dp ::ₘ H := Multiset.mem_cons_self ip _
  have hlev : H ≤ ip ::ₘ dp ::ₘ H := (Multiset.le_cons_self H dp).trans (Multiset.le_cons_self _ ip)
  have hinv : Inv sb (dp ::ₘ ip ::ₘ H) t := by
    rw [Multiset.cons_swap]
    exact h.inv
  refine Sat.bind (iunlockput_sat hinv) ?_
  intro _ u hu
  have hct := h.cached himem himem hci
  have hcu := hu.cached hmem hmem hct
  rw [← bind_assoc]
  refine Sat.bind (setNlink_sat (g := fun n => n - 1) hu.inv hcu) ?_
  intro _ w hw
  refine Sat.bind (iunlockput_sat hw.inv) ?_
  intro _ y hy
  have hst : Frame H s t := hf.trans (h.frame.mono hlev)
  have hsw : Frame H s w := hst.trans ((hu.frame.trans hw.frame).mono hle)
  refine Sat.pure ⟨_, ⟨hy.inv, hsw.trans hy.frame, hy.files⟩, fun hs hok => ?_⟩
  -- the directory is still held while its entry is removed
  have hstt : Steady sb (dp ::ₘ ip ::ₘ H) t := by
    intro j htj hnj
    rcases eq_or_ne j d with rfl | hj
    · have hcdt := h.cached hdmem hdmem hcd
      exact ⟨dp, mem_count (Multiset.mem_cons_self dp _), hcdt.2.1, hcdt.2.2⟩
    · rw [h.files, update_of_ne hj, hF hs] at htj hnj
      exact ((hs j htj hnj).frame hst).mono (hle.trans (Multiset.le_cons_self _ dp))
  have hstw := (hstt.iput hinv hu).setNlink hcu hw
  refine ⟨hstw.iput hw.inv hy, ?_⟩
  refine Relation.ReflTransGen.trans ?_ (dropped_changes hw.inv)
  have hid := hne hs hok
  have hFt : files sb t = update (files sb s) d f := by rw [h.files, hF hs]
  have hui : files sb u i = files sb s i := by
    rw [hu.files, dropped]
    split
    · rw [(h.cached hdmem hdmem hcd).2.1, update_of_ne hid, hFt,
        update_of_ne hid]
    · rw [hFt, update_of_ne hid]
  refine (Relation.ReflTransGen.single (hch hs hok)).trans ?_
  rw [hw.files, hui, hu.files, dropped]
  split
  · rename_i hlast
    have hcdt := h.cached hdmem hdmem hcd
    have hn : f.nlink = 0 := by
      have := h.inv.nlink hcdt
      rw [hlast.2.2, hFt, update_self] at this
      exact this.symm
    refine .single ?_
    have hfree : Change sb strict (unlinked (files sb s) i d f)
        (update (unlinked (files sb s) i d f) d {}) :=
      .free (by rw [unlinked, withEntry, update_self, hn])
    have heq : update (unlinked (files sb s) i d f) d {} =
        update (update (files sb t) (t.itable dp).inum {}) i
          { files sb s i with nlink := (files sb s i).nlink - 1 } := by
      rw [hcdt.2.1, hFt, unlinked, withEntry, update_idem, update_idem,
        update_comm hid]
    rwa [heq] at hfree
  · have heq : unlinked (files sb s) i d f = update (files sb t) i
        { files sb s i with nlink := (files sb s i).nlink - 1 } := by
      rw [hFt, unlinked, withEntry, update_comm hid]
    rw [heq]

theorem unlinkTx_sat (strict : Prop) (h : Inv sb H s) (hx : s.procs p = some x)
    (hcwd : x.cwd ∈ H) :
    Sat (unlinkTx sb p path) s (fun _ t => Done sb strict H H
      (MayUnlink strict (files sb s) (s.itable x.cwd).inum path) s t) (SafeErr sb H x.cwd s) := by
  unfold unlinkTx nameiparent
  refine myproc_bind hx (Sat.bind (namex_safe h (h.ref_of_mem hcwd)) ?_)
  rintro r u ⟨F, hu, hF⟩
  have hFu : Steady sb H s → files sb u = files sb s := fun hst => hu.files.trans (hF hst).1
  cases r with
  | none => exact Sat.pure (done_same hu.inv hu.frame hFu)
  | some y =>
    obtain ⟨dp, name⟩ := y
    have hu' : Step sb H (dp ::ₘ H) F s u := hu
    have hmem := Multiset.mem_cons_self dp H
    have hle := Multiset.le_cons_self H dp
    set d := (u.itable dp).inum with hd
    have hres : Steady sb H s →
        resolve (files sb s) (s.itable x.cwd).inum path true = some (d, name) :=
      fun hst => (hF hst).2.symm
    refine Sat.bind ((ilock_sat hu'.inv hu'.inv.ref_pos).weaken fun _ he =>
      he.safeErr fun hs => by
        rw [hFu hs.steady]
        exact hs.resolve (hres hs.steady)) ?_
    rintro _ v ⟨hv, hcv⟩
    rw [← hd] at hcv
    have hsv : Frame H s v := hu'.frame.trans (hv.frame.mono hle)
    have hFv : Steady sb H s → files sb v = files sb s := fun hst => hv.files.trans (hFu hst)
    refine Sat.ite (fun _ => (unlinkBad_done hv.inv hsv hFv).weaken fun _ he => he.safeErr)
      fun hdots => ?_
    rw [not_or] at hdots
    refine Sat.bind ((dirlookup_sat name hv.inv hcv).weaken fun _ he => he.safeErr) ?_
    rintro r w ⟨hdir, hr⟩
    split
    · obtain ⟨rfl, -⟩ := hr
      exact (unlinkBad_done hv.inv hsv hFv).weaken fun _ he => he.safeErr
    · rename_i ip off
      obtain ⟨k, hk, rfl, hw, hnum, -⟩ := hr
      obtain ⟨hk1, hk2, -⟩ := Node.of_lookup_some hk
      set i := ((files sb v d).ent k).inum.toNat with hi
      have himem := Multiset.mem_cons_self ip (dp ::ₘ H)
      have hlei := Multiset.le_cons_self (dp ::ₘ H) ip
      have hsw : Frame H s w := hsv.trans (hw.frame.mono hle)
      have hFw : Steady sb H s → files sb w = files sb s := fun hst => hw.files.trans (hFv hst)
      refine Sat.bind ((ilock_sat hw.inv hw.inv.ref_pos).weaken fun _ he =>
        he.safeErr fun hs => ?_) ?_
      · rw [hnum, hFw hs.steady, hi]
        rw [hFv hs.steady] at hdir hk1 hk2 ⊢
        exact hs.entries d hdir k hk1 hk2
      rintro _ y ⟨hy, hcy⟩
      rw [hnum] at hcy
      have hsy : Frame H s y := hsw.trans (hy.frame.mono (hle.trans hlei))
      have hFy : Steady sb H s → files sb y = files sb s := fun hst => hy.files.trans (hFw hst)
      have hdy : Cached (y.itable dp) d :=
        hy.cached (Multiset.mem_cons_of_mem hmem) (Multiset.mem_cons_of_mem hmem)
          (hw.cached hmem (Multiset.mem_cons_of_mem hmem) hcv)
      refine getInode_bind (Sat.ite (fun _ => Sat.throw (Mild.safeErr ⟨nofun, nofun⟩))
        fun _ => ?_)
      refine Sat.bind ((inUse_sat hy.inv hcy).weaken fun _ he => he.safeErr) ?_
      rintro r z ⟨rfl, hbare⟩
      refine Sat.ite (fun _ => ?_) fun hr => ?_
      · refine Sat.bind ((iunlockput_sat hy.inv).weaken fun _ he => he.safeErr) ?_
        intro _ a ha
        refine (unlinkBad_done ha.inv (hsy.trans (ha.frame.mono hle)) fun hst => ?_).weaken
          fun _ he => he.safeErr
        rw [ha.files, ((hst.frame hsy (hFy hst)).mono hle).dropped_eq hy.inv, hFy hst]
      have hFz : files sb z = files sb v := by rw [hy.files, hw.files]
      rw [hy.inv.dtype hcy]
      refine removeEntry_sat hy.inv (Multiset.mem_cons_of_mem hmem) hdy (by rwa [hFz])
        (fun _ he => he.safeErr) fun a f hset _ ha => ?_
      refine (unlinkEnd_sat ha hdy hcy hsy hFy (fun hst hok => ?_) fun hst hok => ?_).weaken
        fun _ he => he.safeErr
      · rw [hi, hFv hst]
        rw [hFv hst] at hk hdir
        exact hok.other d name k (hres hst) hdots.1 hdots.2 hdir hk
      · have hfz := hFy hst
        rw [hfz] at hset hbare ⊢
        rw [hFv hst] at hk hdir hi
        rw [Bool.not_eq_true] at hr
        by_cases htd : (files sb s i).type = T_DIR
        · rw [if_pos htd]
          refine .rmdir hdir hk hdots.1 hdots.2 hi.symm hset htd (hbare hr htd) fun hs => ?_
          rw [hi]
          exact hok.leaf hs d name k (hres hst) hk (hi ▸ htd)
        · rw [if_neg htd]
          exact .unlink hdir hk hdots.1 hdots.2 hi.symm hset htd

end Xv6.Fs
