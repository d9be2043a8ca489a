import Xv6.Fs.DirSpec

/-! Path names: `namex` finds what a walk through the directories finds, and as long as every
unlinked inode is in use by somebody it changes no file. -/
namespace Xv6.Fs
open Bytes List Multiset

def walkFrom (F : ℕ → Node) (parent : Bool) :
    ℕ → ℕ → List Byte → List Byte → Option (ℕ × List Byte)
  | 0, _, _, _ => none
  | n + 1, i, path, name =>
    match skipelem path with
    | none => if parent then none else some (i, name)
    | some (path, name) =>
      if (F i).type ≠ T_DIR then none
      else if parent = true ∧ path = [] then some (i, name)
      else
        match (F i).lookup name with
        | none => none
        | some k => walkFrom F parent n ((F i).ent k).inum.toNat path name

/-- The inode that a path names, or with `parent` the directory of its last element, with that
element; `cwd` is the inode of the current directory. -/
def resolve (F : ℕ → Node) (cwd : ℕ) (path : List Byte) (parent : Bool) :
    Option (ℕ × List Byte) :=
  walkFrom F parent (path.length + 1) (if path.head? = some slash then ROOTINO else cwd) path []

/-- Every entry in use names an allocated inode. -/
def NoDangling (F : ℕ → Node) : Prop :=
  ∀ d, (F d).type = T_DIR → ∀ k < (F d).nents, ((F d).ent k).inum ≠ 0 →
    (F ((F d).ent k).inum.toNat).type ≠ 0

variable {parent : Bool}

theorem walkFrom_alloc {F : ℕ → Node} {n i j : ℕ} {path name nm : List Byte}
    (h : NoDangling F) (hi : (F i).type ≠ 0)
    (hw : walkFrom F parent n i path name = some (j, nm)) : (F j).type ≠ 0 := by
  induction n generalizing i path name with
  | zero => cases hw
  | succ n ih =>
    rw [walkFrom] at hw
    split at hw
    · split at hw
      · cases hw
      · cases hw
        exact hi
    · rename_i rest nm' _
      split at hw
      · cases hw
      rename_i htype
      split at hw
      · cases hw
        exact hi
      split at hw
      · cases hw
      · rename_i k hk
        obtain ⟨h1, h2, -⟩ := Node.of_lookup_some hk
        exact ih (h i (not_not.mp htype) k h1 h2) hw

theorem length_dropWhile_le (p : Byte → Bool) (l : List Byte) :
    (l.dropWhile p).length ≤ l.length := (dropWhile_suffix p).length_le

theorem skipelem_lt {path rest name : List Byte} (h : skipelem path = some (rest, name)) :
    rest.length < path.length := by
  unfold skipelem at h
  dsimp only at h
  split at h
  · cases h
  · rename_i hne
    cases h
    have h1 := length_dropWhile_le (· = slash) path
    cases hp : path.dropWhile (· = slash) with
    | nil => exact absurd hp hne
    | cons c cs =>
      have hc : c ≠ slash := by
        have := head_dropWhile_not (p := fun x => decide (x = slash)) (l := path)
          (w := by rw [hp]; exact cons_ne_nil _ _)
        simpa [hp] using this
      have h2 := length_dropWhile_le (· = slash) ((c :: cs).dropWhile (· ≠ slash))
      have h3 := length_dropWhile_le (· ≠ slash) cs
      rw [hp] at h1
      rw [dropWhile_cons_of_pos (by simpa using hc)] at h2 ⊢
      simp only [length_cons] at h1
      omega

variable {sb : Superblock} {s t u : State} {ip : InodePtr} {i : ℕ} {H K : Multiset InodePtr}

def HeldBy (H : Multiset InodePtr) (s : State) (i : ℕ) : Prop :=
  ∃ ip, 0 < users s ip + H.count ip ∧ (s.itable ip).inum = i ∧ (s.itable ip).valid = true

/-- Every allocated inode without links is in use. -/
def Steady (sb : Superblock) (H : Multiset InodePtr) (s : State) : Prop :=
  ∀ i, (files sb s i).type ≠ 0 → (files sb s i).nlink = 0 → HeldBy H s i

theorem HeldBy.frame (h : HeldBy H s i) (hf : Frame H s t) : HeldBy H t i := by
  obtain ⟨ip, hip, hi, hv⟩ := h
  obtain ⟨h1, h2⟩ := hf.keep ip hip
  exact ⟨ip, by rwa [hf.users], h1.trans hi, h2 hv⟩

theorem HeldBy.mono (h : HeldBy H s i) (hK : H ≤ K) : HeldBy K s i := by
  obtain ⟨ip, hip, hi, hv⟩ := h
  have := count_le_of_le ip hK
  exact ⟨ip, by omega, hi, hv⟩

theorem Steady.mono (h : Steady sb H s) (hK : H ≤ K) : Steady sb K s :=
  fun i ht hn => (h i ht hn).mono hK

theorem Steady.frame (h : Steady sb H s) (hf : Frame H s t) (hF : files sb t = files sb s) :
    Steady sb H t := fun i ht hn => by
  rw [hF] at ht hn
  exact (h i ht hn).frame hf

theorem Inv.not_last (h : Inv sb (ip ::ₘ H) s)
    (hheld : (files sb s (s.itable ip).inum).type ≠ 0 →
      (files sb s (s.itable ip).inum).nlink = 0 → HeldBy H s (s.itable ip).inum) :
    ¬ Last (s.itable ip) := by
  rintro ⟨hr, hv, hn⟩
  have hc : Cached (s.itable ip) (s.itable ip).inum := ⟨h.ref_pos, rfl, hv⟩
  have htype : (files sb s (s.itable ip).inum).type ≠ 0 := by
    rw [files_type]
    exact h.live ip _ hc
  obtain ⟨jp, hjp, hji, hjv⟩ := hheld htype (by rw [← h.nlink hc, hn])
  have hjr : 0 < (s.itable jp).ref := by
    rw [h.refs]
    have := count_le_of_le jp (le_cons_self H ip)
    omega
  obtain rfl := h.uniq jp ip hjr h.ref_pos hji
  have := h.refs jp
  rw [Multiset.count_cons_self] at this
  omega

theorem Steady.not_last (hst : Steady sb H s) (h : Inv sb (ip ::ₘ H) s) :
    ¬ Last (s.itable ip) := h.not_last (hst _)

theorem iunlockput_sat (h : Inv sb (ip ::ₘ H) s) :
    Sat (iunlockput sb ip) s (fun _ t =>
      Step sb H H (dropped (files sb s) (s.itable ip)) s t) Mild := by
  unfold iunlockput
  refine Sat.bind (iunlock_sat h) ?_
  rintro _ t ⟨rfl, ht⟩
  refine (iput_sat ht.inv).post ?_
  intro _ u hu
  rw [ht.files, setInode_self] at hu
  exact (ht.mono (le_cons_self H ip)).trans hu

def Walked (sb : Superblock) (H : Multiset InodePtr) (w : Option (ℕ × List Byte)) (s : State)
    (r : Option (InodePtr × List Byte)) (t : State) : Prop :=
  ∃ F, Step sb H (r.elim H fun x => x.1 ::ₘ H) F s t ∧ (Steady sb H s → F = files sb s ∧
    r.map (fun x => ((t.itable x.1).inum, x.2)) = w)

def WalkErr (sb : Superblock) (H : Multiset InodePtr) (i : ℕ) (s : State) (e : Panic) : Prop :=
  e ≠ .freeingFreeBlock ∧ (Steady sb H s → NoDangling (files sb s) → (files sb s i).type ≠ 0 →
    e ≠ .ilockNoType)

theorem Mild.walkErr {e : Panic} (h : Mild e) : WalkErr sb H i s e := ⟨h.1, fun _ _ _ => h.2⟩

theorem NoType.walkErr {e : Panic} (h : NoType sb s i e) : WalkErr sb H i s e :=
  ⟨h.1, fun _ _ ht he => ht (h.2 he)⟩

theorem leave_sat (h : Inv sb (ip ::ₘ H) t) (hs : Step sb (ip ::ₘ H) (ip ::ₘ H) (files sb s) s t) :
    Sat (do iunlockput sb ip; return (none : Option (InodePtr × List Byte))) t
      (Walked sb H none s) Mild := by
  refine Sat.bind (iunlockput_sat h) fun _ u hu => Sat.pure ?_
  have hle := le_cons_self H ip
  refine ⟨_, (hs.mono hle).trans hu, fun hst => ⟨?_, rfl⟩⟩
  rw [dropped, if_neg ((hst.frame (hs.frame.mono hle) hs.files).not_last h), hs.files]

theorem namexFrom_sat {n : ℕ} {path name : List Byte}
    (h : Inv sb (ip ::ₘ H) s) (hn : path.length < n) :
    Sat (namexFrom sb parent n ip path name) s
      (Walked sb H (walkFrom (files sb s) parent n (s.itable ip).inum path name) s)
      (WalkErr sb H (s.itable ip).inum s) := by
  induction n generalizing ip path name s with
  | zero => omega
  | succ n ih =>
    have hle := le_cons_self H ip
    rw [namexFrom, walkFrom]
    cases hskip : skipelem path with
    | none =>
      refine Sat.ite (fun hp => ?_) fun hp => Sat.pure ?_
      · refine Sat.bind ((iput_sat h).weaken fun _ he => he.walkErr)
          fun _ t ht => Sat.pure ⟨_, ht, fun hst => ⟨?_, (if_pos hp).symm⟩⟩
        exact if_neg (hst.not_last h)
      · exact ⟨_, ⟨h, Frame.refl _ _, rfl⟩, fun _ => ⟨rfl, (if_neg hp).symm⟩⟩
    | some x =>
      obtain ⟨rest, elem⟩ := x
      dsimp only
      have hlt := skipelem_lt hskip
      refine Sat.bind ((ilock_sat h h.ref_pos).weaken fun _ he => he.walkErr) ?_
      rintro _ t ⟨ht, hc⟩
      refine getInode_bind ?_
      rw [ht.inv.dtype hc, ht.files]
      refine Sat.ite (fun htype => ?_) fun htype => ?_
      · rw [if_pos htype]
        exact (leave_sat ht.inv ht).weaken fun _ he => he.walkErr
      rw [if_neg htype]
      refine Sat.ite (fun hp => ?_) fun hp => ?_
      · rw [if_pos hp]
        refine Sat.bind ((iunlock_sat ht.inv).weaken fun _ he => he.walkErr) ?_
        rintro _ u ⟨rfl, hu⟩
        rw [ht.files] at hu
        refine Sat.pure ⟨_, (ht.trans hu).mono hle, fun _ => ⟨rfl, ?_⟩⟩
        simp only [Option.map_some, setInode_self]
        rw [hc.2.1]
      rw [if_neg hp]
      refine Sat.bind ((dirlookup_sat elem ht.inv hc).weaken fun _ he => he.walkErr)
        ?_
      rintro r u ⟨-, hr⟩
      rw [ht.files] at hr
      split
      · obtain ⟨rfl, hnone⟩ := hr
        rw [hnone]
        exact (leave_sat ht.inv ht).weaken fun _ he => he.walkErr
      · rename_i next off
        obtain ⟨k, hk, -, hu, hnum, -⟩ := hr
        rw [hk]
        have hinv : Inv sb (ip ::ₘ next ::ₘ H) u := by
          rw [cons_swap]
          exact hu.inv
        refine Sat.bind ((iunlockput_sat hinv).weaken fun _ he => he.walkErr) ?_
        intro _ v hv
        have hsu : Frame H s u := (ht.frame.trans hu.frame).mono hle
        have hnext : (v.itable next).inum = ((files sb s (s.itable ip).inum).ent k).inum.toNat := by
          rw [← hnum]
          refine (hv.frame.keep next ?_).1
          rw [Multiset.count_cons_self]
          omega
        have hsv : Frame H s v := hsu.trans (hv.frame.mono (le_cons_self H next))
        -- in a steady state the walk leaves the files alone
        have hfv : Steady sb H s → files sb v = files sb s := by
          intro hst
          have hstu := (hst.frame hsu hu.files).mono (le_cons_self H next)
          rw [hv.files, dropped, if_neg (hstu.not_last hinv), hu.files]
        refine (ih hv.inv (by omega)).mono ?_ ?_
        · rintro r w ⟨F, hF, hFw⟩
          refine ⟨F, ⟨hF.inv, hsv.trans hF.frame, hF.files⟩, fun hst => ?_⟩
          obtain ⟨h1, h2⟩ := hFw (hst.frame hsv (hfv hst))
          rw [hfv hst] at h1
          rw [hfv hst, hnext] at h2
          exact ⟨h1, h2⟩
        · rintro e ⟨he1, he2⟩
          refine ⟨he1, fun hst hnd hti => ?_⟩
          rw [hfv hst, hnext] at he2
          obtain ⟨hk1, hk2, -⟩ := Node.of_lookup_some hk
          exact he2 (hst.frame hsv (hfv hst)) hnd (hnd _ (not_not.mp htype) k hk1 hk2)

def startInum (cwd : ℕ) (path : List Byte) : ℕ :=
  if path.head? = some slash then ROOTINO else cwd

theorem startInode_sat {cwd : InodePtr} {path : List Byte} (h : Inv sb H s)
    (hr : 0 < (s.itable cwd).ref) :
    Sat (startInode cwd path) s (fun ip t => Step sb H (ip ::ₘ H) (files sb s) s t ∧
      (t.itable ip).inum = startInum (s.itable cwd).inum path) Mild := by
  unfold startInode startInum
  refine Sat.ite (fun hs => ?_) fun hs => ?_
  · rw [if_pos hs]
    exact (iget_sat h Nat.one_pos sb.root_lt).post fun _ _ ht => ⟨ht.1, ht.2.1⟩
  · rw [if_neg hs]
    refine (idup_sat h hr).post ?_
    rintro _ t ⟨rfl, ht, hnum⟩
    exact ⟨ht, hnum⟩

theorem namex_sat {cwd : InodePtr} {path : List Byte} (h : Inv sb H s)
    (hr : 0 < (s.itable cwd).ref) :
    Sat (namex sb cwd path parent) s
      (Walked sb H (resolve (files sb s) (s.itable cwd).inum path parent) s)
      (WalkErr sb H (startInum (s.itable cwd).inum path) s) := by
  refine Sat.bind ((startInode_sat h hr).weaken fun _ he => he.walkErr) ?_
  rintro ip t ⟨ht, hnum⟩
  refine (namexFrom_sat ht.inv (Nat.lt_succ_self _)).mono ?_ ?_
  · rintro r u ⟨F, hF, hFw⟩
    refine ⟨F, ⟨hF.inv, ht.frame.trans hF.frame, hF.files⟩, fun hst => ?_⟩
    obtain ⟨h1, h2⟩ := hFw (hst.frame ht.frame ht.files)
    rw [ht.files] at h1
    rw [ht.files, hnum] at h2
    exact ⟨h1, h2⟩
  · rintro e ⟨he1, he2⟩
    refine ⟨he1, fun hst hnd hti => ?_⟩
    rw [ht.files, hnum] at he2
    exact he2 (hst.frame ht.frame ht.files) hnd hti

end Xv6.Fs
