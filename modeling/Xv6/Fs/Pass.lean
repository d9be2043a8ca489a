import Xv6.Fs.Room

/-! What else the functions on inodes do, next to the files: the sleep-locks they take and give back,
the inodes they leave alone on the disk, and their room in the log. -/
namespace Xv6.Fs
open Bytes Function
open Xv6.Log (BSIZE)

def locks (s : State) (ip : InodePtr) : Bool := (s.itable ip).locked

structure Leaves (sb : Superblock) (s t : State) : Prop where
  log : LogOk sb s.m → LogOk sb t.m
  taken : s.taken ⊆ t.taken
  node : ∀ i, i ∉ t.taken → (disk sb t).node i = (disk sb s).node i

structure Pass (sb : Superblock) (P : Prop) (S : Finset ℕ) (k : ℕ) (l : InodePtr → Bool)
    (s t : State) : Prop where
  room : P → Room S k t
  locks : locks t = l
  leaves : Leaves sb s t

def Fine (P : Prop) (e : Panic) : Prop := P → NotBig e

variable {sb : Superblock} {P : Prop} {S S' : Finset ℕ} {k k' : ℕ} {l l' : InodePtr → Bool}
  {s t u : State} {ip dp cwd : InodePtr} {i d : ℕ} {H : Multiset InodePtr} {path : List Byte}

theorem Leaves.trans (h : Leaves sb s t) (h' : Leaves sb t u) : Leaves sb s u where
  log := h'.log ∘ h.log
  taken := List.Subset.trans h.taken h'.taken
  node i hi := (h'.node i hi).trans (h.node i fun hmem => hi (h'.taken hmem))

theorem Leaves.of_m (hm : t.m = s.m) (ht : s.taken ⊆ t.taken) : Leaves sb s t where
  log hl := by rwa [hm]
  taken := ht
  node i _ := by rw [disk, disk, hm]

namespace Pass

theorem trans (h : Pass sb P S k l s t) (h' : Pass sb P S' k' l' t u) :
    Pass sb P S' k' l' s u := ⟨h'.room, h'.locks, h.leaves.trans h'.leaves⟩

theorem mono (h : Pass sb P S k l s t) (hS : S' ⊆ S) (hk : k' ≤ k) : Pass sb P S' k' l s t :=
  ⟨fun hp => (h.room hp).mono hS hk, h.locks, h.leaves⟩

end Pass

theorem Touched.locks (h : Touched ip s t) : locks t = locks s := by
  funext jp
  rcases eq_or_ne jp ip with rfl | hj
  · rw [Fs.locks, h.itable_self, Fs.locks]
  · rw [Fs.locks, h.itable_of_ne hj, Fs.locks]

theorem Touched.taken (h : Touched ip s t) : t.taken = s.taken := by
  obtain ⟨d, hd⟩ := h
  rw [hd]
  rfl

theorem locks_setInode (s : State) (ip : InodePtr) (e : Inode) :
    locks (s.setInode ip e) = update (locks s) ip e.locked := by
  funext jp
  rcases eq_or_ne jp ip with rfl | hj
  · rw [locks, setInode_self, update_self]
  · rw [locks, setInode_of_ne _ _ hj, update_of_ne hj, locks]

theorem pass_refl (hr : P → Room S k s) : Pass sb P S k (locks s) s s :=
  ⟨hr, rfl, Leaves.of_m rfl (List.Subset.refl _)⟩

theorem pass_setInode (hr : P → Room S k s) {e : Inode} {b : Bool} (hl : e.locked = b) :
    Pass sb P S k (update (locks s) ip b) s (s.setInode ip e) :=
  ⟨fun hp => (hr hp).same rfl, by rw [locks_setInode, hl],
    Leaves.of_m rfl (List.Subset.refl s.taken)⟩

theorem pass_acquire (hr : P → Room S k s) :
    Pass sb P S k (update (locks s) ip true) s (s.acquire ip) :=
  ⟨fun hp => (hr hp).same rfl, locks_setInode s ip _,
    Leaves.of_m rfl (List.subset_cons_self _ s.taken)⟩

theorem acquiresleep_free (s : State) (ip : InodePtr) :
    Sat (acquiresleep ip) s (fun _ t => locks s ip = false ∧ t = s.acquire ip) (Fine P) := by
  unfold acquiresleep
  refine getInode_bind (Sat.ite (fun _ => Sat.throw nofun) fun hl => ?_)
  exact ⟨Bool.eq_false_iff.mpr hl, rfl⟩

theorem update_unlock (hfree : l ip = false) :
    update (update l ip true) ip false = l := by
  rw [update_idem, ← hfree, update_eq_self]

theorem ilock_pass (hr : P → Room S k s) :
    Sat (ilock sb ip) s (fun _ t => locks s ip = false ∧ (s.itable ip).inum ∈ t.taken ∧
      t.m = s.m ∧ Pass sb P S k (update (locks s) ip true) s t) (Fine P) := by
  unfold ilock
  refine getInode_bind (Sat.ite (fun _ => Sat.throw nofun) fun _ => ?_)
  refine Sat.bind (acquiresleep_free s ip) ?_
  rintro _ t ⟨hfree, rfl⟩
  have hp : Pass sb P S k (update (locks s) ip true) s (s.acquire ip) := pass_acquire hr
  have hmem : (s.itable ip).inum ∈ (s.acquire ip).taken := List.mem_cons_self
  refine Sat.ite (fun _ => Sat.pure ⟨hfree, hmem, rfl, hp⟩) fun _ => ?_
  refine bread_bind (setInode_bind ?_)
  refine Sat.ite (fun _ => Sat.throw nofun) fun _ => Sat.pure ⟨hfree, hmem, rfl, ?_⟩
  have hl : update (locks (s.acquire ip)) ip true = update (locks s) ip true := by
    rw [hp.locks, update_idem]
  exact hp.trans (hl ▸ pass_setInode hp.room rfl)

theorem iunlock_pass (sb : Superblock) (hr : P → Room S k s) :
    Sat (iunlock ip) s (fun _ t => t.m = s.m ∧
      Pass sb P S k (update (locks s) ip false) s t) (Fine P) := by
  unfold iunlock releasesleep
  refine getInode_bind (Sat.ite (fun _ => Sat.throw nofun) fun _ => ?_)
  exact getInode_bind (setInode_sat ⟨rfl, pass_setInode hr rfl⟩)

/-- What a function does, and with `P` the room that it leaves. -/
theorem with_room {α : Type} {m : M α} {Q R : α → State → Prop} {E : Panic → Prop}
    (hm : Sat m s Q E) (hroom : P → Sat m s R NotBig) :
    Sat m s (fun a t => Q a t ∧ (P → R a t)) (Fine P) := by
  unfold Sat at hm ⊢
  cases hr : m s with
  | ok r =>
    rw [hr] at hm
    exact ⟨hm, fun hp => (hroom hp).ok hr⟩
  | error e => exact fun hp => (hroom hp).error hr

theorem Touched.leaves (ht : Touched ip s t) (hl : LogOk sb t.m) (hi : i ∈ s.taken) {x : Dinode}
    (hd : (disk sb t).node = update (disk sb s).node i x) : Leaves sb s t where
  log _ := hl
  taken := by rw [ht.taken]; exact List.Subset.refl _
  node j hj := by
    rw [hd, update_of_ne]
    rintro rfl
    exact hj (by rwa [ht.taken])

section
variable (h : Inv sb H s) (hc : Cached (s.itable ip) i) (hi : i ∈ s.taken) (hg : P → Mkfs sb)
  (hS : P → sb.bmapstart ∈ S ∧ sb.IBLOCK i ∈ S)
include h hc hi hg hS

theorem writei_pass {src : ℕ → Option Byte} {off n : BitVec 32} {j : ℕ}
    (hr : P → Room S (k + 2 * j) s) (hj : off.toNat % BSIZE + n.toNat ≤ j * BSIZE) :
    Sat (writei sb ip src off n) s (fun _ t => Pass sb P S k (locks s) s t) (Fine P) := by
  refine (with_room (writei_sat (h.toLive hc) src off n) fun hp => writei_room (hg hp) (hr hp)
    (hS hp).1 (by rw [homeBlock, hc.2.1]; exact (hS hp).2) hj).post ?_
  rintro _ t ⟨⟨-, rfl⟩ | ⟨tot, x, bs, -, -, -, -, hput, -⟩, hroom⟩
  · exact ⟨fun hp => (hroom hp).1, rfl, Leaves.of_m rfl (List.Subset.refl _)⟩
  · exact ⟨fun hp => (hroom hp).1, hput.touched.locks,
      hput.touched.leaves hput.live.log hi hput.dnode⟩

theorem itrunc_pass (hr : P → Room S k s) :
    Sat (itrunc sb ip) s (fun _ t => Pass sb P S k (locks s) s t) (Fine P) := by
  have hl := h.toLive hc
  refine (with_room (itrunc_sat hl) fun hp => itrunc_room (hg hp) (hr hp) (hS hp).1
    (by rw [homeBlock, hc.2.1]; exact (hS hp).2) hl).post ?_
  rintro _ t ⟨⟨hput, -, -⟩, hroom⟩
  exact ⟨hroom, hput.touched.locks,
      hput.touched.leaves hput.live.log hi hput.dnode⟩

theorem update_pass (g : Dinode → Dinode) (hr : P → Room S k s) :
    Sat (do modifyDinode ip g; iupdate sb ip) s (fun _ t => Pass sb P S k (locks s) s t)
      (Fine P) := by
  have hl := h.toLive hc
  refine modifyDinode_bind ?_
  have hhome : homeBlock sb (s.setD ip (g (s.itable ip).d)) ip = sb.IBLOCK i := by
    rw [(touched_setD s ip _).homeBlock, homeBlock, hc.2.1]
  refine (with_room (hl.toHeld.put _) fun hp => iupdate_room (hg hp) ((hr hp).same rfl)
    (by rw [hhome]; exact (hS hp).2)).post ?_
  rintro _ t ⟨⟨ht, hh, -, hd⟩, hroom⟩
  exact ⟨fun hp => (hroom hp).1, ht.locks, ht.leaves hh.log hi hd⟩

end

theorem iputLast_pass (hg : P → Mkfs sb) (h : Inv sb (ip ::ₘ H) s) (hlast : Last (s.itable ip))
    (hr : P → Room S k s) (hS : P → sb.bmapstart ∈ S ∧ homeBlock sb s ip ∈ S) :
    Sat (do
      acquiresleep ip
      itrunc sb ip
      modifyDinode ip fun d => { d with type := 0 }
      iupdate sb ip
      let e ← getInode ip
      setInode ip { e with valid := false, locked := false }) s
      (fun _ t => Pass sb P S k (locks s) s t) (Fine P) := by
  refine Sat.bind (acquiresleep_free s ip) ?_
  rintro _ s₁ ⟨hfree, hs₁⟩
  have h1 := h.acquire ip
  have hp1 : Pass sb P S k (update (locks s) ip true) s s₁ := hs₁ ▸ pass_acquire hr
  rw [← hs₁] at h1
  have hc1 : Cached (s₁.itable ip) (s.itable ip).inum := by
    rw [hs₁, acquire_self]
    exact ⟨h.ref_pos, rfl, hlast.2.1⟩
  have hi1 : (s.itable ip).inum ∈ s₁.taken := by
    rw [hs₁]
    exact List.mem_cons_self
  refine Sat.bind ((itrunc_sat (h1.inv.toLive hc1)).beside
    (itrunc_pass h1.inv hc1 hi1 hg hS hp1.room)) ?_
  rintro _ t ⟨⟨hput, -, -⟩, hp2⟩
  have htype : ((view sb s₁).file (s.itable ip).inum).type =
      (files sb s₁ (s.itable ip).inum).type := by
    rw [h1.inv.view]
    rfl
  have h2 := hput.step h1.inv htype (inRange_empty rfl)
  rw [← bind_assoc]
  refine Sat.bind (update_pass h2.inv hput.live.cached (hp2.leaves.taken hi1) hg hS _ hp2.room) ?_
  intro _ u hp3
  refine getInode_bind (setInode_sat ?_)
  have hp4 : Pass sb P S k (update (locks u) ip false) u (u.setInode ip
      { u.itable ip with valid := false, locked := false }) := pass_setInode hp3.room rfl
  rw [hp3.locks, hp2.locks, hp1.locks, update_unlock hfree] at hp4
  exact ((hp1.trans hp2).trans hp3).trans hp4

theorem iput_pass (hg : P → Mkfs sb) (h : Inv sb (ip ::ₘ H) s) (hr : P → Room S k s)
    (hS : P → Last (s.itable ip) → sb.bmapstart ∈ S ∧ homeBlock sb s ip ∈ S) :
    Sat (iput sb ip) s (fun _ t => Pass sb P S k (locks s) s t) (Fine P) := by
  unfold iput
  refine getInode_bind (Sat.bind (R := fun _ t => Pass sb P S k (locks s) s t)
    (doIf_sat (fun (hlast : Last (s.itable ip)) => ?_) fun _ => pass_refl hr) ?_)
  · exact iputLast_pass hg h hlast hr fun hp => hS hp hlast
  · intro _ t ht
    refine getInode_bind (setInode_sat (ht.trans ?_))
    have hl : update (locks t) ip (locks t ip) = locks s := by
      rw [update_eq_self, ht.locks]
    rw [← hl]
    exact pass_setInode ht.room rfl

theorem iunlockput_pass (hg : P → Mkfs sb) (h : Inv sb (ip ::ₘ H) s) (hr : P → Room S k s)
    (hS : P → Last (s.itable ip) → sb.bmapstart ∈ S ∧ homeBlock sb s ip ∈ S) :
    Sat (iunlockput sb ip) s
      (fun _ t => Pass sb P S k (update (locks s) ip false) s t) (Fine P) := by
  unfold iunlockput
  refine Sat.bind ((iunlock_sat h).beside (iunlock_pass sb hr)) ?_
  rintro _ t ⟨⟨heq, ht⟩, -, hp⟩
  have hit : t.itable ip = { s.itable ip with locked := false } := by
    rw [heq, setInode_self]
  have hS' : P → Last (t.itable ip) → sb.bmapstart ∈ S ∧ homeBlock sb t ip ∈ S := by
    rw [homeBlock, hit]
    exact hS
  refine (iput_pass hg ht.inv hp.room hS').post fun _ u hu => ?_
  rw [hp.locks] at hu
  exact hp.trans hu

def Quiet (s t : State) : Prop := t.m = s.m ∧ t.taken = s.taken ∧ locks t = locks s

theorem Quiet.refl (s : State) : Quiet s s := ⟨rfl, rfl, rfl⟩

theorem Quiet.pass (h : Quiet s t) (hr : P → Room S k s) : Pass sb P S k (locks s) s t :=
  ⟨fun hp => (hr hp).same (by rw [h.1]), h.2.2,
    Leaves.of_m h.1 (by rw [h.2.1]; exact List.Subset.refl _)⟩

theorem quiet_setInode {e : Inode} (he : e.locked = (s.itable ip).locked) :
    Quiet s (s.setInode ip e) := by
  refine ⟨rfl, rfl, ?_⟩
  rw [locks_setInode, he]
  exact update_eq_self _ _

theorem iget_quiet (inum : ℕ) : Sat (iget inum) s (fun _ t => Quiet s t) (Fine P) := by
  unfold iget
  refine Sat.get_bind ?_
  split
  · refine getInode_bind ?_
    split
    · exact setInode_bind (Sat.pure (quiet_setInode rfl))
    · exact setInode_bind (Sat.pure (quiet_setInode rfl))
  · exact Sat.throw nofun

theorem idup_quiet (ip : InodePtr) : Sat (idup ip) s (fun _ t => Quiet s t) (Fine P) := by
  unfold idup
  exact getInode_bind (setInode_bind (Sat.pure (quiet_setInode rfl)))

theorem startInode_quiet : Sat (startInode cwd path) s (fun _ t => Quiet s t) (Fine P) :=
  Sat.ite (fun _ => iget_quiet _) fun _ => idup_quiet cwd

theorem dirlookup_quiet (name : List Byte) (h : Inv sb H s) (hc : Cached (s.itable dp) d) :
    Sat (dirlookup sb dp name) s (fun _ t => Quiet s t) (Fine P) :=
  dirlookup_of_iget name h hc ⟨nofun, nofun⟩ (Quiet.refl s) iget_quiet

section
variable (h : Inv sb H s) (hc : Cached (s.itable dp) d) (hd : d ∈ s.taken) (hg : P → Mkfs sb)
  (hS : P → sb.bmapstart ∈ S ∧ sb.IBLOCK d ∈ S) (hr : P → Room S (k + 2) s)
include h hc hd hg hS hr

theorem writeDe_pass (j : ℕ) (de : Dirent) :
    Sat (writeDe sb dp (j * direntSize) de) s (fun _ t => Pass sb P S k (locks s) s t)
      (Fine P) := by
  refine writei_pass (j := 1) h hc hd hg hS hr ?_
  rw [BitVec.toNat_ofNat, BitVec.toNat_ofNat]
  simp only [direntSize, DIRSIZ, BSIZE]
  omega

theorem dirlink_pass (name : List Byte) (inum : ℕ) :
    Sat (dirlink sb dp name inum) s (fun _ t => Pass sb P S k (locks s) s t) (Fine P) := by
  unfold dirlink
  refine Sat.bind ((dirlookup_sat name h hc).beside (dirlookup_quiet name h hc)) ?_
  rintro r t ⟨⟨-, hfound⟩, hq⟩
  have hp : Pass sb P S (k + 2) (locks s) s t := hq.pass hr
  split
  · rename_i ip off
    obtain ⟨j, -, -, hstep, -, hfresh⟩ := hfound
    refine Sat.bind (iput_pass hg hstep.inv hp.room ?_) fun _ u hu => Sat.pure ?_
    · rintro - ⟨h1, h2, -⟩
      rw [hfresh h1] at h2
      cases h2
    · rw [hp.locks] at hu
      exact (hp.trans hu).mono (Finset.Subset.refl _) (Nat.le_add_right _ _)
  · obtain ⟨rfl, -⟩ := hfound
    refine getInode_bind ?_
    rw [h.size hc]
    refine Sat.bind (findSlot_sat nofun h hc) ?_
    rintro off u ⟨rfl, j, rfl, -⟩
    refine Sat.bind (writeDe_pass h hc hd hg hS hr j _) fun _ v hv => ?_
    exact Sat.ite (fun _ => Sat.throw nofun) fun _ => Sat.pure hv

end

structure Calm (sb : Superblock) (R : ℕ → Prop) (H : Multiset InodePtr) (s : State) : Prop where
  root : R ROOTINO
  entry : ∀ d, R d → (files sb s d).type = T_DIR → ∀ j < (files sb s d).nents,
    ((files sb s d).ent j).inum ≠ 0 → R ((files sb s d).ent j).inum.toNat
  held : ∀ i, R i → (files sb s i).type ≠ 0 → (files sb s i).nlink = 0 → HeldBy H s i

variable {R : ℕ → Prop} {parent : Bool} {name : List Byte}

theorem Calm.frame (h : Calm sb R H s) (hf : Frame H s t) (hF : files sb t = files sb s) :
    Calm sb R H t where
  root := h.root
  entry := by
    rw [hF]
    exact h.entry
  held i hi ht hn := by
    rw [hF] at ht hn
    exact (h.held i hi ht hn).frame hf

theorem Calm.mono {H' : Multiset InodePtr} (h : Calm sb R H s) (hle : H ≤ H') :
    Calm sb R H' s := ⟨h.root, h.entry, fun i hi ht hn => (h.held i hi ht hn).mono hle⟩

theorem iput_calm (hg : P → Mkfs sb) (h : Inv sb (ip ::ₘ H) s) (hr : P → Room S k s)
    (hcalm : P → Calm sb R H s ∧ R (s.itable ip).inum) :
    Sat (iput sb ip) s (fun _ t => (∃ F, Step sb H H F s t) ∧ (P → Calm sb R H t) ∧
      (P → files sb t = files sb s) ∧ Pass sb P S k (locks s) s t) (Fine P) := by
  have hlast : P → ¬ Last (s.itable ip) := fun hp => h.not_last ((hcalm hp).1.held _ (hcalm hp).2)
  refine ((iput_sat h).beside (iput_pass hg h hr fun hp hl => absurd hl (hlast hp))).post ?_
  rintro _ t ⟨ht, hp⟩
  have hF : P → files sb t = files sb s := fun hP => by rw [ht.files, dropped, if_neg (hlast hP)]
  exact ⟨⟨_, ht⟩, fun hP => (hcalm hP).1.frame ht.frame (hF hP), hF, hp⟩

theorem iunlockput_calm (hg : P → Mkfs sb) (h : Inv sb (ip ::ₘ H) s) (hr : P → Room S k s)
    (hcalm : P → Calm sb R H s ∧ R (s.itable ip).inum) :
    Sat (iunlockput sb ip) s (fun _ t => (∃ F, Step sb H H F s t) ∧ (P → Calm sb R H t) ∧
      (P → files sb t = files sb s) ∧
      Pass sb P S k (update (locks s) ip false) s t) (Fine P) := by
  unfold iunlockput
  have hle := Multiset.le_cons_self H ip
  refine Sat.bind ((iunlock_sat h).beside (iunlock_pass sb hr)) ?_
  rintro _ t ⟨⟨heq, ht⟩, -, hp⟩
  have hnum : (t.itable ip).inum = (s.itable ip).inum := by rw [heq, setInode_self]
  refine (iput_calm hg ht.inv hp.room fun hP => ⟨(hcalm hP).1.frame (ht.frame.mono hle) ht.files,
    by rw [hnum]; exact (hcalm hP).2⟩).post ?_
  rintro _ u ⟨⟨F, hu⟩, hc, hF, hp'⟩
  rw [hp.locks] at hp'
  exact ⟨⟨F, (ht.mono hle).trans hu⟩, hc, fun hP => (hF hP).trans ht.files, hp.trans hp'⟩

def WalkPass (sb : Superblock) (P : Prop) (R : ℕ → Prop) (S : Finset ℕ) (k : ℕ)
    (H : Multiset InodePtr) (s : State) (r : Option (InodePtr × List Byte)) (t : State) : Prop :=
  (∃ F, Step sb H (r.elim H fun x => x.1 ::ₘ H) F s t) ∧ (P → Calm sb R H t) ∧
    Pass sb P S k (locks s) s t

theorem namexFrom_pass {n : ℕ} (hg : P → Mkfs sb) (h : Inv sb (ip ::ₘ H) s)
    (hr : P → Room S k s) (hcalm : P → Calm sb R H s ∧ R (s.itable ip).inum)
    (hn : path.length < n) :
    Sat (namexFrom sb parent n ip path name) s (WalkPass sb P R S k H s) (Fine P) := by
  induction n generalizing ip path name s with
  | zero => omega
  | succ n ih =>
    have hle := Multiset.le_cons_self H ip
    rw [namexFrom]
    cases hskip : skipelem path with
    | none =>
      refine Sat.ite (fun _ => ?_) fun _ => Sat.pure ?_
      · refine Sat.bind (iput_calm hg h hr hcalm) ?_
        rintro _ t ⟨ht, hc, -, hp⟩
        exact Sat.pure ⟨ht, hc, hp⟩
      · exact ⟨⟨_, h, Frame.refl _ _, rfl⟩, fun hP => (hcalm hP).1, pass_refl hr⟩
    | some x =>
      obtain ⟨rest, elem⟩ := x
      dsimp only
      have hlt := skipelem_lt hskip
      refine Sat.bind ((ilock_sat h h.ref_pos).beside (ilock_pass hr)) ?_
      rintro _ t ⟨⟨ht, hc⟩, hfree, -, -, hp⟩
      have hct : P → Calm sb R H t ∧ R (t.itable ip).inum := fun hP =>
        ⟨(hcalm hP).1.frame (ht.frame.mono hle) ht.files, by rw [hc.2.1]; exact (hcalm hP).2⟩
      -- every way out of the loop unlocks the inode again
      have hleave : Sat (do iunlockput sb ip; return (none : Option (InodePtr × List Byte))) t
          (WalkPass sb P R S k H s) (Fine P) := by
        refine Sat.bind (iunlockput_calm hg ht.inv hp.room hct) ?_
        rintro _ u ⟨⟨F, hu⟩, hcu, -, hpu⟩
        rw [hp.locks, update_unlock hfree] at hpu
        exact Sat.pure ⟨⟨F, (ht.mono hle).trans hu⟩, hcu, hp.trans hpu⟩
      refine getInode_bind ?_
      rw [ht.inv.dtype hc, ht.files]
      refine Sat.ite (fun _ => hleave) fun htype => Sat.ite (fun _ => ?_) fun _ => ?_
      · refine Sat.bind ((iunlock_sat ht.inv).beside (iunlock_pass sb hp.room)) ?_
        rintro _ u ⟨⟨-, hu⟩, -, hpu⟩
        rw [hp.locks, update_unlock hfree] at hpu
        exact Sat.pure ⟨⟨_, (ht.trans hu).mono hle⟩,
          fun hP => (hct hP).1.frame (hu.frame.mono hle) hu.files, hp.trans hpu⟩
      refine Sat.bind ((dirlookup_sat elem ht.inv hc).beside (dirlookup_quiet elem ht.inv hc)) ?_
      rintro r u ⟨⟨-, hr'⟩, hq⟩
      split
      · obtain ⟨rfl, -⟩ := hr'
        exact hleave
      · rename_i next off
        obtain ⟨j, hj, -, hu, hnum, -⟩ := hr'
        have hpu : Pass sb P S k (locks t) t u := hq.pass hp.room
        have hinv : Inv sb (ip ::ₘ next ::ₘ H) u := by
          rw [Multiset.cons_swap]
          exact hu.inv
        have hlen := Multiset.le_cons_self H next
        have hcu : P → Calm sb R (next ::ₘ H) u ∧ R (u.itable ip).inum := fun hP =>
          ⟨((hct hP).1.frame (hu.frame.mono hle) hu.files).mono hlen, by
            rw [(hu.frame.keep ip (mem_count (Multiset.mem_cons_self ip H))).1]
            exact (hct hP).2⟩
        refine Sat.bind (iunlockput_calm hg hinv hpu.room hcu) ?_
        rintro _ v ⟨⟨F, hv⟩, hcv, hF, hpv⟩
        rw [hpu.locks, hp.locks, update_unlock hfree] at hpv
        have hmem := Multiset.mem_cons_self next H
        have hall := (hp.trans hpu).trans hpv
        have hsu : Frame H s u := (ht.frame.trans hu.frame).mono hle
        refine (ih hv.inv hpv.room (fun hP => ⟨?_, ?_⟩) (by omega)).post ?_
        · exact (hcalm hP).1.frame (hsu.trans (hv.frame.mono hlen))
            ((hF hP).trans (hu.files.trans ht.files))
        · obtain ⟨hk1, hk2, -⟩ := Node.of_lookup_some hj
          rw [hv.inum hmem, hnum]
          exact (hct hP).1.entry _ (hc.2.1 ▸ (hct hP).2) (by rw [ht.files]; exact not_not.mp htype)
            j hk1 hk2
        · rintro r w ⟨⟨G, hw⟩, hcw, hpw⟩
          rw [hpv.locks] at hpw
          exact ⟨⟨G, hw.inv, (hsu.trans (hv.frame.mono hlen)).trans hw.frame, hw.files⟩, hcw,
            hall.trans hpw⟩

theorem namex_pass (hg : P → Mkfs sb) (h : Inv sb H s) (hcwd : 0 < (s.itable cwd).ref)
    (hr : P → Room S k s) (hcalm : P → Calm sb R H s ∧ R (s.itable cwd).inum) :
    Sat (namex sb cwd path parent) s (WalkPass sb P R S k H s) (Fine P) := by
  unfold namex
  refine Sat.bind ((startInode_sat h hcwd).beside startInode_quiet) ?_
  rintro ip t ⟨⟨ht, hnum⟩, hq⟩
  have hR : P → R (t.itable ip).inum := fun hP => by
    rw [hnum, startInum]
    split
    · exact (hcalm hP).1.root
    · exact (hcalm hP).2
  have hp : Pass sb P S k (locks s) s t := hq.pass hr
  refine (namexFrom_pass hg ht.inv hp.room (fun hP => ⟨(hcalm hP).1.frame ht.frame ht.files, hR hP⟩)
    (Nat.lt_succ_self _)).post ?_
  rintro r u ⟨⟨F, hu⟩, hc, hpu⟩
  rw [hp.locks] at hpu
  exact ⟨⟨F, hu.inv, ht.frame.trans hu.frame, hu.files⟩, hc, hp.trans hpu⟩

end Xv6.Fs
