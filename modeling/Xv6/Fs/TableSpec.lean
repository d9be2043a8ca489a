import Xv6.Fs.Inv

/-! What the functions on the inode table do to the invariant and to the files. -/
namespace Xv6.Fs
open Function List
open Xv6.Log (BSIZE Block)

variable {sb : Superblock} {s t u : State} {ip : InodePtr} {i : ℕ} {H K : Multiset InodePtr}

theorem inRange_empty {f : Node} (h : f.bytes = []) : InRange sb f := by
  intro _ k hk
  rw [Node.nents, h] at hk
  exact absurd hk (Nat.not_lt_zero k)

structure Step (sb : Superblock) (K H : Multiset InodePtr) (F : ℕ → Node) (s t : State) :
    Prop where
  inv : Inv sb H t
  frame : Frame K s t
  files : files sb t = F

theorem Touched.users (h : Touched ip s t) (jp : InodePtr) : users t jp = users s jp :=
  (h.frame 0).users jp

theorem Touched.itable_of_ne (h : Touched ip s t) {jp : InodePtr} (hj : jp ≠ ip) :
    t.itable jp = s.itable jp := by
  obtain ⟨d, hd⟩ := h
  have hit : t.itable = (s.setD ip d).itable := by rw [hd]
  rw [hit]
  exact setInode_of_ne _ _ hj

theorem Touched.itable_self (h : Touched ip s t) :
    t.itable ip = { s.itable ip with d := (t.itable ip).d } := by
  obtain ⟨d, hd⟩ := h
  have hit : t.itable ip = { s.itable ip with d := d } := by
    have h' : t.itable = (s.setD ip d).itable := by rw [hd]
    rw [h']
    exact setInode_self _ _ _
  rw [hit]

theorem Touched.cached (h : Touched ip s t) (jp : InodePtr) (k : ℕ) :
    Cached (t.itable jp) k ↔ Cached (s.itable jp) k := by
  rcases eq_or_ne jp ip with rfl | hj
  · rw [h.itable_self]
    exact Iff.rfl
  · rw [h.itable_of_ne hj]

theorem Touched.ref (h : Touched ip s t) (jp : InodePtr) :
    (t.itable jp).ref = (s.itable jp).ref ∧ (t.itable jp).inum = (s.itable jp).inum ∧
      (t.itable jp).valid = (s.itable jp).valid := by
  rcases eq_or_ne jp ip with rfl | hj
  · rw [h.itable_self]
    exact ⟨rfl, rfl, rfl⟩
  · rw [h.itable_of_ne hj]
    exact ⟨rfl, rfl, rfl⟩

theorem Put.step {f : Node} (h : Inv sb H s) (hp : Put sb ip i f s t)
    (ht : f.type = (files sb s i).type) (hf : InRange sb f) :
    Step sb H H (update (files sb s) i f) s t := by
  have htouch := hp.touched
  have hcs : Cached (s.itable ip) i := (htouch.cached ip i).mp hp.live.cached
  have hsync : ∀ jp k, Cached (t.itable jp) k → (t.itable jp).d = (disk sb t).node k := by
    intro jp k hc
    rw [hp.dnode]
    rcases eq_or_ne jp ip with rfl | hj
    · obtain rfl : k = i := hc.2.1.symm.trans hp.live.cached.2.1
      rw [update_self, hp.live.d]
    · have hcj := (htouch.cached jp k).mp hc
      have hki : k ≠ i := fun he => hj (h.uniq jp ip hcj.1 hcs.1 (by rw [hcj.2.1, hcs.2.1, he]))
      rw [update_of_ne hki, htouch.itable_of_ne hj]
      exact h.sync jp k hcj
  have hview : view sb t = disk sb t := view_eq_disk hp.live.uniq hsync
  have hfiles : files sb t = update (files sb s) i f := by
    funext k
    rw [files, ← hview]
    rcases eq_or_ne k i with rfl | hki
    · rw [update_self, hp.self]
    · rw [update_of_ne hki]
      rcases lt_or_ge k sb.ninodes with hk | hk
      · rw [hp.other k hk hki, h.view]
        rfl
      · rw [hview]
        exact (files_ge hk).trans (files_ge hk).symm
  have htype : ∀ k, ((disk sb t).node k).type = ((disk sb s).node k).type := by
    intro k
    rw [← files_type, ← files_type, hfiles, update_apply]
    split
    · rename_i hk
      rw [ht, hk]
    · rfl
  refine ⟨⟨hp.live.log, ?_, hp.live.uniq, ?_, hsync, ?_, ?_, ?_, ?_, ?_⟩, htouch.frame H, hfiles⟩
  · rw [← hview]
    exact hp.live.wf
  · intro jp
    rw [(htouch.ref jp).1, (htouch.ref jp).2.1]
    exact h.range jp
  · intro jp k hc
    rw [htype k]
    exact h.live jp k ((htouch.cached jp k).mp hc)
  · intro jp
    rw [(htouch.ref jp).1, htouch.users]
    exact h.refs jp
  · rw [hfiles]
    intro k
    rw [update_apply]
    split
    · exact hf
    · exact h.ents k
  · intro g jp hg
    rw [(htouch.frame H).ftable] at hg ⊢
    obtain ⟨h1, h2⟩ := h.opened g jp hg
    rw [(htouch.ref jp).2.2]
    refine ⟨h1, fun hw => ?_⟩
    have hpos : 0 < (s.itable jp).ref := by
      rw [h.refs]
      exact Nat.add_pos_left (users_of_file hg) _
    have hc : Cached (s.itable jp) (s.itable jp).inum := ⟨hpos, rfl, h1⟩
    rw [hsync jp _ ((htouch.cached jp _).mpr hc), htype, ← h.sync jp _ hc]
    exact h2 hw
  · rw [(htouch.frame H).ftable]
    exact h.idle

theorem Inv.frame_setInode (h : Inv sb H s) {e : Inode} (he : 0 < (s.itable ip).ref →
    e.inum = (s.itable ip).inum ∧ ((s.itable ip).valid = true → e.valid = true)) :
    Frame H s (s.setInode ip e) where
  ftable := rfl
  procs := rfl
  keep jp hj := by
    rcases eq_or_ne jp ip with rfl | hne
    · rw [setInode_self]
      exact he (by rwa [h.refs])
    · rw [setInode_of_ne _ _ hne]
      exact ⟨rfl, id⟩

theorem Inv.setLock (h : Inv sb H s) (ip : InodePtr) (b : Bool) :
    Step sb H H (files sb s) s (s.setInode ip { s.itable ip with locked := b }) := by
  refine ⟨h.setInode (h.uniq.same (fun h => h) rfl) (fun _ _ => rfl) (h.refs ip) (h.range ip) ?_
    fun _ hv => ⟨hv, rfl⟩, h.frame_setInode fun _ => ⟨rfl, id⟩, rfl⟩
  exact fun hr hv => ⟨h.sync ip _ ⟨hr, rfl, hv⟩, h.live ip _ ⟨hr, rfl, hv⟩⟩

def State.acquire (s : State) (ip : InodePtr) : State :=
  { s.setInode ip { s.itable ip with locked := true } with
    taken := (s.itable ip).inum :: s.taken }

theorem acquire_self (s : State) (ip : InodePtr) :
    (s.acquire ip).itable ip = { s.itable ip with locked := true } := setInode_self _ _ _

theorem Inv.acquire (h : Inv sb H s) (ip : InodePtr) :
    Step sb H H (files sb s) s (s.acquire ip) := by
  obtain ⟨hinv, hframe, -⟩ := h.setLock ip true
  exact ⟨⟨hinv.log, hinv.wf, hinv.uniq, hinv.range, hinv.sync, hinv.live, hinv.refs, hinv.ents,
    hinv.opened, hinv.idle⟩, ⟨hframe.ftable, hframe.procs, hframe.keep⟩, rfl⟩

theorem acquiresleep_sat (s : State) (ip : InodePtr) :
    Sat (acquiresleep ip) s (fun _ t => t = s.acquire ip) Mild := by
  unfold acquiresleep
  exact getInode_bind (Sat.ite (fun _ => Sat.throw ⟨nofun, nofun⟩) fun _ => rfl)

theorem Step.trans {H' : Multiset InodePtr} {F G : ℕ → Node} (h : Step sb K H F s t)
    (h' : Step sb K H' G t u) : Step sb K H' G s u :=
  ⟨h'.inv, h.frame.trans h'.frame, h'.files⟩

theorem Step.mono {K' : Multiset InodePtr} {F : ℕ → Node} (h : Step sb K H F s t) (hK : K' ≤ K) :
    Step sb K' H F s t := ⟨h.inv, h.frame.mono hK, h.files⟩

theorem Inv.ref_pos (h : Inv sb (ip ::ₘ H) s) : 0 < (s.itable ip).ref := by
  rw [h.refs, Multiset.count_cons_self]
  omega

theorem count_cons_ne {jp : InodePtr} (h : jp ≠ ip) : (ip ::ₘ H).count jp = H.count jp :=
  Multiset.count_cons_of_ne h H

theorem Inv.incref (h : Inv sb H s) (hr : 0 < (s.itable ip).ref) :
    Step sb H (ip ::ₘ H) (files sb s) s
      (s.setInode ip { s.itable ip with ref := (s.itable ip).ref + 1 }) := by
  refine ⟨h.setInode (h.uniq.same (fun _ => hr) rfl) (fun _ hj => count_cons_ne hj) ?_
    (fun _ => h.range ip hr) (fun _ hv => ?_) fun _ hv => ⟨hv, rfl⟩,
    h.frame_setInode fun _ => ⟨rfl, id⟩, rfl⟩
  · rw [Multiset.count_cons_self, h.refs]
    exact Nat.add_assoc _ _ _
  · exact ⟨h.sync ip _ ⟨hr, rfl, hv⟩, h.live ip _ ⟨hr, rfl, hv⟩⟩

theorem Inv.decref (h : Inv sb (ip ::ₘ H) s) :
    Step sb H H (files sb s) s
      (s.setInode ip { s.itable ip with ref := (s.itable ip).ref - 1 }) := by
  have hr := h.ref_pos
  have hframe : Frame (ip ::ₘ H) s
      (s.setInode ip { s.itable ip with ref := (s.itable ip).ref - 1 }) :=
    h.frame_setInode fun _ => ⟨rfl, id⟩
  refine ⟨h.setInode (h.uniq.same (fun _ => hr) rfl) (fun _ hj => (count_cons_ne hj).symm) ?_
    (fun _ => h.range ip hr) (fun _ hv => ?_) fun _ hv => ⟨hv, rfl⟩,
    hframe.mono (Multiset.le_cons_self H ip), rfl⟩
  · rw [h.refs, Multiset.count_cons_self]
    rfl
  · exact ⟨h.sync ip _ ⟨hr, rfl, hv⟩, h.live ip _ ⟨hr, rfl, hv⟩⟩

theorem idup_sat (h : Inv sb H s) (hr : 0 < (s.itable ip).ref) :
    Sat (idup ip) s (fun r t => r = ip ∧ Step sb H (ip ::ₘ H) (files sb s) s t ∧
      (t.itable ip).inum = (s.itable ip).inum) Mild := by
  unfold idup
  exact getInode_bind (setInode_bind (Sat.pure ⟨rfl, h.incref hr, by rw [setInode_self]⟩))

variable {inum : ℕ}

theorem findInode_some (h : findInode s inum = some ip) :
    (0 < (s.itable ip).ref ∧ (s.itable ip).inum = inum) ∨ ((s.itable ip).ref = 0 ∧
      ∀ jp, 0 < (s.itable jp).ref → (s.itable jp).inum ≠ inum) := by
  unfold findInode at h
  split at h
  · rename_i hf
    cases h
    exact .inl (by simpa using find?_some hf)
  · rename_i hf
    refine .inr ⟨by simpa using find?_some h, fun jp hj he => ?_⟩
    simpa [hj, he] using find?_eq_none.mp hf jp (mem_finRange jp)

theorem iget_sat (h : Inv sb H s) (hpos : 0 < inum) (hlt : inum < sb.ninodes) :
    Sat (iget inum) s (fun ip t => Step sb H (ip ::ₘ H) (files sb s) s t ∧
      (t.itable ip).inum = inum ∧ ((t.itable ip).ref = 1 → (t.itable ip).valid = false)) Mild := by
  unfold iget
  refine Sat.get_bind ?_
  split
  · rename_i ip hip
    refine getInode_bind ?_
    rcases findInode_some hip with ⟨hr, hi⟩ | ⟨hr, hnone⟩
    · rw [if_pos hr]
      refine setInode_bind (Sat.pure ⟨h.incref hr, ?_⟩)
      rw [setInode_self]
      exact ⟨hi, fun h1 => absurd h1 (by dsimp only; omega)⟩
    · rw [if_neg (by omega)]
      have hzero := h.refs ip
      refine setInode_bind (Sat.pure ⟨⟨h.setInode (h.uniq.update fun _ jp _ hj => hnone jp hj)
        (fun _ hj => count_cons_ne hj) ?_ (fun _ => ⟨hpos, hlt⟩) (fun _ => nofun) ?_,
        h.frame_setInode fun hp => by omega, rfl⟩, ?_⟩)
      · rw [Multiset.count_cons_self]
        dsimp only
        omega
      · intro hu
        omega
      · rw [setInode_self]
        exact ⟨rfl, fun _ => rfl⟩
  · exact Sat.throw ⟨nofun, nofun⟩

def NoType (sb : Superblock) (s : State) (i : ℕ) (e : Panic) : Prop :=
  e ≠ .freeingFreeBlock ∧ (e = .ilockNoType → (files sb s i).type = 0)

theorem Mild.noType {e : Panic} (h : Mild e) : NoType sb s i e := ⟨h.1, fun he => absurd he h.2⟩

theorem readDinode_eq (h : inum < sb.ninodes) :
    readDinode (s.m.buf (sb.IBLOCK inum)) (inum % IPB) = (disk sb s).node inum := by
  change _ = if inum < sb.ninodes then _ else _
  rw [if_pos h]

theorem ilock_sat (h : Inv sb H s) (hr : 0 < (s.itable ip).ref) :
    Sat (ilock sb ip) s (fun _ t => Step sb H H (files sb s) s t ∧
      Cached (t.itable ip) (s.itable ip).inum) (NoType sb s (s.itable ip).inum) := by
  unfold ilock
  refine getInode_bind ?_
  rw [if_neg (by omega)]
  refine Sat.bind ((acquiresleep_sat s ip).weaken fun _ he => he.noType) ?_
  rintro _ t rfl
  have hlock := h.acquire ip
  have hself := acquire_self s ip
  refine Sat.ite (fun hv => Sat.pure ⟨hlock, ?_⟩) fun hv => ?_
  · rw [hself]
    exact ⟨hr, rfl, hv⟩
  have hlt := (h.range ip hr).2
  have hread := readDinode_eq (s := s) hlt
  refine bread_bind (setInode_bind ?_)
  change Sat (if (readDinode (s.m.buf _) _).type = 0 then _ else _) ((s.acquire ip).setInode ip
    { s.itable ip with locked := true, valid := true, d := readDinode _ _ }) _ _
  rw [hread]
  refine Sat.ite (fun ht => Sat.throw ⟨nofun, fun _ => ?_⟩) fun ht => Sat.pure ⟨⟨?_, ?_, rfl⟩, ?_⟩
  · rw [files_type]
    exact ht
  · refine hlock.inv.setInode (hlock.inv.uniq.same (fun _ => by rw [hself]; exact hr)
      (by rw [hself])) (fun _ _ => rfl) (h.refs ip) (h.range ip) (fun _ _ => ⟨hread, ht⟩) ?_
    rw [hself]
    exact fun _ hv' => absurd hv' hv
  · refine hlock.frame.trans (hlock.inv.frame_setInode fun _ => ?_)
    rw [hself]
    exact ⟨rfl, fun _ => rfl⟩
  · rw [setInode_self]
    exact ⟨hr, rfl, rfl⟩

theorem iunlock_sat (h : Inv sb H s) :
    Sat (iunlock ip) s (fun _ t => t = s.setInode ip { s.itable ip with locked := false } ∧
      Step sb H H (files sb s) s t) Mild := by
  unfold iunlock releasesleep
  refine getInode_bind (Sat.ite (fun _ => Sat.throw ⟨nofun, nofun⟩) fun _ => ?_)
  exact getInode_bind ⟨rfl, h.setLock ip false⟩

theorem files_setNode {d : Dinode} (hd : disk sb t = (disk sb s).setNode i d) :
    files sb t = update (files sb s) i (files sb t i) := by
  funext k
  rcases eq_or_ne k i with rfl | hk
  · rw [update_self]
  · rw [update_of_ne hk, files, hd, Vol.file_setNode_of_ne hk]
    rfl

theorem Inv.free {d : Dinode} {e : Inode} (h : Inv sb (ip ::ₘ H) s)
    (hc : Cached (s.itable ip) i) (hr : (s.itable ip).ref = 1) (ht : Touched ip s t)
    (hl : LogOk sb t.m) (hdisk : disk sb t = (disk sb s).setNode i d)
    (hz : ∀ j, ((disk sb s).node i).addrs j = 0) (hd : d.type = 0) (ha : ∀ j, d.addrs j = 0)
    (hs : d.size = 0) (he : e.ref = 0) :
    Step sb H H (update (files sb s) i {}) s (t.setInode ip e) := by
  have hrefs := h.refs ip
  rw [hr, Multiset.count_cons_self] at hrefs
  have hfi : files sb t i = {} := by
    rw [files, hdisk, Vol.file, Vol.setNode_node_self]
    exact if_pos hd
  have hfiles : files sb t = update (files sb s) i {} := by
    rw [← hfi]
    exact files_setNode hdisk
  -- another entry in use is for another inode
  have hother : ∀ jp, jp ≠ ip → ∀ k, Cached (t.itable jp) k →
      Cached (s.itable jp) k ∧ (disk sb t).node k = (disk sb s).node k := by
    intro jp hj k hk
    have hks := (ht.cached jp k).mp hk
    refine ⟨hks, ?_⟩
    rw [hdisk, Vol.setNode_node_of_ne]
    rintro rfl
    exact hj (h.uniq jp ip hks.1 hc.1 (hks.2.1.trans hc.2.1.symm))
  have hfu : ∀ g jp, fileUser (s.ftable g) = some jp → jp ≠ ip := by
    rintro g jp hg rfl
    have := users_of_file hg
    omega
  have hframe := ht.frame H
  refine ⟨⟨hl, ?_, ?_, ?_, ?_, ?_, ?_, ?_, ?_, ?_⟩, ?_, hfiles⟩
  · change Wf sb (disk sb t)
    rw [hdisk]
    exact h.wf.blank (Vol.place_of_addrs_zero hz) ha hs
  · refine Uniq.update (fun jp kp hj hk heq => ?_) fun hp => by omega
    rw [(ht.ref jp).1] at hj
    rw [(ht.ref kp).1] at hk
    rw [(ht.ref jp).2.1, (ht.ref kp).2.1] at heq
    exact h.uniq jp kp hj hk heq
  · intro jp hj
    rcases eq_or_ne jp ip with rfl | hne
    · rw [setInode_self] at hj
      omega
    · rw [setInode_of_ne _ _ hne] at hj ⊢
      rw [(ht.ref jp).1] at hj
      rw [(ht.ref jp).2.1]
      exact h.range jp hj
  · intro jp k hk
    rcases eq_or_ne jp ip with rfl | hne
    · rw [setInode_self] at hk
      exact absurd hk.1 (by omega)
    · rw [setInode_of_ne _ _ hne] at hk ⊢
      obtain ⟨hks, hnode⟩ := hother jp hne k hk
      change _ = (disk sb t).node k
      rw [hnode, ht.itable_of_ne hne]
      exact h.sync jp k hks
  · intro jp k hk
    rcases eq_or_ne jp ip with rfl | hne
    · rw [setInode_self] at hk
      exact absurd hk.1 (by omega)
    · rw [setInode_of_ne _ _ hne] at hk
      obtain ⟨hks, hnode⟩ := hother jp hne k hk
      change ((disk sb t).node k).type ≠ 0
      rw [hnode]
      exact h.live jp k hks
  · intro jp
    change _ = users t jp + _
    rw [ht.users]
    rcases eq_or_ne jp ip with rfl | hne
    · rw [setInode_self]
      omega
    · rw [setInode_of_ne _ _ hne, (ht.ref jp).1, h.refs, count_cons_ne hne]
  · change ∀ k, InRange sb (files sb t k)
    rw [hfiles]
    intro k
    rw [update_apply]
    split
    · exact inRange_empty rfl
    · exact h.ents k
  · intro g jp hg
    change fileUser (t.ftable g) = some jp at hg
    change _ ∧ ((t.ftable g).writable = true → _)
    rw [hframe.ftable] at hg ⊢
    have hne := hfu g jp hg
    rw [setInode_of_ne _ _ hne, ht.itable_of_ne hne]
    exact h.opened g jp hg
  · change ∀ g, (t.ftable g).ref = 0 → fileUser (t.ftable g) = none
    rw [hframe.ftable]
    exact h.idle
  · refine ⟨hframe.ftable, hframe.procs, fun jp hj => ?_⟩
    have hne : jp ≠ ip := by
      rintro rfl
      omega
    rw [setInode_of_ne _ _ hne]
    exact hframe.keep jp hj

def Last (e : Inode) : Prop := e.ref = 1 ∧ e.valid = true ∧ e.d.nlink = 0

instance (e : Inode) : Decidable (Last e) := inferInstanceAs (Decidable (_ ∧ _))

def dropped (F : ℕ → Node) (e : Inode) : ℕ → Node :=
  if Last e then update F e.inum {} else F

theorem iputLast_sat (h : Inv sb (ip ::ₘ H) s) (hlast : Last (s.itable ip)) :
    Sat (do
      acquiresleep ip
      itrunc sb ip
      modifyDinode ip fun d => { d with type := 0 }
      iupdate sb ip
      let e ← getInode ip
      setInode ip { e with valid := false, locked := false }) s
      (fun _ t => Step sb H H (update (files sb s) (s.itable ip).inum {}) s
        (t.setInode ip { t.itable ip with ref := (t.itable ip).ref - 1 })) Mild := by
  obtain ⟨hr, hv, hn⟩ := hlast
  have hcs : Cached (s.itable ip) (s.itable ip).inum := ⟨h.ref_pos, rfl, hv⟩
  set i := (s.itable ip).inum with hi
  refine Sat.bind (acquiresleep_sat s ip) ?_
  rintro _ t rfl
  have h1 := h.acquire ip
  set s₁ := s.acquire ip with hs₁
  have hc₁ : Cached (s₁.itable ip) i := by
    rw [hs₁, acquire_self]
    exact hcs
  have hl₁ := h1.inv.toLive hc₁
  refine Sat.bind (itrunc_sat hl₁) ?_
  rintro _ t ⟨hput, hsize, haddr⟩
  have hfile₁ : (view sb s₁).file i = files sb s i := by
    rw [h1.inv.view, ← h1.files]
    rfl
  rw [hfile₁] at hput
  have h2 := Put.step h1.inv hput (by rw [h1.files]) (inRange_empty rfl)
  have hview := h2.inv.view
  refine modifyDinode_bind ?_
  rw [hput.live.d]
  refine Sat.bind (hput.live.put _) ?_
  rintro _ u ⟨htu, hhu, hvu, hdu⟩
  refine getInode_bind (setInode_sat ?_)
  have hdisk : disk sb u = (disk sb t).setNode i { (view sb t).node i with type := 0 } := by
    have : disk sb u = { view sb u with node := (disk sb u).node } := rfl
    rw [this, hvu, hdu, hview]
    rfl
  rw [setInode_setInode, setInode_self]
  have hrt : (t.itable ip).ref = 1 := by
    rw [(hput.touched.ref ip).1, hs₁, acquire_self]
    exact hr
  have hfree : Step sb H H (update (files sb t) i {}) t _ :=
    h2.inv.free (e := { u.itable ip with
      ref := (u.itable ip).ref - 1, valid := false, locked := false }) hput.live.cached hrt htu
      hhu.log hdisk (fun j => by rw [← hview]; exact haddr j) rfl haddr hsize (by
        have := (htu.ref ip).1
        dsimp only
        omega)
  have hle := Multiset.le_cons_self H ip
  have hall := ((h1.mono hle).trans (h2.mono hle)).trans hfree
  rwa [h2.files, h1.files, update_idem] at hall

theorem iput_sat (h : Inv sb (ip ::ₘ H) s) :
    Sat (iput sb ip) s (fun _ t => Step sb H H (dropped (files sb s) (s.itable ip)) s t) Mild := by
  unfold iput
  refine getInode_bind (Sat.bind (R := fun _ t => Step sb H H (dropped (files sb s) (s.itable ip)) s
        (t.setInode ip { t.itable ip with ref := (t.itable ip).ref - 1 }))
    (doIf_sat (fun (hlast : Last (s.itable ip)) => ?_) fun (hlast : ¬ Last (s.itable ip)) => ?_)
    fun _ t ht => getInode_bind (setInode_sat ht))
  · rw [dropped, if_pos hlast]
    exact iputLast_sat h hlast
  · rw [dropped, if_neg hlast]
    exact h.decref

variable {type : BitVec 16}

theorem Inv.claim (h : Inv sb H s) (ht : ((disk sb s).node i).type = 0)
    (hm : Moves sb s t ((disk sb s).setNode i { type := type })) (htype : type ≠ 0) :
    Step sb H H (update (files sb s) i { type := type }) s t := by
  have hit : t.itable = s.itable := by rw [hm.eq]
  have hft : t.ftable = s.ftable := by rw [hm.eq]
  have hpr : t.procs = s.procs := by rw [hm.eq]
  have hcached : ∀ jp k, Cached (s.itable jp) k → (disk sb t).node k = (disk sb s).node k := by
    intro jp k hc
    rw [hm.vol, Vol.setNode_node_of_ne]
    rintro rfl
    exact h.live jp k hc ht
  have hfiles : files sb t = update (files sb s) i { type := type } := by
    rw [files_setNode hm.vol]
    congr 1
    rw [files, hm.vol, Vol.file_of_ne (by rwa [Vol.setNode_node_self]), Vol.setNode_node_self]
    rfl
  refine ⟨⟨hm.log, ?_, hit ▸ h.uniq, hit ▸ h.range, ?_, ?_, ?_, ?_, ?_, hft ▸ h.idle⟩,
    ⟨hft, hpr, fun jp _ => by rw [hit]; exact ⟨rfl, id⟩⟩, hfiles⟩
  · rw [hm.vol]
    refine h.wf.blank (fun j => ?_) (fun _ => rfl) rfl
    simp only [Vol.place, ht, if_true]
  · intro jp k hc
    rw [hit] at hc ⊢
    rw [hcached jp k hc]
    exact h.sync jp k hc
  · intro jp k hc
    rw [hit] at hc
    rw [hcached jp k hc]
    exact h.live jp k hc
  · intro jp
    rw [hit, users_congr hft]
    exact h.refs jp
  · rw [hfiles]
    intro k
    rw [update_apply]
    split
    · exact inRange_empty rfl
    · exact h.ents k
  · rw [hft, hit]
    exact h.opened

theorem iallocFrom_sat {n inum : ℕ} (h : Inv sb H s) (htype : type ≠ 0) (hpos : 0 < inum) :
    Sat (iallocFrom sb type n inum) s (fun ip t => ∃ i, 0 < i ∧ i < sb.ninodes ∧
      (files sb s i).type = 0 ∧ (t.itable ip).inum = i ∧
      Step sb H (ip ::ₘ H) (update (files sb s) i { type := type }) s t) Mild := by
  induction n generalizing inum with
  | zero => exact Sat.throw ⟨nofun, nofun⟩
  | succ n ih =>
    rw [iallocFrom]
    refine Sat.ite (fun hlt => bread_bind (Sat.ite (fun hfree => ?_) fun _ => ih (by omega)))
      fun _ => Sat.throw ⟨nofun, nofun⟩
    rw [readDinode_eq hlt] at hfree
    have hput := put_sat h.log (IBLOCK_range hlt) (diskVol_dinode s.m.buf hlt { type := type })
    rw [← bind_assoc]
    refine Sat.bind hput fun _ t hm => ?_
    have hstep : Step sb H H (update (files sb s) inum { type := type }) s t :=
      h.claim hfree hm htype
    refine (iget_sat hstep.inv hpos hlt).post ?_
    rintro ip u ⟨hu, hnum, -⟩
    rw [hstep.files] at hu
    exact ⟨inum, hpos, hlt, by rw [files_type]; exact hfree, hnum, hstep.trans hu⟩

theorem ialloc_sat (h : Inv sb H s) (htype : type ≠ 0) :
    Sat (ialloc sb type) s (fun ip t => ∃ i, 0 < i ∧ i < sb.ninodes ∧
      (files sb s i).type = 0 ∧ (t.itable ip).inum = i ∧
      Step sb H (ip ::ₘ H) (update (files sb s) i { type := type }) s t) Mild :=
  iallocFrom_sat h htype Nat.one_pos

variable {m : Log.Mach}

theorem Inv.machine {n : ℕ} (h : Inv sb H s) (hl : LogOk sb m) (hd : diskVol sb m.buf = disk sb s) :
    Step sb H H (files sb s) s { s with m := m, outstanding := n } := by
  have hdisk : disk sb { s with m := m, outstanding := n } = disk sb s := hd
  have hfiles : files sb { s with m := m, outstanding := n } = files sb s := by
    rw [files, hdisk]
    rfl
  refine ⟨⟨hl, ?_, h.uniq, h.range, ?_, ?_, h.refs, ?_, h.opened, h.idle⟩,
    ⟨rfl, rfl, fun _ _ => ⟨rfl, id⟩⟩, hfiles⟩
  · rw [hdisk]
    exact h.wf
  · rw [hdisk]
    exact h.sync
  · rw [hdisk]
    exact h.live
  · rw [hfiles]
    exact h.ents

theorem beginOp_sat (h : Inv sb H s) :
    Sat beginOp s (fun _ t => t.itable = s.itable ∧ Step sb H H (files sb s) s t) Mild := by
  unfold beginOp
  exact Sat.get_bind (Sat.ite (fun _ => Sat.throw ⟨nofun, nofun⟩)
    fun _ => ⟨rfl, h.machine h.log rfl⟩)

/-- Outside of the log, `commit` writes the logged blocks as they are in the cache, through to the
disk. -/
theorem commit_home (hl : LogOk sb m) :
    ∃ ws, (Log.commit sb.logstart m).disk = Writes.apply m.disk ws ∧
      (Log.commit sb.logstart m).buf = Writes.apply m.buf ws ∧
      ∀ b, sb.inodestart ≤ b → ∀ f, Writes.apply f ws b = if b ∈ m.lh then m.buf b else f b := by
  have hfits := sb.log_fits
  have hpos := sb.log_pos
  rcases Nat.eq_zero_or_pos m.lh.length with h0 | hlen
  · refine ⟨[], ?_, ?_, fun b _ f => ?_⟩
    · rw [Log.commit, if_neg (by omega), Writes.apply_nil]
    · rw [Log.commit, if_neg (by omega), Writes.apply_nil]
    · rw [length_eq_zero_iff.mp h0, if_neg not_mem_nil, Writes.apply_nil]
  have hhome : ∀ c ∈ m.lh, Log.Home sb.logstart sb.nlog c := fun c hc => by
    have := hl.home c hc
    have := sb.size_lt
    exact ⟨.inr (by omega), by omega⟩
  obtain ⟨f, hd, heq, hf⟩ := Log.commit_eq m hpos hlen hl.room hhome
  refine ⟨_, by rw [heq]; rfl, by rw [heq]; rfl, fun b hb g => ?_⟩
  have hagree : ∀ w ∈ Log.installWrites sb.logstart f 0 m.lh, w.2 = m.buf w.1 :=
    Log.installWrites_agree (by simpa using hf)
  have hlog : b ∉ (Log.logWrites sb.logstart m.buf 0 m.lh).map Prod.fst := by
    rw [Log.keys_logWrites]
    simp only [mem_map, mem_range'_1, not_exists, not_and]
    intro k hk
    have := hl.room
    omega
  simp only [Log.finishWrites, Writes.apply_append, Writes.apply_cons, Writes.apply_nil]
  rw [update_of_ne (by omega)]
  split
  · rename_i hm
    exact Writes.apply_of_agree _ hagree (by rwa [Log.keys_installWrites])
  · rename_i hm
    rw [Writes.apply_of_notMem _ (by rwa [Log.keys_installWrites]),
      update_of_ne (by omega), Writes.apply_of_notMem _ hlog]

theorem commit_buf (hl : LogOk sb m) {b : ℕ} (hb : sb.inodestart ≤ b) :
    (Log.commit sb.logstart m).buf b = m.buf b := by
  obtain ⟨ws, -, hbuf, hws⟩ := commit_home hl
  rw [hbuf, hws b hb, ite_self]

theorem diskVol_commit (hl : LogOk sb m) :
    diskVol sb (Log.commit sb.logstart m).buf = diskVol sb m.buf := by
  simp only [diskVol, Vol.mk.injEq]
  refine ⟨funext fun b => ?_, funext fun i => ?_, funext fun b => ?_⟩
  · by_cases hb : b < sb.size
    · rw [commit_buf hl (BBLOCK_range hb).1]
    · simp [hb]
  · split
    · rename_i hi
      rw [commit_buf hl (IBLOCK_range hi).1]
    · rfl
  · split
    · rename_i hb
      rw [commit_buf hl (IsData.range hb).1]
    · rfl

theorem commit_logOk (hl : LogOk sb m) : LogOk sb (Log.commit sb.logstart m) := by
  unfold Log.commit
  split
  · exact ⟨Nat.zero_le _, fun b hb => absurd hb not_mem_nil⟩
  · exact hl

theorem endOp_sat (h : Inv sb H s) :
    Sat (endOp sb) s (fun _ t => t.itable = s.itable ∧ Step sb H H (files sb s) s t) Mild := by
  unfold endOp
  exact Sat.get_bind (Sat.ite
    (fun _ => ⟨rfl, h.machine (commit_logOk h.log) (diskVol_commit h.log)⟩)
    fun _ => ⟨rfl, h.machine h.log rfl⟩)

end Xv6.Fs
