import Xv6.Fs.ExecFile
import Xv6.Fs.Pass
import Xv6.Fs.CallSpec

/-! The transactions of the calls: each gives back the locks it took, changes only inodes that it
locked, and stays within its share of the log. -/
namespace Xv6.Fs
open Bytes Function
open Xv6.Log (BSIZE MAXOPBLOCKS)

variable {sb : Superblock} {P : Prop} {S S' : Finset ℕ} {k : ℕ} {l : InodePtr → Bool}
  {R : ℕ → Prop} {s t u : State} {ip dp cwd : InodePtr} {i d : ℕ} {H : Multiset InodePtr}
  {path name : List Byte} {type major minor : BitVec 16} {p : Fin NPROC} {x : Proc} {f : FilePtr}

theorem Pass.reserve (h : Pass sb P S (k + 1) l s t) (b : ℕ) : Pass sb P (insert b S) k l s t :=
  ⟨fun hp => (h.room hp).reserve b, h.locks, h.leaves⟩

def nodeBlocks (sb : Superblock) (i : ℕ) : Finset ℕ := {sb.bmapstart, sb.IBLOCK i}

theorem mem_nodeBlocks : sb.bmapstart ∈ nodeBlocks sb i ∧ sb.IBLOCK i ∈ nodeBlocks sb i := by
  simp [nodeBlocks]

theorem Pass.node (h : Pass sb P ∅ (k + 2) l s t) (i : ℕ) :
    Pass sb P (nodeBlocks sb i) k l s t :=
  (Pass.reserve (k := k + 1) h (sb.IBLOCK i)).reserve sb.bmapstart

theorem homeBlock_mem (hc : Cached (s.itable ip) i) (hS : sb.bmapstart ∈ S ∧ sb.IBLOCK i ∈ S) :
    sb.bmapstart ∈ S ∧ homeBlock sb s ip ∈ S := by
  rw [homeBlock, hc.2.1]
  exact hS

theorem iallocFrom_pass {n inum : ℕ} (hg : P → Mkfs sb) (h : Inv sb H s)
    (hr : P → Room S (k + 1) s) (htype : type ≠ 0) (hpos : 0 < inum) :
    Sat (iallocFrom sb type n inum) s (fun ip t =>
      (P → Room (insert (sb.IBLOCK (t.itable ip).inum) S) k t) ∧ locks t = locks s ∧
      t.taken = s.taken ∧ LogOk sb t.m ∧
      ∀ j, j ≠ (t.itable ip).inum → (disk sb t).node j = (disk sb s).node j) (Fine P) := by
  induction n generalizing inum with
  | zero => exact Sat.throw nofun
  | succ n ih =>
    rw [iallocFrom]
    refine Sat.ite (fun hlt => bread_bind (Sat.ite (fun hfree => ?_) fun _ => ih (by omega)))
      fun _ => Sat.throw nofun
    rw [readDinode_eq hlt] at hfree
    have hput := put_sat h.log (IBLOCK_range hlt) (diskVol_dinode s.m.buf hlt { type := type })
    rw [← bind_assoc]
    refine Sat.bind (with_room hput fun hp =>
      put_room (hg hp) ((hr hp).reserve _) (Finset.mem_insert_self _ _) _) ?_
    rintro _ t ⟨hm, hroom⟩
    have hinv := (h.claim hfree hm htype).inv
    refine ((iget_sat hinv hpos hlt).beside (iget_quiet inum)).post ?_
    rintro ip u ⟨⟨-, hnum, -⟩, hq⟩
    have hl : locks t = locks s := by rw [hm.eq]; rfl
    have htk : t.taken = s.taken := by rw [hm.eq]
    rw [hnum]
    refine ⟨fun hp => (hroom hp).1.same (by rw [hq.1]), hq.2.2.trans hl, hq.2.1.trans htk,
      by rw [hq.1]; exact hm.log, ?_⟩
    intro j hj
    have hd : (disk sb u).node j = (disk sb t).node j := by rw [disk, disk, hq.1]
    rw [hd, hm.vol]
    exact Vol.setNode_node_of_ne _ _ hj

theorem createDots_pass (hg : P → Mkfs sb) (h : Inv sb H s) (hip : ip ∈ H)
    (hc : Cached (s.itable ip) i) (hi : i ∈ s.taken)
    (hS : P → sb.bmapstart ∈ S ∧ sb.IBLOCK i ∈ S) (hr : P → Room S (k + 4) s)
    (hlt : i < sb.ninodes) (hd : d < sb.ninodes) :
    Sat (createDots sb ip i d) s (fun _ t => (∃ F, Step sb H H F s t) ∧
      Pass sb P S k (locks s) s t) (Fine P) := by
  unfold createDots
  refine Sat.bind ((dirlink_sat dot h hc hlt).beside (dirlink_pass h hc hi hg hS hr dot i)) ?_
  rintro r t ⟨⟨-, hlinked⟩, hp⟩
  refine Sat.ite (fun hr1 => ?_) fun _ => Sat.throw nofun
  rw [if_pos hr1] at hlinked
  obtain ⟨-, _, _, -, -, ht⟩ := hlinked
  have hct := ht.cached hip hip hc
  refine Sat.bind ((dirlink_sat dotdot ht.inv hct hd).beside
    (dirlink_pass ht.inv hct (hp.leaves.taken hi) hg hS hp.room dotdot d)) ?_
  rintro r u ⟨⟨-, hlinked⟩, hp'⟩
  refine Sat.ite (fun hr2 => Sat.pure ?_) fun _ => Sat.throw nofun
  rw [if_pos hr2] at hlinked
  obtain ⟨-, _, _, -, -, hu⟩ := hlinked
  rw [hp.locks] at hp'
  exact ⟨⟨_, ht.trans hu⟩, hp.trans hp'⟩

theorem createDir_pass (hg : P → Mkfs sb) (h : Inv sb H s) (hip : ip ∈ H)
    (hc : Cached (s.itable ip) i) (hcd : Cached (s.itable dp) d) (hi : i ∈ s.taken)
    (hd : d ∈ s.taken) (hS : P → sb.bmapstart ∈ S ∧ sb.IBLOCK i ∈ S)
    (hSd : P → sb.bmapstart ∈ S ∧ sb.IBLOCK d ∈ S) (hr : P → Room S (k + 4) s) :
    Sat (doIf (type = T_DIR) do
      modifyDinode dp fun d => { d with nlink := d.nlink + 1 }
      iupdate sb dp
      createDots sb ip (s.itable ip).inum (s.itable dp).inum) s (fun _ t =>
        (∃ F, Step sb H H F s t) ∧ Pass sb P S k (locks s) s t) (Fine P) := by
  refine doIf_sat (fun _ => ?_) fun _ => ?_
  · rw [← bind_assoc]
    refine Sat.bind ((setNlink_sat (g := fun n => n + 1) h hcd).beside
      (update_pass h hcd hd hg hSd _ hr)) ?_
    rintro _ t ⟨ht, hp⟩
    rw [hc.2.1, hcd.2.1]
    refine (createDots_pass hg ht.inv hip (ht.cached hip hip hc) (hp.leaves.taken hi) hS hp.room
      (h.toLive hc).lt (h.toLive hcd).lt).post ?_
    rintro _ u ⟨⟨F, hu⟩, hp'⟩
    rw [hp.locks] at hp'
    exact ⟨⟨F, ht.trans hu⟩, hp.trans hp'⟩
  · exact ⟨⟨_, h, Frame.refl _ _, rfl⟩,
      (pass_refl hr).mono (Finset.Subset.refl _) (Nat.le_add_right _ _)⟩

theorem createNew_pass (hg : P → Mkfs sb) (h : Inv sb (dp ::ₘ H) s)
    (hcd : Cached (s.itable dp) d) (hd : d ∈ s.taken)
    (hr : P → Room (nodeBlocks sb d) 7 s) (htype : type ≠ 0) :
    Sat (createNew sb dp name type major minor) s (fun ip t => locks s ip = false ∧
      (t.itable ip).inum ∈ t.taken ∧ Pass sb P (nodeBlocks sb (t.itable ip).inum) 0
        (update (update (locks s) ip true) dp false) s t) (Fine P) := by
  unfold createNew
  have halloc : Sat (ialloc sb type) s _ (Fine P) := iallocFrom_pass (k := 6) hg h hr htype
    Nat.one_pos
  refine Sat.bind ((ialloc_sat h htype).beside halloc) ?_
  rintro ip t ⟨⟨i, -, hlt, -, hnum, ht⟩, hroom, hl, htk, hlog, hnode⟩
  rw [hnum] at hroom hnode
  have hmem : ip ∈ ip ::ₘ dp ::ₘ H := Multiset.mem_cons_self ip _
  have hdmem : dp ∈ ip ::ₘ dp ::ₘ H := Multiset.mem_cons_of_mem (Multiset.mem_cons_self dp H)
  have hdt := ht.cached (Multiset.mem_cons_self dp H) hdmem hcd
  set S := insert (sb.IBLOCK i) (nodeBlocks sb d) with hSdef
  have hSi : P → sb.bmapstart ∈ S ∧ sb.IBLOCK i ∈ S := fun _ =>
    ⟨Finset.mem_insert_of_mem mem_nodeBlocks.1, Finset.mem_insert_self _ _⟩
  have hSd : P → sb.bmapstart ∈ S ∧ sb.IBLOCK d ∈ S := fun _ =>
    ⟨Finset.mem_insert_of_mem mem_nodeBlocks.1, Finset.mem_insert_of_mem mem_nodeBlocks.2⟩
  refine Sat.bind ((ilock_sat ht.inv (ht.inv.ref_of_mem hmem)).beside (ilock_pass hroom)) ?_
  rintro _ u ⟨⟨hu, hcu⟩, hfr, hiu, -, hpu⟩
  rw [hnum] at hcu hiu
  rw [hl] at hfr hpu
  -- the new inode changed before it was locked
  have hp1 : Pass sb P S 6 (update (locks s) ip true) s u := by
    refine ⟨hpu.room, hpu.locks, ⟨fun _ => hpu.leaves.log hlog,
      fun j hj => hpu.leaves.taken (htk ▸ hj), fun j hj => ?_⟩⟩
    have hne : j ≠ i := fun he => hj (he ▸ hiu)
    exact (hpu.leaves.node j hj).trans (hnode j hne)
  have hdu := hu.cached hdmem hdmem hdt
  rw [← bind_assoc]
  refine Sat.bind ((setFields_sat (g := fun d => { d with
    major := major, minor := minor, nlink := 1 }) hu.inv hcu fun _ => ⟨rfl, rfl, rfl⟩).beside
    (update_pass hu.inv hcu hiu hg hSi _ hp1.room)) ?_
  rintro _ v ⟨hv, hp2⟩
  have hcv := hv.cached hmem hmem hcu
  have hdv := hv.cached hdmem hdmem hdu
  have hdtv : d ∈ v.taken := hp2.leaves.taken (hp1.leaves.taken hd)
  have hitv : i ∈ v.taken := hp2.leaves.taken hiu
  refine getInode_bind (getInode_bind (Sat.bind
    (createDir_pass (k := 2) hg hv.inv hmem hcv hdv hitv hdtv hSi hSd hp2.room) ?_))
  rintro _ w ⟨⟨F, hw⟩, hp3⟩
  have hdw := hw.cached hdmem hdmem hdv
  rw [hcv.2.1]
  refine Sat.bind ((dirlink_sat name hw.inv hdw hlt).beside (dirlink_pass (k := 0) hw.inv hdw
    (hp3.leaves.taken hdtv) hg hSd hp3.room name i)) ?_
  rintro r x ⟨⟨-, hlinked⟩, hp4⟩
  refine Sat.ite (fun hr1 => ?_) fun _ => Sat.throw nofun
  rw [if_pos hr1] at hlinked
  obtain ⟨-, _, _, -, -, hx⟩ := hlinked
  have hcx := hx.cached hmem hmem (hw.cached hmem hmem hcv)
  have hdx := hx.cached hdmem hdmem hdw
  have hinv : Inv sb (dp ::ₘ ip ::ₘ H) x := by
    rw [Multiset.cons_swap]
    exact hx.inv
  refine Sat.bind ((iunlockput_sat hinv).beside
    (iunlockput_pass hg hinv hp4.room fun hP _ => homeBlock_mem hdx (hSd hP))) ?_
  rintro _ y ⟨hy, hp5⟩
  have hcy := hy.cached (Multiset.mem_cons_self ip H) (Multiset.mem_cons_self ip H) hcx
  rw [hp4.locks, hp3.locks, hp2.locks, hp1.locks] at hp5
  refine Sat.pure ⟨hfr, ?_⟩
  rw [hcy.2.1]
  refine ⟨hp5.leaves.taken (hp4.leaves.taken (hp3.leaves.taken hitv)), ?_⟩
  refine ((((hp1.trans hp2).trans hp3).trans hp4).trans hp5).mono ?_ (le_refl 0)
  intro b hb
  rcases Finset.mem_insert.mp hb with rfl | hb
  · exact Finset.mem_insert_of_mem mem_nodeBlocks.1
  · rw [Finset.mem_singleton.mp hb]
    exact Finset.mem_insert_self _ _

theorem update_create (hdp : l dp = false) (hip : update l dp true ip = false) :
    l ip = false ∧ update (update (update l dp true) ip true) dp false =
      update l ip true := by
  have hne : ip ≠ dp := by
    rintro rfl
    rw [update_self] at hip
    cases hip
  rw [update_of_ne hne] at hip
  refine ⟨hip, ?_⟩
  rw [update_comm hne, update_idem, ← hdp, update_eq_self]

def OpenPass (sb : Superblock) (P : Prop) (s : State) (r : Option InodePtr) (t : State) : Prop :=
  match r with
  | none => Pass sb P ∅ 0 (locks s) s t
  | some ip => locks s ip = false ∧ (t.itable ip).inum ∈ t.taken ∧
    Pass sb P (nodeBlocks sb (t.itable ip).inum) 0 (update (locks s) ip true) s t

theorem Pass.done (h : Pass sb P S k l s t) : Pass sb P ∅ 0 l s t :=
  h.mono (Finset.empty_subset _) (Nat.zero_le _)

section
variable (hg : P → Mkfs sb) (h : Inv sb H s) (hcwd : 0 < (s.itable cwd).ref)
  (hr : P → Room ∅ MAXOPBLOCKS s) (hcalm : P → Calm sb R H s ∧ R (s.itable cwd).inum)
include hg h hcwd hr hcalm

theorem lookup_pass {α : Type} {parent : Bool} {f : Option (InodePtr × List Byte) → M α}
    {Q : α → State → Prop} (hnone : ∀ t, Pass sb P ∅ 0 (locks s) s t → Sat (f none) t Q (Fine P))
    (hsome : ∀ ip nm t, (∃ F, Step sb H (ip ::ₘ H) F s t) → (P → Calm sb R H t) →
      Pass sb P ∅ MAXOPBLOCKS (locks s) s t → Sat (f (some (ip, nm))) t Q (Fine P)) :
    Sat (namex sb cwd path parent >>= f) s Q (Fine P) := by
  refine Sat.bind (namex_pass hg h hcwd hr hcalm) ?_
  rintro r t ⟨hstep, hc, hp⟩
  cases r with
  | none => exact hnone t hp.done
  | some x => exact hsome x.1 x.2 t hstep hc hp

theorem create_pass (htype : type ≠ 0) :
    Sat (create sb cwd path type major minor) s (OpenPass sb P s) (Fine P) := by
  unfold create nameiparent
  refine lookup_pass hg h hcwd hr hcalm (fun t hp => Sat.pure hp) ?_
  rintro dp name t ⟨F, ht⟩ - hp
  have hdmem := Multiset.mem_cons_self dp H
  refine Sat.bind ((ilock_sat ht.inv ht.inv.ref_pos).beside (ilock_pass hp.room)) ?_
  rintro _ u ⟨⟨hu, hcu⟩, hfree, htaken, -, hpu⟩
  rw [hp.locks] at hfree hpu
  have hp1 : Pass sb P (nodeBlocks sb (t.itable dp).inum) 8 _ s u := (hp.trans hpu).node _
  refine Sat.bind ((dirlookup_sat name hu.inv hcu).beside (dirlookup_quiet name hu.inv hcu)) ?_
  rintro r v ⟨⟨-, hfound⟩, hq⟩
  have hp2 : Pass sb P (nodeBlocks sb (t.itable dp).inum) 8 (locks u) u v := hq.pass hp1.room
  rw [hp1.locks] at hp2
  have hp12 := hp1.trans hp2
  split
  · rename_i ip off
    obtain ⟨j, -, -, hv, -, -⟩ := hfound
    have hinv : Inv sb (dp ::ₘ ip ::ₘ H) v := by
      rw [Multiset.cons_swap]
      exact hv.inv
    have hcv := hv.cached hdmem (Multiset.mem_cons_of_mem hdmem) hcu
    refine Sat.bind ((iunlockput_sat hinv).beside
      (iunlockput_pass hg hinv hp2.room fun _ _ => homeBlock_mem hcv mem_nodeBlocks)) ?_
    rintro _ w ⟨hw, hp3⟩
    rw [hp2.locks, update_unlock hfree] at hp3
    have hp13 := ((hp12.trans hp3).mono (Finset.empty_subset _) (le_refl 8)).node (w.itable ip).inum
    refine Sat.bind ((ilock_sat hw.inv hw.inv.ref_pos).beside (ilock_pass hp13.room)) ?_
    rintro _ x ⟨⟨hx, hcx⟩, hfree', htaken', -, hp4⟩
    rw [hp3.locks] at hfree' hp4
    have hp14 := hp13.trans hp4
    refine getInode_bind (Sat.ite (fun _ => Sat.pure ⟨hfree', ?_⟩) fun _ => ?_)
    · rw [hcx.2.1]
      exact ⟨htaken', hp14.mono (Finset.Subset.refl _) (Nat.zero_le _)⟩
    · refine Sat.bind (iunlockput_pass hg hx.inv hp4.room fun _ _ =>
        homeBlock_mem hcx mem_nodeBlocks) ?_
      intro _ y hp5
      rw [hp4.locks, update_unlock hfree'] at hp5
      exact Sat.pure (hp14.trans hp5).done
  · obtain ⟨rfl, -⟩ := hfound
    refine Sat.bind (createNew_pass hg hu.inv hcu htaken
      (fun hP => (hp1.room hP).mono (Finset.Subset.refl _) (by omega)) htype) ?_
    rintro ip w ⟨hfree', htaken', hp3⟩
    rw [hp1.locks] at hfree' hp3
    obtain ⟨hip, hl⟩ := update_create hfree hfree'
    rw [hl] at hp3
    exact Sat.pure ⟨hip, htaken', hp1.trans hp3⟩

theorem openInode_pass (omode : BitVec 32) :
    Sat (openInode sb cwd path omode) s (OpenPass sb P s) (Fine P) := by
  unfold openInode namei
  refine Sat.ite (fun _ => create_pass hg h hcwd hr hcalm (by decide)) fun _ => ?_
  rw [bind_assoc]
  simp only [pure_bind]
  refine lookup_pass hg h hcwd hr hcalm (fun t hp => Sat.pure hp) ?_
  rintro ip nm t ⟨F, ht⟩ - hp
  have hp1 : Pass sb P (nodeBlocks sb (t.itable ip).inum) 8 _ s t := hp.node _
  refine Sat.bind ((ilock_sat ht.inv ht.inv.ref_pos).beside (ilock_pass hp1.room)) ?_
  rintro _ u ⟨⟨hu, hcu⟩, hfree, htaken, -, hpu⟩
  rw [hp.locks] at hfree hpu
  have hp2 := hp1.trans hpu
  refine getInode_bind (Sat.ite (fun _ => ?_) fun _ => Sat.pure ⟨hfree, ?_⟩)
  · refine Sat.bind (iunlockput_pass hg hu.inv hpu.room fun _ _ =>
      homeBlock_mem hcu mem_nodeBlocks) ?_
    intro _ v hp3
    rw [hpu.locks, update_unlock hfree] at hp3
    exact Sat.pure (hp2.trans hp3).done
  · rw [hcu.2.1]
    exact ⟨htaken, hp2.mono (Finset.Subset.refl _) (Nat.zero_le _)⟩

end

theorem quiet_of_itable (hm : t.m = s.m) (ht : t.taken = s.taken) (hi : t.itable = s.itable) :
    Quiet s t := ⟨hm, ht, by unfold locks; rw [hi]⟩

structure Holds (sb : Superblock) (P : Prop) (S : Finset ℕ) (ip : InodePtr) (i : ℕ) (s : State) :
    Prop where
  cached : Cached (s.itable ip) i
  taken : i ∈ s.taken
  blocks : P → sb.bmapstart ∈ S ∧ sb.IBLOCK i ∈ S

theorem Holds.put (hg : P → Mkfs sb) (h : Inv sb (ip ::ₘ H) s) (hold : Holds sb P S ip i s)
    (hr : P → Room S k s) :
    Sat (iunlockput sb ip) s
      (fun _ t => Pass sb P S k (update (locks s) ip false) s t) (Fine P) :=
  iunlockput_pass hg h hr fun hP _ => homeBlock_mem hold.cached (hold.blocks hP)

theorem openEnd_pass {y : File} {c : Prop} [Decidable c] {r : ℤ} (hg : P → Mkfs sb)
    (h : Inv sb (ip ::ₘ H) s) (hold : Holds sb P S ip i s) (hroom : P → Room S k s)
    (hfree : fileUser (s.ftable f) = none) (hy : fileUser y = some ip) (hr : y.ref ≠ 0)
    (hw : y.writable = true → (files sb s i).type ≠ T_DIR) :
    Sat (do
      setFile f y
      doIf c (itrunc sb ip)
      iunlock ip
      return r) s (fun _ t => Pass sb P S k (update (locks s) ip false) s t)
      (Fine P) := by
  have h1 : Moved sb True True (ip ::ₘ H) H s (s.setFile f y) :=
    h.openedFile hold.cached hfree hy hr hw
  have hq : Quiet s (s.setFile f y) := quiet_of_itable rfl rfl rfl
  have hp : Pass sb P S k (locks s) s (s.setFile f y) := hq.pass hroom
  refine setFile_bind (Sat.bind (R := fun _ t => Pass sb P S k (locks s) s t)
    (doIf_sat (fun _ => ?_) fun _ => hp) ?_)
  · refine (itrunc_pass h1.inv hold.cached hold.taken hg hold.blocks hp.room).post ?_
    intro _ t ht
    rw [hp.locks] at ht
    exact hp.trans ht
  · intro _ t ht
    refine Sat.bind (iunlock_pass sb ht.room) ?_
    rintro _ u ⟨-, hu⟩
    rw [ht.locks] at hu
    exact Sat.pure (ht.trans hu)

theorem openFile_pass {omode : BitVec 32} (hg : P → Mkfs sb) (h : Inv sb (ip ::ₘ H) s)
    (hx : s.procs p = some x) (hold : Holds sb P S ip i s)
    (hd : (files sb s i).type = T_DIR → omode = 0) (hr : P → Room S k s) :
    Sat (openFile sb p ip omode) s
      (fun _ t => Pass sb P S k (update (locks s) ip false) s t) (Fine P) := by
  have hc := hold.cached
  -- the ways in which the call fails
  have hbad : ∀ t, Inv sb (ip ::ₘ H) t → t.itable = s.itable → t.m = s.m → t.taken = s.taken →
      Sat (openBad sb ip) t
        (fun _ u => Pass sb P S k (update (locks s) ip false) s u) (Fine P) := by
    intro t hinv hit hm htk
    have hp : Pass sb P S k (locks s) s t := (quiet_of_itable hm htk hit).pass hr
    have hold' : Holds sb P S ip i t := ⟨hit ▸ hc, htk ▸ hold.taken, hold.blocks⟩
    refine Sat.bind (hold'.put hg hinv hp.room) fun _ u hu => Sat.pure ?_
    rw [hp.locks] at hu
    exact hp.trans hu
  unfold openFile
  refine getInode_bind ?_
  rw [h.dtype hc]
  refine Sat.ite (fun _ => hbad s h rfl rfl rfl) fun _ => Sat.bind (filealloc_sat s) ?_
  intro r t hfile
  cases r with
  | none =>
    obtain rfl := hfile
    exact hbad t h rfl rfl rfl
  | some f =>
    obtain ⟨h0, rfl⟩ := hfile
    have hnone := h.idle f h0
    have h1 : Moved sb True True (ip ::ₘ H) (ip ::ₘ H) s
        (s.setFile f { s.ftable f with ref := 1 }) := h.sameUser rfl rfl nofun
    refine Sat.bind (fdalloc_sat True h1.inv hx) ?_
    rintro r t ⟨h2, ht⟩
    have hft : t.ftable f = { s.ftable f with ref := 1 } := by
      rw [ht]
      exact setFile_self _ _ _
    have hFt : files sb t = files sb s := by
      rw [ht]
      rfl
    have hit : t.itable = s.itable := by rw [ht]; rfl
    have hm : t.m = s.m := by rw [ht]; rfl
    have htk : t.taken = s.taken := by rw [ht]; rfl
    cases r with
    | none =>
      refine Sat.bind ((fileclose_sat True h2.inv).beside
        (fileclose_fresh (by rw [hft]) (by rw [hft]; exact hnone))) ?_
      rintro _ u ⟨h3, rfl⟩
      exact hbad _ h3.inv hit hm htk
    | some fd =>
      have hold' : Holds sb P S ip i t := ⟨hit ▸ hc, htk ▸ hold.taken, hold.blocks⟩
      have hp : Pass sb P S k (locks s) s t := (quiet_of_itable hm htk hit).pass hr
      refine getFile_bind ((openEnd_pass hg h2.inv hold' hp.room ?_ ?_ ?_ ?_).post ?_)
      · rw [hft]
        exact hnone
      · refine if_pos ?_
        dsimp only
        split
        · exact .inr rfl
        · exact .inl rfl
      · dsimp only
        rw [hft]
        exact one_ne_zero
      · intro hw htd
        rw [hFt] at htd
        rw [hd htd] at hw
        dsimp only at hw
        exact absurd hw (by decide)
      · intro _ u hu
        rw [hp.locks] at hu
        exact hp.trans hu

section
variable (hg : P → Mkfs sb) (h : Inv sb H s) (hx : s.procs p = some x) (hcwd : x.cwd ∈ H)
  (hr : P → Room ∅ MAXOPBLOCKS s) (hcalm : P → Calm sb R H s ∧ R (s.itable x.cwd).inum)
include hg h hx hcwd hr hcalm

theorem openTx_pass (omode : BitVec 32) :
    Sat (openTx sb p path omode) s (fun _ t => Pass sb P ∅ 0 (locks s) s t) (Fine P) := by
  have href := h.ref_of_mem hcwd
  unfold openTx
  refine myproc_bind hx (Sat.bind ((openInode_sat True h href).beside
    (openInode_pass hg h href hr hcalm omode)) ?_)
  rintro r t ⟨⟨h1, hip⟩, hp⟩
  cases r with
  | none => exact Sat.pure hp
  | some ip =>
    obtain ⟨i, hc, hd⟩ := hip ip rfl
    obtain ⟨y, hy, -⟩ := h1.dirs.proc hx
    obtain ⟨hfree, htaken, hp⟩ := hp
    rw [hc.2.1] at htaken hp
    refine (openFile_pass hg h1.inv hy ⟨hc, htaken, fun _ => mem_nodeBlocks⟩ hd hp.room).post ?_
    intro _ u hu
    rw [hp.locks, update_unlock hfree] at hu
    exact (hp.trans hu).done

theorem makeTx_pass (htype : type ≠ 0) :
    Sat (makeTx sb p path type major minor) s (fun _ t => Pass sb P ∅ 0 (locks s) s t)
      (Fine P) := by
  have href := h.ref_of_mem hcwd
  unfold makeTx
  refine myproc_bind hx (Sat.bind ((create_sat True h href htype).beside
    (create_pass hg h href hr hcalm htype)) ?_)
  rintro r t ⟨⟨⟨F, h1, -⟩, hip⟩, hp⟩
  cases r with
  | none => exact Sat.pure hp
  | some ip =>
    obtain ⟨i, hc, -⟩ := hip ip rfl
    obtain ⟨hfree, htaken, hp⟩ := hp
    rw [hc.2.1] at htaken hp
    have hold : Holds sb P (nodeBlocks sb i) ip i t := ⟨hc, htaken, fun _ => mem_nodeBlocks⟩
    refine Sat.bind (hold.put hg h1.inv hp.room) fun _ u hu => Sat.pure ?_
    rw [hp.locks, update_unlock hfree] at hu
    exact (hp.trans hu).done

end

theorem lock_pass (h : Inv sb H s) (href : 0 < (s.itable ip).ref) (hr : P → Room S k s)
    (hS : P → sb.bmapstart ∈ S ∧ sb.IBLOCK (s.itable ip).inum ∈ S) :
    Sat (ilock sb ip) s (fun _ t => Step sb H H (files sb s) s t ∧
      Holds sb P S ip (s.itable ip).inum t ∧ locks s ip = false ∧
      Pass sb P S k (update (locks s) ip true) s t) (Fine P) := by
  refine ((ilock_sat h href).beside (ilock_pass hr)).post ?_
  rintro _ t ⟨⟨ht, hc⟩, hfree, htaken, -, hp⟩
  exact ⟨ht, ⟨hc, htaken, hS⟩, hfree, hp⟩

theorem Holds.step {F : ℕ → Node} {H' : Multiset InodePtr} (hold : Holds sb P S ip i s)
    (ht : Step sb H H' F s t) (hH : ip ∈ H) (hH' : ip ∈ H') (hp : Leaves sb s t)
    (hS : S ⊆ S') : Holds sb P S' ip i t :=
  ⟨ht.cached hH hH' hold.cached, hp.taken hold.taken,
    fun hP => ⟨hS (hold.blocks hP).1, hS (hold.blocks hP).2⟩⟩

theorem Holds.setNlink {g : BitVec 16 → BitVec 16} (hg : P → Mkfs sb) (h : Inv sb H s)
    (hold : Holds sb P S ip i s) (hr : P → Room S k s) :
    Sat (do modifyDinode ip fun d => { d with nlink := g d.nlink }; iupdate sb ip) s
      (fun _ t => Step sb H H (update (files sb s) i
        { files sb s i with nlink := g (files sb s i).nlink }) s t ∧
        Pass sb P S k (locks s) s t) (Fine P) :=
  (setNlink_sat h hold.cached).beside
    (update_pass h hold.cached hold.taken hg hold.blocks _ hr)

theorem linkBad_pass (hg : P → Mkfs sb) (h : Inv sb (ip ::ₘ H) s) (hr : P → Room S k s)
    (hS : P → sb.bmapstart ∈ S ∧ sb.IBLOCK (s.itable ip).inum ∈ S) :
    Sat (linkBad sb ip) s (fun _ t => Pass sb P S k (locks s) s t) (Fine P) := by
  have hmem := Multiset.mem_cons_self ip H
  unfold linkBad
  refine Sat.bind (lock_pass h h.ref_pos hr hS) ?_
  rintro _ t ⟨ht, hold, hfree, hp⟩
  rw [← bind_assoc]
  refine Sat.bind (hold.setNlink (g := fun n => n - 1) hg ht.inv hp.room) ?_
  rintro _ u ⟨hu, hpu⟩
  have hold' := hold.step hu hmem hmem hpu.leaves (Finset.Subset.refl _)
  refine Sat.bind (hold'.put hg hu.inv hpu.room) fun _ v hv => Sat.pure ?_
  rw [hpu.locks, hp.locks, update_unlock hfree] at hv
  exact (hp.trans hpu).trans hv

theorem Calm.setNlink {n : BitVec 16} (h : Calm sb R H s) (hc : Cached (t.itable ip) i)
    (ht : Step sb (ip ::ₘ H) (ip ::ₘ H) (update (files sb s) i
      { files sb s i with nlink := n }) s t) : Calm sb R (ip ::ₘ H) t where
  root := h.root
  entry d hd := by
    rw [ht.files]
    rcases eq_or_ne d i with rfl | hne
    · rw [update_self]
      exact fun htype j hj hne => h.entry d hd htype j hj hne
    · rw [update_of_ne hne]
      exact h.entry d hd
  held j hj htype hn := by
    have hle := Multiset.le_cons_self H ip
    rcases eq_or_ne j i with rfl | hne
    · exact ⟨ip, mem_count (Multiset.mem_cons_self ip H), hc.2.1, hc.2.2⟩
    · rw [ht.files, update_of_ne hne] at htype hn
      exact ((h.held j hj htype hn).frame (ht.frame.mono hle)).mono hle

theorem linkInto_pass {inum : ℕ} (hg : P → Mkfs sb) (h : Inv sb (dp ::ₘ ip ::ₘ H) s)
    (hr : P → Room S (k + 3) s)
    (hS : P → sb.bmapstart ∈ S ∧ sb.IBLOCK (s.itable ip).inum ∈ S) (hlt : inum < sb.ninodes) :
    Sat (do
      ilock sb dp
      let linked ← dirlink sb dp name inum
      iunlockput sb dp
      if linked then do
        iput sb ip
        return 0
      else linkBad sb ip) s (fun _ t => Pass sb P ∅ k (locks s) s t) (Fine P) := by
  have hmem := Multiset.mem_cons_self ip H
  have hdmem := Multiset.mem_cons_self dp (ip ::ₘ H)
  have himem : ip ∈ dp ::ₘ ip ::ₘ H := Multiset.mem_cons_of_mem hmem
  set T := insert (sb.IBLOCK (s.itable dp).inum) S with hT
  have hroom : P → Room T (k + 2) s := fun hP => (hr hP).reserve _
  refine Sat.bind (lock_pass h h.ref_pos hroom fun hP =>
    ⟨Finset.mem_insert_of_mem (hS hP).1, Finset.mem_insert_self _ _⟩) ?_
  rintro _ t ⟨ht, hold, hfree, hpt⟩
  refine Sat.bind ((dirlink_sat name ht.inv hold.cached hlt).beside (dirlink_pass ht.inv
    hold.cached hold.taken hg hold.blocks hpt.room name _)) ?_
  rintro linked u ⟨⟨-, hlinked⟩, hpu⟩
  have hu : ∃ F, Step sb (dp ::ₘ ip ::ₘ H) (dp ::ₘ ip ::ₘ H) F t u := by
    split at hlinked
    · obtain ⟨-, _, _, -, -, hu⟩ := hlinked
      exact ⟨_, hu⟩
    · exact ⟨_, hlinked.2⟩
  obtain ⟨F, hu⟩ := hu
  have hold' := hold.step hu hdmem hdmem hpu.leaves (Finset.Subset.refl _)
  refine Sat.bind ((iunlockput_sat hu.inv).beside (hold'.put hg hu.inv hpu.room)) ?_
  rintro _ v ⟨hv, hpv⟩
  rw [hpu.locks, hpt.locks, update_unlock hfree] at hpv
  have hp := (hpt.trans hpu).trans hpv
  have hSv : P → sb.bmapstart ∈ T ∧ sb.IBLOCK (v.itable ip).inum ∈ T := by
    rw [hv.inum hmem, hu.inum himem, ht.inum himem]
    exact fun hP => ⟨Finset.mem_insert_of_mem (hS hP).1, Finset.mem_insert_of_mem (hS hP).2⟩
  have hdone : ∀ w, Pass sb P T k (locks v) v w → Pass sb P ∅ k (locks s) s w := by
    intro w hw
    rw [hp.locks] at hw
    exact (hp.trans hw).mono (Finset.empty_subset _) (le_refl k)
  refine Sat.ite (fun _ => ?_) fun _ => ?_
  · exact Sat.bind (iput_pass hg hv.inv hp.room fun hP _ => hSv hP)
      fun _ w hw => Sat.pure (hdone w hw)
  · exact (linkBad_pass hg hv.inv hp.room hSv).post fun _ w hw => hdone w hw

theorem unlinkBad_pass (hg : P → Mkfs sb) (h : Inv sb (dp ::ₘ H) t) (hold : Holds sb P S dp d t)
    (hp : Pass sb P S k (update l dp true) s t) (hfree : l dp = false) :
    Sat (unlinkBad sb dp) t (fun _ u => Pass sb P S k l s u) (Fine P) := by
  unfold unlinkBad
  refine Sat.bind (hold.put hg h hp.room) fun _ u hu => Sat.pure ?_
  rw [hp.locks, update_unlock hfree] at hu
  exact hp.trans hu

theorem unlinkEnd_pass {c : Prop} [Decidable c] {r : ℤ} (hg : P → Mkfs sb)
    (h : Inv sb (dp ::ₘ ip ::ₘ H) t) (hold : Holds sb P S dp d t) (holdi : Holds sb P S ip i t)
    (hp : Pass sb P S k (update (update l dp true) ip true) s t)
    (hfree : l dp = false) (hfree' : update l dp true ip = false) :
    Sat (do
      doIf c do
        modifyDinode dp fun d => { d with nlink := d.nlink - 1 }
        iupdate sb dp
      iunlockput sb dp
      modifyDinode ip fun d => { d with nlink := d.nlink - 1 }
      iupdate sb ip
      iunlockput sb ip
      return r) t (fun _ u => Pass sb P S k l s u) (Fine P) := by
  have hdm := Multiset.mem_cons_self dp (ip ::ₘ H)
  have hmem := Multiset.mem_cons_self ip H
  have him : ip ∈ dp ::ₘ ip ::ₘ H := Multiset.mem_cons_of_mem hmem
  have hsub := Finset.Subset.refl S
  refine Sat.bind (R := fun _ u => (∃ F, Step sb (dp ::ₘ ip ::ₘ H) (dp ::ₘ ip ::ₘ H) F t u) ∧
    Pass sb P S k (locks t) t u) (doIf_sat (fun _ => ?_) fun _ => ?_) ?_
  · refine (hold.setNlink (g := fun n => n - 1) hg h hp.room).post ?_
    rintro _ u ⟨hu, hpu⟩
    exact ⟨⟨_, hu⟩, hpu⟩
  · exact ⟨⟨_, h, Frame.refl _ _, rfl⟩, pass_refl hp.room⟩
  rintro _ u ⟨⟨F, hu⟩, hpu⟩
  have hold' := hold.step hu hdm hdm hpu.leaves hsub
  have holdi' := holdi.step hu him him hpu.leaves hsub
  refine Sat.bind ((iunlockput_sat hu.inv).beside (hold'.put hg hu.inv hpu.room)) ?_
  rintro _ v ⟨hv, hpv⟩
  obtain ⟨hifree, hl⟩ := update_create hfree hfree'
  rw [hpu.locks, hp.locks, hl] at hpv
  have holdv := holdi'.step hv hmem hmem hpv.leaves hsub
  rw [← bind_assoc]
  refine Sat.bind (holdv.setNlink (g := fun n => n - 1) hg hv.inv hpv.room) ?_
  rintro _ w ⟨hw, hpw⟩
  have holdw := holdv.step hw hmem hmem hpw.leaves hsub
  refine Sat.bind (holdw.put hg hw.inv hpw.room) fun _ y hpy => Sat.pure ?_
  rw [hpw.locks, hpv.locks, update_unlock hifree] at hpy
  exact (((hp.trans hpu).trans hpv).trans hpw).trans hpy

theorem inUse_quiet (h : Inv sb H s) (hc : Cached (s.itable ip) i) :
    Sat (inUse sb ip) s (fun _ t => t = s) (Fine P) := by
  unfold inUse
  refine getInode_bind (Sat.ite (fun _ => ?_) fun _ => Sat.pure rfl)
  refine Sat.bind (isdirempty_sat nofun h hc) ?_
  rintro r t ⟨rfl, -⟩
  exact Sat.pure rfl

section
variable (hg : P → Mkfs sb) (h : Inv sb H s) (hx : s.procs p = some x) (hcwd : x.cwd ∈ H)
  (hr : P → Room ∅ MAXOPBLOCKS s) (hcalm : P → Calm sb R H s ∧ R (s.itable x.cwd).inum)
include hg h hx hcwd hr hcalm

theorem linkTx_pass (old new : List Byte) :
    Sat (linkTx sb p old new) s (fun _ t => Pass sb P ∅ 0 (locks s) s t) (Fine P) := by
  unfold linkTx namei nameiparent
  refine myproc_bind hx ?_
  rw [bind_assoc]
  simp only [pure_bind]
  refine lookup_pass hg h (h.ref_of_mem hcwd) hr hcalm (fun t hp => Sat.pure hp) ?_
  rintro ip nm t ⟨F, ht⟩ hct hp
  have hmem := Multiset.mem_cons_self ip H
  have hle := Multiset.le_cons_self H ip
  have hp1 : Pass sb P (nodeBlocks sb (t.itable ip).inum) 8 _ s t := hp.node _
  refine Sat.bind (lock_pass ht.inv ht.inv.ref_pos hp1.room fun _ => mem_nodeBlocks) ?_
  rintro _ u ⟨hu, hold, hfree, hpu⟩
  rw [hp.locks] at hfree hpu
  refine getInode_bind (Sat.ite (fun _ => ?_) fun _ => ?_)
  · refine Sat.bind (hold.put hg hu.inv hpu.room) fun _ v hv => Sat.pure ?_
    rw [hpu.locks, update_unlock hfree] at hv
    exact ((hp1.trans hpu).trans hv).done
  rw [← bind_assoc]
  refine Sat.bind (hold.setNlink (g := fun n => n + 1) hg hu.inv hpu.room) ?_
  rintro _ v ⟨hv, hpv⟩
  have hcv := hv.cached hmem hmem hold.cached
  refine Sat.bind ((iunlock_sat hv.inv).beside (iunlock_pass sb hpv.room)) ?_
  rintro _ w ⟨⟨-, hw⟩, -, hpw⟩
  rw [hpv.locks, hpu.locks, update_unlock hfree] at hpw
  have hp2 := ((hp1.trans hpu).trans hpv).trans hpw
  have hcw := hw.cached hmem hmem hcv
  have hsw : Frame H s w := ht.frame.trans (((hu.frame.trans hv.frame).trans hw.frame).mono hle)
  have hcalmw : P → Calm sb R (ip ::ₘ H) w ∧ R (w.itable x.cwd).inum := by
    intro hP
    have hcu := (hct hP).frame (hu.frame.mono hle) hu.files
    refine ⟨(hcu.setNlink hcv hv).frame hw.frame hw.files, ?_⟩
    rw [(hsw.keep x.cwd (mem_count hcwd)).1]
    exact (hcalm hP).2
  have hS : P → sb.bmapstart ∈ nodeBlocks sb (t.itable ip).inum ∧
      sb.IBLOCK (w.itable ip).inum ∈ nodeBlocks sb (t.itable ip).inum := by
    rw [hcw.2.1]
    exact fun _ => mem_nodeBlocks
  refine Sat.bind (namex_pass hg hw.inv (hw.inv.ref_of_mem (Multiset.mem_cons_of_mem hcwd)) hpw.room
    hcalmw) ?_
  rintro r y ⟨⟨G, hy⟩, -, hpy⟩
  rw [hpw.locks] at hpy
  have hnum : (y.itable ip).inum = (w.itable ip).inum := hy.inum hmem
  cases r with
  | none =>
    refine (linkBad_pass hg hy.inv hpy.room fun hP => by rw [hnum]; exact hS hP).post ?_
    intro _ z hz
    rw [hpy.locks] at hz
    exact ((hp2.trans hpy).trans hz).done
  | some z =>
    obtain ⟨dp, name⟩ := z
    refine (linkInto_pass hg hy.inv (hpy.room) (fun hP => by rw [hnum]; exact hS hP) ?_).post ?_
    · rw [hold.cached.2.1]
      exact (hu.inv.toLive hold.cached).lt
    · intro _ z hz
      rw [hpy.locks] at hz
      exact ((hp2.trans hpy).trans hz).done

theorem unlinkTx_pass (path : List Byte) :
    Sat (unlinkTx sb p path) s (fun _ t => Pass sb P ∅ 0 (locks s) s t) (Fine P) := by
  unfold unlinkTx nameiparent
  refine myproc_bind hx (lookup_pass hg h (h.ref_of_mem hcwd) hr hcalm (fun t hp => Sat.pure hp) ?_)
  rintro dp name t ⟨F, ht⟩ - hp
  have hdmem := Multiset.mem_cons_self dp H
  have hp1 : Pass sb P (nodeBlocks sb (t.itable dp).inum) 8 _ s t := hp.node _
  refine Sat.bind (lock_pass ht.inv ht.inv.ref_pos hp1.room fun _ => mem_nodeBlocks) ?_
  rintro _ u ⟨hu, hold, hfree, hpu⟩
  rw [hp.locks] at hfree hpu
  have hp2 := hp1.trans hpu
  refine Sat.ite (fun _ => (unlinkBad_pass hg hu.inv hold hp2 hfree).post fun _ _ hv => hv.done) fun _ => ?_
  refine Sat.bind ((dirlookup_sat name hu.inv hold.cached).beside
    (dirlookup_quiet name hu.inv hold.cached)) ?_
  rintro r v ⟨⟨hdir, hfound⟩, hq⟩
  split
  · obtain ⟨rfl, -⟩ := hfound
    exact (unlinkBad_pass hg hu.inv hold hp2 hfree).post fun _ _ hv => hv.done
  rename_i ip off
  obtain ⟨j, hj, rfl, hv, -, -⟩ := hfound
  have hpv : Pass sb P (nodeBlocks sb (t.itable dp).inum) 8 (locks u) u v := hq.pass hpu.room
  rw [hpu.locks] at hpv
  have himem := Multiset.mem_cons_self ip (dp ::ₘ H)
  have hdmem' : dp ∈ ip ::ₘ dp ::ₘ H := Multiset.mem_cons_of_mem hdmem
  set S := insert (sb.IBLOCK (v.itable ip).inum) (nodeBlocks sb (t.itable dp).inum) with hSdef
  have hsub : nodeBlocks sb (t.itable dp).inum ⊆ S := Finset.subset_insert _ _
  have hp3 : Pass sb P S 7 _ u v := hpv.reserve _
  refine Sat.bind (lock_pass hv.inv hv.inv.ref_pos hp3.room fun _ =>
    ⟨hsub mem_nodeBlocks.1, Finset.mem_insert_self _ _⟩) ?_
  rintro _ w ⟨hw, holdi, hfree', hpw⟩
  rw [hp3.locks] at hfree' hpw
  have hp4 := (hp2.trans hp3).trans hpw
  have holdd : Holds sb P S dp (t.itable dp).inum w :=
    (hold.step hv hdmem hdmem' hp3.leaves hsub).step hw hdmem' hdmem' hpw.leaves
      (Finset.Subset.refl _)
  have hswap : ∀ {y : State}, Inv sb (ip ::ₘ dp ::ₘ H) y → Inv sb (dp ::ₘ ip ::ₘ H) y := by
    intro y hy
    rwa [Multiset.cons_swap]
  refine getInode_bind (Sat.ite (fun _ => Sat.throw nofun) fun _ => ?_)
  refine Sat.bind (inUse_quiet hw.inv holdi.cached) ?_
  rintro busy w rfl
  refine Sat.ite (fun _ => ?_) fun _ => ?_
  · refine Sat.bind ((iunlockput_sat hw.inv).beside (holdi.put hg hw.inv hpw.room)) ?_
    rintro _ y ⟨hy, hpy⟩
    rw [hpw.locks, update_unlock hfree'] at hpy
    exact (unlinkBad_pass hg hy.inv (holdd.step hy hdmem hdmem hpy.leaves (Finset.Subset.refl _))
      (hp4.trans hpy) hfree).post fun _ _ hv => hv.done
  obtain ⟨hjn, -, -⟩ := Node.of_lookup_some hj
  have hwd : files sb w (t.itable dp).inum = files sb u (t.itable dp).inum := by
    rw [hw.files, hv.files]
  refine Sat.bind ((writeDe_sat hw.inv holdd.cached (List.length_replicate ..)
    (Nat.lt_of_le_of_lt (Nat.zero_le _) sb.root_lt) (.inl (by rwa [hwd]))).beside
    (writeDe_pass (k := 5) hw.inv holdd.cached holdd.taken hg holdd.blocks hpw.room j _)) ?_
  rintro r y ⟨hwrite, hpy⟩
  refine Sat.ite (fun _ => Sat.throw nofun) fun hlen => ?_
  obtain ⟨rfl, -⟩ | ⟨-, f, -, -, hy⟩ := hwrite
  · exact absurd (by decide) hlen
  refine (unlinkEnd_pass (k := 5) hg (hswap hy.inv)
    (holdd.step hy hdmem' hdmem' hpy.leaves (Finset.Subset.refl _))
    (holdi.step hy himem himem hpy.leaves (Finset.Subset.refl _)) ?_ hfree hfree').post fun _ _ hv => hv.done
  rw [hpw.locks] at hpy
  exact hp4.trans hpy

omit hx in
theorem lookupLock_pass {α : Type} {g : M α} {f : InodePtr → M α} {Q : α → State → Prop}
    (hnone : ∀ t, Pass sb P ∅ 0 (locks s) s t → Sat g t Q (Fine P))
    (hsome : ∀ ip i t, Inv sb (ip ::ₘ H) t → Holds sb P (nodeBlocks sb i) ip i t →
      locks s ip = false →
      Pass sb P (nodeBlocks sb i) 8 (update (locks s) ip true) s t →
      Sat (f ip) t Q (Fine P)) :
    Sat (do
      match ← namei sb x.cwd path with
      | none => g
      | some ip => do
        ilock sb ip
        f ip) s Q (Fine P) := by
  unfold namei
  rw [bind_assoc]
  simp only [pure_bind]
  refine lookup_pass hg h (h.ref_of_mem hcwd) hr hcalm hnone ?_
  rintro ip nm t ⟨F, ht⟩ - hp
  have hp1 : Pass sb P (nodeBlocks sb (t.itable ip).inum) 8 _ s t := hp.node _
  refine Sat.bind (lock_pass ht.inv ht.inv.ref_pos hp1.room fun _ => mem_nodeBlocks) ?_
  rintro _ u ⟨hu, hold, hfree, hpu⟩
  rw [hp.locks] at hfree hpu
  exact hsome ip _ u hu.inv hold hfree (hp1.trans hpu)

theorem chdirTx_pass (path : List Byte) :
    Sat (chdirTx sb p path) s (fun _ t => Pass sb P ∅ 0 (locks s) s t) (Fine P) := by
  unfold chdirTx
  refine myproc_bind hx (lookupLock_pass hg h hcwd hr hcalm (fun t hp => Sat.pure hp) ?_)
  intro ip i t hinv hold hfree hp
  refine getInode_bind (Sat.ite (fun _ => ?_) fun _ => ?_)
  · refine Sat.bind (hold.put hg hinv hp.room) fun _ u hu => Sat.pure ?_
    rw [hp.locks, update_unlock hfree] at hu
    exact (hp.trans hu).done
  · refine Sat.bind ((iunlock_sat hinv).beside (iunlock_pass sb hp.room)) ?_
    rintro _ u ⟨⟨-, hu⟩, -, hpu⟩
    rw [hp.locks, update_unlock hfree] at hpu
    have hp2 := ((hp.trans hpu).mono (Finset.empty_subset _) (le_refl 8)).node (u.itable x.cwd).inum
    have hmem : x.cwd ∈ ip ::ₘ H := Multiset.mem_cons_of_mem hcwd
    have hinv' : Inv sb (x.cwd ::ₘ (ip ::ₘ H).erase x.cwd) u := by
      rw [Multiset.cons_erase hmem]
      exact hu.inv
    refine Sat.bind (iput_pass hg hinv' hp2.room fun _ _ => mem_nodeBlocks) fun _ v hv =>
      Sat.pure ?_
    rw [hpu.locks] at hv
    exact (hp2.trans hv).done

end

section
variable {E : Panic → Prop} (h : Live sb s ip i)
include h

theorem readAll_sat (off : BitVec 32) (n : ℕ) :
    Sat (readAll sb ip off n) s (fun _ t => t = s) E := by
  unfold readAll
  refine Sat.bind (readi_sat h _ off _) ?_
  rintro r t ⟨rfl, -⟩
  split <;> exact Sat.pure rfl

theorem loadsegFrom_sat (hE : E .sleepsForever) (offset sz : BitVec 32) (n : ℕ) (j : BitVec 32) :
    Sat (loadsegFrom sb ip offset sz n j) s (fun _ t => t = s) E := by
  induction n generalizing j with
  | zero => exact Sat.throw hE
  | succ n ih =>
    rw [loadsegFrom]
    refine Sat.ite (fun _ => Sat.bind (readAll_sat h _ _) ?_) fun _ => Sat.pure rfl
    rintro r t rfl
    split
    · exact Sat.pure rfl
    · exact ih _

theorem execLoop_sat (hE : E .sleepsForever) (vm : ℕ → Bool) (n : ℕ) (off : BitVec 32) (j : ℕ) :
    Sat (execLoop sb ip vm n off j) s (fun _ t => t = s) E := by
  induction n generalizing off j with
  | zero => exact Sat.pure rfl
  | succ n ih =>
    rw [execLoop]
    refine Sat.bind (readAll_sat h _ _) ?_
    rintro r t rfl
    split
    · exact Sat.pure rfl
    · refine Sat.ite (fun _ => ih _ _) fun _ => Sat.ite (fun _ => Sat.pure rfl) fun _ =>
        Sat.ite (fun _ => Sat.pure rfl) fun _ => Sat.ite (fun _ => Sat.pure rfl) fun _ =>
          Sat.ite (fun _ => Sat.pure rfl) fun _ => ?_
      refine Sat.bind (loadsegFrom_sat h hE _ _ _ _) ?_
      rintro r t rfl
      exact Sat.ite (fun _ => ih _ _) fun _ => Sat.pure rfl

theorem execLoad_sat (hE : E .sleepsForever) (vm : ℕ → Bool) :
    Sat (execLoad sb ip vm) s (fun _ t => t = s) E := by
  unfold execLoad
  refine Sat.bind (readAll_sat h _ _) ?_
  rintro r t rfl
  split
  · exact Sat.pure rfl
  · exact Sat.ite (fun _ => Sat.pure rfl) fun _ => Sat.ite (fun _ => Sat.pure rfl) fun _ =>
      execLoop_sat h hE _ _ _ _

end

section
variable (hg : P → Mkfs sb) (h : Inv sb H s) (hr : P → Room ∅ MAXOPBLOCKS s)
include hg h hr

theorem execTx_pass (hx : s.procs p = some x) (hcwd : x.cwd ∈ H)
    (hcalm : P → Calm sb R H s ∧ R (s.itable x.cwd).inum) (path : List Byte) (vm : ℕ → Bool) :
    Sat (execTx sb p path vm) s (fun _ t => Pass sb P ∅ 0 (locks s) s t) (Fine P) := by
  unfold execTx
  refine myproc_bind hx (lookupLock_pass hg h hcwd hr hcalm (fun t hp => Sat.pure hp) ?_)
  intro ip i t hinv hold hfree hp
  refine Sat.bind (execLoad_sat (hinv.toLive hold.cached) nofun vm) ?_
  rintro ok t rfl
  refine Sat.bind (hold.put hg hinv hp.room) fun _ u hu => Sat.pure ?_
  rw [hp.locks, update_unlock hfree] at hu
  exact (hp.trans hu).done

theorem writeTx_pass {src : ℕ → Option Byte} {n : ℕ} (hn : n ≤ 3 * BSIZE)
    (hf : fileUser (s.ftable f) = some (s.ftable f).ip) :
    Sat (writeTx sb f src n) s (fun _ t => Pass sb P ∅ 0 (locks s) s t) (Fine P) := by
  unfold writeTx
  refine getFile_bind ?_
  set ip := (s.ftable f).ip with hip
  have hp0 : Pass sb P ∅ MAXOPBLOCKS (locks s) s s := pass_refl hr
  have hp1 : Pass sb P (nodeBlocks sb (s.itable ip).inum) 8 _ s s := hp0.node _
  refine Sat.bind (lock_pass h (h.cached_file hf).1 hp1.room fun _ => mem_nodeBlocks) ?_
  rintro _ t ⟨ht, hold, hfree, hp⟩
  refine Sat.bind (writei_pass (k := 0) (j := 4) ht.inv hold.cached hold.taken hg hold.blocks
    hp.room ?_) ?_
  · have hoff := Nat.mod_lt (s.ftable f).off.toNat (show 0 < BSIZE by decide)
    rw [BitVec.toNat_ofNat]
    have hle := Nat.mod_le n (2 ^ 32)
    simp only [BSIZE] at hn hoff ⊢
    omega
  intro r u hpu
  rw [hp.locks] at hpu
  refine Sat.bind (R := fun _ v => Pass sb P (nodeBlocks sb (s.itable ip).inum) 0
    (update (locks s) ip true) s v) (doIf_sat (fun _ => setFile_sat ?_)
    fun _ => hp.trans hpu) ?_
  · have hq : Quiet u (u.setFile f { s.ftable f with
        off := (s.ftable f).off + BitVec.ofInt 32 r }) := quiet_of_itable rfl rfl rfl
    have hpv : Pass sb P (nodeBlocks sb (s.itable ip).inum) 0 (locks u) u _ := hq.pass hpu.room
    rw [hpu.locks] at hpv
    exact (hp.trans hpu).trans hpv
  · intro _ v hpv
    refine Sat.bind (iunlock_pass sb hpv.room) ?_
    rintro _ w ⟨-, hw⟩
    rw [hpv.locks, update_unlock hfree] at hw
    exact Sat.pure (hpv.trans hw).done

theorem iputTx_pass (hip : ip ∈ H) :
    Sat (iput sb ip) s (fun _ t => Pass sb P ∅ 0 (locks s) s t) (Fine P) := by
  have hp0 : Pass sb P ∅ MAXOPBLOCKS (locks s) s s := pass_refl hr
  have hp1 : Pass sb P (nodeBlocks sb (s.itable ip).inum) 8 _ s s := hp0.node _
  have hinv : Inv sb (ip ::ₘ H.erase ip) s := by
    rw [Multiset.cons_erase hip]
    exact h
  exact (iput_pass hg hinv hp1.room fun _ _ => mem_nodeBlocks).post fun _ _ hp => hp.done

end

end Xv6.Fs
