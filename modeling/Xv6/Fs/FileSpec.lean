import Xv6.Fs.LinkSpec
import Xv6.Lib.Splice

/-! What the functions on open files and on descriptors do. -/
namespace Xv6.Fs
open Bytes Function

variable {sb : Superblock} {strict ok : Prop} {s t u : State} {ip : InodePtr} {i : ℕ}
  {H K : Multiset InodePtr} {p : Fin NPROC} {x : Proc} {f : FilePtr}

def SameDirs (s t : State) : Prop :=
  ∀ q, (t.procs q).map Proc.cwd = (s.procs q).map Proc.cwd

theorem SameDirs.proc (h : SameDirs s t) (hx : s.procs p = some x) :
    ∃ y, t.procs p = some y ∧ y.cwd = x.cwd := by
  have := h p
  rw [hx, Option.map_some, Option.map_eq_some_iff] at this
  exact this

structure Moved (sb : Superblock) (strict ok : Prop) (K H : Multiset InodePtr) (s t : State) :
    Prop where
  inv : Inv sb H t
  keep : ∀ jp ∈ H, jp ∈ K → (t.itable jp).inum = (s.itable jp).inum ∧
    ((s.itable jp).valid = true → (t.itable jp).valid = true)
  steady : Steady sb K s → ok → Steady sb H t ∧ Changes sb strict (files sb s) (files sb t)
  dirs : SameDirs s t

theorem Moved.refl (h : Inv sb H s) : Moved sb strict ok H H s s :=
  ⟨h, fun _ _ _ => ⟨rfl, id⟩, fun hst _ => ⟨hst, .refl⟩, fun _ => rfl⟩

theorem Moved.trans {L : Multiset InodePtr} (h : Moved sb strict ok K L s t)
    (h' : Moved sb strict ok L H t u) (hKL : ∀ jp ∈ H, jp ∈ K → jp ∈ L) :
    Moved sb strict ok K H s u where
  inv := h'.inv
  keep jp hj hk := by
    obtain ⟨h1, h2⟩ := h.keep jp (hKL jp hj hk) hk
    obtain ⟨h3, h4⟩ := h'.keep jp hj (hKL jp hj hk)
    exact ⟨h3.trans h1, h4 ∘ h2⟩
  steady hst hok := by
    obtain ⟨h1, h2⟩ := h.steady hst hok
    obtain ⟨h3, h4⟩ := h'.steady h1 hok
    exact ⟨h3, h2.trans h4⟩
  dirs q := (h'.dirs q).trans (h.dirs q)

theorem Moved.then (h : Moved sb strict ok K H s t) (h' : Moved sb strict ok H H t u) :
    Moved sb strict ok K H s u := h.trans h' fun _ hj _ => hj

theorem Moved.mono {ok' : Prop} (h : Moved sb strict ok K H s t) (hok : ok' → ok) :
    Moved sb strict ok' K H s t :=
  ⟨h.inv, h.keep, fun hst h' => h.steady hst (hok h'), h.dirs⟩

theorem Moved.weaken (h : Moved sb strict True K H s t) : Moved sb strict ok K H s t :=
  h.mono fun _ => trivial

theorem Frame.sameDirs (h : Frame K s t) : SameDirs s t := fun q => by rw [h.procs]

theorem Done.moved (h : Done sb strict K H ok s t) : Moved sb strict ok K H s t := by
  obtain ⟨F, ht, hF⟩ := h
  refine ⟨ht.inv, fun jp _ hj => ht.frame.keep jp (mem_count hj), fun hst hok => ?_,
    ht.frame.sameDirs⟩
  rw [ht.files]
  exact hF hst hok

theorem moved_step (h : Step sb H H (files sb s) s t) : Moved sb strict ok H H s t :=
  Done.moved ⟨_, h, fun hst _ => ⟨hst.frame h.frame h.files, .refl⟩⟩

theorem Moved.endOp (h : Moved sb strict ok K H s t) :
    Sat (endOp sb) t (fun _ u => Moved sb strict ok K H s u) Mild :=
  (endOp_sat h.inv).post fun _ _ hu => h.then (moved_step hu.2)

theorem transaction_sat {α : Type} {body : M α} {Q : α → State → Prop} {E : Panic → Prop}
    (hE : ∀ e, Mild e → E e) (h : Inv sb H s)
    (hbody : ∀ t, t.itable = s.itable → Step sb H H (files sb s) s t → Sat body t Q E)
    (hend : ∀ r u, Q r u → Sat (Fs.endOp sb) u (fun _ v => Q r v) Mild) :
    Sat (transaction sb body) s Q E := by
  unfold transaction
  refine Sat.bind ((beginOp_sat h).weaken hE) ?_
  rintro _ t ⟨hit, ht⟩
  refine Sat.bind (hbody t hit ht) fun r u hu => ?_
  exact Sat.bind ((hend r u hu).weaken hE) fun _ _ hv => Sat.pure hv

theorem moved_iput (hinv : Inv sb (ip ::ₘ H) s)
    (h : Step sb H H (dropped (files sb s) (s.itable ip)) s t) :
    Moved sb strict ok (ip ::ₘ H) H s t where
  inv := h.inv
  keep jp hj _ := h.frame.keep jp (mem_count hj)
  steady hst _ := ⟨hst.iput hinv h, by rw [h.files]; exact dropped_changes hinv⟩
  dirs := h.frame.sameDirs

theorem moved_write {bs : List Byte} (hc : Cached (s.itable ip) i) (hinv : Inv sb H s)
    (hd : (files sb s i).type ≠ T_DIR)
    (h : Step sb H H (update (files sb s) i { files sb s i with bytes := bs }) s t) :
    Moved sb strict ok H H s t := by
  refine Done.moved ⟨_, h, fun hst _ => ⟨hst.of_frame h.frame fun j => ?_, .single (.write bs ?_ hd)⟩⟩
  · rw [h.files]
    rcases eq_or_ne j i with rfl | hj
    · rw [update_self]
      exact fun h1 h2 => ⟨h1, h2⟩
    · rw [update_of_ne hj]
      exact fun h1 h2 => ⟨h1, h2⟩
  · rw [files_type]
    exact hinv.live ip i hc

theorem ilock_valid {i : ℕ} (h : Inv sb H s) (hc : Cached (s.itable ip) i) :
    Sat (ilock sb ip) s (fun _ t => Step sb H H (files sb s) s t ∧ Cached (t.itable ip) i)
      Mild := by
  refine (ilock_sat h hc.1).mono (fun _ t ht => ?_) fun _ he => he.mild ?_
  · rw [hc.2.1] at ht
    exact ht
  · rw [hc.2.1, files_type]
    exact h.live ip i hc

def State.setFile (s : State) (f : FilePtr) (x : File) : State :=
  { s with ftable := update s.ftable f x }

@[simp] theorem setFile_self (s : State) (f : FilePtr) (x : File) :
    (s.setFile f x).ftable f = x := update_self _ _ _

theorem setFile_of_ne (s : State) (x : File) {f g : FilePtr} (h : g ≠ f) :
    (s.setFile f x).ftable g = s.ftable g := update_of_ne h _ _

variable {E : Panic → Prop}

theorem getFile_bind {α : Type} {k : File → M α} {Q : α → State → Prop}
    (h : Sat (k (s.ftable f)) s Q E) : Sat (getFile f >>= k) s Q E := h

variable {y : File}

theorem setFile_bind {α : Type} {k : Unit → M α} {Q : α → State → Prop}
    (h : Sat (k ()) (s.setFile f y) Q E) : Sat (setFile f y >>= k) s Q E := h

theorem setFile_sat {Q : Unit → State → Prop}
    (h : Q () (s.setFile f y)) : Sat (setFile f y) s Q E := h

theorem users_setFile (s : State) (f : FilePtr) (y : File) (jp : InodePtr) :
    users (s.setFile f y) jp + (if fileUser (s.ftable f) = some jp then 1 else 0) =
      users s jp + (if fileUser y = some jp then 1 else 0) := by
  have h : fileUser ∘ (s.setFile f y).ftable =
      update (fileUser ∘ s.ftable) f (fileUser y) := comp_update _ _ _ _
  rw [users, users, h]
  exact Count.occ_update (Finset.mem_univ f) _

theorem Inv.setFile (h : Inv sb K s)
    (hcount : ∀ jp, users (s.setFile f y) jp + H.count jp = users s jp + K.count jp)
    (hopen : ∀ jp, fileUser y = some jp → (s.itable jp).valid = true ∧
      (y.writable = true → (s.itable jp).d.type ≠ T_DIR))
    (hidle : y.ref = 0 → fileUser y = none) : Moved sb strict ok K H s (s.setFile f y) where
  inv := by
    refine ⟨h.log, h.wf, h.uniq, h.range, h.sync, h.live, fun jp => ?_, h.ents, fun g jp hg => ?_,
      fun g hg => ?_⟩
    · rw [hcount jp]
      exact h.refs jp
    · rcases eq_or_ne g f with rfl | hgf
      · rw [setFile_self] at hg ⊢
        exact hopen jp hg
      · rw [setFile_of_ne _ _ hgf] at hg ⊢
        exact h.opened g jp hg
    · rcases eq_or_ne g f with rfl | hgf
      · rw [setFile_self] at hg ⊢
        exact hidle hg
      · rw [setFile_of_ne _ _ hgf] at hg ⊢
        exact h.idle g hg
  keep _ _ _ := ⟨rfl, id⟩
  steady hst _ := by
    refine ⟨fun i ht hn => ?_, .refl⟩
    obtain ⟨jp, hjp, hj⟩ := hst i ht hn
    exact ⟨jp, by rwa [hcount jp], hj⟩
  dirs _ := rfl

theorem Inv.sameUser (h : Inv sb H s) (hu : fileUser y = fileUser (s.ftable f))
    (hw : y.writable = (s.ftable f).writable) (hr : y.ref = 0 → fileUser y = none) :
    Moved sb strict ok H H s (s.setFile f y) := by
  refine h.setFile (fun jp => ?_) (fun jp hj => ?_) hr
  · have := users_setFile s f y jp
    rw [hu] at this
    omega
  · rw [hu] at hj
    rw [hw]
    exact h.opened f jp hj

theorem filealloc_sat (s : State) : Sat filealloc s (fun r t => match r with
      | some f => (s.ftable f).ref = 0 ∧ t = s.setFile f { s.ftable f with ref := 1 }
      | none => t = s) E := by
  unfold filealloc
  refine Sat.get_bind ?_
  split
  · rename_i f hf
    exact setFile_bind (Sat.pure ⟨by simpa using List.find?_some hf, rfl⟩)
  · exact Sat.pure rfl

theorem filedup_sat (strict : Prop) (h : Inv sb H s) :
    Sat (filedup f) s (fun _ t => Moved sb strict True H H s t) Mild := by
  unfold filedup
  refine getFile_bind (Sat.ite (fun _ => Sat.throw ⟨nofun, nofun⟩) fun hr => ?_)
  exact h.sameUser rfl rfl fun h0 => absurd h0 (Nat.succ_ne_zero _)

def File.closed (x : File) : File := { x with ref := 0, type := .none }

theorem Inv.closed (h : Inv sb H s)
    (ht : (s.ftable f).type = .inode ∨ (s.ftable f).type = .device) :
    Moved sb strict ok H ((s.ftable f).ip ::ₘ H) s (s.setFile f (s.ftable f).closed) := by
  refine h.setFile (fun jp => ?_) nofun fun _ => rfl
  have hu := users_setFile s f (s.ftable f).closed jp
  have hold : fileUser (s.ftable f) = some (s.ftable f).ip := if_pos ht
  have hnew : fileUser (s.ftable f).closed = none := rfl
  rw [hold, hnew, if_neg (Option.some_ne_none jp).symm] at hu
  rcases eq_or_ne jp (s.ftable f).ip with rfl | hne
  · rw [if_pos rfl] at hu
    rw [Multiset.count_cons_self]
    omega
  · rw [if_neg fun he => hne (Option.some.inj he).symm] at hu
    rw [count_cons_ne hne]
    omega

theorem fileclose_sat (strict : Prop) (h : Inv sb H s) :
    Sat (fileclose sb f) s (fun _ t => Moved sb strict True H H s t) Mild := by
  unfold fileclose
  refine getFile_bind (Sat.ite (fun _ => Sat.throw ⟨nofun, nofun⟩) fun hr => Sat.ite
    (fun hr' => ?_) fun _ => setFile_bind (doIf_sat (fun ht => ?_) fun ht => ?_))
  · exact h.sameUser rfl rfl fun h0 => by
      dsimp only at h0
      omega
  · have h1 : Moved sb strict True H ((s.ftable f).ip ::ₘ H) s _ := h.closed ht
    refine transaction_sat (fun _ he => he) h1.inv (fun t _ h2 => ?_) fun _ _ => Moved.endOp
    exact (iput_sat h2.inv).post fun _ u h3 => (h1.then (moved_step h2)).trans
      (moved_iput h2.inv h3) fun _ hj _ => Multiset.mem_cons_of_mem hj
  · exact h.sameUser (if_neg ht).symm rfl fun _ => rfl

theorem fileclose_fresh (hr : (s.ftable f).ref = 1) (hu : fileUser (s.ftable f) = none) :
    Sat (fileclose sb f) s (fun _ t => t = s.setFile f (s.ftable f).closed) E := by
  unfold fileclose
  refine getFile_bind ?_
  rw [if_neg (by omega), if_neg (by omega)]
  refine setFile_bind (doIf_sat (fun ht => ?_) fun _ => rfl)
  rw [fileUser, if_pos ht] at hu
  cases hu

theorem Inv.cached_file (h : Inv sb H s) (hf : fileUser (s.ftable f) = some ip) :
    Cached (s.itable ip) (s.itable ip).inum := by
  refine ⟨?_, rfl, (h.opened f ip hf).1⟩
  rw [h.refs]
  exact Nat.add_pos_left (users_of_file hf) _

theorem fileread_sat (strict : Prop) (h : Inv sb H s) (dst : ℕ → Bool) (n : BitVec 32)
    (other : ℤ) :
    Sat (fileread sb f dst n other) s (fun _ t => Moved sb strict True H H s t) Mild := by
  unfold fileread
  refine getFile_bind (Sat.ite (fun _ => Sat.pure (.refl h)) fun _ => ?_)
  split
  · exact Sat.pure (.refl h)
  · exact Sat.pure (.refl h)
  · rename_i ht
    have hu : fileUser (s.ftable f) = some (s.ftable f).ip := if_pos (.inl ht)
    refine Sat.bind (ilock_valid h (h.cached_file hu)) ?_
    rintro _ t ⟨hst, hct⟩
    have h1 : Moved sb strict True H H s t := moved_step hst
    refine Sat.bind (readi_sat (h1.inv.toLive hct) dst _ n) ?_
    rintro r _ ⟨rfl, -⟩
    -- `iunlock` ends both cases
    have hend : ∀ (u : State) (v : ℤ), Moved sb strict True H H s u →
        Sat (do iunlock (s.ftable f).ip; return v) u (fun _ w => Moved sb strict True H H s w)
          Mild := by
      intro u v h2
      refine Sat.bind (iunlock_sat h2.inv) ?_
      rintro _ w ⟨-, hw⟩
      exact Sat.pure (h2.then (moved_step hw))
    split
    · refine Sat.bind (R := fun _ u => Moved sb strict True H H s u) (doIf_sat (fun _ => ?_)
        fun _ => h1) fun _ u hu => hend u _ hu
      refine h1.then (h1.inv.sameUser ?_ ?_ fun h0 => ?_)
      · rw [hst.frame.ftable]
        rfl
      · rw [hst.frame.ftable]
      · exact h.idle f h0
    · exact hend _ _ h1
  · exact Sat.throw ⟨nofun, nofun⟩

def bytesOf (src : ℕ → Option Byte) (n : ℕ) : List Byte :=
  (List.range n).map fun k => (src k).getD 0

theorem length_bytesOf (src : ℕ → Option Byte) (n : ℕ) : (bytesOf src n).length = n := by
  simp [bytesOf]

variable {src : ℕ → Option Byte}

theorem Patched.eq_splice {old bs : List Byte} {off n x : ℕ}
    (h : Patched old src off n x bs) (hoff : off ≤ old.length)
    (hx : (∀ c < n, (src c).isSome) → x = 0) : bs = Splice.splice old off (bytesOf src n) := by
  have hsome : ∀ c < n, src c = bs[off + c]? := by
    intro c hc
    rw [h.new (off + c) (by omega) (by omega), Nat.add_sub_cancel_left]
  have hin : ∀ c < n, off + c < bs.length := by
    intro c hc
    rw [h.length]
    omega
  obtain rfl : x = 0 := hx fun c hc => by
    rw [hsome c hc, List.getElem?_eq_getElem (hin c hc)]
    rfl
  refine Splice.eq_splice hoff ?_ ?_ ?_
  · rw [h.length, length_bytesOf]
  · rw [length_bytesOf]
    exact h.old
  · rw [length_bytesOf]
    intro j hj hlt
    have hc : j - off < n := by omega
    have hsrc := hsome (j - off) hc
    rw [Nat.add_sub_cancel' hj] at hsrc
    rw [bytesOf, List.getElem?_map, List.getElem?_range hc, Option.map_some, hsrc,
      List.getElem?_eq_getElem (by have := hin _ hc; omega), Option.getD_some]

structure Chunk (sb : Superblock) (f : FilePtr) (src : ℕ → Option Byte) (n : ℕ) (s : State) (r : ℤ)
    (t : State) : Prop where
  file : ∃ off, t.ftable f = { s.ftable f with off := off }
  inum : (t.itable (s.ftable f).ip).inum = (s.itable (s.ftable f).ip).inum
  full : r = n → n < 2 ^ 32 →
    (t.ftable f).off = (s.ftable f).off + BitVec.ofNat 32 n ∧
    (s.ftable f).off.toNat ≤ (files sb s (s.itable (s.ftable f).ip).inum).bytes.length ∧
    files sb t = update (files sb s) (s.itable (s.ftable f).ip).inum
      { files sb s (s.itable (s.ftable f).ip).inum with
        bytes := Splice.splice (files sb s (s.itable (s.ftable f).ip).inum).bytes
          (s.ftable f).off.toNat (bytesOf src n) }

theorem writei_full {off : BitVec 32} {n : ℕ} (h : Inv sb H s)
    (hc : Cached (s.itable ip) i) (hnd : (files sb s i).type ≠ T_DIR) :
    Sat (writei sb ip src off (BitVec.ofNat 32 n)) s (fun r t => t.ftable = s.ftable ∧
      (∃ bs, Step sb H H (update (files sb s) i { files sb s i with bytes := bs }) s t) ∧
      (r = n → n < 2 ^ 32 → off.toNat ≤ (files sb s i).bytes.length ∧
        files sb t = update (files sb s) i { files sb s i with
          bytes := Splice.splice (files sb s i).bytes off.toNat (bytesOf src n) })) Mild := by
  refine (writei_sat (h.toLive hc) _ _ _).post ?_
  rintro r t (⟨hr, rfl⟩ | ⟨tot, x, bs, rfl, -, hoff, hall, hput, hpat⟩)
  · refine ⟨rfl, ⟨(files sb t i).bytes, h, Frame.refl _ _, ?_⟩, fun hn => ?_⟩
    · rw [update_eq_self]
    · omega
  · rw [h.view] at hput hpat hoff
    have hstep := hput.step h (by rfl) fun hd => absurd hd hnd
    refine ⟨hstep.frame.ftable, ⟨bs, hstep⟩, fun hn hlt => ⟨hoff, ?_⟩⟩
    obtain rfl : tot = n := by exact_mod_cast hn
    have hmod : (BitVec.ofNat 32 tot).toNat = tot := by
      rw [BitVec.toNat_ofNat, Nat.mod_eq_of_lt hlt]
    rw [hmod] at hall
    rw [hstep.files, hpat.eq_splice hoff fun hs => (hall hs).2]
    rfl

theorem writeTx_sat (strict : Prop) {n : ℕ} (h : Inv sb H s)
    (hu : fileUser (s.ftable f) = some (s.ftable f).ip) (hw : (s.ftable f).writable = true) :
    Sat (transaction sb (writeTx sb f src n)) s (fun r t => Moved sb strict True H H s t ∧
      Chunk sb f src n s r t) Mild := by
  unfold transaction writeTx
  refine Sat.bind (beginOp_sat h) ?_
  rintro _ t ⟨hit, ht⟩
  have hft : t.ftable = s.ftable := ht.frame.ftable
  rw [bind_assoc]
  refine getFile_bind ?_
  rw [hft]
  set ip := (s.ftable f).ip with hip
  set i := (s.itable ip).inum with hi
  have hct : Cached (t.itable ip) i := by
    rw [hit]
    exact h.cached_file hu
  rw [bind_assoc]
  refine Sat.bind (ilock_valid ht.inv hct) ?_
  rintro _ u ⟨hu', hcu⟩
  have hFu : files sb u = files sb s := hu'.files.trans ht.files
  have hnd : (files sb u i).type ≠ T_DIR := by
    rw [hFu, ← h.dtype (h.cached_file hu)]
    exact (h.opened f _ hu).2 hw
  rw [bind_assoc]
  refine Sat.bind (writei_full hu'.inv hcu hnd) ?_
  rintro r v ⟨hfv, ⟨bs, hv⟩, hfull⟩
  have h1 : Moved sb strict True H H s v := ((moved_step ht).then (moved_step hu')).then
    (moved_write hcu hu'.inv hnd hv)
  have hfv' : v.ftable = s.ftable := hfv.trans (hu'.frame.ftable.trans hft)
  have hpos : 0 < users s ip := users_of_file hu
  have hnum : (v.itable ip).inum = i :=
    (((ht.frame.trans hu'.frame).trans hv.frame).keep ip (by omega)).1
  rw [bind_assoc]
  refine Sat.bind (R := fun _ w => Moved sb strict True H H s w ∧ w.itable = v.itable ∧
    files sb w = files sb v ∧ w.ftable f = { s.ftable f with
      off := if 0 < r then (s.ftable f).off + BitVec.ofInt 32 r else (s.ftable f).off })
    (doIf_sat (fun hpos => setFile_sat ⟨h1.then (h1.inv.sameUser ?_ ?_ fun h0 => ?_), rfl, rfl, ?_⟩)
      fun hneg => ⟨h1, rfl, rfl, ?_⟩) ?_
  · rw [hfv']
    rfl
  · rw [hfv']
  · exact h.idle f h0
  · rw [setFile_self, if_pos hpos]
  · rw [hfv', if_neg hneg]
  rintro _ w ⟨h2, hitw, hFw, hfw⟩
  rw [bind_assoc]
  refine Sat.bind (iunlock_sat h2.inv) ?_
  rintro _ y ⟨-, hy⟩
  rw [pure_bind]
  refine Sat.bind (endOp_sat hy.inv) ?_
  rintro _ z ⟨hitz, hz⟩
  have hfz : z.ftable = w.ftable := hz.frame.ftable.trans hy.frame.ftable
  have hFz : files sb z = files sb v := hz.files.trans (hy.files.trans hFw)
  have hposw : 0 < users w ip + H.count ip := by
    rw [← h2.inv.refs, hitw, h1.inv.refs, users_congr hfv']
    omega
  refine Sat.pure ⟨(h2.then (moved_step hy)).then (moved_step hz), ⟨_, by rw [hfz, hfw]⟩, ?_, ?_⟩
  · rw [((hy.frame.trans hz.frame).keep ip hposw).1, hitw, hnum]
  · intro hn hlt
    obtain ⟨hoff, hF⟩ := hfull hn hlt
    rw [hFu] at hoff hF
    refine ⟨?_, hoff, hFz.trans hF⟩
    rw [hfz, hfw]
    dsimp only
    subst hn
    rcases Nat.eq_zero_or_pos n with rfl | hpos
    · simp
    · rw [if_pos (by omega), BitVec.ofInt_natCast]

theorem Chunk.open {n : ℕ} {r : ℤ} (h : Chunk sb f src n s r t)
    (hu : fileUser (s.ftable f) = some (s.ftable f).ip) (hw : (s.ftable f).writable = true) :
    fileUser (t.ftable f) = some (t.ftable f).ip ∧ (t.ftable f).writable = true := by
  obtain ⟨off, hf⟩ := h.file
  rw [hf]
  exact ⟨hu, hw⟩

theorem filewriteLoop_sat (strict : Prop) {n fuel j : ℕ} (h : Inv sb H s)
    (hu : fileUser (s.ftable f) = some (s.ftable f).ip) (hw : (s.ftable f).writable = true) :
    Sat (filewriteLoop sb f src n fuel j) s (fun _ t => Moved sb strict True H H s t) Mild := by
  induction fuel generalizing s j with
  | zero => exact Sat.pure (.refl h)
  | succ fuel ih =>
    rw [filewriteLoop]
    refine Sat.ite (fun _ => Sat.bind (writeTx_sat strict h hu hw) ?_) fun _ => Sat.pure (.refl h)
    rintro r t ⟨h1, hchunk⟩
    refine Sat.ite (fun _ => Sat.pure h1) fun _ => ?_
    obtain ⟨hut, hwt⟩ := hchunk.open hu hw
    exact (ih h1.inv hut hwt).post fun _ _ h2 => h1.then h2

theorem filewrite_sat (strict : Prop) (h : Inv sb H s) (src : ℕ → Option Byte) (n : BitVec 32)
    (other : ℤ) :
    Sat (filewrite sb f src n other) s (fun _ t => Moved sb strict True H H s t) Mild := by
  unfold filewrite
  refine getFile_bind (Sat.ite (fun _ => Sat.pure (.refl h)) fun hw => ?_)
  split
  · exact Sat.pure (.refl h)
  · exact Sat.pure (.refl h)
  · rename_i ht
    exact Sat.bind (filewriteLoop_sat strict h (if_pos (.inl ht)) (by simpa using hw))
      fun _ _ h1 => Sat.pure h1
  · exact Sat.throw ⟨nofun, nofun⟩

def State.setProc (s : State) (p : Fin NPROC) (x : Option Proc) : State :=
  { s with procs := update s.procs p x }

@[simp] theorem setProc_self (s : State) (p : Fin NPROC) (v : Option Proc) :
    (s.setProc p v).procs p = v := update_self _ _ _

theorem setProc_of_ne (s : State) (v : Option Proc) {p q : Fin NPROC} (h : q ≠ p) :
    (s.setProc p v).procs q = s.procs q := update_of_ne h _ _

theorem setProc_bind {α : Type} {v : Option Proc} {k : Unit → M α} {Q : α → State → Prop}
    (h : Sat (k ()) (s.setProc p v) Q E) : Sat (setProc p v >>= k) s Q E := h

theorem Inv.setProc (h : Inv sb H s) (p : Fin NPROC) (v : Option Proc) :
    Inv sb H (s.setProc p v) :=
  ⟨h.log, h.wf, h.uniq, h.range, h.sync, h.live, h.refs, h.ents, h.opened, h.idle⟩

theorem Inv.setOfile (h : Inv sb H s) (hx : s.procs p = some x)
    (ofile : Fin NOFILE → Option FilePtr) :
    Moved sb strict ok H H s (s.setProc p (some { x with ofile := ofile })) := by
  refine ⟨h.setProc p _, fun _ _ _ => ⟨rfl, id⟩, fun hst _ => ⟨hst, .refl⟩, fun q => ?_⟩
  rcases eq_or_ne q p with rfl | hq
  · rw [setProc_self, hx]
    rfl
  · rw [setProc_of_ne _ _ hq]

theorem setFd_sat (strict : Prop) (h : Inv sb H s) (hx : s.procs p = some x) (fd : Fin NOFILE)
    (o : Option FilePtr) :
    Sat (setFd p fd o) s (fun _ t => Moved sb strict True H H s t ∧ t = { s with procs := t.procs })
      E := by
  unfold setFd
  exact myproc_bind hx ⟨h.setOfile hx _, rfl⟩

theorem argfd_sat (hx : s.procs p = some x) (fd : ℕ) : Sat (argfd p fd) s (fun _ t => t = s) E := by
  unfold argfd
  exact myproc_bind hx (Sat.pure rfl)

theorem fdalloc_sat (strict : Prop) (h : Inv sb H s) (hx : s.procs p = some x)
    : Sat (fdalloc p f) s (fun _ t => Moved sb strict True H H s t ∧
      t = { s with procs := t.procs }) E := by
  unfold fdalloc
  refine myproc_bind hx ?_
  split
  · exact Sat.bind (setFd_sat strict h hx _ _) fun _ _ ht => Sat.pure ht
  · exact Sat.pure ⟨.refl h, rfl⟩

end Xv6.Fs
