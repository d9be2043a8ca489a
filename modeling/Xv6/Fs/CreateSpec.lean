import Xv6.Fs.Change

/-! What `create` does to the files. -/
namespace Xv6.Fs
open Bytes Function

variable {sb : Superblock} {strict : Prop} {s t u : State} {ip dp cwd : InodePtr} {i d : ℕ}
  {H K : Multiset InodePtr} {type major minor : BitVec 16} {name path : List Byte}

/-- The state in which a walk from `cwd` meets only allocated inodes. -/
structure Safe (sb : Superblock) (H : Multiset InodePtr) (cwd : InodePtr) (s : State) : Prop where
  steady : Steady sb H s
  entries : NoDangling (files sb s)
  root : (files sb s ROOTINO).type ≠ 0
  cwd : (files sb s (s.itable cwd).inum).type ≠ 0

def SafeErr (sb : Superblock) (H : Multiset InodePtr) (cwd : InodePtr) (s : State) (e : Panic) :
    Prop := e ≠ .freeingFreeBlock ∧ (Safe sb H cwd s → e ≠ .ilockNoType)

theorem Mild.safeErr {e : Panic} (h : Mild e) : SafeErr sb H cwd s e := ⟨h.1, fun _ => h.2⟩

theorem NoType.safeErr {e : Panic} (h : NoType sb t i e)
    (ht : Safe sb H cwd s → (files sb t i).type ≠ 0) : SafeErr sb H cwd s e :=
  ⟨h.1, fun hs he => ht hs (h.2 he)⟩

theorem NoType.mild {e : Panic} (h : NoType sb t i e) (ht : (files sb t i).type ≠ 0) : Mild e :=
  ⟨h.1, fun he => ht (h.2 he)⟩

theorem Safe.start (h : Safe sb H cwd s) (path : List Byte) :
    (files sb s (startInum (s.itable cwd).inum path)).type ≠ 0 := by
  unfold startInum
  split
  · exact h.root
  · exact h.cwd

theorem Safe.resolve {parent : Bool} {j : ℕ} {nm : List Byte} (h : Safe sb H cwd s)
    (hr : resolve (files sb s) (s.itable cwd).inum path parent = some (j, nm)) :
    (files sb s j).type ≠ 0 := walkFrom_alloc h.entries (h.start path) hr

theorem namex_safe {parent : Bool} (h : Inv sb H s) (hr : 0 < (s.itable cwd).ref) :
    Sat (namex sb cwd path parent) s
      (Walked sb H (Fs.resolve (files sb s) (s.itable cwd).inum path parent) s)
      (SafeErr sb H cwd s) :=
  (namex_sat h hr).weaken fun _ he => ⟨he.1, fun hs => he.2 hs.steady hs.entries (hs.start path)⟩

theorem Steady.dropped_eq (hst : Steady sb H s) (h : Inv sb (ip ::ₘ H) s) :
    dropped (files sb s) (s.itable ip) = files sb s := if_neg (hst.not_last h)

def Node.setFields (n : Node) (d : Dinode) : Node :=
  { n with major := d.major, minor := d.minor, nlink := d.nlink }

theorem setFields_sat {g : Dinode → Dinode} (h : Inv sb H s) (hc : Cached (s.itable ip) i)
    (hg : ∀ d, (g d).type = d.type ∧ (g d).size = d.size ∧ (g d).addrs = d.addrs) :
    Sat (do modifyDinode ip g; iupdate sb ip) s (fun _ t => Step sb H H (update
      (files sb s) i ((files sb s i).setFields (g (s.itable ip).d))) s t) Mild := by
  have hl := h.toLive hc
  refine modifyDinode_bind ?_
  obtain ⟨h1, h2, h3⟩ := hg (s.itable ip).d
  refine (hl.put _).post ?_
  rintro _ t ⟨ht, hh, hv, hd⟩
  rw [hl.d] at h1 h2 h3 hv hd ⊢
  set d' := g ((view sb s).node i)
  have hd' : d'.type ≠ 0 := by rw [h1]; exact hl.type
  have hwf : Wf sb (view sb t) := by
    rw [hv]
    refine hl.wf.setNode hl.type hd' h3 (fun j hj => ?_) ?_
    · rw [h2] at hj
      exact hl.wf.full i hl.lt hl.type j hj
    · rw [h2]
      exact hl.wf.small i hl.lt hl.type
  have hti : (view sb t).node i = d' := by rw [hv, Vol.setNode_node_self]
  have hfile : (view sb s).file i = files sb s i := by rw [h.view]; rfl
  have hput : Put sb ip i ((files sb s i).setFields d') s t := by
    refine ⟨ht, ⟨hh, hwf, by rwa [hti]⟩, by rw [hd, hti], ?_, fun k _ hk => ?_⟩
    · rw [← hfile, Vol.file_of_ne (by rwa [hti]), Vol.file_of_ne hl.type, hti, h1, h2, hv,
        Node.setFields]
      congr 1
      exact List.map_congr_left fun o _ => Vol.byte_setNode hl.type hd' h3 i o
    · rw [hv, Vol.file_setNode hl.type hd' h3 hk]
  exact hput.step h rfl (h.ents i)

theorem setNlink_sat {g : BitVec 16 → BitVec 16} (h : Inv sb H s) (hc : Cached (s.itable ip) i) :
    Sat (do modifyDinode ip fun d => { d with nlink := g d.nlink }; iupdate sb ip) s
      (fun _ t => Step sb H H (update (files sb s) i
        { files sb s i with nlink := g (files sb s i).nlink }) s t) Mild := by
  refine (setFields_sat (g := fun d => { d with nlink := g d.nlink }) h hc
    fun _ => ⟨rfl, rfl, rfl⟩).post ?_
  intro _ t ht
  have hf : (files sb s i).setFields { (s.itable ip).d with nlink := g (s.itable ip).d.nlink } =
      { files sb s i with nlink := g (files sb s i).nlink } := by
    have hfile := Vol.file_of_ne (h.live ip i hc)
    rw [h.sync ip i hc, Node.setFields, files, hfile]
  rwa [hf] at ht

theorem createDots_sat (h : Inv sb H s) (hip : ip ∈ H) (hc : Cached (s.itable ip) i)
    (hi : 0 < i) (hlt : i < sb.ninodes) (hd : d < sb.ninodes)
    (hempty : (files sb s i).bytes = []) :
    Sat (createDots sb ip i d) s (fun _ t => ∃ g, Step sb H H (update (files sb s) i g) s t ∧
      (∃ bs, g = { files sb s i with bytes := bs }) ∧ g.nents = 2 ∧ g.ent 0 = newEnt dot i ∧
      g.ent 1 = newEnt dotdot d) Mild := by
  have hn : (files sb s i).nents = 0 := by
    rw [Node.nents, hempty]
    rfl
  unfold createDots
  refine Sat.bind (dirlink_sat dot h hc hlt) ?_
  rintro r t ⟨-, hr⟩
  refine Sat.ite (fun hr1 => ?_) fun _ => Sat.throw ⟨by decide, by decide⟩
  rw [if_pos hr1] at hr
  obtain ⟨-, k, f, hk, hf, ht⟩ := hr
  obtain rfl : k = 0 := by
    rcases hk with ⟨hk, -⟩ | hk
    · omega
    · rw [hempty] at hk
      simpa [direntSize] using hk
  have hct := ht.cached hip hip hc
  have hfi : files sb t i = f := by rw [ht.files, update_self]
  refine Sat.bind (dirlink_sat dotdot ht.inv hct hd) ?_
  rintro r u ⟨-, hr⟩
  rw [hfi] at hr
  refine Sat.ite (fun hr2 => Sat.pure ?_) fun _ => Sat.throw ⟨by decide, by decide⟩
  rw [if_pos hr2] at hr
  obtain ⟨-, k, g, hk, hg, hu⟩ := hr
  have hfn : f.nents = 1 := by
    rw [hf.nents, hn]
    rfl
  obtain rfl : k = 1 := by
    rcases hk with ⟨hk, h0⟩ | hk
    · obtain rfl : k = 0 := by omega
      rw [hf.self] at h0
      exact absurd h0 (newEnt_ne_zero hi hlt)
    · have := hfn
      rw [Node.nents, ← hk, Nat.mul_div_cancel _ (by decide)] at this
      exact this
  refine ⟨g, ?_, ?_, ?_, ?_, hg.self⟩
  · have := ht.trans hu
    rwa [ht.files, update_idem] at this
  · obtain ⟨bs, rfl⟩ := hf.fields
    obtain ⟨bs', rfl⟩ := hg.fields
    exact ⟨bs', rfl⟩
  · rw [hg.nents, hfn]
    rfl
  · rw [hg.other 0 (by omega) (by decide), hf.self]

/-- A directory that is linked itself, and has room for one more link if `type` is that of a
directory. With `strict` other files may be made in an unlinked directory too. -/
structure Enterable (strict : Prop) (n : Node) (type : BitVec 16) : Prop where
  linked : ¬ strict ∨ type = T_DIR → 0 < n.nlink.toInt
  room : type = T_DIR → n.nlink.toInt < maxLink.toInt

theorem Enterable.ne_zero {n : Node} (h : Enterable strict n type)
    (ht : ¬ strict ∨ type = T_DIR) : n.nlink ≠ 0 := by
  intro h0
  have := h.linked ht
  rw [h0] at this
  exact absurd this (by decide)

theorem Enterable.ne_max {n : Node} (h : Enterable strict n T_DIR) : n.nlink ≠ maxLink := by
  intro h0
  have := h.room rfl
  rw [h0] at this
  exact absurd this (lt_irrefl _)

theorem succ_ne_zero_of_pos {n : BitVec 16} (h : 0 < n.toInt) : n + 1 ≠ 0 := by
  intro h0
  have hn : n = 0xffff := by bv_omega
  rw [hn] at h
  exact absurd h (by decide)

structure Created (sb : Superblock) (strict : Prop) (F : ℕ → Node) (d : ℕ) (type : BitVec 16)
    (F' : ℕ → Node) : Prop where
  change : Enterable strict (F d) type → Change sb strict F F'
  links : Enterable strict (F d) type → ∀ j, (F' j).nlink = 0 → (F' j).type ≠ 0 →
    (F j).type ≠ 0 ∧ (F j).nlink = 0

theorem createDir_sat (h : Inv sb H s) (hip : ip ∈ H)
    (hci : Cached (s.itable ip) i) (hcd : Cached (s.itable dp) d) (hne : i ≠ d) (hi : 0 < i)
    (hempty : (files sb s i).bytes = []) :
    Sat (doIf (type = T_DIR) do
      modifyDinode dp fun d => { d with nlink := d.nlink + 1 }
      iupdate sb dp
      createDots sb ip (s.itable ip).inum (s.itable dp).inum) s (fun _ t => ∃ g f,
      Step sb H H (withEntry (files sb s) i g d f) s t ∧
      (type = T_DIR → f = { files sb s d with nlink := (files sb s d).nlink + 1 } ∧
        (∃ bs, g = { files sb s i with bytes := bs }) ∧ g.nents = 2 ∧ g.ent 0 = newEnt dot i ∧
        g.ent 1 = newEnt dotdot d) ∧
      (type ≠ T_DIR → f = files sb s d ∧ g = files sb s i)) Mild := by
  refine doIf_sat (fun ht => ?_) fun ht => ?_
  · rw [← bind_assoc]
    refine Sat.bind (setNlink_sat (g := fun n => n + 1) h hcd) ?_
    intro _ t hst
    have hfi : files sb t i = files sb s i := by rw [hst.files, update_of_ne hne]
    rw [hci.2.1, hcd.2.1]
    refine (createDots_sat hst.inv hip (hst.cached hip hip hci) hi (h.toLive hci).lt
      (h.toLive hcd).lt (by rw [hfi, hempty])).post ?_
    rintro _ u ⟨g, hu, hg⟩
    rw [hfi] at hg
    refine ⟨g, _, ?_, fun _ => ⟨rfl, hg⟩, fun hn => absurd ht hn⟩
    have := hst.trans hu
    rw [hst.files, update_comm hne.symm] at this
    exact this
  · refine ⟨files sb s i, files sb s d, ⟨h, Frame.refl _ _, ?_⟩, fun hd => absurd hd ht,
      fun _ => ⟨rfl, rfl⟩⟩
    rw [withEntry, update_eq_self, update_eq_self]

variable {F : ℕ → Node}

theorem created_enter {k : ℕ} {f g : Node} (hd : (F d).type = T_DIR)
    (hname : (F d).lookup name = none) (hk : (F d).vacant k)
    (hf : SetEnt (F d) k (newEnt name i) f) (hi : 0 < i) (hlt : i < sb.ninodes)
    (hfree : F i = {}) (hg : g.type = type) (ht : type ≠ 0) (hnd : type ≠ T_DIR)
    (hn : g.nlink = 1) : Created sb strict F d type (withEntry F i g d f) := by
  obtain ⟨bs, rfl⟩ := hf.fields
  refine ⟨fun he => ?_, fun he j hj htj => ?_⟩
  · refine .enter hd (fun hs => he.ne_zero (.inl hs)) hname hk hf hi hlt (by rw [hfree]; decide) (by rwa [hg]) (by rwa [hg])
      (by rw [hfree]; decide) ?_
    rw [hn, hfree]
    rfl
  · rw [withEntry] at hj htj
    rcases eq_or_ne j d with rfl | hjd
    · rw [update_self] at hj htj
      exact ⟨htj, hj⟩
    rw [update_of_ne hjd] at hj htj
    rcases eq_or_ne j i with rfl | hji
    · rw [update_self, hn] at hj
      exact absurd hj (by decide)
    · rw [update_of_ne hji] at hj htj
      exact ⟨htj, hj⟩

theorem created_mkdir {k : ℕ} {f g : Node} (hd : (F d).type = T_DIR)
    (hname : (F d).lookup name = none) (hk : (F d).vacant k)
    (hf : SetEnt { F d with nlink := (F d).nlink + 1 } k (newEnt name i) f) (hi : 0 < i)
    (hlt : i < sb.ninodes) (hfree : F i = {}) (hg : g.type = T_DIR) (hn : g.nlink = 1)
    (hents : g.nents = 2 ∧ g.ent 0 = newEnt dot i ∧ g.ent 1 = newEnt dotdot d) :
    Created sb strict F d T_DIR (withEntry F i g d f) := by
  refine ⟨fun he => .mkdir hd (he.ne_zero (.inr rfl)) he.ne_max hname hk hf hi hlt (by rw [hfree]) hg hn hents.1
    hents.2.1 hents.2.2, fun he j hj htj => ?_⟩
  rw [withEntry] at hj htj
  rcases eq_or_ne j d with rfl | hjd
  · rw [update_self] at hj
    obtain ⟨bs, rfl⟩ := hf.fields
    exact absurd hj (succ_ne_zero_of_pos (he.linked (.inr rfl)))
  rw [update_of_ne hjd] at hj htj
  rcases eq_or_ne j i with rfl | hji
  · rw [update_self, hn] at hj
    exact absurd hj (by decide)
  · rw [update_of_ne hji] at hj htj
    exact ⟨htj, hj⟩

theorem files_blank (h : (files sb s i).type = 0) : files sb s i = {} := by
  rw [files_type] at h
  exact if_pos h

def Done (sb : Superblock) (strict : Prop) (K H : Multiset InodePtr) (ok : Prop) (s t : State) :
    Prop :=
  ∃ F, Step sb K H F s t ∧
    (Steady sb K s → ok → Steady sb H t ∧ Changes sb strict (files sb s) F)

theorem Created.leave (hF : Created sb strict (files sb s) d type F)
    (h : Step sb (dp ::ₘ H) (ip ::ₘ dp ::ₘ H) F s t) :
    Sat (do iunlockput sb dp; return ip) t (fun r u => r = ip ∧
      Done sb strict H (ip ::ₘ H) (Enterable strict (files sb s d) type) s u ∧
      (∀ j, Cached (t.itable ip) j → Cached (u.itable ip) j) ∧
      ∀ j, j ≠ (t.itable dp).inum → files sb u j = files sb t j) Mild := by
  have hinv : Inv sb (dp ::ₘ ip ::ₘ H) t := by
    rw [Multiset.cons_swap]
    exact h.inv
  refine Sat.bind (iunlockput_sat hinv) fun _ u hu => Sat.pure ⟨rfl, ⟨_, ⟨hu.inv, ?_, hu.files⟩,
    fun hst hok => ?_⟩, fun j hj => ?_, fun j hj => ?_⟩
  · exact (h.frame.mono (Multiset.le_cons_self H dp)).trans
      (hu.frame.mono (Multiset.le_cons_self H ip))
  · have hstt : Steady sb H t := hst.of_frame (h.frame.mono (Multiset.le_cons_self H dp))
      fun j htj hnj => by
        rw [h.files] at htj hnj
        exact hF.links hok j hnj htj
    have hstt' : Steady sb (dp ::ₘ ip ::ₘ H) t := hstt.mono
      ((Multiset.le_cons_self H ip).trans (Multiset.le_cons_self _ dp))
    refine ⟨hstt'.iput hinv hu, ?_⟩
    have hch := hF.change hok
    rw [← h.files] at hch
    exact (Relation.ReflTransGen.single hch).trans (dropped_changes hinv)
  · have hip := Multiset.mem_cons_self ip H
    exact hu.cached hip hip hj
  · rw [hu.files, dropped]
    split
    · exact update_of_ne hj _ _
    · rfl

theorem createNew_sat (strict : Prop) (h : Inv sb (dp ::ₘ H) s) (hcd : Cached (s.itable dp) d)
    (htype : type ≠ 0) :
    Sat (createNew sb dp name type major minor) s (fun ip t =>
      (∃ i, Cached (t.itable ip) i ∧ (files sb s i).type = 0 ∧ (files sb t i).type = type ∧
        (files sb t i).nlink = 1) ∧
      Done sb strict H (ip ::ₘ H) (Enterable strict (files sb s d) type) s t) Mild := by
  unfold createNew
  refine Sat.bind (ialloc_sat h htype) ?_
  rintro ip t ⟨i, hi, hlt, hfree, hnum, ht⟩
  have hmem : ip ∈ ip ::ₘ dp ::ₘ H := Multiset.mem_cons_self ip _
  have hdmem : dp ∈ ip ::ₘ dp ::ₘ H := Multiset.mem_cons_of_mem (Multiset.mem_cons_self dp H)
  have hle : dp ::ₘ H ≤ ip ::ₘ dp ::ₘ H := Multiset.le_cons_self _ ip
  have hdt := ht.cached (Multiset.mem_cons_self dp H) hdmem hcd
  have hne : i ≠ d := by
    rintro rfl
    rw [files_type] at hfree
    exact h.live dp i hcd hfree
  have hfi : files sb t i = { type := type } := by rw [ht.files, update_self]
  refine Sat.bind ((ilock_sat ht.inv (ht.inv.ref_of_mem hmem)).weaken fun _ he => he.mild (by rw [hnum, hfi]; exact htype)) ?_
  rintro _ u ⟨hu, hcu⟩
  rw [hnum] at hcu
  rw [← bind_assoc]
  refine Sat.bind (setFields_sat hu.inv hcu fun _ => ⟨rfl, rfl, rfl⟩) ?_
  intro _ v hv
  rw [hu.files, hfi, ht.files, update_idem] at hv
  set g₀ : Node := { type := type, major := major, minor := minor, nlink := 1 } with hg₀
  have hv' : files sb v = update (files sb s) i g₀ := hv.files
  have hvi : files sb v i = g₀ := by rw [hv', update_self]
  have hvd : files sb v d = files sb s d := by rw [hv', update_of_ne hne.symm]
  have hcv := hv.cached hmem hmem hcu
  have hdv := hv.cached hdmem hdmem (hu.cached hdmem hdmem hdt)
  refine getInode_bind (getInode_bind (Sat.bind (createDir_sat hv.inv hmem hcv hdv hne hi
    (by rw [hvi])) ?_))
  rintro _ w ⟨g, f₀, hw, hdir, hfile⟩
  rw [hvi, hvd] at hdir hfile
  have hcw := hw.cached hmem hmem hcv
  have hdw := hw.cached hdmem hdmem hdv
  have hwd : files sb w d = f₀ := by rw [hw.files, withEntry, update_self]
  rw [hcv.2.1]
  refine Sat.bind (dirlink_sat name hw.inv hdw hlt) ?_
  rintro r x ⟨hdt', hr⟩
  refine Sat.ite (fun hr1 => ?_) fun _ => Sat.throw ⟨nofun, nofun⟩
  rw [if_pos hr1, hwd] at hr
  rw [hwd] at hdt'
  obtain ⟨hname, k, f, hk, hf, hx⟩ := hr
  have hF : update (files sb w) d f = withEntry (files sb s) i g d f := by
    rw [hw.files, withEntry, withEntry, hv', update_idem, update_idem]
  rw [hF] at hx
  have hblank := files_blank hfree
  have hmade : Created sb strict (files sb s) d type (withEntry (files sb s) i g d f) := by
    by_cases htd : type = T_DIR
    · obtain ⟨rfl, ⟨bs, rfl⟩, hents⟩ := hdir htd
      subst htd
      exact created_mkdir hdt' hname hk hf hi hlt hblank rfl rfl hents
    · obtain ⟨rfl, rfl⟩ := hfile htd
      exact created_enter hdt' hname hk hf hi hlt hblank rfl htype htd rfl
  have hstep := (((ht.trans (hu.mono hle)).trans (hv.mono hle)).trans (hw.mono hle)).trans
    (hx.mono hle)
  refine (hmade.leave hstep).post ?_
  rintro _ y ⟨rfl, hy, hcy, hfy⟩
  refine ⟨⟨i, hcy i (hx.cached hmem hmem hcw), hfree, ?_⟩, hy⟩
  rw [hfy i (by rw [(hx.cached hdmem hdmem hdw).2.1]; exact hne), hx.files, withEntry,
    update_of_ne hne, update_self]
  by_cases htd : type = T_DIR
  · obtain ⟨-, ⟨bs, rfl⟩, -⟩ := hdir htd
    exact ⟨rfl, rfl⟩
  · rw [(hfile htd).2]
    exact ⟨rfl, rfl⟩

def MayEnter (strict : Prop) (F : ℕ → Node) (cwd : ℕ) (path : List Byte) (type : BitVec 16) : Prop :=
  ∀ d nm, resolve F cwd path true = some (d, nm) → (F d).lookup nm = none →
    Enterable strict (F d) type

theorem create_sat (strict : Prop) (h : Inv sb H s) (hr : 0 < (s.itable cwd).ref) (htype : type ≠ 0) :
    Sat (create sb cwd path type major minor) s (fun r t =>
      Done sb strict H (r.elim H (· ::ₘ H))
        (MayEnter strict (files sb s) (s.itable cwd).inum path type) s t ∧
      ∀ ip, r = some ip → ∃ i, Cached (t.itable ip) i ∧
        (type ≠ T_DIR → (files sb t i).type ≠ T_DIR)) (SafeErr sb H cwd s) := by
  unfold create nameiparent
  refine Sat.bind (namex_safe h hr) ?_
  rintro r t ⟨F, ht, hF⟩
  cases r with
  | none =>
    refine Sat.pure ⟨⟨F, ht, fun hst _ => ?_⟩, nofun⟩
    have hFs := (hF hst).1
    exact ⟨hst.frame ht.frame (ht.files.trans hFs), by rw [hFs]⟩
  | some x =>
    obtain ⟨dp, name⟩ := x
    have hFt : Steady sb H s → files sb t = files sb s := fun hst => ht.files.trans (hF hst).1
    have hres : Steady sb H s →
        resolve (files sb s) (s.itable cwd).inum path true = some ((t.itable dp).inum, name) :=
      fun hst => (hF hst).2.symm
    set d := (t.itable dp).inum with hd
    have hinv : Inv sb (dp ::ₘ H) t := ht.inv
    have hdmem := Multiset.mem_cons_self dp H
    have hle := Multiset.le_cons_self H dp
    refine Sat.bind ((ilock_sat hinv hinv.ref_pos).weaken fun _ he =>
      he.safeErr fun hs => by rw [hFt hs.steady]; exact hs.resolve (hres hs.steady)) ?_
    rintro _ u ⟨hu, hcu⟩
    have hsu : Frame H s u := ht.frame.trans (hu.frame.mono hle)
    have hFu : Steady sb H s → files sb u = files sb s := fun hst => hu.files.trans (hFt hst)
    refine Sat.bind ((dirlookup_sat name hu.inv hcu).weaken fun _ he => he.safeErr) ?_
    rintro r v ⟨hdir, hv⟩
    split
    · rename_i ip off
      obtain ⟨k, hk, -, hv, hnum, -⟩ := hv
      have hinv' : Inv sb (dp ::ₘ ip ::ₘ H) v := by
        rw [Multiset.cons_swap]
        exact hv.inv
      refine Sat.bind ((iunlockput_sat hinv').weaken fun _ he => he.safeErr) ?_
      intro _ w hw
      have hip := Multiset.mem_cons_self ip H
      have hlei := Multiset.le_cons_self H ip
      have hsv : Frame H s v := hsu.trans (hv.frame.mono hle)
      have hsw : Frame H s w := hsv.trans (hw.frame.mono hlei)
      have hFw : Steady sb H s → files sb w = files sb s := by
        intro hst
        have hFv := hv.files.trans (hFu hst)
        have := (hst.frame hsv hFv).mono hlei
        rw [hw.files, this.dropped_eq hinv', hFv]
      have hwnum : (w.itable ip).inum = ((files sb u d).ent k).inum.toNat :=
        (hw.inum hip).trans hnum
      refine Sat.bind ((ilock_sat hw.inv hw.inv.ref_pos).weaken fun _ he =>
        he.safeErr fun hs => ?_) ?_
      · obtain ⟨hk1, hk2, -⟩ := Node.of_lookup_some hk
        rw [hFu hs.steady] at hk1 hk2 hdir hwnum
        rw [hFw hs.steady, hwnum]
        exact hs.entries d hdir k hk1 hk2
      rintro _ x ⟨hx, hcx⟩
      have hsx : Frame H s x := hsw.trans (hx.frame.mono hlei)
      have hFx : Steady sb H s → files sb x = files sb s := fun hst => hx.files.trans (hFw hst)
      refine getInode_bind (Sat.ite (fun hfd => Sat.pure ⟨⟨files sb x, ⟨hx.inv, hsx, rfl⟩,
        fun hst _ => ⟨?_, ?_⟩⟩, fun jp hj => ?_⟩) fun _ => ?_)
      · exact (hst.frame hsx (hFx hst)).mono hlei
      · rw [hFx hst]
      · cases hj
        rw [hx.inv.dtype hcx] at hfd
        refine ⟨_, hcx, fun _ => ?_⟩
        rcases hfd.2 with hf | hf <;> rw [hf] <;> decide
      · refine Sat.bind ((iunlockput_sat hx.inv).weaken fun _ he => he.safeErr) ?_
        intro _ y hy
        refine Sat.pure ⟨⟨_, ⟨hy.inv, hsx.trans hy.frame, hy.files⟩, fun hst _ => ?_⟩, nofun⟩
        have hstx := hst.frame hsx (hFx hst)
        have hdr := hstx.dropped_eq hx.inv
        rw [hdr] at hy ⊢
        exact ⟨hstx.frame hy.frame hy.files, by rw [hFx hst]⟩
    · obtain ⟨rfl, hnone⟩ := hv
      refine Sat.bind ((createNew_sat strict hu.inv hcu htype).weaken fun _ he => he.safeErr) ?_
      rintro ip w ⟨hc, F', hw, hF'⟩
      refine Sat.pure ⟨⟨F', ⟨hw.inv, hsu.trans hw.frame, hw.files⟩, fun hst hok => ?_⟩, ?_⟩
      · rw [hFu hst] at hnone
        have := hF' (hst.frame hsu (hFu hst)) (by rw [hFu hst]; exact hok d name (hres hst) hnone)
        rwa [hFu hst] at this
      · rintro jp hj
        cases hj
        obtain ⟨i, hci, -, hti, -⟩ := hc
        exact ⟨i, hci, fun hnd => by rwa [hti]⟩

end Xv6.Fs
