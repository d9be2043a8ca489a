import Xv6.Mkfs.Image

/-! When the image that `mkfs` leaves is well formed. -/
namespace Xv6.Mkfs
open Bytes Fs
open Xv6.Log (BSIZE Block)

variable {s t : State} {i l : ℕ} {files : List Input}

def inodeAt (img : ℕ → Block) (i : ℕ) : Dinode := readDinode (img (sb.IBLOCK i)) (i % IPB)

def stored (img : ℕ → Block) (i l : ℕ) : ℕ :=
  let d := inodeAt img i
  if l ≤ NDIRECT then (d.addrs (Fin.ofNat _ l)).toNat
  else if d.addrs (Fin.last NDIRECT) = 0 then 0
  else (getWord (img (d.addrs (Fin.last NDIRECT)).toNat) (4 * (l - (NDIRECT + 1)))).toNat

def State.Used (t : State) (i : ℕ) : Prop := 1 ≤ i ∧ i < t.freeinode

def State.Place (t : State) (i l : ℕ) : Prop := t.Used i ∧ l < NDIRECT + 1 + NINDIRECT

structure WellFormed (t : State) : Prop where
  inums : ∀ i, t.Used i → i < NINODES
  range : ∀ i l, t.Place i l → stored t.img i l ≠ 0 →
    nmeta ≤ stored t.img i l ∧ stored t.img i l < FSSIZE
  once : ∀ i l j m, t.Place i l → t.Place j m → stored t.img i l ≠ 0 →
    stored t.img j m = stored t.img i l → j = i ∧ m = l
  full : ∀ i, t.Used i → ∀ j, j * BSIZE < (inodeAt t.img i).size.toNat →
    j < MAXFILE ∧ stored t.img i (blockPlace j) ≠ 0
  bitmap : ∀ b < BPB, bitSet (t.img sb.bmapstart) b = true ↔
    b < nmeta ∨ ∃ i l, t.Place i l ∧ stored t.img i l ≠ 0 ∧ stored t.img i l = b

def SameInum (s t : State) : Prop := t.freeinode = s.freeinode

instance : IsPreorder State SameInum where
  refl _ := rfl
  trans _ _ _ h h' := h'.trans h

def Keeps {α : Type} (m : M α) : Prop := Relates SameInum (fun _ => True) m

namespace Keeps
open Relates

theorem wsect (b : ℕ) (x : Block) : Keeps (Mkfs.wsect b x) := fun _ => rfl

theorem rsect (b : ℕ) : Keeps (Mkfs.rsect b) := fun s => by
  unfold Mkfs.rsect
  exact Sat.get_bind (Sat.ite (fun _ => Sat.pure rfl) fun _ => Sat.throw trivial)

theorem winode (i : ℕ) (d : Dinode) : Keeps (Mkfs.winode i d) :=
  bind (rsect _) fun _ => wsect _ _

theorem rinode (i : ℕ) : Keeps (Mkfs.rinode i) := bind (rsect _) fun _ => pure _

theorem nextBlock : Keeps Mkfs.nextBlock := fun _ => rfl

theorem fillAddr (d : Dinode) (j : Fin (NDIRECT + 1)) : Keeps (Mkfs.fillAddr d j) :=
  ite (fun _ => bind nextBlock fun _ => pure _) fun _ => pure _

theorem findBlock (d : Dinode) (fbn : ℕ) : Keeps (Mkfs.findBlock d fbn) :=
  ite (fun _ => bind (fillAddr _ _) fun _ => pure _) fun _ => bind (fillAddr _ _) fun _ =>
    bind (rsect _) fun _ => ite (fun _ => bind nextBlock fun _ => bind (wsect _ _) fun _ => pure _)
      fun _ => pure _

theorem iappendLoop (fuel : ℕ) (d : Dinode) (off : ℕ) (p : List Byte) :
    Keeps (Mkfs.iappendLoop fuel d off p) := by
  induction fuel generalizing d off p with
  | zero => exact pure _
  | succ fuel ih =>
    exact ite (fun _ => ite (fun _ => bind (findBlock _ _) fun _ => bind (rsect _) fun _ =>
      bind (wsect _ _) fun _ => ih _ _ _) fun _ => throw trivial) fun _ => pure _

theorem iappend (i : ℕ) (p : List Byte) : Keeps (Mkfs.iappend i p) :=
  bind (rinode i) fun _ => bind (iappendLoop _ _ _ _) fun _ => winode _ _

end Keeps

theorem ialloc_next (type : BitVec 16) (s : State) :
    Sat (ialloc type) s (fun _ t => t.freeinode = s.freeinode + 1) fun _ => True := by
  unfold ialloc
  refine Sat.get_bind (set_bind ?_)
  exact Sat.bind (Keeps.winode _ _ _) fun _ t ht => Sat.pure ht

theorem addFile_next (f : Input) (s : State) :
    Sat (addFile ROOTINO f) s (fun _ t => t.freeinode = s.freeinode + 1) fun _ => True := by
  unfold addFile
  refine Sat.ite (fun _ => Sat.throw trivial) fun _ => ?_
  cases f.reads with
  | none => exact Sat.throw trivial
  | some reads =>
    refine Sat.bind (ialloc_next T_FILE s) fun inum t ht => ?_
    have hrest : Keeps (do
      iappend ROOTINO (dirent inum f.shortname).bytes
      reads.forM (iappend inum)) :=
      .bind (Keeps.iappend _ _) fun _ => .forM (Keeps.iappend inum) reads
    exact (hrest t).post fun _ _ hu => hu.trans ht

theorem addFiles_next (files : List Input) (s : State) :
    Sat (files.forM (addFile ROOTINO)) s (fun _ t => t.freeinode = s.freeinode + files.length)
      fun _ => True := by
  induction files generalizing s with
  | nil => exact Sat.pure rfl
  | cons f files ih =>
    refine Sat.bind (addFile_next f s) fun _ t ht => (ih t).post fun _ u hu => ?_
    rw [hu, ht, List.length_cons]
    omega

theorem main_next (files : List Input) :
    Sat (main files) start (fun _ t => t.freeinode = files.length + 2) fun _ => True := by
  unfold main
  have hzero : Keeps zeroDisk := by
    unfold zeroDisk
    exact .forM (fun i => Keeps.wsect i zeroes) _
  refine Sat.bind (hzero start) fun _ s hs => Sat.bind (Keeps.wsect 1 superBlock s) fun _ s1 hs1 =>
    Sat.bind (ialloc_next T_DIR s1) fun root s2 hs2 => Sat.ite (fun hroot => ?_) fun _ =>
    Sat.throw trivial
  subst hroot
  refine Sat.bind (Keeps.iappend _ _ s2) fun _ s3 hs3 => Sat.bind (Keeps.iappend _ _ s3) fun _ s4 hs4 =>
    Sat.bind (addFiles_next files s4) fun _ s5 hs5 => ?_
  have hrest : Keeps (do
    fixRoot ROOTINO
    let s ← get
    balloc s.freeblock) :=
    .bind (.bind (Keeps.rinode _) fun _ => Keeps.winode _ _) fun _ =>
      .bind (fun _ => rfl) fun _ => .ite (fun _ => Keeps.wsect _ _) fun _ => .throw trivial
  refine (hrest s5).post fun _ t ht => ?_
  rw [ht, hs5, hs4, hs3, hs2, hs1, hs]
  simp only [start]
  omega

theorem nodes_type_iff : (nodes files i).type ≠ 0 ↔ 1 ≤ i ∧ i < files.length + 2 := by
  match i with
  | 0 =>
    have hzero : nodes files 0 = {} := rfl
    simp [hzero]
  | 1 =>
    have : (nodes files 1).type = T_DIR := congrArg Node.type (nodes_root files)
    rw [this]
    exact ⟨fun _ => by omega, fun _ => by decide⟩
  | k + 2 =>
    rw [nodes_add_two]
    rcases lt_or_ge k files.length with hk | hk
    · rw [List.getElem?_eq_getElem hk]
      exact ⟨fun _ => by omega, fun _ => (by decide : T_FILE ≠ 0)⟩
    · rw [List.getElem?_eq_none hk]
      exact ⟨fun h => absurd rfl h, fun h => by omega⟩

theorem Written.root_used (hw : Written files t) : t.Used ROOTINO := by
  refine ⟨le_refl 1, ?_⟩
  rw [hw.inode, ROOTINO]
  omega

section
variable (hw : Written files t) (hn : files.length + 2 ≤ NINODES)
  (hinv : Inv (nodes files) s (vol s))
include hw hn hinv

theorem Written.node_type (hi : t.Used i) : i < NINODES ∧ ((vol s).node i).type ≠ 0 := by
  have hlt := hi.2
  rw [hw.inode] at hlt
  refine ⟨by omega, ?_⟩
  rw [← Vol.file_type, hinv.files i (by omega)]
  exact nodes_type_iff.mpr ⟨hi.1, hlt⟩

variable (hv : vol t = rounded (vol s))
include hv

theorem Written.inodeAt (hi : t.Used i) : inodeAt t.img i = (rounded (vol s)).node i := by
  have hlt := (hw.node_type hn hinv hi).1
  rw [← hv, ← hw.maps]
  exact (if_pos (sb_ninodes ▸ hlt)).symm

theorem Written.addrs (hi : t.Used i) :
    (Mkfs.inodeAt t.img i).addrs = ((vol s).node i).addrs := by
  rw [hw.inodeAt hn hinv hv hi]
  rcases eq_or_ne i ROOTINO with rfl | hne
  · rw [rounded, Vol.setNode_node_self]
  · rw [rounded, Vol.setNode_node_of_ne _ _ hne]

theorem Written.stored (hi : t.Used i) : Mkfs.stored t.img i l = (vol s).place (i, l) := by
  obtain ⟨hlt, hty⟩ := hw.node_type hn hinv hi
  simp only [Mkfs.stored, hw.addrs hn hinv hv hi, Vol.place, if_neg hty]
  split
  · rfl
  · split
    · rfl
    · rename_i ha
      have hdata : sb.IsData (((vol s).node i).addrs (Fin.last NDIRECT)).toNat := by
        rw [← place_last _ hty]
        refine hinv.owned.data _ (mem_places (sb_ninodes ▸ hlt) (by decide)) ?_
        rw [place_last _ hty]
        exact fun h0 => ha (BitVec.eq_of_toNat_eq h0)
      have himg : (vol t).data = (vol s).data := by
        rw [hv]
        rfl
      rw [← vol_data t hdata, himg]

theorem Written.size_root : (Mkfs.inodeAt t.img ROOTINO).size.toNat =
    ((files.length + 2) * direntSize / BSIZE + 1) * BSIZE := by
  have hroot := hw.root_used
  have hty := (hw.node_type hn hinv hroot).2
  have hsz : ((vol s).node ROOTINO).size.toNat = (files.length + 2) * direntSize := by
    rw [hinv.size (by decide) hty, nodes_root, length_entries]
  rw [hw.inodeAt hn hinv hv hroot, rounded, Vol.setNode_node_self, hsz, BitVec.toNat_ofNat,
    Nat.mod_eq_of_lt]
  simp only [NINODES, direntSize, DIRSIZ, BSIZE] at hn ⊢
  omega

theorem Written.size_of_ne (hi : t.Used i) (hne : i ≠ ROOTINO) :
    (Mkfs.inodeAt t.img i).size.toNat = (nodes files i).bytes.length := by
  obtain ⟨hlt, hty⟩ := hw.node_type hn hinv hi
  rw [hw.inodeAt hn hinv hv hi, rounded, Vol.setNode_node_of_ne _ _ hne, hinv.size hlt hty]

/-- The root directory has a block for each index below its rounded size exactly when its entries do
not fill their last block. -/
theorem Written.full_root : (∀ j, j * BSIZE < (Mkfs.inodeAt t.img ROOTINO).size.toNat →
      j < MAXFILE ∧ Mkfs.stored t.img ROOTINO (blockPlace j) ≠ 0) ↔
    (files.length + 2) * direntSize % BSIZE ≠ 0 := by
  have hlen : (nodes files ROOTINO).bytes.length = (files.length + 2) * direntSize := by
    rw [nodes_root, length_entries]
  have hblock : ∀ j < MAXFILE, Mkfs.stored t.img ROOTINO (blockPlace j) ≠ 0 ↔
      j * BSIZE < (files.length + 2) * direntSize := by
    intro j hj
    rw [hw.stored hn hinv hv hw.root_used, ← hlen]
    exact hinv.block_ne (by decide) hj
  rw [hw.size_root hn hinv hv]
  have hmax : (files.length + 2) * direntSize / BSIZE + 1 < MAXFILE := by
    simp only [NINODES, direntSize, DIRSIZ, BSIZE, MAXFILE, NDIRECT, NINDIRECT] at hn ⊢
    omega
  generalize (files.length + 2) * direntSize = len at *
  constructor
  · intro h
    have := (hblock _ (by omega)).mp (h (len / BSIZE) (by simp only [BSIZE]; omega)).2
    simp only [BSIZE] at this ⊢
    omega
  · intro h j hj
    have hjle : j < MAXFILE := by
      simp only [BSIZE] at hj hmax
      omega
    refine ⟨hjle, (hblock j hjle).mpr ?_⟩
    simp only [BSIZE] at hj h ⊢
    omega

theorem Written.wellFormed_iff (hb : t.freeblock = s.freeblock) :
    WellFormed t ↔ (files.length + 2) * direntSize % BSIZE ≠ 0 := by
  have hstored := fun i l (hi : t.Used i) => hw.stored hn hinv hv (l := l) hi
  have hmem : ∀ i l, t.Place i l → (i, l) ∈ places sb := fun i l h =>
    mem_places (sb_ninodes ▸ (hw.node_type hn hinv h.1).1) h.2
  rw [← hw.full_root hn hinv hv]
  refine ⟨fun h => h.full ROOTINO hw.root_used, fun hroot => ?_⟩
  refine ⟨fun i hi => (hw.node_type hn hinv hi).1, fun i l hp hne => ?_,
    fun i l j m hp hq hne heq => ?_, fun i hi j hj => ?_, fun b _ => ?_⟩
  · rw [hstored i l hp.1] at hne ⊢
    exact isData_iff.mp (hinv.owned.data _ (hmem i l hp) hne)
  · rw [hstored i l hp.1] at hne heq
    rw [hstored j m hq.1] at heq
    exact Prod.mk.inj (hinv.owned.inj (hmem i l hp) (hmem j m hq) hne heq)
  · rcases eq_or_ne i ROOTINO with rfl | hine
    · exact hroot j hj
    · have hlt := (hw.node_type hn hinv hi).1
      rw [hw.size_of_ne hn hinv hv hi hine] at hj
      have hmax : j < MAXFILE := by
        have := hinv.small i hlt
        simp only [BSIZE] at this hj
        omega
      rw [hstored i _ hi]
      exact ⟨hmax, (hinv.block_ne hlt hmax).mpr hj⟩
  · rw [hw.bitmap, decide_eq_true_eq, hb]
    constructor
    · intro hlt
      rcases lt_or_ge b nmeta with hlow | hlow
      · exact .inl hlow
      · have hdata : sb.IsData b := isData_iff.mpr ⟨hlow, lt_of_lt_of_le hlt hinv.high⟩
        have hocc := hinv.owned.once b hdata
        rw [hinv.bit, if_pos (decide_eq_true hlt)] at hocc
        obtain ⟨⟨i, l⟩, hq, hql⟩ := Count.occ_pos.mp (hocc ▸ Nat.one_pos)
        obtain ⟨hi, hl⟩ := mem_places_iff.mp hq
        rw [sb_ninodes] at hi
        have hused : t.Used i := by
          have hpos := (hinv.uses i hi l hl).mp (hql ▸ hdata.ne_zero)
          have hty : (nodes files i).type ≠ 0 := by
            intro h0
            rw [← hinv.files i hi] at hpos h0
            rw [Vol.file_type] at h0
            rw [Vol.file, if_pos h0] at hpos
            exact absurd hpos (Nat.not_lt_zero _)
          rw [State.Used, hw.inode]
          exact nodes_type_iff.mp hty
        refine .inr ⟨i, l, ⟨hused, hl⟩, ?_⟩
        rw [hstored i l hused, hql]
        exact ⟨hdata.ne_zero, rfl⟩
    · rintro (hlow | ⟨i, l, hp, hne, rfl⟩)
      · exact lt_of_lt_of_le hlow hinv.low
      · rw [hstored i l hp.1] at hne ⊢
        have hset := hinv.owned.bit_set (hmem i l hp) hne
        rw [hinv.bit] at hset
        exact of_decide_eq_true hset

end

theorem mkfs_eq_ok {files : List Input} : mkfs files = .ok t ↔ main files start = .ok ((), t) := by
  unfold mkfs
  cases main files start with
  | error e => exact ⟨nofun, nofun⟩
  | ok r => exact ⟨fun h => by cases h; rfl, fun h => by cases h; rfl⟩

theorem mkfs_storable (hn : files.length + 2 ≤ NINODES) (hs : Storable files) :
    ∃ t, mkfs files = .ok t ∧ Written files t := by
  have hsat := main_sat hn
  unfold Sat at hsat
  cases hm : main files start with
  | error e =>
    rw [hm] at hsat
    exact absurd hs hsat
  | ok r =>
    rw [hm] at hsat
    exact ⟨r.2, by rw [mkfs, hm]; rfl, hsat.2⟩

/-- Whenever `mkfs` exits with status 0 its image is well formed if and only if the files did not
outnumber the inodes and the entries of the root directory do not end at a block boundary. -/
theorem mkfs_wellFormed_iff (h : mkfs files = .ok t) : WellFormed t ↔
    files.length + 2 ≤ NINODES ∧ (files.length + 2) * direntSize % BSIZE ≠ 0 := by
  have hrun := mkfs_eq_ok.mp h
  by_cases hn : files.length + 2 ≤ NINODES
  · obtain ⟨-, hw⟩ := (main_sat hn).ok hrun
    obtain ⟨s, hinv, hb, hv⟩ := hw.inv
    rw [hw.wellFormed_iff hn hinv hv hb]
    exact ⟨fun h => ⟨hn, h⟩, fun h => h.2⟩
  · have hnext : t.freeinode = files.length + 2 := (main_next files).ok hrun
    refine ⟨fun hwf => absurd (hwf.inums (files.length + 1) ⟨by omega, by omega⟩) ?_,
      fun h => absurd h.1 hn⟩
    omega

instance (F : ℕ → Node) : Decidable (Fits F) := inferInstanceAs (Decidable (_ ∧ _))

instance (files : List Input) : Decidable (Storable files) := inferInstanceAs (Decidable (_ ∧ _))

def emptyFile : Input where
  path := [97]
  reads := some []
  no_nul := by decide
  pieces ps h p hp := by
    cases h
    cases hp

/-- Two reads, the second one shorter than a block. -/
def twoReads : Input where
  path := [98]
  reads := some [List.replicate BSIZE 7, [1, 2, 3]]
  no_nul := by decide
  pieces ps h p hp := by
    cases h
    rcases List.mem_pair.mp hp with rfl | rfl
    · rw [List.length_replicate]
      decide
    · decide

theorem mkfs_wellFormed_iff_twoReads : ∃ t, mkfs [emptyFile, twoReads] = .ok t ∧ WellFormed t := by
  obtain ⟨t, ht, -⟩ := mkfs_storable (show [emptyFile, twoReads].length + 2 ≤ NINODES by decide)
    (by decide +kernel)
  exact ⟨t, ht, (mkfs_wellFormed_iff ht).mpr ⟨by decide, by decide⟩⟩

/-- With 62 files the root directory has 64 entries, which fill one block; its size is rounded to
two. -/
theorem not_wellFormed_sixtyTwo :
    ∃ t, mkfs (List.replicate 62 emptyFile) = .ok t ∧ ¬ WellFormed t := by
  have hn : (List.replicate 62 emptyFile).length + 2 ≤ NINODES := by decide
  obtain ⟨t, ht, hw⟩ := mkfs_storable hn (by decide +kernel)
  obtain ⟨s, hinv, hb, hv⟩ := hw.inv
  refine ⟨t, ht, fun hwf => (hw.wellFormed_iff hn hinv hv hb).mp hwf ?_⟩
  rw [List.length_replicate]
  rfl

end Xv6.Mkfs
