import Xv6.Mkfs.Append
import Xv6.Fs.DirSpec

/-! The image that `mkfs` leaves when it exits with status 0: which files it holds, and when it is
well formed. -/
namespace Xv6.Mkfs
open Bytes Fs Function List
open Xv6.Log (BSIZE Block)

variable {s t : State} {i : ℕ} {F : ℕ → Node} {f : Input} {files done : List Input}

def Input.bytes (f : Input) : List Byte := (f.reads.getD []).flatten

/-- The file passes the `assert` on its name and can be opened. -/
def Input.Accepted (f : Input) : Prop := slash ∉ stripUser f.path ∧ f.reads.isSome = true

instance (f : Input) : Decidable f.Accepted := inferInstanceAs (Decidable (_ ∧ _))

def entries (files : List Input) : List Dirent :=
  dirent ROOTINO dot :: dirent ROOTINO dotdot :: files.mapIdx fun k f => dirent (k + 2) f.shortname

def nodes (files : List Input) (i : ℕ) : Node :=
  if i = ROOTINO then
    { type := T_DIR, nlink := 1, bytes := (entries files).flatMap Dirent.bytes }
  else if i < 2 then {}
  else
    match files[i - 2]? with
    | some f => { type := T_FILE, nlink := 1, bytes := f.bytes }
    | none => {}

theorem nodes_root (files : List Input) : nodes files ROOTINO =
    { type := T_DIR, nlink := 1, bytes := (entries files).flatMap Dirent.bytes } := if_pos rfl

theorem nodes_add_two (files : List Input) (k : ℕ) : nodes files (k + 2) =
    match files[k]? with
    | some f => { type := T_FILE, nlink := 1, bytes := f.bytes }
    | none => {} := by
  rw [nodes, if_neg (by simp [ROOTINO]), if_neg (by omega), Nat.add_sub_cancel]

theorem length_dirent (k : ℕ) (name : List Byte) : (dirent k name).bytes.length = direntSize :=
  Dirent.length_bytes (length_strncpy _ _)

theorem length_entries (files : List Input) :
    ((entries files).flatMap Dirent.bytes).length = (files.length + 2) * direntSize := by
  have hall : ∀ e ∈ entries files, e.bytes.length = direntSize := by
    intro e he
    simp only [entries, mem_cons, mem_mapIdx] at he
    obtain rfl | rfl | ⟨k, hk, rfl⟩ := he
    all_goals exact length_dirent _ _
  rw [length_flatMap, map_congr_left hall, map_const', sum_replicate]
  simp [entries]

theorem entries_snoc (done : List Input) (f : Input) :
    entries (done ++ [f]) = entries done ++ [dirent (done.length + 2) f.shortname] := by
  simp [entries, mapIdx_append]

theorem nodes_snoc (done : List Input) (f : Input) :
    nodes (done ++ [f]) = grow (grow (fresh (nodes done) (done.length + 2) T_FILE) ROOTINO
      (dirent (done.length + 2) f.shortname).bytes) (done.length + 2) f.bytes := by
  funext i
  match i with
  | 0 =>
    rw [grow_of_ne _ _ (by omega), grow_of_ne _ _ (by decide), fresh, update_of_ne (by omega)]
    rfl
  | 1 =>
    have hroot : grow (fresh (nodes done) (done.length + 2) T_FILE) ROOTINO
        (dirent (done.length + 2) f.shortname).bytes ROOTINO = _ := grow_self _ _ _
    rw [grow_of_ne _ _ (by omega)]
    refine Eq.trans ?_ hroot.symm
    rw [fresh, update_of_ne (by simp [ROOTINO]), nodes_root]
    refine (nodes_root _).trans ?_
    rw [entries_snoc, flatMap_append, flatMap_singleton]
  | k + 2 =>
    have hne : k + 2 ≠ ROOTINO := by simp [ROOTINO]
    rw [nodes_add_two]
    rcases eq_or_ne k done.length with rfl | hk
    · rw [grow_self, grow_of_ne _ _ hne, fresh, update_self, getElem?_concat_length]
      rfl
    · rw [grow_of_ne _ _ (by omega), grow_of_ne _ _ hne, fresh, update_of_ne (by omega),
        nodes_add_two]
      have hget : (done ++ [f])[k]? = done[k]? := by
        rcases lt_or_gt_of_ne hk with hlt | hgt
        · exact getElem?_append_left hlt
        · rw [getElem?_eq_none (by simp; omega), getElem?_eq_none (by omega)]
      rw [hget]

theorem length_nodes_le (done rest : List Input) (i : ℕ) :
    (nodes done i).bytes.length ≤ (nodes (done ++ rest) i).bytes.length := by
  match i with
  | 0 => exact le_refl _
  | 1 =>
    have h := fun l => congrArg (fun n : Node => n.bytes.length) (nodes_root l)
    refine (h done).trans_le (le_of_le_of_eq ?_ (h _).symm)
    dsimp only
    rw [length_entries, length_entries, length_append]
    exact Nat.mul_le_mul_right _ (by omega)
  | k + 2 =>
    rw [nodes_add_two, nodes_add_two]
    rcases lt_or_ge k done.length with hk | hk
    · rw [getElem?_append_left hk]
    · rw [getElem?_eq_none hk]
      exact Nat.zero_le _

theorem Fits.of_append {rest : List Input} (h : Fits (nodes (done ++ rest))) : Fits (nodes done) :=
  h.mono fun k _ => length_nodes_le done rest k

theorem length_grow_le (F : ℕ → Node) (i : ℕ) (p : List Byte) (k : ℕ) :
    (F k).bytes.length ≤ (grow F i p k).bytes.length := by
  rcases eq_or_ne k i with rfl | hk
  · rw [grow_self, length_append]
    exact Nat.le_add_right _ _
  · rw [grow_of_ne _ _ hk]

theorem iappends_sat {ps : List (List Byte)} (h : Inv F s (vol s)) (hi : i < NINODES)
    (ht : (F i).type ≠ 0) : Sat (ps.forM (iappend i)) s (fun _ t =>
      Inv (grow F i ps.flatten) t (vol t) ∧ t.freeinode = s.freeinode)
      fun _ => ¬ Fits (grow F i ps.flatten) := by
  induction ps generalizing F s with
  | nil =>
    rw [flatten_nil, grow_nil]
    exact Sat.pure ⟨h, rfl⟩
  | cons p ps ih =>
    rw [List.forM, flatten_cons, ← grow_grow]
    refine Sat.bind ((iappend_sat h hi ht).weaken fun _ hn hf => hn ?_) ?_
    · exact hf.mono fun k _ => length_grow_le _ _ _ k
    · rintro _ t ⟨hinv, hino⟩
      have hty : (grow F i p i).type ≠ 0 := by rwa [grow_self]
      exact (ih hinv hty).post fun _ u hu => ⟨hu.1, hu.2.trans hino⟩

theorem addFile_sat (h : Inv (nodes done) s (vol s)) (hn : s.freeinode = done.length + 2)
    (hlt : done.length + 2 < NINODES) :
    Sat (addFile ROOTINO f) s (fun _ t => f.Accepted ∧ Inv (nodes (done ++ [f])) t (vol t) ∧
      t.freeinode = (done ++ [f]).length + 2)
      fun _ => ¬ (f.Accepted ∧ Fits (nodes (done ++ [f]))) := by
  unfold addFile
  refine Sat.ite (fun hs => Sat.throw fun hf => hf.1.1 (contains_iff_mem.mp hs)) fun hs => ?_
  cases hr : f.reads with
  | none =>
    refine Sat.throw fun hf => ?_
    have := hf.1.2
    rw [hr] at this
    cases this
  | some reads =>
    have hacc : f.Accepted := ⟨fun hmem => hs (contains_iff_mem.mpr hmem), by rw [hr]; rfl⟩
    have hbytes : reads.flatten = f.bytes := by rw [Input.bytes, hr, Option.getD_some]
    have hfree : nodes done s.freeinode = {} := by
      rw [hn, nodes_add_two, getElem?_eq_none (le_refl _)]
    have hroom : s.freeinode < NINODES := by rwa [hn]
    refine Sat.bind (ialloc_sat h hroom hfree (by decide)) ?_
    rintro inum t ⟨hinum, hino, hinv⟩
    rw [hn] at hinum hino
    rw [hinum] at hinv ⊢
    have hroot : (fresh (nodes done) (done.length + 2) T_FILE ROOTINO).type ≠ 0 := by
      rw [fresh, update_of_ne (by simp [ROOTINO]), nodes_root]
      exact (by decide : T_DIR ≠ 0)
    refine Sat.bind ((iappend_sat hinv (by decide) hroot).weaken fun _ hno hf => hno ?_) ?_
    · refine hf.2.mono fun k _ => ?_
      rw [nodes_snoc]
      exact length_grow_le _ _ _ k
    · rintro _ u ⟨hinv', hino'⟩
      have hty : (grow (fresh (nodes done) (done.length + 2) T_FILE) ROOTINO
          (dirent (done.length + 2) f.shortname).bytes (done.length + 2)).type ≠ 0 := by
        rw [grow_of_ne _ _ (by simp [ROOTINO]), fresh, update_self]
        decide
      refine (iappends_sat hinv' hlt hty).mono ?_ fun _ hno hf => hno ?_
      · rintro _ w ⟨hw, hwi⟩
        rw [hbytes, ← nodes_snoc] at hw
        refine ⟨hacc, hw, ?_⟩
        rw [hwi, hino', hino, length_append, length_singleton]
      · rw [hbytes, ← nodes_snoc]
        exact hf.2

theorem addFiles_sat (h : Inv (nodes done) s (vol s)) (hn : s.freeinode = done.length + 2)
    (hlt : (done ++ files).length + 2 ≤ NINODES) :
    Sat (files.forM (addFile ROOTINO)) s (fun _ t => (∀ f ∈ files, f.Accepted) ∧
      Inv (nodes (done ++ files)) t (vol t) ∧ t.freeinode = (done ++ files).length + 2)
      fun _ => ¬ ((∀ f ∈ files, f.Accepted) ∧ Fits (nodes (done ++ files))) := by
  induction files generalizing done s with
  | nil =>
    rw [append_nil]
    exact Sat.pure ⟨nofun, h, hn⟩
  | cons f files ih =>
    have hassoc : done ++ f :: files = done ++ [f] ++ files := by simp
    rw [List.forM, hassoc]
    rw [hassoc] at hlt
    have hlen : done.length + 2 < NINODES := by
      simp only [length_append, length_singleton] at hlt
      omega
    refine Sat.bind ((addFile_sat h hn hlen).weaken fun _ hno hf =>
      hno ⟨hf.1 f mem_cons_self, hf.2.of_append⟩) ?_
    rintro _ t ⟨hacc, hinv, hino⟩
    refine (ih hinv hino hlt).mono ?_ fun _ hno hf =>
      hno ⟨fun g hg => hf.1 g (mem_cons_of_mem _ hg), hf.2⟩
    rintro _ u ⟨hall, hu⟩
    exact ⟨forall_mem_cons.mpr ⟨hacc, hall⟩, hu⟩

variable {E : Fail → Prop}

theorem zero_sat {n : ℕ} (hn : n ≤ FSSIZE) : Sat ((List.range n).forM fun i => wsect i zeroes) start
      (fun _ t => t = { start with len := n }) E := by
  induction n with
  | zero => exact Sat.pure rfl
  | succ n ih =>
    rw [range_succ, forM_eq_forM, forM_append]
    refine Sat.bind (ih (by omega)) ?_
    rintro _ t rfl
    have hs : sector n = n := sector_eq (lt_of_lt_of_le hn (by decide))
    have hput : update (fun _ => zeroes : ℕ → Block) n zeroes = fun _ => zeroes :=
      update_eq_self _ _
    change State.mk _ _ _ _ = _
    dsimp only [start]
    rw [hs, hput, max_eq_right (Nat.le_succ n)]

theorem zeroDisk_sat : Sat zeroDisk start (fun _ t => t = { start with len := FSSIZE }) E := by
  unfold zeroDisk
  generalize hn : FSSIZE = n
  exact zero_sat hn.ge

theorem readDinode_zeroes (slot : ℕ) : readDinode zeroes slot = {} := by
  have hb : ∀ k, byteAt (zeroes : Block) k = 0 := fun k => by
    unfold byteAt zeroes
    split <;> rfl
  simp only [readDinode, getHalf, getWord, half, word, hb]
  rfl

theorem start_inv (s : State) (hs : s = State.put { start with len := FSSIZE } 1 superBlock) :
    Inv (fun _ => {}) s (vol s) := by
  have himg : ∀ b, b ≠ 1 → s.img b = zeroes := fun b hb => by
    rw [hs]
    exact update_of_ne hb _ _
  have hnode : ∀ k < NINODES, (vol s).node k = {} := by
    intro k hk
    rw [vol_node s hk, himg, readDinode_zeroes]
    have : sb.inodestart ≤ sb.IBLOCK k := (IBLOCK_range (sb_ninodes ▸ hk)).1
    rw [sb_inodestart] at this
    omega
  have hplace : ∀ k < NINODES, ∀ l, (vol s).place (k, l) = 0 := by
    intro k hk l
    simp only [Vol.place, hnode k hk, if_true]
  have hplaces : ∀ q ∈ places sb, (vol s).place q = 0 := fun q hq =>
    hplace q.1 (sb_ninodes ▸ (mem_places_iff.mp hq).1) q.2
  have hfb : s.freeblock = nmeta := by rw [hs]; rfl
  refine ⟨⟨by rw [hs]; rfl, rfl, rfl, hfb.ge, hfb ▸ by decide, fun b hb => ?_, ⟨?_, fun b hb => ?_⟩,
    fun b _ => ?_⟩, fun k hk => ?_, fun k hk l hl => ?_, fun k _ => Nat.zero_le _, ?_⟩
  · change (if sb.IsData b then s.img b else zeroes) = zeroes
    split
    · refine himg b ?_
      have : 1 < nmeta := by decide
      omega
    · rfl
  · exact fun q hq hne => absurd (hplaces q hq) hne
  · rw [Count.occ_eq_zero.mpr fun q hq he => hb.ne_zero (he.symm.trans (hplaces q hq))]
    have hbit : (vol s).bit b = false := by
      have := (isData_iff.mp hb).1
      exact decide_eq_false (by omega)
    rw [hbit]
    rfl
  · split
    · rename_i h1
      rw [h1, hs]
      exact update_self (1 : ℕ) superBlock start.img
    · exact himg b ‹_›
  · unfold Vol.file
    rw [hnode k hk]
    rfl
  · rw [hplace k hk]
    exact ⟨fun h => absurd rfl h, fun h => absurd h (Nat.not_lt_zero _)⟩
  · have hd : demand (fun _ => {}) = 0 := Finset.sum_eq_zero fun _ _ =>
      show blocksFor 0 = 0 by decide
    rw [hfb, hd, Nat.add_zero]

def rounded (v : Vol) : Vol :=
  v.setNode ROOTINO { v.node ROOTINO with
    size := BitVec.ofNat 32 (((v.node ROOTINO).size.toNat / BSIZE + 1) * BSIZE) }

theorem fixRoot_sat (hlen : s.len = FSSIZE) :
    Sat (fixRoot ROOTINO) s (fun _ t => vol t = rounded (vol s) ∧ SameHead s t ∧ t.len = s.len ∧
      t.freeinode = s.freeinode ∧ t.freeblock = s.freeblock) E :=
  rinode_bind hlen (by decide) (winode_sat hlen (by decide)
    fun _ hv hh hl hi hb => ⟨hv, hh, hl, hi, hb⟩)

theorem bitSet_marks {n b : ℕ} (hn : n ≤ BPB) :
    bitSet ((List.range n).foldl markBit zeroes) b = decide (b < n) := by
  induction n with
  | zero =>
    rw [range_zero, foldl_nil]
    exact (bitSet_zero b).trans (by simp)
  | succ n ih =>
    rw [range_succ, foldl_append, foldl_cons, foldl_nil,
      bitSet_markBit _ (by omega), ih (by omega)]
    rw [Bool.eq_iff_iff]
    simp only [Bool.or_eq_true, decide_eq_true_eq]
    omega

theorem BBLOCK_eq {b : ℕ} (hb : b < FSSIZE) : sb.BBLOCK b = sb.bmapstart := by
  rw [Superblock.BBLOCK, Nat.div_eq_of_lt (hb.trans (by decide)), Nat.zero_add]

theorem balloc_sat (hlen : s.len = FSSIZE) (hb : s.freeblock ≤ FSSIZE) :
    Sat (balloc s.freeblock) s (fun _ t => vol t = vol s ∧ diskVol sb t.img = vol t ∧
      (∀ b, bitSet (t.img sb.bmapstart) b = decide (b < t.freeblock)) ∧ SameHead s t ∧
      t.freeinode = s.freeinode ∧ t.freeblock = s.freeblock) E := by
  have hsize : sb.bmapstart < FSSIZE := by
    rw [sb_bmapstart]
    decide
  have hstart : sb.inodestart ≤ sb.bmapstart := by
    rw [sb_inodestart, sb_bmapstart]
    omega
  unfold balloc
  rw [if_pos (lt_of_le_of_lt hb (by decide))]
  refine wsect_sat hlen hsize ?_
  set x := (List.range s.freeblock).foldl markBit zeroes
  have hx : ∀ b, bitSet x b = decide (b < s.freeblock) := fun b =>
    bitSet_marks (hb.trans (by decide))
  have himg : (s.put sb.bmapstart x).img sb.bmapstart = x := update_self _ _ _
  have hother : ∀ b, b ≠ sb.bmapstart → (s.put sb.bmapstart x).img b = s.img b := fun b hne =>
    update_of_ne hne _ _
  have hvol : vol (s.put sb.bmapstart x) = vol s := by
    simp only [vol, diskVol, Vol.mk.injEq]
    refine ⟨rfl, funext fun k => ?_, funext fun b => ?_⟩
    · split
      · rename_i hk
        have := sb.IBLOCK_lt hk
        rw [hother _ (by omega)]
      · rfl
    · split
      · rename_i hd
        have hlow := (isData_iff.mp hd).1
        have hbm : sb.bmapstart < nmeta := by
          rw [sb_bmapstart]
          decide
        rw [hother _ (by omega)]
      · rfl
  refine ⟨hvol, ?_, fun b => by rw [himg]; exact hx b, sameHead_put s hstart x, rfl, rfl⟩
  simp only [vol, diskVol, Vol.mk.injEq, and_true]
  refine funext fun b => ?_
  rw [sb_size]
  by_cases hlt : b < FSSIZE
  · rw [BBLOCK_eq hlt, Nat.mod_eq_of_lt (hlt.trans (by decide)), himg, hx]
    simp only [hlt, decide_true, Bool.true_and]
    rfl
  · have hge : ¬ b < s.freeblock := by omega
    simp only [hlt, decide_false, Bool.false_and]
    exact (decide_eq_false hge).symm

structure Written (files : List Input) (t : State) : Prop where
  inode : t.freeinode = files.length + 2
  inv : ∃ s, Inv (nodes files) s (vol s) ∧ t.freeblock = s.freeblock ∧ vol t = rounded (vol s)
  maps : diskVol sb t.img = vol t
  bitmap : ∀ b, bitSet (t.img sb.bmapstart) b = decide (b < t.freeblock)
  head : ∀ b < sb.inodestart, t.img b = if b = 1 then superBlock else zeroes

def Storable (files : List Input) : Prop := (∀ f ∈ files, f.Accepted) ∧ Fits (nodes files)

theorem nodes_nil : nodes [] = grow (grow (fresh (fun _ => {}) ROOTINO T_DIR) ROOTINO
    (dirent ROOTINO dot).bytes) ROOTINO (dirent ROOTINO dotdot).bytes := by
  rw [grow_grow]
  funext i
  rcases eq_or_ne i ROOTINO with rfl | hi
  · rw [grow_self, nodes_root, fresh, update_self]
    simp [entries]
  · rw [grow_of_ne _ _ hi, fresh, update_of_ne hi, nodes, if_neg hi]
    split <;> rfl

theorem main_sat (hn : files.length + 2 ≤ NINODES) :
    Sat (main files) start (fun _ t => Storable files ∧ Written files t)
      fun _ => ¬ Storable files := by
  unfold main
  refine Sat.bind zeroDisk_sat ?_
  rintro _ s rfl
  refine wsect_bind rfl (by decide) ?_
  set s := State.put { start with len := FSSIZE } 1 superBlock with hs
  have h0 := start_inv s hs
  refine Sat.bind (ialloc_sat h0 (by decide) rfl (by decide)) ?_
  rintro inum t ⟨hinum, hino, hinv⟩
  have hroot : inum = ROOTINO := hinum
  rw [hroot] at hinv ⊢
  rw [if_pos rfl]
  have hty : ∀ p, (grow (fresh (fun _ => {}) ROOTINO T_DIR) ROOTINO p ROOTINO).type ≠ 0 := by
    intro p
    rw [grow_self]
    exact (by decide : T_DIR ≠ 0)
  have hfits : Storable files → Fits (nodes []) := fun h =>
    Fits.of_append (show Fits (nodes ([] ++ files)) from h.2)
  refine Sat.bind ((iappend_sat hinv (by decide) (grow_nil (fresh _ _ _) ROOTINO ▸ hty [])).weaken
    fun _ hno hst => hno ?_) ?_
  · have := hfits hst
    rw [nodes_nil] at this
    exact this.mono fun k _ => length_grow_le _ _ _ k
  rintro _ t1 ⟨hinv1, hino1⟩
  refine Sat.bind ((iappend_sat hinv1 (by decide) (hty _)).weaken fun _ hno hst => hno ?_) ?_
  · have := hfits hst
    rwa [nodes_nil] at this
  rintro _ t2 ⟨hinv2, hino2⟩
  rw [← nodes_nil] at hinv2
  have hn2 : t2.freeinode = ([] : List Input).length + 2 := by
    rw [hino2, hino1, hino]
    rfl
  refine Sat.bind ((addFiles_sat hinv2 hn2 hn).weaken fun _ hno => hno) ?_
  rintro _ t3 ⟨hacc, hinv3, hino3⟩
  refine Sat.bind (fixRoot_sat hinv3.len) ?_
  rintro _ t4 ⟨hv4, hh4, hl4, hi4, hb4⟩
  refine Sat.get_bind ((balloc_sat (hl4.trans hinv3.len) (hb4 ▸ hinv3.high)).post ?_)
  rintro _ t5 ⟨hv5, hd5, hbm5, hh5, hi5, hb5⟩
  refine ⟨⟨hacc, hinv3.fits⟩, hi5.trans (hi4.trans hino3), ⟨t3, hinv3, hb5.trans hb4, hv5.trans hv4⟩,
    hd5, hbm5, fun b hb => ?_⟩
  rw [hh5 b hb, hh4 b hb, hinv3.head b hb]

end Xv6.Mkfs
