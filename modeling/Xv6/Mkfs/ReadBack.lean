import Mathlib.Data.List.TakeWhile
import Xv6.Mkfs.WellFormed
import Xv6.Fs.Tree

/-! What the kernel finds on an image of `mkfs`: `dirlookup` in the root directory, and `readi` of
the file it leads to. -/
namespace Xv6.Mkfs
open Bytes Fs List Option
open Xv6.Log (BSIZE Block)

variable {t : State} {s u : Fs.State} {img : ℕ → Block} {files : List Input} {dp ip : InodePtr}

theorem cutTo_eq_take {a : List Byte} (n : ℕ) (h : 0 ∉ a) : cutTo n a = a.take n :=
  takeWhile_eq_self_iff.mpr fun _ hx => decide_eq_true fun h0 => h (h0 ▸ mem_of_mem_take hx)

theorem mem_of_mem_shortname (f : Input) : 0 ∉ f.shortname := by
  intro h
  refine f.no_nul ?_
  have h1 : ∀ p : List Byte, 0 ∈ stripUser p → 0 ∈ p := by
    intro p hp
    unfold stripUser at hp
    split at hp
    · exact mem_of_mem_drop hp
    · exact hp
  refine h1 _ ?_
  unfold Input.shortname skipUnderscore at h
  split at h
  · exact mem_of_mem_tail h
  · exact h

variable {k : ℕ}

theorem take_drop_flatMap {α : Type} {g : α → List Byte} {m : ℕ} {l : List α}
    (h : ∀ a ∈ l, (g a).length = m) (hk : k < l.length) :
    ((l.flatMap g).drop (k * m)).take m = g l[k] := by
  induction l generalizing k with
  | nil => exact absurd hk (Nat.not_lt_zero k)
  | cons a l ih =>
    have ha : (g a).length = m := h a mem_cons_self
    rw [flatMap_cons]
    cases k with
    | zero =>
      rw [Nat.zero_mul, drop_zero, take_left' ha]
      rfl
    | succ k =>
      rw [Nat.succ_mul, Nat.add_comm, ← drop_drop, drop_left' ha,
        ih (fun b hb => h b (mem_cons_of_mem _ hb)) (Nat.lt_of_succ_lt_succ hk)]
      rfl

theorem length_entry {files : List Input} {e : Dirent} (he : e ∈ entries files) :
    e.bytes.length = direntSize := by
  simp only [entries, mem_cons, mem_mapIdx] at he
  obtain rfl | rfl | ⟨k, hk, rfl⟩ := he
  all_goals exact length_dirent _ _

theorem length_entries_list (files : List Input) : (entries files).length = files.length + 2 := by
  simp [entries]

theorem nodes_ent (hk : k < (entries files).length) :
    (((nodes files ROOTINO).bytes.drop (k * direntSize)).take direntSize) = (entries files)[k].bytes := by
  rw [nodes_root]
  exact take_drop_flatMap (fun _ he => length_entry he) hk

/-- A kernel whose blocks are those of the image, with a table of inodes that agrees with them. -/
structure Mounted (img : ℕ → Block) (s : Fs.State) : Prop where
  buf : s.m.buf = img
  log : LogOk sb s.m
  uniq : Uniq s.itable
  sync : ∀ ip i, Cached (s.itable ip) i → (s.itable ip).d = (disk sb s).node i

/-- The file that a name in the directory `dp` leads to: its type, and its bytes from the first to
the last. -/
def fetch (dp : InodePtr) (name : List Byte) :
    Fs.M (Option (BitVec 16 × Option (List Byte))) := do
  match ← dirlookup sb dp name with
  | none => return none
  | some (ip, _) => do
    ilock sb ip
    let e ← getInode ip
    let bs ← readi sb ip (fun _ => true) 0 e.d.size
    return some (e.d.type, bs)

namespace Mounted

theorem view (h : Mounted img s) : view sb s = diskVol sb img := by
  rw [view_eq_disk h.uniq h.sync, disk, h.buf]

theorem setInode {e : Inode} (h : Mounted img s) (hu : Uniq (Function.update s.itable ip e))
    (hs : 0 < e.ref → e.valid = true → e.d = (disk sb s).node e.inum) :
    Mounted img (s.setInode ip e) where
  buf := h.buf
  log := h.log
  uniq := hu
  sync jp k hc := by
    rcases eq_or_ne jp ip with rfl | hj
    · rw [setInode_self] at hc ⊢
      rw [hs hc.1 hc.2.2, hc.2.1]
      rfl
    · rw [setInode_of_ne _ _ hj] at hc ⊢
      exact h.sync jp k hc

theorem iget {E : Panic → Prop} {inum : ℕ} (h : Mounted img s) (hroom : ∃ jp, (s.itable jp).ref = 0) :
    Sat (Fs.iget inum) s (fun ip u => Mounted img u ∧ 0 < (u.itable ip).ref ∧
      (u.itable ip).inum = inum ∧ (u.itable ip).locked = (s.itable ip).locked ∧
      (0 < (s.itable ip).ref → (s.itable ip).inum = inum)) E := by
  unfold Fs.iget
  refine Sat.get_bind ?_
  cases hf : findInode s inum with
  | none =>
    exfalso
    obtain ⟨jp, hj⟩ := hroom
    unfold findInode at hf
    split at hf
    · cases hf
    · have := find?_eq_none.mp hf jp (mem_finRange jp)
      simp [hj] at this
  | some ip =>
    refine getInode_bind ?_
    rcases findInode_some hf with ⟨hr, hi⟩ | ⟨hr, hnone⟩
    · rw [if_pos hr]
      refine setInode_bind (Sat.pure ⟨h.setInode (h.uniq.same (fun _ => hr) rfl) ?_, ?_⟩)
      · exact fun _ hv => h.sync ip _ ⟨hr, rfl, hv⟩
      · rw [setInode_self]
        exact ⟨Nat.succ_pos _, hi, rfl, fun _ => hi⟩
    · rw [if_neg (by omega)]
      refine setInode_bind (Sat.pure ⟨h.setInode (h.uniq.update ?_) nofun, ?_⟩)
      · exact fun _ jp _ hj => hnone jp hj
      · rw [setInode_self]
        exact ⟨Nat.one_pos, rfl, rfl, fun hpos => by omega⟩

theorem ilock {E : Panic → Prop} {inum : ℕ} (h : Mounted img s) (hr : 0 < (s.itable ip).ref)
    (hi : (s.itable ip).inum = inum) (hl : (s.itable ip).locked = false) (hlt : inum < NINODES)
    (ht : ((diskVol sb img).node inum).type ≠ 0) :
    Sat (Fs.ilock sb ip) s (fun _ u => Mounted img u ∧ Cached (u.itable ip) inum) E := by
  unfold Fs.ilock
  refine getInode_bind ?_
  rw [if_neg (by omega)]
  refine Sat.bind (R := fun _ u => u = s.acquire ip) ?_ ?_
  · unfold acquiresleep
    exact getInode_bind (Sat.ite (fun hc => absurd (hl.symm.trans hc) Bool.false_ne_true) fun _ => rfl)
  rintro _ u rfl
  have hself := acquire_self s ip
  have hlock : Mounted img (s.acquire ip) := by
    have hset : Mounted img (s.setInode ip { s.itable ip with locked := true }) :=
      h.setInode (h.uniq.same (fun _ => hr) rfl) fun _ hv => h.sync ip _ ⟨hr, rfl, hv⟩
    exact ⟨hset.buf, hset.log, hset.uniq, hset.sync⟩
  refine Sat.ite (fun hv => Sat.pure ⟨hlock, ?_⟩) fun hv => ?_
  · rw [hself]
    exact ⟨hr, hi, hv⟩
  have hread : readDinode (s.m.buf (sb.IBLOCK (s.itable ip).inum)) ((s.itable ip).inum % IPB) = _ :=
    readDinode_eq (by rw [hi, sb_ninodes]; exact hlt)
  refine bread_bind (setInode_bind ?_)
  change Sat (if (readDinode (s.m.buf _) _).type = 0 then _ else _) ((s.acquire ip).setInode ip
    { s.itable ip with locked := true, valid := true, d := readDinode _ _ }) _ _
  rw [hread]
  refine Sat.ite (fun h0 => ?_) fun _ => Sat.pure ⟨hlock.setInode ?_ fun _ _ => hread, ?_⟩
  · rw [hi, disk, h.buf] at h0
    exact absurd h0 ht
  · exact hlock.uniq.same (fun _ => by rw [hself]; exact hr) (by rw [hself])
  · rw [setInode_self]
    exact ⟨hr, hi, rfl⟩

end Mounted

section
variable {v : Vol} (ht : (v.node ROOTINO).type ≠ 0)
include ht

theorem rounded_place (q : ℕ × ℕ) : (rounded v).place q = v.place q := by
  rw [rounded, Vol.place_setNode ht]
  · exact ht
  · rfl

theorem rounded_byte (i o : ℕ) : (rounded v).byte i o = v.byte i o := by
  rw [rounded, Vol.byte_setNode ht]
  · exact ht
  · rfl

end

theorem rounded_type (v : Vol) (i : ℕ) : ((rounded v).node i).type = (v.node i).type := by
  rcases eq_or_ne i ROOTINO with rfl | hi
  · rw [rounded, Vol.setNode_node_self]
  · rw [rounded, Vol.setNode_node_of_ne _ _ hi]

theorem Written.view {r : State} (hw : Written files t) (hv : vol t = rounded (vol r))
    (h : Mounted t.img s) : view sb s = rounded (vol r) := by
  rw [h.view, hw.maps, hv]

section
variable {r : State} (hw : Written files t) (hn : files.length + 2 ≤ NINODES)
  (hinv : Inv (nodes files) r (vol r)) (hv : vol t = rounded (vol r)) {i : ℕ}
include hw hn hinv hv

theorem Written.seen (h : Mounted t.img s) (hi : t.Used i) (hc : Cached (s.itable ip) i) :
    Seen sb s ip i where
  uniq := h.uniq
  cached := hc
  lt := sb_ninodes ▸ (hw.node_type hn hinv hi).1
  log := h.log
  owned := by
    rw [hw.view hv h]
    exact hinv.owned.congr fun q _ => rounded_place (hw.node_type hn hinv hw.root_used).2 q
  type := by
    rw [hw.view hv h, rounded_type]
    exact (hw.node_type hn hinv hi).2

theorem Written.maps_of_lt (h : Mounted t.img s) (hi : t.Used i) {o : ℕ}
    (ho : o < (nodes files i).bytes.length) : (Fs.view sb s).Maps i o := by
  have hlt := (hw.node_type hn hinv hi).1
  have hs := hinv.small i hlt
  have hmax : o / BSIZE < MAXFILE := by
    simp only [BSIZE] at hs ⊢
    omega
  refine ⟨hmax, ?_⟩
  rw [hw.view hv h, Vol.block, rounded_place (hw.node_type hn hinv hw.root_used).2]
  refine (hinv.block_ne hlt hmax).mpr ?_
  simp only [BSIZE]
  omega

theorem Written.slice (h : Mounted t.img s) (hi : t.Used i) {o m : ℕ}
    (hle : o + m ≤ (nodes files i).bytes.length) :
    (Fs.view sb s).slice i o m = ((nodes files i).bytes.drop o).take m := by
  obtain ⟨hlt, hty⟩ := hw.node_type hn hinv hi
  have hbytes : (nodes files i).bytes =
      (List.range (nodes files i).bytes.length).map ((vol r).byte i) := by
    conv_lhs => rw [← hinv.files i hlt, Vol.file_of_ne hty]
    rw [hinv.size hlt hty]
  rw [hbytes, hw.view hv h, ← Vol.slice_eq hle]
  simp only [Vol.slice, rounded_byte (hw.node_type hn hinv hw.root_used).2]

theorem Written.root_size (h : Mounted t.img s) : ((Fs.view sb s).node ROOTINO).size.toNat =
    ((files.length + 2) * direntSize / BSIZE + 1) * BSIZE := by
  rw [hw.view hv h, ← hw.inodeAt hn hinv hv hw.root_used, hw.size_root hn hinv hv]

variable {E : Panic → Prop}

theorem Written.readDe {k : ℕ} (h : Mounted t.img s)
    (hc : Cached (s.itable dp) ROOTINO) (hk : k < (entries files).length) :
    Sat (Fs.readDe sb dp (k * direntSize)) s (fun r u => u = s ∧ r = some (entries files)[k]) E := by
  have hseen := hw.seen hn hinv hv h hw.root_used hc
  have hlen : (nodes files ROOTINO).bytes.length = (files.length + 2) * direntSize := by
    rw [nodes_root, length_entries]
  have hk' := length_entries_list files ▸ hk
  have hend : k * direntSize + direntSize ≤ (nodes files ROOTINO).bytes.length := by
    rw [hlen, ← Nat.succ_mul]
    exact Nat.mul_le_mul_right _ hk'
  have h16 : (BitVec.ofNat 32 direntSize).toNat = direntSize := rfl
  have hoff : (BitVec.ofNat 32 (k * direntSize)).toNat = k * direntSize := by
    rw [BitVec.toNat_ofNat, Nat.mod_eq_of_lt]
    simp only [NINODES, direntSize, DIRSIZ] at hn ⊢
    omega
  have hread : readLen ((Fs.view sb s).node ROOTINO).size (BitVec.ofNat 32 (k * direntSize))
      (BitVec.ofNat 32 direntSize) = direntSize := by
    have hsize := hw.root_size hn hinv hv h
    rw [readLen, if_neg, h16, hoff]
    · simp only [NINODES, direntSize, DIRSIZ, BSIZE] at hn hsize ⊢
      omega
    · simp only [not_or, BitVec.not_lt, BitVec.le_def, BitVec.toNat_add, hoff, h16]
      simp only [NINODES, direntSize, DIRSIZ, BSIZE] at hn hsize ⊢
      omega
  unfold Fs.readDe
  refine Sat.bind (readi_mapped hseen _ _ _ ?_) ?_
  · intro o h1 h2
    rw [hread, hoff] at h2
    exact hw.maps_of_lt hn hinv hv h hw.root_used (by omega)
  · rintro r u ⟨rfl, hr, hsome⟩
    obtain ⟨bs, rfl⟩ := ne_none_iff_exists'.mp (hsome fun _ => rfl)
    have hbs := hr bs rfl
    rw [hread, hoff, hw.slice hn hinv hv h hw.root_used hend, nodes_ent hk] at hbs
    refine Sat.pure ⟨rfl, ?_⟩
    rw [hbs, if_pos (length_entry (getElem_mem hk)), readDirent_bytes]

structure FirstEntry (files : List Input) (name : List Byte) (k : ℕ) (e : Dirent) : Prop where
  get : (entries files)[k]? = some e
  inum : e.inum ≠ 0
  hit : namecmp name e.name = 0
  skips : ∀ m < k, ∀ x, (entries files)[m]? = some x → namecmp name x.name ≠ 0

theorem Written.dirlookupFrom {name : List Byte} {k j fuel : ℕ} {e : Dirent}
    (h : Mounted t.img s) (hc : Cached (s.itable dp) ROOTINO)
    (hroom : ∃ jp, (s.itable jp).ref = 0) (he : FirstEntry files name k e) (hjk : j ≤ k)
    (hfuel : k < j + fuel) :
    Sat (Fs.dirlookupFrom sb dp name fuel (j * direntSize)) s (fun r u => ∃ ip,
      r = some (ip, k * direntSize) ∧ Mounted t.img u ∧ 0 < (u.itable ip).ref ∧
      (u.itable ip).inum = e.inum.toNat ∧ (u.itable ip).locked = (s.itable ip).locked ∧
      (0 < (s.itable ip).ref → (s.itable ip).inum = e.inum.toNat)) E := by
  obtain ⟨hk, hek⟩ := List.getElem?_eq_some_iff.mp he.get
  induction fuel generalizing j with
  | zero => omega
  | succ fuel ih =>
    have hseen := hw.seen hn hinv hv h hw.root_used hc
    have hnext : j * direntSize + direntSize = (j + 1) * direntSize := (Nat.succ_mul _ _).symm
    have hlt : j * direntSize < (s.itable dp).d.size.toNat := by
      rw [hseen.d, hw.root_size hn hinv hv h]
      rw [length_entries_list] at hk
      simp only [direntSize, DIRSIZ, BSIZE]
      omega
    rw [Fs.dirlookupFrom]
    refine getInode_bind ?_
    rw [if_pos hlt, hnext]
    refine Sat.bind (hw.readDe hn hinv hv h hc (lt_of_le_of_lt hjk hk)) ?_
    rintro _ u ⟨rfl, rfl⟩
    dsimp only
    rcases Nat.lt_or_eq_of_le hjk with hlt | rfl
    · have hskip := he.skips j hlt _ (getElem?_eq_getElem (hlt.trans hk))
      refine Sat.ite (fun _ => ?_) fun _ => Sat.ite (fun hz => absurd hz hskip) fun _ => ?_
      all_goals exact ih hlt (by omega)
    · rw [hek, if_neg he.inum, if_pos he.hit]
      refine Sat.bind (h.iget hroom) ?_
      rintro ip w hget
      exact Sat.pure ⟨ip, rfl, hget⟩

theorem Written.dirlookup {name : List Byte} {k : ℕ} {e : Dirent}
    (h : Mounted t.img s) (hc : Cached (s.itable dp) ROOTINO)
    (hroom : ∃ jp, (s.itable jp).ref = 0) (he : FirstEntry files name k e) :
    Sat (Fs.dirlookup sb dp name) s (fun r u => ∃ ip,
      r = some (ip, k * direntSize) ∧ Mounted t.img u ∧ 0 < (u.itable ip).ref ∧
      (u.itable ip).inum = e.inum.toNat ∧ (u.itable ip).locked = (s.itable ip).locked ∧
      (0 < (s.itable ip).ref → (s.itable ip).inum = e.inum.toNat)) E := by
  have hseen := hw.seen hn hinv hv h hw.root_used hc
  have htype : (s.itable dp).d.type = T_DIR := by
    rw [hseen.d, hw.view hv h, rounded_type, ← Vol.file_type, hinv.files _ (by decide), nodes_root]
  have hk : k < files.length + 2 := by
    rw [← length_entries_list]
    exact (List.getElem?_eq_some_iff.mp he.get).1
  have hsize := hw.root_size hn hinv hv h
  rw [← hseen.d] at hsize
  unfold Fs.dirlookup
  refine getInode_bind ?_
  rw [if_neg (not_not.mpr htype)]
  have hfuel : k < 0 + ((s.itable dp).d.size.toNat / direntSize + 1) := by
    rw [hsize]
    simp only [direntSize, DIRSIZ, BSIZE]
    omega
  have hfrom := hw.dirlookupFrom (E := E) hn hinv hv h hc hroom he (Nat.zero_le k) hfuel
  rwa [Nat.zero_mul] at hfrom

theorem Written.fetch {k : ℕ} {f : Input} (h : Mounted t.img s)
    (hc : Cached (s.itable dp) ROOTINO) (hroom : ∃ jp, (s.itable jp).ref = 0)
    (hfree : ∀ jp, jp ≠ dp → (s.itable jp).locked = false) (hf : files[k]? = some f)
    (he : FirstEntry files f.shortname (k + 2) (dirent (k + 2) f.shortname)) :
    Sat (Mkfs.fetch dp f.shortname) s (fun r _ => r = some (T_FILE, some f.bytes)) E := by
  have hk := (List.getElem?_eq_some_iff.mp hf).1
  have hused : t.Used (k + 2) := by
    rw [State.Used, hw.inode]
    omega
  obtain ⟨hlt, hty⟩ := hw.node_type hn hinv hused
  have hnode : nodes files (k + 2) = { type := T_FILE, nlink := 1, bytes := f.bytes } := by
    rw [nodes_add_two, hf]
  have hinum : (dirent (k + 2) f.shortname).inum.toNat = k + 2 := by
    simp only [dirent, BitVec.toNat_ofNat]
    rw [Nat.mod_eq_of_lt]
    simp only [NINODES] at hlt
    omega
  have hfile : ((rounded (vol r)).node (k + 2)).type = T_FILE := by
    rw [rounded_type, ← Vol.file_type, hinv.files _ hlt, hnode]
  unfold Mkfs.fetch
  refine Sat.bind (hw.dirlookup hn hinv hv h hc hroom he) ?_
  rintro _ u ⟨ip, rfl, hu, href, hnum, hlock, hold⟩
  rw [hinum] at hnum hold
  have hunl : (u.itable ip).locked = false := by
    rw [hlock]
    refine hfree ip fun hip => ?_
    subst hip
    have := hold hc.1
    rw [hc.2.1, ROOTINO] at this
    omega
  have htype : ((diskVol sb t.img).node (k + 2)).type ≠ 0 := by
    rw [hw.maps, hv, hfile]
    decide
  refine Sat.bind (hu.ilock href hnum hunl hlt htype) ?_
  rintro _ w ⟨hwm, hcw⟩
  have hseen := hw.seen hn hinv hv hwm hused hcw
  have hsize : (w.itable ip).d.size.toNat = f.bytes.length := by
    rw [hseen.d, hw.view hv hwm, rounded, Vol.setNode_node_of_ne _ _ (by simp [ROOTINO]),
      hinv.size hlt hty, hnode]
  have hread : readLen ((Fs.view sb w).node (k + 2)).size 0 (w.itable ip).d.size =
      f.bytes.length := by
    rw [← hseen.d, readLen, if_neg, hsize]
    · simp
    · simp
  refine getInode_bind (Sat.bind (readi_mapped hseen _ _ _ ?_) ?_)
  · intro o _ ho
    rw [hread] at ho
    refine hw.maps_of_lt hn hinv hv hwm hused ?_
    rw [hnode]
    simpa using ho
  · rintro bs x ⟨rfl, hbs, hsome⟩
    obtain ⟨b, rfl⟩ := ne_none_iff_exists'.mp (hsome fun _ => rfl)
    refine Sat.pure ?_
    have hb := hbs b rfl
    rw [hread, hw.slice hn hinv hv hwm hused (by rw [hnode]; simp), hnode] at hb
    rw [hb, hseen.d, hw.view hv hwm, hfile]
    simp

end

def blocks (files : List Input) : ℕ :=
  blocksFor ((files.length + 2) * direntSize) + (files.map fun f => blocksFor f.bytes.length).sum

theorem demand_nodes (hn : files.length + 2 ≤ NINODES) : demand (nodes files) = blocks files := by
  have htail : ∀ k, (nodes files (k + 2)).bytes.length = ((files[k]?).map fun f => f.bytes.length).getD 0 := by
    intro k
    rw [nodes_add_two]
    cases files[k]? <;> rfl
  have hsum : ∀ m (l : List Input), l.length ≤ m → ∑ k ∈ Finset.range m,
      blocksFor (((l[k]?).map fun f => f.bytes.length).getD 0) =
      (l.map fun f => blocksFor f.bytes.length).sum := by
    intro m
    induction m with
    | zero =>
      intro l hl
      rw [length_eq_zero_iff.mp (Nat.le_zero.mp hl)]
      rfl
    | succ m ih =>
      intro l hl
      cases l with
      | nil => exact Finset.sum_eq_zero fun _ _ => (by decide : blocksFor 0 = 0)
      | cons f l =>
        rw [Finset.sum_range_succ', map_cons, sum_cons, ← ih l (Nat.le_of_succ_le_succ hl),
          Nat.add_comm]
        rfl
  have h0 : blocksFor (nodes files 0).bytes.length = 0 := (by decide : blocksFor 0 = 0)
  have h1 : (nodes files (0 + 1)).bytes.length = (files.length + 2) * direntSize := by
    have := congrArg (fun n : Node => n.bytes.length) (nodes_root files)
    exact this.trans (length_entries files)
  have hN : NINODES = (NINODES - 2) + 1 + 1 := rfl
  rw [demand, hN, Finset.sum_range_succ', Finset.sum_range_succ', h0, h1, blocks,
    Finset.sum_congr rfl fun k _ => by rw [htail], hsum _ _ (by omega)]
  omega

/-- The names of the files tell them apart, from each other and from `.` and `..`, by the bytes that
a directory entry holds. -/
structure Distinct (files : List Input) : Prop where
  nodup : (files.map fun f => f.shortname.take DIRSIZ).Nodup
  dot : ∀ f ∈ files, f.shortname.take DIRSIZ ≠ dot
  dotdot : ∀ f ∈ files, f.shortname.take DIRSIZ ≠ dotdot

theorem take_of_namecmp {a b : List Byte} (ha : 0 ∉ a) (hb : 0 ∉ b)
    (h : namecmp a (dirent k b).name = 0) : a.take DIRSIZ = b.take DIRSIZ := by
  have hcut := namecmp_eq_zero_iff.mp h
  rwa [dirent, cutName, cutName, cutTo_strncpy, cutTo_eq_take _ ha, cutTo_eq_take _ hb] at hcut

theorem getElem?_entries (files : List Input) (k : ℕ) : (entries files)[k + 2]? =
    (files[k]?).map fun f => dirent (k + 2) f.shortname := by
  simp [entries, getElem?_mapIdx]

theorem Distinct.first (h : Distinct files) (hn : files.length + 2 ≤ NINODES) {f : Input}
    (hf : files[k]? = some f) :
    FirstEntry files f.shortname (k + 2) (dirent (k + 2) f.shortname) where
  get := by rw [getElem?_entries, hf, map_some]
  inum h0 := by
    have hk := (List.getElem?_eq_some_iff.mp hf).1
    have hz : (k + 2) % 2 ^ 16 = 0 := congrArg BitVec.toNat h0
    simp only [NINODES] at hn
    omega
  hit := namecmp_eq_zero.mpr (strncpy_strncpy _ _).symm
  skips m hm x hx hz := by
    have hmem : f ∈ files := mem_of_getElem? hf
    have hnul := mem_of_mem_shortname f
    rcases m with _ | _ | j
    · cases hx
      exact h.dot f hmem (take_of_namecmp hnul (by decide) hz)
    · cases hx
      exact h.dotdot f hmem (take_of_namecmp hnul (by decide) hz)
    · rw [getElem?_entries] at hx
      obtain ⟨g, hg, rfl⟩ := map_eq_some_iff.mp hx
      have heq := take_of_namecmp hnul (mem_of_mem_shortname g) hz
      have hj := (List.getElem?_eq_some_iff.mp hg).1
      have := (getElem?_inj (by rwa [length_map]) h.nodup).mp (show
        (files.map fun f => f.shortname.take DIRSIZ)[j]? =
          (files.map fun f => f.shortname.take DIRSIZ)[k]? by
        rw [getElem?_map, getElem?_map, hg, hf, map_some, map_some, heq])
      omega

theorem superBlock_words : ((List.range superFields.length).map fun k => getWord superBlock (4 * k)) =
    superFields.map (BitVec.ofNat 32) := by decide +kernel

/-- The kernel finds every file that `mkfs` was given under its name, with its bytes. The image also
holds the super block that the kernel is to read, and an empty log. -/
theorem mkfs_readBack (hn : files.length + 2 ≤ NINODES) (hacc : ∀ f ∈ files, f.Accepted)
    (hsize : ∀ f ∈ files, f.bytes.length ≤ MAXFILE * BSIZE)
    (hblocks : nmeta + blocks files ≤ FSSIZE) (hnames : Distinct files) :
    ∃ t, mkfs files = .ok t ∧
      ((List.range superFields.length).map fun k => getWord (t.img 1) (4 * k)) =
        superFields.map (BitVec.ofNat 32) ∧
      t.img sb.logstart = zeroes ∧
      ∀ s dp, Mounted t.img s → Cached (s.itable dp) ROOTINO → (∃ jp, (s.itable jp).ref = 0) →
        (∀ jp, jp ≠ dp → (s.itable jp).locked = false) →
        ∀ f ∈ files, ∃ u, fetch dp f.shortname s = .ok (some (T_FILE, some f.bytes), u) := by
  have hfits : Fits (nodes files) := by
    refine ⟨by rwa [demand_nodes hn], fun k hk => ?_⟩
    match k with
    | 0 => exact Nat.zero_le _
    | 1 =>
      have hroot := congrArg (fun n : Node => n.bytes.length) (nodes_root files)
      refine (hroot.trans (length_entries files)).trans_le ?_
      simp only [NINODES, direntSize, DIRSIZ, MAXFILE, NDIRECT, NINDIRECT, BSIZE] at hn ⊢
      omega
    | k + 2 =>
      rw [nodes_add_two]
      cases hf : files[k]? with
      | none => exact Nat.zero_le _
      | some f => exact hsize f (mem_of_getElem? hf)
  obtain ⟨t, ht, hw⟩ := mkfs_storable hn ⟨hacc, hfits⟩
  obtain ⟨r, hinv, -, hv⟩ := hw.inv
  refine ⟨t, ht, ?_, ?_, fun s dp hs hc hroom hfree f hf => ?_⟩
  · rw [hw.head 1 (by rw [sb_inodestart]; decide), if_pos rfl]
    exact superBlock_words
  · rw [sb_logstart, hw.head 2 (by rw [sb_inodestart]; decide), if_neg (by decide)]
  · obtain ⟨k, hk⟩ := mem_iff_getElem?.mp hf
    have hsat := hw.fetch (E := fun _ => False) hn hinv hv hs hc hroom hfree hk (hnames.first hn hk)
    obtain ⟨r, u, hr, rfl⟩ := hsat.exists_ok
    exact ⟨u, hr⟩

/-- A kernel that has booted from the image and read the inode of the root directory. -/
def mounted (img : ℕ → Block) : Fs.State :=
  (boot img).setInode ⟨0, Fs.ninode_pos⟩
    { inum := ROOTINO, ref := 1, valid := true, d := (diskVol sb img).node ROOTINO }

theorem mounted_of_ne (h : ip ≠ ⟨0, by decide⟩) : (mounted img).itable ip = {} := by
  rw [mounted, setInode_of_ne _ _ h]
  unfold boot
  dsimp only
  rw [Function.update_of_ne h]

theorem mounted_spec (img : ℕ → Block) : Mounted img (mounted img) := by
  have hused : ∀ jp, 0 < ((mounted img).itable jp).ref → jp = ⟨0, by decide⟩ := by
    intro jp hj
    by_contra hne
    rw [mounted_of_ne hne] at hj
    exact absurd hj (lt_irrefl 0)
  refine ⟨rfl, ⟨Nat.zero_le _, nofun⟩, fun jp kp hj hk _ => ?_, fun jp k hc => ?_⟩
  · rw [hused jp hj, hused kp hk]
  · obtain rfl := hused jp hc.1
    obtain rfl : ROOTINO = k := hc.2.1
    rfl

def echoFile : Input where
  path := [117, 115, 101, 114, 47, 95, 101, 99, 104, 111]
  reads := some [[1], [2]]
  no_nul := by decide
  pieces ps h p hp := by
    cases h
    revert p
    decide

theorem mkfs_readBack_echoFile : ∃ t, mkfs [echoFile] = .ok t ∧ ∃ u,
    fetch ⟨0, by decide⟩ [101, 99, 104, 111] (mounted t.img) =
      .ok (some (T_FILE, some [1, 2]), u) := by
  have hone : ∀ f ∈ [echoFile], f = echoFile := fun f hf => mem_singleton.mp hf
  obtain ⟨t, ht, -, -, hread⟩ := mkfs_readBack
    (show [echoFile].length + 2 ≤ NINODES by decide)
    (fun f hf => hone f hf ▸ by decide) (fun f hf => hone f hf ▸ by decide) (by decide)
    ⟨by decide, fun f hf => hone f hf ▸ by decide, fun f hf => hone f hf ▸ by decide⟩
  have hroot : Cached ((mounted t.img).itable ⟨0, by decide⟩) ROOTINO := ⟨Nat.one_pos, rfl, rfl⟩
  refine ⟨t, ht, hread _ _ (mounted_spec t.img) hroot ⟨⟨1, by decide⟩, ?_⟩
    (fun jp hj => ?_) echoFile mem_cons_self⟩
  · rw [mounted_of_ne (by decide)]
  · rw [mounted_of_ne hj]

end Xv6.Mkfs
