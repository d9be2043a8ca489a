import Xv6.Fs.TableSpec

/-! Directories as lists of entries: what `dirlookup`, `dirlink` and `isdirempty` find and
change. -/
namespace Xv6.Fs
open Bytes
open Xv6.Log (BSIZE)

variable {sb : Superblock} {s t u : State} {dp ip : InodePtr} {d i : ℕ} {H K : Multiset InodePtr}

def Node.lookup (n : Node) (name : List Byte) : Option ℕ :=
  (List.range n.nents).find? fun k => (n.ent k).inum ≠ 0 ∧ namecmp name (n.ent k).name = 0

structure SetEnt (f : Node) (k : ℕ) (de : Dirent) (f' : Node) : Prop where
  fields : ∃ bs, f' = { f with bytes := bs }
  nents : f'.nents = max f.nents (k + 1)
  self : f'.ent k = de
  other : ∀ j < f.nents, j ≠ k → f'.ent j = f.ent j

variable {k : ℕ} {f : Node}

theorem lt_nents : k < f.nents ↔ k * direntSize + direntSize ≤ f.bytes.length := by
  simp only [Node.nents, direntSize, DIRSIZ]
  omega

theorem lt_of_lt_nents {j k : ℕ} (hj : j < f.nents)
    (hk : ¬ k * direntSize < f.bytes.length) : j < k := by
  have hj' := lt_nents.mp hj
  simp only [direntSize, DIRSIZ] at hj' hk
  omega

theorem lt_nents_of_dvd (hdvd : direntSize ∣ f.bytes.length)
    (hk : k * direntSize < f.bytes.length) : k < f.nents := by
  rwa [Node.nents, Nat.lt_div_iff_mul_lt' hdvd, Nat.mul_comm]

theorem take_drop_congr {bs old : List Byte} {o m : ℕ}
    (h : ∀ k < m, bs[o + k]? = old[o + k]?) : (bs.drop o).take m = (old.drop o).take m := by
  refine List.ext_getElem? fun k => ?_
  simp only [List.getElem?_take, List.getElem?_drop]
  split
  · exact h k (by assumption)
  · rfl

variable {de : Dirent}

theorem Dirent.length_bytes (h : de.name.length = DIRSIZ) : de.bytes.length = direntSize := by
  simp only [Dirent.bytes, List.length_append, List.length_cons, List.length_nil, h]
  rfl

theorem Patched.setEnt {bs : List Byte}
    (hname : de.name.length = DIRSIZ) (hk : k < f.nents ∨ k * direntSize = f.bytes.length)
    (h : Patched f.bytes (fun j => de.bytes[j]?) (k * direntSize) direntSize 0 bs) :
    SetEnt f k de { f with bytes := bs } := by
  have hsize : direntSize = 16 := rfl
  have hlen := h.length
  refine ⟨⟨bs, rfl⟩, ?_, ?_, fun j hj hjk => ?_⟩
  · rcases hk with hk | hk
    · have hk' := lt_nents.mp hk
      simp only [Node.nents, hlen, hsize] at hk hk' ⊢
      omega
    · simp only [Node.nents, hlen, hsize] at hk ⊢
      omega
  · have hb : (bs.drop (k * direntSize)).take direntSize = de.bytes := by
      refine List.ext_getElem? fun j => ?_
      rw [List.getElem?_take, List.getElem?_drop]
      split
      · have := h.new (k * direntSize + j) (by omega) (by omega)
        rwa [Nat.add_sub_cancel_left] at this
      · rw [List.getElem?_eq_none]
        rw [Dirent.length_bytes hname]
        omega
    rw [Node.ent, hb, readDirent_bytes]
  · rw [Node.ent, Node.ent, take_drop_congr fun c hc => ?_]
    have hj' := lt_nents.mp hj
    refine h.old _ (by omega) ?_
    rw [hsize] at hc hj' ⊢
    omega

theorem length_strncpy (n : ℕ) (s : List Byte) : (strncpy n s).length = n := by
  induction n generalizing s with
  | zero => rfl
  | succ n ih =>
    rw [strncpy]
    split
    · exact List.length_replicate
    · rw [List.length_cons, ih]

theorem Vol.slice_eq {v : Vol} {n o m : ℕ} (h : o + m ≤ n) :
    v.slice i o m = (((List.range n).map (v.byte i)).drop o).take m := by
  refine List.ext_getElem? fun k => ?_
  rw [List.getElem?_take, List.getElem?_drop, Vol.slice, List.getElem?_map]
  split
  · rename_i hk
    rw [List.getElem?_range hk, Vol.bytes_get (by omega)]
    rfl
  · rename_i hk
    rw [List.getElem?_eq_none (by simpa using hk)]
    rfl

theorem Inv.size (h : Inv sb H s) (hc : Cached (s.itable dp) d) :
    (s.itable dp).d.size.toNat = (files sb s d).bytes.length := by
  rw [files, Vol.file_of_ne (h.live dp d hc), h.sync dp d hc]
  simp

theorem Inv.dtype (h : Inv sb H s) (hc : Cached (s.itable dp) d) :
    (s.itable dp).d.type = (files sb s d).type := by
  rw [files_type, h.sync dp d hc]

theorem Inv.nlink (h : Inv sb H s) (hc : Cached (s.itable dp) d) :
    (s.itable dp).d.nlink = (files sb s d).nlink := by
  rw [files, Vol.file_of_ne (h.live dp d hc), h.sync dp d hc]

theorem Inv.length_le (h : Inv sb H s) (hc : Cached (s.itable dp) d) :
    (files sb s d).bytes.length ≤ MAXFILE * BSIZE := by
  rw [← h.size hc, h.sync dp d hc]
  exact h.wf.small d (h.toLive hc).lt (h.live dp d hc)

theorem Live.length_bytes (h : Live sb s dp d) :
    ((view sb s).file d).bytes.length = (s.itable dp).d.size.toNat := by
  rw [Vol.file_of_ne h.type, h.d]
  simp

theorem Live.length_le (h : Live sb s dp d) : ((view sb s).file d).bytes.length ≤ MAXFILE * BSIZE := by
  rw [h.length_bytes, h.d]
  exact h.wf.small d h.lt h.type

theorem ofNat_offset (h : k * direntSize ≤ MAXFILE * BSIZE) :
    (BitVec.ofNat 32 (k * direntSize)).toNat = k * direntSize := by
  rw [BitVec.toNat_ofNat, Nat.mod_eq_of_lt]
  simp only [MAXFILE, NDIRECT, NINDIRECT, BSIZE] at h
  omega

variable {E : Panic → Prop}

theorem readDe_live (h : Live sb s dp d)
    (hk : k * direntSize < ((view sb s).file d).bytes.length) :
    Sat (readDe sb dp (k * direntSize)) s (fun r t => t = s ∧
      r = if k < ((view sb s).file d).nents then some (((view sb s).file d).ent k) else none) E := by
  have hmax := h.length_le
  have hoff := ofNat_offset (k := k) (by omega)
  have hsize : ((view sb s).node d).size.toNat = ((view sb s).file d).bytes.length := by
    rw [h.length_bytes, h.d]
  have hlen : readLen ((view sb s).node d).size (BitVec.ofNat 32 (k * direntSize))
      (BitVec.ofNat 32 direntSize) =
      min direntSize (((view sb s).file d).bytes.length - k * direntSize) := by
    rw [readLen, if_neg, hsize, hoff]
    · rfl
    · simp only [not_or, BitVec.not_lt, BitVec.le_def, BitVec.toNat_add, hoff, hsize]
      have h16 : (BitVec.ofNat 32 direntSize).toNat = 16 := rfl
      simp only [MAXFILE, NDIRECT, NINDIRECT, BSIZE] at hmax
      rw [h16]
      omega
  unfold readDe
  refine Sat.bind (readi_sat h _ _ _) ?_
  rintro r t ⟨rfl, hr, hsome⟩
  rw [hoff, hlen] at hr
  cases r with
  | none => exact absurd rfl (hsome fun _ => rfl)
  | some bs =>
    have hbs := hr bs rfl
    refine Sat.pure ⟨rfl, ?_⟩
    have hbl : bs.length = min direntSize (((view sb t).file d).bytes.length - k * direntSize) := by
      rw [hbs, Vol.slice, List.length_map, List.length_range]
    by_cases hkn : k < ((view sb t).file d).nents
    · have hkl := lt_nents.mp hkn
      rw [if_pos hkn, if_pos (by omega), Node.ent, hbs, min_eq_left (by omega)]
      have hbytes : ((view sb t).file d).bytes =
          (List.range ((view sb t).node d).size.toNat).map ((view sb t).byte d) := by
        rw [Vol.file_of_ne h.type]
      rw [hbytes, ← Vol.slice_eq (by omega)]
    · have hkl := mt lt_nents.mpr hkn
      rw [if_neg hkn, if_neg (by omega)]

theorem Inv.view_file (h : Inv sb H s) : (Fs.view sb s).file d = files sb s d := by
  rw [h.view]
  rfl

theorem readDe_sat (h : Inv sb H s) (hc : Cached (s.itable dp) d)
    (hk : k * direntSize < (files sb s d).bytes.length) :
    Sat (readDe sb dp (k * direntSize)) s (fun r t => t = s ∧
      r = if k < (files sb s d).nents then some ((files sb s d).ent k) else none) E := by
  have := readDe_live (E := E) (k := k) (h.toLive hc)
  rw [h.view_file] at this
  exact this hk

theorem writeDe_live (h : Live sb s dp d) (hname : de.name.length = DIRSIZ)
    (hk : k < ((view sb s).file d).nents ∨ k * direntSize = ((view sb s).file d).bytes.length) :
    Sat (writeDe sb dp (k * direntSize) de) s (fun r t => (r = -1 ∧ t = s) ∨
      r = direntSize ∧ ∃ f, SetEnt ((view sb s).file d) k de f ∧
        f.bytes.length = max ((view sb s).file d).bytes.length (k * direntSize + direntSize) ∧
        Put sb dp d f s t) Mild := by
  have hmax := h.length_le
  have hle : k * direntSize ≤ ((view sb s).file d).bytes.length := by
    rcases hk with hk | hk
    · have := lt_nents.mp hk
      omega
    · omega
  have hoff := ofNat_offset (k := k) (by omega)
  have hn : (BitVec.ofNat 32 direntSize).toNat = direntSize := rfl
  refine (writei_sat h (fun j => de.bytes[j]?) _ _).post ?_
  rintro r t (hr | ⟨tot, x, bs, hr, -, -, hall, hput, hbs⟩)
  · exact .inl hr
  · refine .inr ?_
    obtain ⟨rfl, rfl⟩ := hall fun c hc => by
      rw [hn, ← Dirent.length_bytes hname] at hc
      rw [List.getElem?_eq_getElem hc]
      rfl
    rw [hn] at hr
    rw [hoff, hn] at hbs
    exact ⟨hr, _, hbs.setEnt hname hk, hbs.length, hput⟩

theorem writeDe_sat (h : Inv sb H s) (hc : Cached (s.itable dp) d)
    (hname : de.name.length = DIRSIZ) (hinum : de.inum.toNat < sb.ninodes)
    (hk : k < (files sb s d).nents ∨ k * direntSize = (files sb s d).bytes.length) :
    Sat (writeDe sb dp (k * direntSize) de) s (fun r t => (r = -1 ∧ t = s) ∨
      r = direntSize ∧ ∃ f, SetEnt (files sb s d) k de f ∧
        f.bytes.length = max (files sb s d).bytes.length (k * direntSize + direntSize) ∧
        Step sb H H (Function.update (files sb s) d f) s t) Mild := by
  have hwrite := writeDe_live (k := k) (h.toLive hc) hname
  rw [h.view_file] at hwrite
  refine (hwrite hk).post ?_
  rintro r t (hr | ⟨hr, f, hset, hlen, hput⟩)
  · exact .inl hr
  · have htype : f.type = (files sb s d).type := by
      obtain ⟨bs, rfl⟩ := hset.fields
      rfl
    refine .inr ⟨hr, f, hset, hlen, hput.step h htype fun hdir j hj => ?_⟩
    rw [hset.nents] at hj
    rcases eq_or_ne j k with rfl | hjk
    · rw [hset.self]
      exact hinum
    · rcases lt_or_ge j (files sb s d).nents with hj' | hj'
      · rw [hset.other j hj' hjk]
        exact h.ents d (by rwa [← htype]) j hj'
      · rcases hk with hk | hk
        · omega
        · have : (files sb s d).nents = k := by
            rw [Node.nents, ← hk, Nat.mul_div_cancel _ (by decide)]
          omega

def Node.skips (n : Node) (name : List Byte) (k : ℕ) : Prop :=
  (n.ent k).inum = 0 ∨ namecmp name (n.ent k).name ≠ 0

variable {name : List Byte} {n : Node}

theorem Node.lookup_eq_none (h : ∀ k < n.nents, n.skips name k) : n.lookup name = none := by
  refine List.find?_eq_none.mpr fun k hk => ?_
  have := h k (List.mem_range.mp hk)
  simp only [Node.skips] at this
  simp only [decide_eq_true_eq, not_and]
  tauto

theorem Node.lookup_eq_some (hk : k < n.nents)
    (h : ¬ n.skips name k) (hlt : ∀ j < k, n.skips name j) : n.lookup name = some k := by
  rw [Node.lookup, List.find?_range_eq_some]
  simp only [Node.skips, not_or, ne_eq, not_not] at h hlt
  refine ⟨?_, List.mem_range.mpr hk, fun j hj => ?_⟩
  · simpa using h
  · have := hlt j hj
    simp only [Bool.not_eq_true', decide_eq_false_iff_not, not_and]
    tauto

theorem Node.of_lookup_none (h : n.lookup name = none) : ∀ k < n.nents, n.skips name k := by
  intro k hk
  have := List.find?_eq_none.mp h k (List.mem_range.mpr hk)
  simp only [decide_eq_true_eq, not_and] at this
  simp only [Node.skips]
  tauto

theorem Node.of_lookup_some (h : n.lookup name = some k) :
    k < n.nents ∧ (n.ent k).inum ≠ 0 ∧ namecmp name (n.ent k).name = 0 := by
  have h1 := List.mem_range.mp (List.mem_of_find?_eq_some h)
  have h2 := List.find?_some h
  simp only [decide_eq_true_eq] at h2
  exact ⟨h1, h2⟩

def Found (sb : Superblock) (H : Multiset InodePtr) (d : ℕ) (name : List Byte) (s : State)
    (r : Option (InodePtr × ℕ)) (t : State) : Prop :=
  (files sb s d).type = T_DIR ∧
    match r with
    | none => t = s ∧ (files sb s d).lookup name = none
    | some (ip, off) => ∃ k, (files sb s d).lookup name = some k ∧ off = k * direntSize ∧
      Step sb H (ip ::ₘ H) (files sb s) s t ∧
      (t.itable ip).inum = ((files sb s d).ent k).inum.toNat ∧
      ((t.itable ip).ref = 1 → (t.itable ip).valid = false)

variable {Q : Option (InodePtr × ℕ) → State → Prop}

theorem dirlookupFrom_rule {n k : ℕ} (h : Live sb s dp d)
    (hread : ¬ direntSize ∣ ((view sb s).file d).bytes.length → E .dirlookupRead)
    (hnone : ((view sb s).file d).lookup name = none → Q none s)
    (hsome : ∀ k, ((view sb s).file d).lookup name = some k →
      Sat (iget (((view sb s).file d).ent k).inum.toNat) s
        (fun ip => Q (some (ip, k * direntSize))) E)
    (hn : ((view sb s).file d).nents < n + k) (hlt : ∀ j < k, ((view sb s).file d).skips name j) :
    Sat (dirlookupFrom sb dp name n (k * direntSize)) s Q E := by
  induction n generalizing k with
  | zero => exact Sat.pure (hnone (Node.lookup_eq_none fun j hj => hlt j (by omega)))
  | succ n ih =>
    rw [dirlookupFrom, ← Nat.succ_mul]
    refine getInode_bind ?_
    rw [← h.length_bytes]
    refine Sat.ite (fun hoff => ?_) fun hoff =>
      Sat.pure (hnone (Node.lookup_eq_none fun j hj => hlt j (lt_of_lt_nents hj hoff)))
    refine Sat.bind (readDe_live h hoff) ?_
    rintro r t ⟨rfl, hr⟩
    have hskip : ((view sb t).file d).skips name k →
        Sat (dirlookupFrom sb dp name n ((k + 1) * direntSize)) t Q E := by
      intro hs
      refine ih (by omega) fun j hj => ?_
      rcases Nat.lt_succ_iff_lt_or_eq.mp hj with hj | rfl
      · exact hlt j hj
      · exact hs
    split at hr
    · rename_i hkn
      subst hr
      refine Sat.ite (fun h0 => hskip (.inl h0)) fun h0 => Sat.ite (fun hcmp => ?_)
        fun hcmp => hskip (.inr hcmp)
      refine Sat.bind (hsome k (Node.lookup_eq_some hkn ?_ hlt)) fun _ _ hu => Sat.pure hu
      exact fun hs => hs.elim h0 fun hne => hne hcmp
    · rename_i hkn
      subst hr
      exact Sat.throw (hread fun hdvd => hkn (lt_nents_of_dvd hdvd hoff))

theorem dirlookup_rule
    (h : Live sb s dp d) (htype : ((view sb s).file d).type ≠ T_DIR → E .dirlookupNotDir)
    (hread : ¬ direntSize ∣ ((view sb s).file d).bytes.length → E .dirlookupRead)
    (hnone : ((view sb s).file d).type = T_DIR → ((view sb s).file d).lookup name = none → Q none s)
    (hsome : ((view sb s).file d).type = T_DIR → ∀ k, ((view sb s).file d).lookup name = some k →
      Sat (iget (((view sb s).file d).ent k).inum.toNat) s
        (fun ip => Q (some (ip, k * direntSize))) E) :
    Sat (dirlookup sb dp name) s Q E := by
  unfold dirlookup
  refine getInode_bind ?_
  rw [h.d, ← Vol.file_type, ← h.d, ← h.length_bytes]
  refine Sat.ite (fun hne => Sat.throw (htype hne)) fun hdir => ?_
  have := dirlookupFrom_rule (n := ((view sb s).file d).nents + 1) (k := 0) h hread
    (hnone (not_not.mp hdir)) (hsome (not_not.mp hdir)) (by omega) nofun
  rwa [Nat.zero_mul] at this

theorem dirlookup_sat (name : List Byte) (h : Inv sb H s) (hc : Cached (s.itable dp) d) :
    Sat (dirlookup sb dp name) s (Found sb H d name s) Mild := by
  refine dirlookup_rule (h.toLive hc) (fun _ => ⟨nofun, nofun⟩) (fun _ => ⟨nofun, nofun⟩) ?_ ?_
  · rw [h.view_file]
    exact fun htype hnone => ⟨htype, rfl, hnone⟩
  · rw [h.view_file]
    intro htype k hk
    obtain ⟨hkn, h0, -⟩ := Node.of_lookup_some hk
    have hpos : 0 < ((files sb s d).ent k).inum.toNat :=
      Nat.pos_of_ne_zero fun hz => h0 (BitVec.eq_of_toNat_eq hz)
    exact (iget_sat h hpos (h.ents d htype k hkn)).post fun _ _ hu => ⟨htype, k, hk, rfl, hu⟩

theorem dirlookup_of_iget {R : State → State → Prop} (name : List Byte)
    (h : Inv sb H s) (hc : Cached (s.itable dp) d) (hE : E .dirlookupNotDir ∧ E .dirlookupRead)
    (hrefl : R s s) (hget : ∀ inum, Sat (iget inum) s (fun _ => R s) E) :
    Sat (dirlookup sb dp name) s (fun _ => R s) E :=
  dirlookup_rule (h.toLive hc) (fun _ => hE.1) (fun _ => hE.2) (fun _ _ => hrefl)
    fun _ _ _ => hget _

def Node.vacant (n : Node) (k : ℕ) : Prop :=
  (k < n.nents ∧ (n.ent k).inum = 0) ∨ k * direntSize = n.bytes.length

structure FreeSlot (f : Node) (k : ℕ) : Prop where
  le : k ≤ f.nents
  used : ∀ j < k, (f.ent j).inum ≠ 0
  free : k < f.nents → (f.ent k).inum = 0

theorem findSlot_rule {n k : ℕ} (h : Live sb s dp d)
    (hread : ¬ direntSize ∣ ((view sb s).file d).bytes.length → E .dirlinkRead)
    (hk : k ≤ ((view sb s).file d).nents) (hn : ((view sb s).file d).nents < n + k)
    (hused : ∀ j < k, (((view sb s).file d).ent j).inum ≠ 0) :
    Sat (findSlot sb dp n (k * direntSize)) s (fun off t => t = s ∧ ∃ k, off = k * direntSize ∧
      FreeSlot ((view sb s).file d) k ∧ ((view sb s).file d).vacant k) E := by
  induction n generalizing k with
  | zero => omega
  | succ n ih =>
    have hle : k * direntSize ≤ ((view sb s).file d).bytes.length :=
      (Nat.mul_le_mul_right _ hk).trans (Nat.div_mul_le_self _ _)
    rw [findSlot, ← Nat.succ_mul]
    refine getInode_bind ?_
    rw [← h.length_bytes]
    refine Sat.ite (fun hoff => ?_) fun hoff => Sat.pure ⟨rfl, k, rfl, ⟨hk, hused, fun hlt => ?_⟩,
      .inr (by omega)⟩
    · refine Sat.bind (readDe_live h hoff) ?_
      rintro r t ⟨rfl, hr⟩
      split at hr
      · rename_i hkn
        subst hr
        refine Sat.ite (fun h0 => Sat.pure ⟨rfl, k, rfl, ⟨hk, hused, fun _ => h0⟩, .inl ⟨hkn, h0⟩⟩)
          fun h0 => ih hkn (by omega) fun j hj => ?_
        rcases Nat.lt_succ_iff_lt_or_eq.mp hj with hj | rfl
        · exact hused j hj
        · exact h0
      · rename_i hkn
        subst hr
        exact Sat.throw (hread fun hdvd => hkn (lt_nents_of_dvd hdvd hoff))
    · exact absurd (lt_of_lt_nents hlt hoff) (Nat.lt_irrefl k)

theorem findSlot_sat (hE : E .dirlinkRead) (h : Inv sb H s) (hc : Cached (s.itable dp) d) :
    Sat (findSlot sb dp ((files sb s d).nents + 1) 0) s (fun off t => t = s ∧
      ∃ k, off = k * direntSize ∧ (files sb s d).vacant k) E := by
  have hslot := findSlot_rule (k := 0) (n := (files sb s d).nents + 1) (h.toLive hc) (fun _ => hE)
    (Nat.zero_le _) (by rw [h.view_file]; omega) nofun
  rw [Nat.zero_mul, h.view_file] at hslot
  refine hslot.post ?_
  rintro off t ⟨ht, k, hk, -, hvac⟩
  exact ⟨ht, k, hk, hvac⟩

def newEnt (name : List Byte) (i : ℕ) : Dirent :=
  { inum := BitVec.ofNat 16 i, name := strncpy DIRSIZ name }

theorem newEnt_inum (hlt : i < sb.ninodes) : (newEnt name i).inum.toNat = i := by
  have := sb.ninodes_le
  rw [newEnt, BitVec.toNat_ofNat, Nat.mod_eq_of_lt (by omega)]

theorem newEnt_ne_zero (hi : 0 < i) (hlt : i < sb.ninodes) : (newEnt name i).inum ≠ 0 := by
  intro h0
  have : (newEnt name i).inum.toNat = i := newEnt_inum hlt
  rw [h0] at this
  exact absurd this (by simp; omega)

def Linked (sb : Superblock) (H : Multiset InodePtr) (d : ℕ) (name : List Byte) (i : ℕ)
    (s : State) (r : Bool) (t : State) : Prop :=
  (files sb s d).type = T_DIR ∧
    if r then (files sb s d).lookup name = none ∧ ∃ k f, (files sb s d).vacant k ∧
      SetEnt (files sb s d) k (newEnt name i) f ∧
      Step sb H H (Function.update (files sb s) d f) s t
    else (files sb s d).lookup name ≠ none ∧ Step sb H H (files sb s) s t

theorem dirlink_sat (name : List Byte) (h : Inv sb H s) (hc : Cached (s.itable dp) d)
    (hi : i < sb.ninodes) : Sat (dirlink sb dp name i) s (Linked sb H d name i s) Mild := by
  unfold dirlink
  refine Sat.bind (dirlookup_sat name h hc) ?_
  rintro r t ⟨htype, hr⟩
  split
  · rename_i ip off
    obtain ⟨k, hk, -, hstep, -, hfresh⟩ := hr
    refine Sat.bind (iput_sat hstep.inv) fun _ u hu => Sat.pure ⟨htype, ?_⟩
    have hlast : ¬ Last (t.itable ip) := by
      rintro ⟨h1, h2, -⟩
      rw [hfresh h1] at h2
      cases h2
    rw [dropped, if_neg hlast, hstep.files] at hu
    exact ⟨by rw [hk]; rintro ⟨⟩, hstep.trans hu⟩
  · obtain ⟨rfl, hnone⟩ := hr
    refine getInode_bind ?_
    rw [h.size hc]
    refine Sat.bind (findSlot_sat ⟨by decide, by decide⟩ h hc) ?_
    rintro off u ⟨rfl, k, rfl, hvac⟩
    have hinum : (BitVec.ofNat 16 i).toNat < sb.ninodes := by
      rw [BitVec.toNat_ofNat]
      exact (Nat.mod_le _ _).trans_lt hi
    refine Sat.bind (writeDe_sat h hc (length_strncpy _ _) hinum
      (hvac.imp (fun hv => hv.1) id)) ?_
    rintro r u (⟨rfl, rfl⟩ | ⟨rfl, f, hset, -, hstep⟩)
    · exact Sat.ite (fun _ => Sat.throw ⟨by decide, by decide⟩) fun hne => absurd (by decide) hne
    · exact Sat.ite (fun hne => absurd rfl hne)
        fun _ => Sat.pure ⟨htype, hnone, k, f, hvac, hset, hstep⟩

def Node.bare (n : Node) : Prop := ∀ k, 2 ≤ k → k < n.nents → (n.ent k).inum = 0

theorem isdiremptyFrom_sat (hE : E .isdirempty) {n k : ℕ} (h : Inv sb H s)
    (hc : Cached (s.itable dp) d) (hn : (files sb s d).nents < n + k)
    (hlt : ∀ j, 2 ≤ j → j < k → j < (files sb s d).nents → ((files sb s d).ent j).inum = 0)
    (hk : 2 ≤ k) :
    Sat (isdiremptyFrom sb dp n (k * direntSize)) s (fun r t => t = s ∧
      (r = true ↔ (files sb s d).bare)) E := by
  induction n generalizing k with
  | zero =>
    exact Sat.pure ⟨rfl, fun _ j hj hjn => hlt j hj (by omega) hjn, fun _ => rfl⟩
  | succ n ih =>
    have hnext : k * direntSize + direntSize = (k + 1) * direntSize :=
      (Nat.succ_mul k direntSize).symm
    rw [isdiremptyFrom]
    refine getInode_bind ?_
    rw [h.size hc, hnext]
    refine Sat.ite (fun hoff => ?_) fun hoff => Sat.pure ⟨rfl, fun _ j hj hjn => ?_, fun _ => rfl⟩
    · refine Sat.bind (readDe_sat h hc hoff) ?_
      rintro r t ⟨rfl, hr⟩
      split at hr
      · rename_i hkn
        subst hr
        refine Sat.ite (fun hne => Sat.pure ⟨rfl, nofun, fun hb => absurd (hb k hk hkn) hne⟩)
          fun h0 => ih (by omega) (fun j hj hjk hjn => ?_) (by omega)
        rcases Nat.lt_succ_iff_lt_or_eq.mp hjk with hjk | rfl
        · exact hlt j hj hjk hjn
        · exact not_not.mp h0
      · subst hr
        exact Sat.throw hE
    · exact hlt j hj (lt_of_lt_nents hjn hoff) hjn

theorem isdirempty_sat (hE : E .isdirempty) (h : Inv sb H s) (hc : Cached (s.itable dp) d) :
    Sat (isdirempty sb dp) s (fun r t => t = s ∧ (r = true ↔ (files sb s d).bare)) E := by
  unfold isdirempty
  refine getInode_bind ?_
  rw [h.size hc]
  exact isdiremptyFrom_sat hE (n := (files sb s d).nents + 1) (k := 2) h hc (by omega)
    (fun j hj hj2 => by omega) (le_refl 2)

end Xv6.Fs
