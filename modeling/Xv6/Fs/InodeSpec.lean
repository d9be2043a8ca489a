import Xv6.Fs.Content

/-! What `bmap`, `readi` and `writei` do to the files. -/
namespace Xv6.Fs
open Bytes Function
open Xv6.Log (BSIZE Block)

variable {sb : Superblock} {s t u : State} {ip : InodePtr} {i : ℕ}

def State.setD (s : State) (ip : InodePtr) (d : Dinode) : State :=
  s.setInode ip { s.itable ip with d := d }

theorem setD_d (s : State) (ip : InodePtr) (d : Dinode) : ((s.setD ip d).itable ip).d = d := by
  simp only [State.setD, State.setInode, update_self]

theorem setD_cached (s : State) (ip jp : InodePtr) (d : Dinode) (k : ℕ) :
    Cached ((s.setD ip d).itable jp) k ↔ Cached (s.itable jp) k := by
  rcases eq_or_ne jp ip with rfl | hne
  · simp only [State.setD, State.setInode, update_self]
    exact Iff.rfl
  · simp only [State.setD, State.setInode, update_of_ne hne]

theorem setD_uniq (hu : Uniq s.itable) (d : Dinode) : Uniq (s.setD ip d).itable :=
  hu.same (fun h => h) rfl

def Vol.setNode (v : Vol) (i : ℕ) (d : Dinode) : Vol :=
  { v with node := update v.node i d }

@[simp] theorem Vol.setNode_node_self (v : Vol) (i : ℕ) (d : Dinode) : (v.setNode i d).node i = d :=
  update_self _ _ _

theorem Vol.setNode_node_of_ne (v : Vol) (d : Dinode) {k : ℕ} (h : k ≠ i) :
    (v.setNode i d).node k = v.node k := update_of_ne h _ _

theorem view_setD (hu : Uniq s.itable) (h : Cached (s.itable ip) i) (d : Dinode) :
    view sb (s.setD ip d) = (view sb s).setNode i d := view_setDinode hu h d

variable {E : Panic → Prop}

theorem getInode_bind {α : Type} {f : Inode → M α} {Q : α → State → Prop}
    (h : Sat (f (s.itable ip)) s Q E) : Sat (getInode ip >>= f) s Q E := h

theorem setInode_bind {α : Type} {e : Inode} {f : Unit → M α} {Q : α → State → Prop}
    (h : Sat (f ()) (s.setInode ip e) Q E) : Sat (setInode ip e >>= f) s Q E := h

theorem setInode_sat {e : Inode} {Q : Unit → State → Prop}
    (h : Q () (s.setInode ip e)) : Sat (setInode ip e) s Q E := h

theorem modifyDinode_bind {α : Type} {g : Dinode → Dinode} {f : Unit → M α}
    {Q : α → State → Prop}
    (h : Sat (f ()) (s.setD ip (g (s.itable ip).d)) Q E) : Sat (modifyDinode ip g >>= f) s Q E := h

structure Held (sb : Superblock) (s : State) (ip : InodePtr) (i : ℕ) : Prop where
  uniq : Uniq s.itable
  cached : Cached (s.itable ip) i
  lt : i < sb.ninodes
  log : LogOk sb s.m

theorem Held.d (h : Held sb s ip i) : (s.itable ip).d = (view sb s).node i :=
  (view_cached h.uniq h.cached).symm

theorem Held.moves {V : Vol} (h : Held sb s ip i) (hm : Moves sb s t V) : Held sb t ip i := by
  have hit : t.itable = s.itable := by rw [hm.eq]
  exact ⟨hit ▸ h.uniq, hit ▸ h.cached, h.lt, hm.log⟩

theorem Held.setD (h : Held sb s ip i) (d : Dinode) : Held sb (s.setD ip d) ip i :=
  ⟨setD_uniq h.uniq d, (setD_cached s ip ip d i).mpr h.cached, h.lt, h.log⟩

/-- The inode is an allocated one of a well-formed file system. -/
structure Live (sb : Superblock) (s : State) (ip : InodePtr) (i : ℕ) : Prop
    extends Held sb s ip i where
  wf : Wf sb (view sb s)
  type : ((view sb s).node i).type ≠ 0

structure Seen (sb : Superblock) (s : State) (ip : InodePtr) (i : ℕ) : Prop
    extends Held sb s ip i where
  owned : Owned sb (view sb s).place (view sb s).bit
  type : ((view sb s).node i).type ≠ 0

theorem Live.seen (h : Live sb s ip i) : Seen sb s ip i := ⟨h.toHeld, h.wf.owned, h.type⟩

def Touched (ip : InodePtr) (s t : State) : Prop := ∃ d, t = { s.setD ip d with m := t.m }

theorem Touched.refl (ip : InodePtr) (s : State) : Touched ip s s :=
  ⟨(s.itable ip).d, by rw [State.setD, State.setInode, update_eq_self]⟩

theorem Touched.trans (h : Touched ip s t) (h' : Touched ip t u) : Touched ip s u := by
  obtain ⟨d, hd⟩ := h
  obtain ⟨e, he⟩ := h'
  refine ⟨e, he.trans ?_⟩
  rw [hd]
  simp only [State.setD, State.setInode, update_idem, update_self]

theorem Moves.touched {V : Vol} (h : Moves sb s t V) (ip : InodePtr) : Touched ip s t :=
  ⟨(s.itable ip).d, by rw [State.setD, State.setInode, update_eq_self]; exact h.eq⟩

theorem touched_setD (s : State) (ip : InodePtr) (d : Dinode) : Touched ip s (s.setD ip d) :=
  ⟨d, rfl⟩

structure Grown (sb : Superblock) (ip : InodePtr) (i : ℕ) (s t : State) : Prop where
  touched : Touched ip s t
  dnode : (disk sb t).node = (disk sb s).node
  live : Live sb t ip i
  grows : Grows sb i (view sb s) (view sb t)

theorem Grown.refl (h : Live sb s ip i) : Grown sb ip i s s where
  touched := Touched.refl ip s
  dnode := rfl
  live := h
  grows := Grows.refl _ _ _

theorem Grown.trans (h : Grown sb ip i s t) (h' : Grown sb ip i t u) : Grown sb ip i s u where
  touched := h.touched.trans h'.touched
  dnode := h'.dnode.trans h.dnode
  live := h'.live
  grows := h.grows.trans h'.grows

theorem Live.allocAddr (h : Live sb s ip i) {j : Fin (NDIRECT + 1)} {b : ℕ}
    (h0 : (s.itable ip).d.addrs j = 0) (hb : sb.IsData b) (hbit : (disk sb s).bit b = false)
    (hm : Moves sb s t ((disk sb s).alloc b)) :
    Grown sb ip i s (t.setD ip ((t.itable ip).d.setAddr j (BitVec.ofNat 32 b))) ∧
      view sb (t.setD ip ((t.itable ip).d.setAddr j (BitVec.ofNat 32 b))) =
        ((view sb s).alloc b).setAddr i j b := by
  have hit : t.itable = s.itable := by rw [hm.eq]
  have ht := h.toHeld.moves hm
  rw [h.d] at h0
  have hview : view sb (t.setD ip ((t.itable ip).d.setAddr j (BitVec.ofNat 32 b))) =
      ((view sb s).alloc b).setAddr i j b := by
    have hvt : view sb t = (view sb s).alloc b := hm.view
    rw [view_setD ht.uniq ht.cached, hvt, hit, h.d]
    rfl
  have hg := grows_setAddr h.wf.owned h.lt h.type h0 hb hbit
  refine ⟨⟨(hm.touched ip).trans (touched_setD t ip _), ?_, ?_, ?_⟩, hview⟩
  · change (disk sb t).node = _
    rw [hm.vol]
    rfl
  · refine ⟨ht.setD _, ?_, ?_⟩
    · rw [hview]
      exact h.wf.setAddr h.lt h.type h0 hb hbit
    · rw [hview, hg.type]
      exact h.type
  · rw [hview]
    exact hg

theorem addrBlock_sat (h : Live sb s ip i) (j : Fin (NDIRECT + 1)) :
    Sat (addrBlock sb ip j) s (fun a t => Grown sb ip i s t ∧ a ≠ 0 ∧
      (((view sb t).node i).addrs j).toNat = a) Mild := by
  unfold addrBlock
  refine getInode_bind (Sat.ite (fun h0 => ?_) fun h0 => Sat.pure ⟨Grown.refl h, ?_, ?_⟩)
  · refine Sat.bind (balloc_sat h.log h.wf.metadata) ?_
    rintro b t ⟨hb, hbit, hm⟩
    refine modifyDinode_bind (Sat.pure ?_)
    obtain ⟨hg, hv⟩ := h.allocAddr h0 hb hbit hm
    refine ⟨hg, hb.ne_zero, ?_⟩
    rw [hv]
    have hnode : (((view sb s).alloc b).setAddr i j b).node i =
        ((view sb s).node i).setAddr j (BitVec.ofNat 32 b) := update_self _ _ _
    simp only [hnode, Dinode.setAddr, update_self, IsData.toNat_ofNat hb]
  · exact fun hz => h0 (BitVec.eq_of_toNat_eq hz)
  · rw [h.d]

theorem buf_eq_data {b : ℕ} (hb : sb.IsData b) : s.m.buf b = (view sb s).data b := by
  change _ = if sb.IsData b then s.m.buf b else _
  rw [if_pos hb]

theorem Seen.isData_last (h : Seen sb s ip i)
    (ha : ((view sb s).node i).addrs (Fin.last NDIRECT) ≠ 0) :
    sb.IsData (((view sb s).node i).addrs (Fin.last NDIRECT)).toNat := by
  rw [← place_last _ h.type]
  refine h.owned.data _ (mem_places h.lt (by decide)) ?_
  rw [place_last _ h.type]
  exact fun h0 => ha (BitVec.eq_of_toNat_eq h0)

theorem Vol.place_entry {v : Vol} (ht : (v.node i).type ≠ 0)
    (ha : (v.node i).addrs (Fin.last NDIRECT) ≠ 0) (j : ℕ) :
    v.place (i, NDIRECT + 1 + j) =
      (getWord (v.data ((v.node i).addrs (Fin.last NDIRECT)).toNat) (4 * j)).toNat := by
  simp only [Vol.place, if_neg ht, if_neg ha]
  rw [if_neg (by omega), show NDIRECT + 1 + j - (NDIRECT + 1) = j by omega]

theorem Live.allocEntry (h : Live sb s ip i) {j b : ℕ}
    (ha : ((view sb s).node i).addrs (Fin.last NDIRECT) ≠ 0) (hj : j < NINDIRECT)
    (h0 : (view sb s).place (i, NDIRECT + 1 + j) = 0) (hb : sb.IsData b)
    (hbit : (disk sb s).bit b = false) (hm : Moves sb s t
      (((disk sb s).alloc b).setEntry (((view sb s).node i).addrs (Fin.last NDIRECT)).toNat j b)) :
    Grown sb ip i s t ∧ (view sb t).place (i, NDIRECT + 1 + j) = b := by
  have hview : view sb t =
      ((view sb s).alloc b).setEntry ((view sb s).place (i, NDIRECT)) j b := by
    rw [place_last _ h.type]
    exact hm.view
  have hg := grows_setEntry h.wf.owned h.lt h.type ha hj h0 hb hbit
  refine ⟨⟨hm.touched ip, ?_, ⟨h.toHeld.moves hm, ?_, ?_⟩, ?_⟩, ?_⟩
  · rw [hm.vol]
    rfl
  · rw [hview]
    exact h.wf.setEntry h.lt h.type ha hj h0 hb hbit
  · rw [hview]
    exact h.type
  · rw [hview]
    exact hg
  · rw [hview, place_setEntry h.wf.owned h.lt h.type ha hj hb hbit
      (mem_places h.lt (by omega)), update_self]

theorem bmap_sat (h : Live sb s ip i) (bn : ℕ) :
    Sat (bmap sb ip bn) s (fun a t => bn < MAXFILE ∧ Grown sb ip i s t ∧ a ≠ 0 ∧
      (view sb t).block i bn = a) Mild := by
  unfold bmap
  refine Sat.ite (fun hd => ?_) fun hd => Sat.ite (fun hn => ?_) fun _ => Sat.throw ⟨nofun, nofun⟩
  · refine (addrBlock_sat h (Fin.ofNat _ bn)).post ?_
    rintro a t ⟨hg, ha, hat⟩
    refine ⟨by rw [MAXFILE]; omega, hg, ha, ?_⟩
    rw [Vol.block, blockPlace, if_pos hd, place_direct _ hg.live.type (by omega), hat]
  · have hlt : bn < MAXFILE := by rw [MAXFILE]; omega
    have hblock : ∀ v : Vol, v.block i bn = v.place (i, NDIRECT + 1 + (bn - NDIRECT)) := by
      intro v
      rw [Vol.block, blockPlace, if_neg hd, show bn + 1 = NDIRECT + 1 + (bn - NDIRECT) by omega]
    refine Sat.bind (addrBlock_sat h (Fin.last NDIRECT)) ?_
    rintro ind t ⟨hg, hind, hat⟩
    have hne : ((view sb t).node i).addrs (Fin.last NDIRECT) ≠ 0 := by
      intro h0
      rw [h0] at hat
      exact hind hat.symm
    have hdata : sb.IsData ind := hat ▸ hg.live.seen.isData_last hne
    have hentry := Vol.place_entry hg.live.type hne (bn - NDIRECT)
    rw [hat, ← buf_eq_data hdata] at hentry
    refine bread_bind (Sat.ite (fun h0 => ?_) fun h0 => Sat.pure ⟨hlt, hg, ?_, ?_⟩)
    · rw [h0] at hentry
      refine Sat.bind (balloc_sat hg.live.log hg.live.wf.metadata) ?_
      rintro b u ⟨hb, hbit, hu⟩
      refine bread_bind ?_
      have hput := put_sat hu.log (IsData.range hdata) (diskVol_data u.m.buf hdata
        (putWord (u.m.buf ind) (4 * (bn - NDIRECT)) (BitVec.ofNat 32 b)))
      rw [← bind_assoc]
      refine Sat.bind hput fun _ w hw => Sat.pure ?_
      have hmv : Moves sb t w (((disk sb t).alloc b).setEntry ind (bn - NDIRECT) b) := by
        refine ⟨(hu.trans hw).eq, hw.log, ?_⟩
        have hbuf : u.m.buf ind = (disk sb u).data ind := buf_eq_data hdata
        rw [hw.vol, hbuf, show diskVol sb u.m.buf = disk sb u from rfl, hu.vol]
        rfl
      rw [← hat] at hmv
      obtain ⟨hgw, hpw⟩ := hg.live.allocEntry hne hn hentry hb hbit hmv
      exact ⟨hlt, hg.trans hgw, hb.ne_zero, (hblock _).trans hpw⟩
    · exact fun hz => h0 (BitVec.eq_of_toNat_eq hz)
    · rw [hblock, hentry]

theorem bmap_mapped (h : Seen sb s ip i) {bn : ℕ} (hlt : bn < MAXFILE)
    (hne : (view sb s).block i bn ≠ 0) :
    Sat (bmap sb ip bn) s (fun a t => t = s ∧ a = (view sb s).block i bn) E := by
  have haddr : ∀ j, (view sb s).place (i, j.val) ≠ 0 → Sat (addrBlock sb ip j) s
      (fun a t => t = s ∧ a = (view sb s).place (i, j.val)) E := by
    intro j hj
    rw [place_of_addr h.type] at hj ⊢
    unfold addrBlock
    refine getInode_bind (Sat.ite (fun h0 => ?_) fun _ => Sat.pure ⟨rfl, by rw [h.d]⟩)
    rw [← h.d, h0] at hj
    exact absurd rfl hj
  rw [Vol.block, blockPlace] at hne ⊢
  unfold bmap
  refine Sat.ite (fun hd => ?_) fun hd => Sat.ite (fun hn => ?_) fun hn => ?_
  · rw [if_pos hd] at hne ⊢
    have hval : (Fin.ofNat (NDIRECT + 1) bn).val = bn := by
      rw [Fin.val_ofNat, Nat.mod_eq_of_lt (by omega)]
    have := haddr (Fin.ofNat _ bn)
    rw [hval] at this
    exact this hne
  · rw [if_neg hd, show bn + 1 = NDIRECT + 1 + (bn - NDIRECT) by omega] at hne ⊢
    have ha : ((view sb s).node i).addrs (Fin.last NDIRECT) ≠ 0 := by
      intro h0
      simp only [Vol.place, h0, if_neg h.type] at hne
      rw [if_neg (by omega)] at hne
      exact hne rfl
    have hdata := h.isData_last ha
    have hlast : (view sb s).place (i, (Fin.last NDIRECT).val) =
      (((view sb s).node i).addrs (Fin.last NDIRECT)).toNat := place_of_addr h.type
    rw [Vol.place_entry h.type ha, ← buf_eq_data hdata] at hne ⊢
    refine Sat.bind (haddr (Fin.last NDIRECT) (by rw [hlast]; exact hdata.ne_zero)) ?_
    rintro ind t ⟨rfl, rfl⟩
    rw [hlast]
    refine bread_bind (Sat.ite (fun h0 => ?_) fun _ => Sat.pure ⟨rfl, rfl⟩)
    rw [h0] at hne
    exact absurd rfl hne
  · rw [MAXFILE] at hlt
    omega

def Vol.slice (v : Vol) (i o m : ℕ) : List Byte := (List.range m).map fun k => v.byte i (o + k)

theorem Vol.slice_add (v : Vol) (i o m k : ℕ) :
    v.slice i o (m + k) = v.slice i o m ++ v.slice i (o + m) k := by
  simp only [Vol.slice, List.range_add, List.map_append, List.map_map]
  congr 2
  funext j
  simp [Nat.add_assoc]

theorem Vol.byte_in_block (v : Vol) (i : ℕ) {o k : ℕ} (h : k < BSIZE - o % BSIZE) :
    v.byte i (o + k) = byteAt (v.data (v.block i (o / BSIZE))) (o % BSIZE + k) := by
  rw [Vol.byte, show (o + k) / BSIZE = o / BSIZE by simp only [BSIZE] at h ⊢; omega,
    show (o + k) % BSIZE = o % BSIZE + k by simp only [BSIZE] at h ⊢; omega]

theorem Seen.isData (h : Seen sb s ip i) {j : ℕ} (hj : j < MAXFILE)
    (hne : (view sb s).block i j ≠ 0) : sb.IsData ((view sb s).block i j) :=
  h.owned.data _ (mem_places h.lt (blockPlace_lt hj)) hne

def Vol.Maps (v : Vol) (i o : ℕ) : Prop := o / BSIZE < MAXFILE ∧ v.block i (o / BSIZE) ≠ 0

theorem readiLoop_sat (h : Seen sb s ip i) {dst : ℕ → Bool}
    {n fuel tot off : ℕ} {acc : List Byte} (hfuel : n ≤ fuel + tot) (htot : tot ≤ n)
    (hmap : ∀ o, off ≤ o → o < off + (n - tot) → (view sb s).Maps i o) :
    Sat (readiLoop sb ip dst n fuel tot off acc) s (fun r t => t = s ∧
      (∀ bs, r = some bs → bs = acc ++ (view sb s).slice i off (n - tot)) ∧
      ((∀ k, dst k = true) → r ≠ none)) E := by
  induction fuel generalizing tot off acc with
  | zero =>
    refine Sat.pure ⟨rfl, fun bs hbs => ?_, fun _ => nofun⟩
    rw [show n - tot = 0 by omega]
    cases hbs
    exact (List.append_nil _).symm
  | succ fuel ih =>
    rw [readiLoop]
    refine Sat.ite (fun hlt => ?_) fun hle => Sat.pure ⟨rfl, fun bs hbs => ?_, fun _ => nofun⟩
    · obtain ⟨hj, hne⟩ := hmap off (le_refl _) (by omega)
      refine Sat.bind (bmap_mapped h hj hne) ?_
      rintro a t ⟨rfl, rfl⟩
      refine bread_bind ?_
      rw [buf_eq_data (h.isData hj hne)]
      set m := min (n - tot) (BSIZE - off % BSIZE) with hm
      have hpos : 0 < m := by
        have : off % BSIZE < BSIZE := Nat.mod_lt _ (by decide)
        omega
      have hchunk : (List.range m).map (fun k => byteAt ((view sb t).data
          ((view sb t).block i (off / BSIZE))) (off % BSIZE + k)) = (view sb t).slice i off m :=
        List.map_congr_left fun k hk =>
          (Vol.byte_in_block _ _ (by have := List.mem_range.mp hk; omega)).symm
      refine Sat.ite (fun _ => ?_) fun hbad => Sat.pure ⟨rfl, nofun, fun hall => ?_⟩
      · have hrec := @ih (tot + m) (off + m) (acc ++ (view sb t).slice i off m) (by omega)
          (by omega) fun o h1 h2 => hmap o (by omega) (by omega)
        rw [hchunk]
        refine hrec.post ?_
        rintro r u ⟨hu, hr, hd⟩
        refine ⟨hu, fun bs hbs => ?_, hd⟩
        rw [hr bs hbs, List.append_assoc, ← Vol.slice_add,
          show m + (n - (tot + m)) = n - tot by omega]
      · exact absurd (List.all_eq_true.mpr fun k _ => hall _) hbad
    · rw [show n - tot = 0 by omega]
      cases hbs
      exact (List.append_nil _).symm

def readLen (size off n : BitVec 32) : ℕ :=
  if size < off ∨ off + n < off then 0 else min n.toNat (size.toNat - off.toNat)

theorem readLen_eq {size off n : BitVec 32} (hc : ¬ (size < off ∨ off + n < off)) :
    (if size < off + n then size - off else n).toNat = readLen size off n ∧
      off.toNat + readLen size off n ≤ size.toNat := by
  rw [readLen, if_neg hc]
  simp only [not_or, BitVec.not_lt, BitVec.le_def] at hc
  refine ⟨?_, by omega⟩
  split <;> bv_omega

theorem readi_mapped (h : Seen sb s ip i) (dst : ℕ → Bool) (off n : BitVec 32)
    (hmap : ∀ o, off.toNat ≤ o → o < off.toNat + readLen ((view sb s).node i).size off n →
      (view sb s).Maps i o) :
    Sat (readi sb ip dst off n) s (fun r t => t = s ∧
      (∀ bs, r = some bs → bs = (view sb s).slice i off.toNat
        (readLen ((view sb s).node i).size off n)) ∧
      ((∀ k, dst k = true) → r ≠ none)) E := by
  unfold readi
  refine getInode_bind ?_
  rw [h.d]
  refine Sat.ite (fun hc => Sat.pure ⟨rfl, fun bs hbs => ?_, fun _ => nofun⟩) fun hc => ?_
  · rw [readLen, if_pos hc]
    cases hbs
    rfl
  · obtain ⟨hlen, hle⟩ := readLen_eq hc
    dsimp only
    rw [hlen]
    exact readiLoop_sat h (by omega) (by omega) hmap

theorem readLen_le (size off n : BitVec 32) {o : ℕ} (h1 : off.toNat ≤ o)
    (h2 : o < off.toNat + readLen size off n) : o < size.toNat := by
  unfold readLen at h2
  split at h2 <;> omega

theorem readi_sat (h : Live sb s ip i) (dst : ℕ → Bool) (off n : BitVec 32) :
    Sat (readi sb ip dst off n) s (fun r t => t = s ∧
      (∀ bs, r = some bs → bs = (view sb s).slice i off.toNat
        (readLen ((view sb s).node i).size off n)) ∧
      ((∀ k, dst k = true) → r ≠ none)) E :=
  readi_mapped h.seen dst off n fun _ h1 h2 =>
    have ho := readLen_le _ _ _ h1 h2
    ⟨h.wf.div_lt h.lt h.type ho, h.wf.block_ne h.lt h.type ho⟩

end Xv6.Fs
