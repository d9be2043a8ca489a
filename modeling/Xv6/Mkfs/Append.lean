import Xv6.Mkfs.Main
import Xv6.Fs.TruncSpec
import Mathlib.Algebra.Order.BigOperators.Group.Finset

/-! What `iappend` does to the image: files grow by the bytes appended, and blocks are handed out
in order as they are needed. -/
namespace Xv6.Mkfs
open Bytes Fs Function List
open Xv6.Log (BSIZE Block)

variable {s t u : State} {i off : ℕ} {din : Dinode} {v w : Vol} {F : ℕ → Node}

theorem sector_eq {b : ℕ} (h : b < 2 ^ 22) : sector b = b := by
  unfold sector
  simp only [BSIZE]
  omega

theorem isData_iff {b : ℕ} : sb.IsData b ↔ nmeta ≤ b ∧ b < FSSIZE := by
  rw [Superblock.IsData, sb_datastart, sb_size]

section
variable {α : Type} {Q : α → State → Prop} {E : Fail → Prop} {b : ℕ}

theorem rsect_bind {f : Block → M α} (hlen : s.len = FSSIZE) (hb : b < FSSIZE)
    (h : Sat (f (s.img b)) s Q E) : Sat (rsect b >>= f) s Q E := by
  have hs : sector b = b := sector_eq (hb.trans (by decide))
  unfold rsect
  rw [bind_assoc]
  refine Sat.get_bind ?_
  rw [hs, if_pos (hlen ▸ hb)]
  exact h

theorem rsect_die {f : Block → M α} (hlen : s.len = FSSIZE) (hb : FSSIZE ≤ b) (hb' : b < 2 ^ 22)
    (h : E .die) : Sat (rsect b >>= f) s Q E := by
  unfold rsect
  rw [bind_assoc]
  refine Sat.get_bind ?_
  rw [sector_eq hb', if_neg (by omega)]
  exact h

theorem set_bind {f : Unit → M α} (h : Sat (f ()) t Q E) : Sat (set t >>= f) s Q E := h

def State.put (s : State) (b : ℕ) (x : Block) : State :=
  { s with img := update s.img b x }

theorem wsect_sat {x : Block} {Q : Unit → State → Prop} (hlen : s.len = FSSIZE) (hb : b < FSSIZE)
    (h : Q () (s.put b x)) : Sat (wsect b x) s Q E := by
  have hs : sector b = b := sector_eq (hb.trans (by decide))
  have hmax : max s.len (b + 1) = s.len := by omega
  change Q () { s with img := update s.img (sector b) x, len := max s.len (sector b + 1) }
  rw [hs, hmax]
  exact h

theorem wsect_bind {x : Block} {f : Unit → M α} (hlen : s.len = FSSIZE) (hb : b < FSSIZE)
    (h : Sat (f ()) (s.put b x) Q E) : Sat (wsect b x >>= f) s Q E :=
  Sat.bind (R := fun _ t => t = s.put b x) (wsect_sat hlen hb rfl) fun _ _ ht => ht ▸ h

theorem IBLOCK_lt_size (hi : i < NINODES) : sb.IBLOCK i < FSSIZE := by
  rw [← sb_size]
  exact (IBLOCK_range (sb_ninodes ▸ hi)).2

def vol (s : State) : Vol := { diskVol sb s.img with bit := fun b => decide (b < s.freeblock) }

def cur (s : State) (i : ℕ) (din : Dinode) (off : ℕ) : Vol :=
  (vol s).setNode i { din with size := BitVec.ofNat 32 off }

theorem vol_data (s : State) {b : ℕ} (hb : sb.IsData b) : (vol s).data b = s.img b := if_pos hb

theorem vol_putData (s : State) {b : ℕ} (hb : sb.IsData b) (x : Block) :
    vol (s.put b x) = { vol s with data := update (vol s).data b x } := by
  simp only [vol, State.put, diskVol_data s.img hb x]
  rfl

theorem vol_node (s : State) (hi : i < NINODES) :
    (vol s).node i = readDinode (s.img (sb.IBLOCK i)) (i % IPB) :=
  if_pos (sb_ninodes ▸ hi)

theorem vol_putNode (s : State) (hi : i < NINODES) (d : Dinode) :
    vol (s.put (sb.IBLOCK i) (writeDinode (s.img (sb.IBLOCK i)) (i % IPB) d)) =
      (vol s).setNode i d := by
  simp only [vol, State.put, diskVol_dinode s.img (sb_ninodes ▸ hi) d]
  rfl

theorem rinode_bind {f : Dinode → M α} (hlen : s.len = FSSIZE) (hi : i < NINODES)
    (h : Sat (f ((vol s).node i)) s Q E) : Sat (rinode i >>= f) s Q E := by
  unfold rinode
  rw [bind_assoc]
  refine rsect_bind hlen (IBLOCK_lt_size hi) ?_
  rw [vol_node s hi] at h
  exact h

def SameHead (s t : State) : Prop := ∀ b < sb.inodestart, t.img b = s.img b

theorem sameHead_put (s : State) (hb : sb.inodestart ≤ b) (x : Block) : SameHead s (s.put b x) :=
  fun _ hc => update_of_ne (by omega) _ _

theorem winode_sat {d : Dinode} {Q : Unit → State → Prop} (hlen : s.len = FSSIZE) (hi : i < NINODES)
    (h : ∀ t, vol t = (vol s).setNode i d → SameHead s t → t.len = s.len →
      t.freeinode = s.freeinode → t.freeblock = s.freeblock → Q () t) : Sat (winode i d) s Q E :=
  rsect_bind hlen (IBLOCK_lt_size hi) (wsect_sat hlen (IBLOCK_lt_size hi)
    (h _ (vol_putNode s hi d) (sameHead_put s (IBLOCK_range (sb_ninodes ▸ hi)).1 _) rfl rfl rfl))

end

structure Core (s : State) (v : Vol) : Prop where
  len : s.len = FSSIZE
  bit : v.bit = fun b => decide (b < s.freeblock)
  data : v.data = (vol s).data
  low : nmeta ≤ s.freeblock
  high : s.freeblock ≤ FSSIZE
  zero : ∀ b, s.freeblock ≤ b → v.data b = zeroes
  owned : Owned sb v.place v.bit
  head : ∀ b < sb.inodestart, s.img b = if b = 1 then superBlock else zeroes

structure Adds (i : ℕ) (L : List ℕ) (s : State) (v : Vol) (t : State) (w : Vol) : Prop where
  core : Core t w
  inode : t.freeinode = s.freeinode
  block : t.freeblock = s.freeblock + L.length
  grows : Grows sb i v w
  place : ∀ k l, (k, l) ∈ places sb →
    (w.place (k, l) ≠ 0 ↔ v.place (k, l) ≠ 0 ∨ k = i ∧ l ∈ L)

theorem Adds.refl (h : Core s v) : Adds i [] s v s v where
  core := h
  inode := rfl
  block := rfl
  grows := Grows.refl _ _ _
  place k l _ := by simp

theorem Adds.trans {x : Vol} {L L' : List ℕ} (h : Adds i L s v t w) (h' : Adds i L' t w u x) :
    Adds i (L ++ L') s v u x where
  core := h'.core
  inode := h'.inode.trans h.inode
  block := by
    rw [h'.block, h.block, length_append]
    omega
  grows := h.grows.trans h'.grows
  place k l hp := by
    rw [h'.place k l hp, h.place k l hp, mem_append]
    tauto

def State.take (s : State) : State := { s with freeblock := s.freeblock + 1 }

variable {E : Fail → Prop}

theorem nextBlock_bind {α : Type} {Q : α → State → Prop} {f : ℕ → M α}
    (h : Sat (f s.freeblock) s.take Q E) : Sat (nextBlock >>= f) s Q E := h

theorem vol_take (h : (vol s).data s.freeblock = zeroes) : vol s.take = (vol s).alloc s.freeblock := by
  have hbit : (vol s.take).bit = update (vol s).bit s.freeblock true := by
    funext c
    rw [update_apply]
    change decide (c < s.freeblock + 1) = if c = s.freeblock then true else decide (c < s.freeblock)
    split
    · rename_i hc
      simp [hc]
    · rw [decide_eq_decide]
      omega
  have hdata : (vol s.take).data = update (vol s).data s.freeblock zeroes := by
    rw [← h, update_eq_self]
    rfl
  rw [Vol.alloc, ← hbit]
  exact congrArg (fun d => ({ vol s with bit := (vol s.take).bit, data := d } : Vol)) hdata

theorem Core.adds {p : ℕ × ℕ} (h : Core s v) (hb : s.freeblock < FSSIZE) (hp : p ∈ places sb)
    (h0 : v.place p = 0) (hlen : t.len = s.len) (hi : t.freeinode = s.freeinode)
    (ht : t.freeblock = s.freeblock + 1) (hbit : w.bit = (v.alloc s.freeblock).bit)
    (hdata : w.data = (vol t).data) (hzero : ∀ b, s.freeblock < b → w.data b = zeroes)
    (hhead : SameHead s t) (hg : Grows sb p.1 v w)
    (hplace : ∀ q ∈ places sb, w.place q = update v.place p s.freeblock q) :
    Adds p.1 [p.2] s v t w where
  core :=
    { len := hlen.trans h.len
      bit := by
        funext c
        rw [hbit, ht]
        change update v.bit s.freeblock true c = _
        rw [update_apply, h.bit]
        split
        · rename_i hc
          simp [hc]
        · rw [decide_eq_decide]
          omega
      data := hdata
      low := by
        have := h.low
        omega
      high := by omega
      zero := fun b hlt => hzero b (by omega)
      owned := by
        have hbit0 : v.bit s.freeblock = false := by simp [h.bit]
        rw [hbit]
        exact (h.owned.alloc (isData_iff.mpr ⟨h.low, hb⟩) hbit0 hp h0).congr hplace
      head := fun b hb => (hhead b hb).trans (h.head b hb) }
  inode := hi
  block := ht
  grows := hg
  place k l hkl := by
    have hpos : s.freeblock ≠ 0 := by
      have hlow := h.low
      simp only [nmeta] at hlow
      omega
    rw [hplace _ hkl, update_apply, mem_singleton]
    split
    · rename_i he
      subst he
      exact ⟨fun _ => .inr ⟨rfl, rfl⟩, fun _ => hpos⟩
    · rename_i hne
      exact ⟨.inl, fun h => h.elim id fun h => absurd (Prod.ext h.1 h.2) hne⟩

theorem toNat_ofNat {b : ℕ} (hb : b ≤ FSSIZE) : (BitVec.ofNat 32 b).toNat = b := by
  rw [BitVec.toNat_ofNat, Nat.mod_eq_of_lt (lt_of_le_of_lt hb (by decide))]

section
variable (h : Core s (cur s i din off)) (hi : i < NINODES) (ht : din.type ≠ 0)
include h hi ht

theorem Core.isData_last (ha : din.addrs (Fin.last NDIRECT) ≠ 0) :
    sb.IsData (din.addrs (Fin.last NDIRECT)).toNat := by
  have hnode : (cur s i din off).node i = { din with size := BitVec.ofNat 32 off } :=
    Vol.setNode_node_self _ _ _
  have hlast : (cur s i din off).place (i, NDIRECT) = (din.addrs (Fin.last NDIRECT)).toNat := by
    rw [place_last _ (by rwa [hnode]), hnode]
  rw [← hlast]
  refine h.owned.data _ (mem_places (sb_ninodes ▸ hi) (by decide)) ?_
  rw [hlast]
  exact fun h0 => ha (BitVec.eq_of_toNat_eq h0)

theorem Core.fillAddr {j : Fin (NDIRECT + 1)} (h0 : din.addrs j = 0) (hb : s.freeblock < FSSIZE) :
    Adds i [j.val] s (cur s i din off) s.take
      (cur s.take i (din.setAddr j (BitVec.ofNat 32 s.freeblock)) off) := by
  have hin : i < sb.ninodes := sb_ninodes ▸ hi
  have hnode : (cur s i din off).node i = { din with size := BitVec.ofNat 32 off } :=
    Vol.setNode_node_self _ _ _
  have hty : ((cur s i din off).node i).type ≠ 0 := by rwa [hnode]
  have ha : ((cur s i din off).node i).addrs j = 0 := by rwa [hnode]
  have hdata : sb.IsData s.freeblock := isData_iff.mpr ⟨h.low, hb⟩
  have hbit : (cur s i din off).bit s.freeblock = false := by simp [h.bit]
  -- a block that was never written is as good as a zeroed one
  have hvol : vol s.take = (vol s).alloc s.freeblock := vol_take (h.zero _ (le_refl _))
  have hw : cur s.take i (din.setAddr j (BitVec.ofNat 32 s.freeblock)) off =
      ((cur s i din off).alloc s.freeblock).setAddr i j s.freeblock := by
    rw [cur, hvol, Vol.setAddr]
    simp only [Vol.alloc, cur, Vol.setNode, update_idem, update_self]
    rfl
  have h0' : (cur s i din off).place (i, j.val) = 0 := by
    rw [place_of_addr hty, ha]
    rfl
  rw [hw]
  refine h.adds (p := (i, j.val)) hb (mem_places hin (by have := j.isLt; omega)) h0' rfl rfl rfl rfl ?_ ?_
    (fun _ _ => rfl) (grows_setAddr h.owned hin hty ha hdata hbit)
    fun q hq => place_setAddr h.owned hin hty ha hdata hbit hq
  · rw [hvol]
    rfl
  · intro b hlt
    change update (cur s i din off).data s.freeblock zeroes b = zeroes
    rw [update_of_ne (by omega), h.zero b (by omega)]

theorem Core.fillEntry {j : ℕ} (ha : din.addrs (Fin.last NDIRECT) ≠ 0) (hj : j < NINDIRECT)
    (h0 : (cur s i din off).place (i, NDIRECT + 1 + j) = 0) (hb : s.freeblock < FSSIZE) :
    let ind := (din.addrs (Fin.last NDIRECT)).toNat
    let t := s.take.put ind (putWord (s.img ind) (4 * j) (BitVec.ofNat 32 s.freeblock))
    Adds i [NDIRECT + 1 + j] s (cur s i din off) t (cur t i din off) := by
  intro ind t
  set x := putWord (s.img ind) (4 * j) (BitVec.ofNat 32 s.freeblock)
  have hin : i < sb.ninodes := sb_ninodes ▸ hi
  have hnode : (cur s i din off).node i = { din with size := BitVec.ofNat 32 off } :=
    Vol.setNode_node_self _ _ _
  have hty : ((cur s i din off).node i).type ≠ 0 := by rwa [hnode]
  have ha' : ((cur s i din off).node i).addrs (Fin.last NDIRECT) ≠ 0 := by rwa [hnode]
  have hdata : sb.IsData s.freeblock := isData_iff.mpr ⟨h.low, hb⟩
  have hind : sb.IsData ind := h.isData_last hi ht ha
  have hbit : (cur s i din off).bit s.freeblock = false := by simp [h.bit]
  have hvol : vol s.take = (vol s).alloc s.freeblock := vol_take (h.zero _ (le_refl _))
  have hlast : (cur s i din off).place (i, NDIRECT) = ind := by
    rw [place_last _ hty, hnode]
  have hpmem : (i, NDIRECT) ∈ places sb := mem_places hin (by decide)
  have hne : ind ≠ s.freeblock := hlast ▸ h.owned.fresh hdata hbit hpmem
  have hlt : ind < s.freeblock := by
    have hset := h.owned.bit_set hpmem (hlast ▸ hind.ne_zero)
    rw [hlast, h.bit] at hset
    exact of_decide_eq_true hset
  have hvolt : vol t = { (vol s).alloc s.freeblock with
      data := update ((vol s).alloc s.freeblock).data ind x } := by
    rw [← hvol]
    exact vol_putData s.take hind x
  have hx : x = putWord (((cur s i din off).alloc s.freeblock).data ind) (4 * j)
      (BitVec.ofNat 32 s.freeblock) := by
    have hd : ((cur s i din off).alloc s.freeblock).data ind = (vol s).data ind :=
      update_of_ne hne _ _
    rw [hd, vol_data s hind]
  have hw : cur t i din off = ((cur s i din off).alloc s.freeblock).setEntry
      ((cur s i din off).place (i, NDIRECT)) j s.freeblock := by
    rw [hlast, Vol.setEntry, ← hx, cur, hvolt]
    rfl
  rw [hw]
  refine h.adds (p := (i, NDIRECT + 1 + j)) hb (mem_places hin (by omega)) h0 rfl rfl rfl rfl ?_ ?_
    (sameHead_put s.take (IsData.range hind).1 _) (grows_setEntry h.owned hin hty ha' hj h0 hdata hbit)
    fun q hq => place_setEntry h.owned hin hty ha' hj hdata hbit hq
  · rw [hvolt, hlast, Vol.setEntry, ← hx]
    rfl
  · intro b hb'
    rw [hlast]
    have hb1 : b ≠ ind := by omega
    have hb2 : b ≠ s.freeblock := by omega
    simp only [Vol.setEntry, Vol.alloc, update_of_ne hb1, update_of_ne hb2]
    exact h.zero b (by omega)

end

def fileBlock (l : ℕ) : ℕ := if l ≤ NDIRECT then l else l - 1

def missing (off : ℕ) : List ℕ :=
  if off % BSIZE = 0 then
    if off / BSIZE < NDIRECT then [off / BSIZE]
    else if off / BSIZE = NDIRECT then [NDIRECT, NDIRECT + 1]
    else [off / BSIZE + 1]
  else []

theorem mem_missing {l : ℕ} : l ∈ missing off ↔ fileBlock l * BSIZE = off := by
  have hl : fileBlock l = l ∧ l ≤ NDIRECT ∨ fileBlock l + 1 = l ∧ NDIRECT < l := by
    unfold fileBlock
    split <;> omega
  unfold missing
  split_ifs with h h1 h2
  · rw [mem_singleton]
    simp only [BSIZE, NDIRECT] at *
    omega
  · rw [mem_pair]
    simp only [BSIZE, NDIRECT] at *
    omega
  · rw [mem_singleton]
    simp only [BSIZE, NDIRECT] at *
    omega
  · simp only [not_mem_nil, false_iff, BSIZE] at *
    omega

def Uses (v : Vol) (i off : ℕ) : Prop :=
  ∀ l < NDIRECT + 1 + NINDIRECT, v.place (i, l) ≠ 0 ↔ fileBlock l * BSIZE < off

def FoundBlock (s : State) (i off : ℕ) (v : Vol) (r : Dinode × ℕ) (t : State) : Prop :=
  (r.1.type ≠ 0 ∧ Adds i (missing off) s v t (cur t i r.1 off) ∧
    (cur t i r.1 off).block i (off / BSIZE) = r.2 ∧ r.2 ≠ 0) ∨
  (FSSIZE < s.freeblock + (missing off).length ∧ t.len = FSSIZE ∧ r.2 = FSSIZE)

theorem cur_node (s : State) (i : ℕ) (din : Dinode) (off : ℕ) :
    (cur s i din off).node i = { din with size := BitVec.ofNat 32 off } :=
  Vol.setNode_node_self _ _ _

theorem cur_place_addr (s : State) (i : ℕ) (off : ℕ) (ht : din.type ≠ 0) (j : Fin (NDIRECT + 1)) :
    (cur s i din off).place (i, j.val) = (din.addrs j).toNat := by
  rw [place_of_addr (by rwa [cur_node]), cur_node]

theorem cur_place_entry (h : Core s (cur s i din off)) (hi : i < NINODES) (ht : din.type ≠ 0)
    (ha : din.addrs (Fin.last NDIRECT) ≠ 0) (j : ℕ) :
    (cur s i din off).place (i, NDIRECT + 1 + j) =
      (getWord (s.img (din.addrs (Fin.last NDIRECT)).toNat) (4 * j)).toNat := by
  rw [Vol.place_entry (by rwa [cur_node]) (by rwa [cur_node]), cur_node, h.data,
    vol_data s (h.isData_last hi ht ha)]

theorem missing_direct (h : off / BSIZE < NDIRECT) :
    missing off = if off / BSIZE * BSIZE < off then [] else [off / BSIZE] := by
  unfold missing
  split_ifs
  all_goals simp only [BSIZE, NDIRECT] at *
  all_goals omega

theorem missing_indirect (h : NDIRECT ≤ off / BSIZE) :
    missing off = (if NDIRECT * BSIZE < off then [] else [NDIRECT]) ++
      if off / BSIZE * BSIZE < off then [] else [off / BSIZE + 1] := by
  unfold missing
  split_ifs with h1 h2 h3 h4 h5
  all_goals
    simp only [BSIZE, NDIRECT] at *
    try omega
  all_goals simp_all

theorem fillAddr_sat (h : Core s (cur s i din off)) (hi : i < NINODES) (ht : din.type ≠ 0)
    (j : Fin (NDIRECT + 1)) :
    Sat (fillAddr din j) s (fun d t => d.type ≠ 0 ∧ t.len = FSSIZE ∧
      ((d.addrs j ≠ 0 ∧ Adds i (if din.addrs j = 0 then [j.val] else []) s (cur s i din off) t
        (cur t i d off)) ∨
      din.addrs j = 0 ∧ s.freeblock = FSSIZE ∧ (d.addrs j).toNat = FSSIZE)) fun _ => False := by
  have haddr : ((din.setAddr j (BitVec.ofNat 32 s.freeblock)).addrs j).toNat = s.freeblock := by
    simp only [Dinode.setAddr, update_self]
    exact toNat_ofNat h.high
  have hlow := h.low
  unfold fillAddr
  refine Sat.ite (fun h0 => nextBlock_bind (Sat.pure ⟨ht, h.len, ?_⟩)) fun h0 =>
    Sat.pure ⟨ht, h.len, .inl ⟨h0, ?_⟩⟩
  · rcases Nat.lt_or_eq_of_le h.high with hb | hb
    · refine .inl ⟨fun hz => ?_, ?_⟩
      · rw [hz] at haddr
        simp only [nmeta] at hlow
        have : (0 : BitVec 32).toNat = 0 := rfl
        omega
      · rw [if_pos h0]
        exact h.fillAddr hi ht h0 hb
    · exact .inr ⟨h0, hb, haddr.trans hb⟩
  · rw [if_neg h0]
    exact Adds.refl h

theorem entry_sat (h : Core s (cur s i din off)) (hi : i < NINODES) (ht : din.type ≠ 0)
    (ha : din.addrs (Fin.last NDIRECT) ≠ 0) {j : ℕ} (hj : j < NINDIRECT) : Sat (do
      let indirect ← rsect (din.addrs (Fin.last NDIRECT)).toNat
      if getWord indirect (4 * j) = 0 then do
        let b ← nextBlock
        let indirect := putWord indirect (4 * j) (BitVec.ofNat 32 b)
        wsect (din.addrs (Fin.last NDIRECT)).toNat indirect
        return (din, (getWord indirect (4 * j)).toNat)
      else return (din, (getWord indirect (4 * j)).toNat)) s
      (fun r t => r.1 = din ∧ t.len = FSSIZE ∧
        ((r.2 ≠ 0 ∧ (cur t i din off).place (i, NDIRECT + 1 + j) = r.2 ∧
          Adds i (if (cur s i din off).place (i, NDIRECT + 1 + j) = 0 then [NDIRECT + 1 + j] else [])
            s (cur s i din off) t (cur t i din off)) ∨
        (cur s i din off).place (i, NDIRECT + 1 + j) = 0 ∧ s.freeblock = FSSIZE ∧ r.2 = FSSIZE)) E := by
  have hind := isData_iff.mp (h.isData_last hi ht ha)
  have hentry := cur_place_entry h hi ht ha j
  have hfit : 4 * j + 4 ≤ BSIZE := by
    simp only [NINDIRECT, BSIZE] at hj ⊢
    omega
  refine rsect_bind h.len hind.2 (Sat.ite (fun h0 => nextBlock_bind ?_) fun h0 => Sat.pure ?_)
  · have hz : (cur s i din off).place (i, NDIRECT + 1 + j) = 0 := by
      rw [hentry, h0]
      rfl
    refine wsect_bind h.len hind.2 (Sat.pure ⟨rfl, h.len, ?_⟩)
    rw [getWord_putWord _ _ hfit, toNat_ofNat h.high]
    rcases Nat.lt_or_eq_of_le h.high with hb | hb
    · have hadd := h.fillEntry hi ht ha hj hz hb
      refine .inl ⟨?_, ?_, ?_⟩
      · have hlow := h.low
        simp only [nmeta] at hlow
        dsimp only
        omega
      · rw [cur_place_entry hadd.core hi ht ha]
        simp only [State.put, update_self]
        rw [getWord_putWord _ _ hfit, toNat_ofNat h.high]
      · rw [if_pos hz]
        exact hadd
    · exact .inr ⟨hz, hb, hb⟩
  · have hne : (getWord (s.img (din.addrs (Fin.last NDIRECT)).toNat) (4 * j)).toNat ≠ 0 :=
      fun hz => h0 (BitVec.eq_of_toNat_eq hz)
    refine ⟨rfl, h.len, .inl ⟨hne, hentry, ?_⟩⟩
    rw [if_neg (by rwa [hentry])]
    exact Adds.refl h

theorem toNat_eq_zero {a : BitVec 32} : a.toNat = 0 ↔ a = 0 :=
  ⟨fun h => BitVec.eq_of_toNat_eq h, fun h => h ▸ rfl⟩

theorem Uses.zero_iff (h : Uses v i off) {l : ℕ} (hl : l < NDIRECT + 1 + NINDIRECT) :
    v.place (i, l) = 0 ↔ ¬ fileBlock l * BSIZE < off := by
  rw [← h l hl, not_not]

theorem findBlock_sat (h : Core s (cur s i din off)) (hi : i < NINODES) (ht : din.type ≠ 0)
    (hu : Uses (cur s i din off) i off) (hmax : off / BSIZE < MAXFILE) :
    Sat (findBlock din (off / BSIZE)) s (FoundBlock s i off (cur s i din off))
      fun _ => FSSIZE < s.freeblock + (missing off).length := by
  unfold findBlock
  refine Sat.ite (fun hd => ?_) fun hd => ?_
  · set j := Fin.ofNat (NDIRECT + 1) (off / BSIZE) with hj
    have hval : j.val = off / BSIZE := by
      rw [hj, Fin.val_ofNat, Nat.mod_eq_of_lt (by omega)]
    have hL : (if din.addrs j = 0 then [j.val] else []) = missing off := by
      have h0 := hu.zero_iff (l := off / BSIZE) (by omega)
      rw [← hval, cur_place_addr s i off ht, toNat_eq_zero, fileBlock,
        if_pos (by omega)] at h0
      rw [missing_direct hd, ← hval]
      simp only [h0, ite_not]
    refine Sat.bind ((fillAddr_sat h hi ht j).weaken nofun) ?_
    rintro d t ⟨hdt, hlen, hcase⟩
    refine Sat.pure ?_
    rcases hcase with ⟨hne, hadd⟩ | ⟨h0, hfull, hx⟩
    · refine .inl ⟨hdt, hL ▸ hadd, ?_, fun hz => hne (toNat_eq_zero.mp hz)⟩
      rw [Vol.block, blockPlace, if_pos hd, ← hval, cur_place_addr t i off hdt]
    · refine .inr ⟨?_, hlen, hx⟩
      rw [← hL, if_pos h0, length_singleton]
      omega
  · have hlast : (Fin.last NDIRECT).val = NDIRECT := rfl
    have hjn : off / BSIZE - NDIRECT < NINDIRECT := by
      rw [MAXFILE] at hmax
      omega
    have hL : (if din.addrs (Fin.last NDIRECT) = 0 then [NDIRECT] else []) =
        if NDIRECT * BSIZE < off then [] else [NDIRECT] := by
      have h0 := hu.zero_iff (l := NDIRECT) (by omega)
      rw [← hlast, cur_place_addr s i off ht, toNat_eq_zero, hlast, fileBlock,
        if_pos (le_refl _)] at h0
      simp only [h0, ite_not]
    have hL' : (if (cur s i din off).place (i, NDIRECT + 1 + (off / BSIZE - NDIRECT)) = 0 then
        [NDIRECT + 1 + (off / BSIZE - NDIRECT)] else []) =
        if off / BSIZE * BSIZE < off then [] else [off / BSIZE + 1] := by
      rw [show NDIRECT + 1 + (off / BSIZE - NDIRECT) = off / BSIZE + 1 by omega]
      have h0 := hu.zero_iff (l := off / BSIZE + 1) (by omega)
      rw [fileBlock, if_neg (by omega), Nat.add_sub_cancel] at h0
      simp only [h0, ite_not]
    refine Sat.bind ((fillAddr_sat h hi ht (Fin.last NDIRECT)).weaken nofun) ?_
    rintro d t ⟨hdt, hlen, hcase⟩
    rcases hcase with ⟨hne, hadd⟩ | ⟨h0, hfull, hx⟩
    · rw [hlast, hL] at hadd
      have hplace : (cur t i d off).place (i, NDIRECT + 1 + (off / BSIZE - NDIRECT)) = 0 ↔
          (cur s i din off).place (i, NDIRECT + 1 + (off / BSIZE - NDIRECT)) = 0 := by
        have hp := hadd.place i (NDIRECT + 1 + (off / BSIZE - NDIRECT))
          (mem_places (sb_ninodes ▸ hi) (by omega))
        have hnot : NDIRECT + 1 + (off / BSIZE - NDIRECT) ∉
            if NDIRECT * BSIZE < off then [] else [NDIRECT] := by
          split
          · exact not_mem_nil
          · rw [mem_singleton]
            omega
        tauto
      refine (entry_sat hadd.core hi hdt hne hjn).post ?_
      rintro ⟨d', x⟩ u ⟨rfl, hlen', hcase'⟩
      simp only [hplace, hL'] at hcase'
      rcases hcase' with ⟨hx, hblk, hadd'⟩ | ⟨h0, hfull, hx⟩
      · refine .inl ⟨hdt, ?_, ?_, hx⟩
        · rw [missing_indirect (not_lt.mp hd)]
          exact hadd.trans hadd'
        · rw [Vol.block, blockPlace, if_neg hd, ← hblk,
            show NDIRECT + 1 + (off / BSIZE - NDIRECT) = off / BSIZE + 1 by omega]
      · refine .inr ⟨?_, hlen', hx⟩
        rw [if_pos h0] at hL'
        rw [missing_indirect (not_lt.mp hd), ← hL', length_append, length_singleton,
          ← Nat.add_assoc, ← hadd.block]
        omega
    · refine rsect_die hlen hx.ge (by rw [hx]; decide) ?_
      rw [if_pos h0] at hL
      rw [missing_indirect (not_lt.mp hd), ← hL, length_append, length_singleton]
      omega

def blocksFor (n : ℕ) : ℕ := (n + (BSIZE - 1)) / BSIZE + if NDIRECT * BSIZE < n then 1 else 0

def demand (F : ℕ → Node) : ℕ := ∑ k ∈ Finset.range NINODES, blocksFor (F k).bytes.length

def grow (F : ℕ → Node) (i : ℕ) (p : List Byte) : ℕ → Node :=
  update F i { F i with bytes := (F i).bytes ++ p }

def Fits (F : ℕ → Node) : Prop :=
  nmeta + demand F ≤ FSSIZE ∧ ∀ k < NINODES, (F k).bytes.length ≤ MAXFILE * BSIZE

theorem blocksFor_mono {m n : ℕ} (h : m ≤ n) : blocksFor m ≤ blocksFor n := by
  unfold blocksFor
  have : (m + (BSIZE - 1)) / BSIZE ≤ (n + (BSIZE - 1)) / BSIZE := Nat.div_le_div_right (by omega)
  split_ifs <;> omega

theorem blocksFor_add {n1 : ℕ} (hpos : 0 < n1) (hle : off % BSIZE + n1 ≤ BSIZE) :
    blocksFor (off + n1) = blocksFor off + (missing off).length := by
  have hd : (off + n1 + (BSIZE - 1)) / BSIZE = (off + (BSIZE - 1)) / BSIZE +
      if off % BSIZE = 0 then 1 else 0 := by
    split
    all_goals simp only [BSIZE] at *
    all_goals omega
  unfold blocksFor missing
  rw [hd]
  split_ifs
  all_goals simp only [length_cons, length_nil, BSIZE, NDIRECT] at *
  all_goals omega

theorem Fits.mono {G : ℕ → Node} (h : Fits G)
    (hle : ∀ k < NINODES, (F k).bytes.length ≤ (G k).bytes.length) : Fits F := by
  refine ⟨?_, fun k hk => (hle k hk).trans (h.2 k hk)⟩
  have hd : demand F ≤ demand G :=
    Finset.sum_le_sum fun k hk => blocksFor_mono (hle k (Finset.mem_range.mp hk))
  have := h.1
  omega

theorem demand_update (hi : i < NINODES) (f : Node) :
    demand (update F i f) + blocksFor (F i).bytes.length =
      demand F + blocksFor f.bytes.length := by
  have hmem : i ∈ Finset.range NINODES := Finset.mem_range.mpr hi
  have hrest : ∀ k ∈ (Finset.range NINODES).erase i,
      blocksFor (update F i f k).bytes.length = blocksFor (F k).bytes.length := fun k hk => by
    rw [update_of_ne (Finset.ne_of_mem_erase hk)]
  unfold demand
  rw [← Finset.add_sum_erase _ _ hmem, ← Finset.add_sum_erase _ (fun k => blocksFor (F k).bytes.length)
    hmem, Finset.sum_congr rfl hrest, update_self]
  omega

theorem grow_self (F : ℕ → Node) (i : ℕ) (p : List Byte) :
    grow F i p i = { F i with bytes := (F i).bytes ++ p } := update_self _ _ _

theorem grow_of_ne (F : ℕ → Node) (p : List Byte) {k : ℕ} (h : k ≠ i) : grow F i p k = F k :=
  update_of_ne h _ _

theorem grow_grow (F : ℕ → Node) (i : ℕ) (p q : List Byte) :
    grow (grow F i p) i q = grow F i (p ++ q) := by
  rw [grow, grow_self, grow, update_idem, append_assoc]
  rfl

theorem grow_nil (F : ℕ → Node) (i : ℕ) : grow F i [] = F := by
  rw [grow, append_nil]
  exact update_eq_self i F

/-- The image holds the files `F`, with the blocks that they need and no others. -/
structure Inv (F : ℕ → Node) (s : State) (v : Vol) : Prop extends Core s v where
  files : ∀ k < NINODES, v.file k = F k
  uses : ∀ k < NINODES, Uses v k (F k).bytes.length
  small : ∀ k < NINODES, (F k).bytes.length ≤ MAXFILE * BSIZE
  count : s.freeblock = nmeta + demand F

namespace Inv

theorem fits (h : Inv F s v) : Fits F := ⟨h.count ▸ h.high, h.small⟩

theorem size (h : Inv F s v) {k : ℕ} (hk : k < NINODES) (ht : (v.node k).type ≠ 0) :
    (v.node k).size.toNat = (F k).bytes.length := by
  rw [← h.files k hk, Vol.file_of_ne ht]
  simp

theorem block_ne (h : Inv F s v) {k j : ℕ} (hk : k < NINODES) (hj : j < MAXFILE) :
    v.block k j ≠ 0 ↔ j * BSIZE < (F k).bytes.length := by
  rw [Vol.block, h.uses k hk _ (blockPlace_lt hj)]
  have : fileBlock (blockPlace j) = j := by
    unfold fileBlock blockPlace
    split_ifs <;> omega
  rw [this]

theorem wf (h : Inv F s v) : Wf sb v where
  owned := h.owned
  full k hk ht j hj := by
    rw [sb_ninodes] at hk
    rw [h.size hk ht] at hj
    have hs := h.small k hk
    refine (h.block_ne hk ?_).mpr hj
    simp only [BSIZE] at hj hs
    omega
  small k hk ht := by
    rw [sb_ninodes] at hk
    rw [h.size hk ht]
    exact h.small k hk
  metadata b hb := by
    rw [sb_datastart] at hb
    rw [h.bit]
    exact decide_eq_true (lt_of_lt_of_le hb h.low)

end Inv

section
variable {d : Dinode} {x n1 : ℕ} {p : List Byte}

def State.copy (t : State) (x off n1 : ℕ) (p : List Byte) : State :=
  t.put x (patch (t.img x) (off % BSIZE) n1 fun k => p.getD k 0)

variable (hc : Core t (cur t i d off)) (hi : i < NINODES) (hd : d.type ≠ 0)
  (hmax : off / BSIZE < MAXFILE) (hx : (cur t i d off).block i (off / BSIZE) = x) (hx0 : x ≠ 0)
include hc hi hmax hx hx0

theorem Core.isData_block : sb.IsData x :=
  hx ▸ hc.owned.data _ (mem_places (sb_ninodes ▸ hi) (blockPlace_lt hmax)) (by rwa [← hx] at hx0)

theorem cur_copy :
    cur (t.copy x off n1 p) i d (off + n1) =
      Vol.setNode { cur t i d off with
        data := update (cur t i d off).data x (patch ((cur t i d off).data x)
          (off % BSIZE) n1 fun k => p.getD k 0) } i { d with size := BitVec.ofNat 32 (off + n1) } := by
  have hdata := hc.isData_block hi hmax hx hx0
  rw [hc.data, vol_data t hdata, cur, State.copy, vol_putData t hdata]
  simp only [Vol.setNode, cur, update_idem]

include hd

theorem place_copy {q : ℕ × ℕ} (hq : q ∈ places sb) :
    (cur (t.copy x off n1 p) i d (off + n1)).place q = (cur t i d off).place q := by
  rw [cur_copy hc hi hmax hx hx0, Vol.place_setNode]
  · subst hx
    exact place_update (fun k hk => hc.owned.block_ne_last (sb_ninodes ▸ hi) hmax hk hx0) hq
  all_goals simp only [cur_node]
  all_goals assumption

theorem byte_copy (hle : off % BSIZE + n1 ≤ BSIZE) {k o : ℕ} (hk : k < NINODES)
    (ho : o / BSIZE < MAXFILE) :
    (cur (t.copy x off n1 p) i d (off + n1)).byte k o =
      if k = i ∧ off ≤ o ∧ o < off + n1 then p.getD (o - off) 0 else (cur t i d off).byte k o := by
  rw [cur_copy hc hi hmax hx hx0, Vol.byte_setNode]
  · subst hx
    rw [Vol.byte_putData hc.owned (sb_ninodes ▸ hi) hmax hx0 (sb_ninodes ▸ hk) ho]
    -- the bytes copied stay within one block
    have hblk : off ≤ o → o < off + n1 →
        o / BSIZE = off / BSIZE ∧ o % BSIZE = off % BSIZE + (o - off) := by
      simp only [BSIZE] at hle ⊢
      omega
    by_cases hin : off ≤ o ∧ o < off + n1
    · obtain ⟨hdiv, hmod⟩ := hblk hin.1 hin.2
      simp only [hdiv, hin, and_self, and_true]
      split
      · rw [hmod, byteAt_patch_in _ _ (by omega) hle]
      · rfl
    · rw [if_neg (c := k = i ∧ off ≤ o ∧ o < off + n1) fun hc => hin hc.2]
      split
      · rename_i heq
        have hout : o % BSIZE < off % BSIZE ∨ off % BSIZE + n1 ≤ o % BSIZE := by
          have hdiv := heq.2
          simp only [BSIZE] at hdiv hin hle ⊢
          omega
        rw [byteAt_patch_out _ _ hout, Vol.byte, heq.1, heq.2]
      · rfl
  all_goals simp only [cur_node]
  all_goals assumption

theorem Core.copy : Core (t.copy x off n1 p) (cur (t.copy x off n1 p) i d (off + n1)) where
  len := hc.len
  bit := hc.bit
  data := rfl
  low := hc.low
  high := hc.high
  zero b hb := by
    have hb' : t.freeblock ≤ b := hb
    have hlt : x < t.freeblock := by
      have hset := hc.owned.bit_set (mem_places (sb_ninodes ▸ hi) (blockPlace_lt hmax))
        (by rwa [← hx] at hx0)
      rw [show (cur t i d off).place (i, blockPlace (off / BSIZE)) = x from hx, hc.bit] at hset
      exact of_decide_eq_true hset
    rw [cur_copy hc hi hmax hx hx0]
    exact (update_of_ne (by omega) _ _).trans (hc.zero b hb')
  owned := by
    have hbit : (cur (t.copy x off n1 p) i d (off + n1)).bit = (cur t i d off).bit := rfl
    rw [hbit]
    exact hc.owned.congr fun q hq => place_copy hc hi hd hmax hx hx0 hq
  head b hb := by
    have hdata := hc.isData_block hi hmax hx hx0
    exact (sameHead_put t (IsData.range hdata).1 _ b hb).trans (hc.head b hb)

end

variable {p : List Byte}

theorem bytes_append {f g : ℕ → Byte} {n1 : ℕ} (hn : n1 ≤ p.length)
    (hold : ∀ o < off, g o = f o) (hnew : ∀ k < n1, g (off + k) = p.getD k 0) :
    (List.range (off + n1)).map g = (List.range off).map f ++ p.take n1 := by
  rw [range_add, map_append, map_map,
    map_congr_left fun o ho => hold o (mem_range.mp ho)]
  congr 1
  refine ext_getElem (by simpa using hn) fun k hk hk' => ?_
  simp only [length_map, length_range] at hk
  simp only [getElem_map, getElem_range, getElem_take, comp]
  rw [hnew k hk, getD_eq_getElem?_getD, getElem?_eq_getElem (by omega), Option.getD_some]

theorem Inv.copy {d : Dinode} {x n1 : ℕ} (h : Inv F s (cur s i din off))
    (hi : i < NINODES) (hoff : (F i).bytes.length = off) (hmax : off / BSIZE < MAXFILE)
    (hd : d.type ≠ 0) (hadd : Adds i (missing off) s (cur s i din off) t (cur t i d off))
    (hx : (cur t i d off).block i (off / BSIZE) = x) (hx0 : x ≠ 0) (hpos : 0 < n1)
    (hn : n1 ≤ p.length) (hle : off % BSIZE + n1 ≤ BSIZE) :
    Inv (grow F i (p.take n1)) (t.copy x off n1 p) (cur (t.copy x off n1 p) i d (off + n1)) where
  toCore := hadd.core.copy hi hd hmax hx hx0
  files k hk := by
    have hin : i < sb.ninodes := sb_ninodes ▸ hi
    have hold : (cur t i d off).file k = F k := by
      rw [hadd.grows.file h.wf (sb_ninodes ▸ hk), h.files k hk]
    rcases eq_or_ne k i with rfl | hki
    · have h32 : ∀ m ≤ off + n1, (BitVec.ofNat 32 m).toNat = m := fun m hm => by
        rw [BitVec.toNat_ofNat, Nat.mod_eq_of_lt]
        simp only [BSIZE, MAXFILE, NDIRECT, NINDIRECT] at hmax hle
        omega
      rw [grow_self, ← hold, Vol.file_of_ne (by rwa [cur_node]), Vol.file_of_ne (by rwa [cur_node])]
      simp only [cur_node, h32 off (by omega), h32 (off + n1) (le_refl _)]
      congr 1
      refine bytes_append hn (fun o ho => ?_) fun c hc => ?_
      · rw [byte_copy hadd.core hi hd hmax hx hx0 hle hi, if_neg (by omega)]
        simp only [BSIZE] at hmax ⊢
        omega
      · rw [byte_copy hadd.core hi hd hmax hx hx0 hle hi, if_pos (by omega), Nat.add_sub_cancel_left]
        simp only [BSIZE] at hmax hle ⊢
        omega
    · rw [grow_of_ne F _ hki, ← hold]
      have hnode : (cur (t.copy x off n1 p) i d (off + n1)).node k = (cur t i d off).node k := by
        rw [cur_copy hadd.core hi hmax hx hx0]
        exact Vol.setNode_node_of_ne _ _ hki
      by_cases hty : ((cur t i d off).node k).type = 0
      · unfold Vol.file
        rw [hnode]
        dsimp only
        rw [if_pos hty, if_pos hty]
      · refine Vol.file_congr hnode fun o ho => ?_
        have hsz : ((cur t i d off).node k).size.toNat = (F k).bytes.length := by
          rw [← hold, Vol.file_of_ne hty]
          simp
        have hs := h.small k hk
        rw [byte_copy hadd.core hi hd hmax hx hx0 hle hk, if_neg fun hc => hki hc.1]
        simp only [BSIZE] at hs ⊢
        omega
  uses k hk l hl := by
    rw [place_copy hadd.core hi hd hmax hx hx0 (mem_places (sb_ninodes ▸ hk) hl),
      hadd.place k l (mem_places (sb_ninodes ▸ hk) hl), h.uses k hk l hl]
    rcases eq_or_ne k i with rfl | hki
    · rw [grow_self, mem_missing, hoff]
      simp only [length_append, length_take, hoff, min_eq_left hn, true_and]
      generalize fileBlock l = q
      simp only [BSIZE] at hle ⊢
      omega
    · rw [grow_of_ne F _ hki]
      exact ⟨fun hor => hor.elim id fun hc => absurd hc.1 hki, .inl⟩
  small k hk := by
    rcases eq_or_ne k i with rfl | hki
    · rw [grow_self]
      simp only [length_append, length_take, hoff]
      simp only [BSIZE, MAXFILE, NDIRECT, NINDIRECT] at hle hmax ⊢
      omega
    · rw [grow_of_ne F _ hki]
      exact h.small k hk
  count := by
    have hdem : demand (grow F i (p.take n1)) + _ = _ := demand_update hi _
    simp only [length_append, length_take, hoff] at hdem
    rw [min_eq_left hn, blocksFor_add hpos hle] at hdem
    have hb : (t.copy x off n1 p).freeblock = t.freeblock := rfl
    rw [hb, hadd.block, h.count]
    omega

theorem Inv.not_fits (h : Inv F s v) (hi : i < NINODES) (hoff : (F i).bytes.length = off)
    (hp : 0 < p.length) (hfull : FSSIZE < s.freeblock + (missing off).length) :
    ¬ Fits (grow F i p) := by
  intro hf
  have hdem : demand (grow F i p) + _ = _ := demand_update hi _
  simp only [length_append, hoff] at hdem
  have hone : blocksFor (off + 1) = blocksFor off + (missing off).length :=
    blocksFor_add Nat.one_pos (Nat.mod_lt _ (by decide))
  have hmono := blocksFor_mono (show off + 1 ≤ off + p.length by omega)
  have := hf.1
  have := h.count
  omega

theorem iappendLoop_sat {fuel : ℕ} (h : Inv F s (cur s i din off))
    (hi : i < NINODES) (ht : din.type ≠ 0) (hoff : (F i).bytes.length = off)
    (hfuel : p.length ≤ fuel) :
    Sat (iappendLoop fuel din off p) s (fun r t => Inv (grow F i p) t (cur t i r.1 r.2) ∧
      t.freeinode = s.freeinode) fun _ => ¬ Fits (grow F i p) := by
  induction fuel generalizing s din off p F with
  | zero =>
    rw [length_eq_zero_iff.mp (Nat.le_zero.mp hfuel), grow_nil]
    exact Sat.pure ⟨h, rfl⟩
  | succ fuel ih =>
    rw [iappendLoop]
    refine Sat.ite (fun hp => Sat.ite (fun hmax => ?_) fun hmax => Sat.throw fun hf => ?_) fun hp => ?_
    · have huse : Uses (cur s i din off) i off := hoff ▸ h.uses i hi
      have hn1 : (off / BSIZE + 1) * BSIZE - off = BSIZE - off % BSIZE := by
        simp only [BSIZE]
        omega
      have hsub : off - off / BSIZE * BSIZE = off % BSIZE := by
        simp only [BSIZE]
        omega
      have hmod : off % BSIZE < BSIZE := Nat.mod_lt _ (by decide)
      refine Sat.bind ((findBlock_sat h.toCore hi ht huse hmax).weaken fun _ hfull =>
        h.not_fits hi hoff hp hfull) ?_
      rintro ⟨d, x⟩ t (⟨hd, hadd, hx, hx0⟩ | ⟨hfull, hlen, hx⟩)
      · have hdata := isData_iff.mp (hadd.core.isData_block hi hmax hx hx0)
        refine rsect_bind hadd.core.len hdata.2 (wsect_bind hadd.core.len hdata.2 ?_)
        rw [hn1, hsub]
        set n1 := min p.length (BSIZE - off % BSIZE) with hn
        have hinv : Inv (grow F i (p.take n1)) (t.copy x off n1 p) _ :=
          h.copy hi hoff hmax hd hadd hx hx0 (by omega) (by omega) (by omega)
        have hrec := ih hinv hd (by
          rw [grow_self]
          simp only [length_append, length_take, hoff]
          omega) (p := p.drop n1) (by rw [length_drop]; omega)
        rw [grow_grow, take_append_drop] at hrec
        refine hrec.post fun r u hr => ⟨hr.1, hr.2.trans hadd.inode⟩
      · exact rsect_die hlen hx.ge (by rw [show x = FSSIZE from hx]; decide)
          (h.not_fits hi hoff hp hfull)
    · have hlen := hf.2 i hi
      rw [grow_self] at hlen
      simp only [length_append, hoff] at hlen
      simp only [BSIZE] at hlen hmax
      omega
    · rw [length_eq_zero_iff.mp (Nat.eq_zero_of_not_pos hp), grow_nil]
      exact Sat.pure ⟨h, rfl⟩

theorem Inv.of_vol (h : Inv F s v) (hv : vol t = v) (hh : SameHead s t) (hlen : t.len = s.len)
    (hb : t.freeblock = s.freeblock) : Inv F t (vol t) := by
  subst hv
  exact ⟨⟨hlen.trans h.len, rfl, rfl, hb ▸ h.low, hb ▸ h.high, hb ▸ h.zero, h.owned,
    fun b hb => (hh b hb).trans (h.head b hb)⟩, h.files, h.uses, h.small, hb.trans h.count⟩

theorem iappend_sat (h : Inv F s (vol s)) (hi : i < NINODES)
    (ht : (F i).type ≠ 0) : Sat (iappend i p) s (fun _ t => Inv (grow F i p) t (vol t) ∧
      t.freeinode = s.freeinode) fun _ => ¬ Fits (grow F i p) := by
  have hty : ((vol s).node i).type ≠ 0 := by
    rwa [← Vol.file_type, h.files i hi]
  have hcur : cur s i ((vol s).node i) ((vol s).node i).size.toNat = vol s := by
    rw [cur, BitVec.ofNat_toNat, BitVec.setWidth_eq]
    exact congrArg (fun n => ({ vol s with node := n } : Vol)) (update_eq_self _ _)
  unfold iappend
  refine rinode_bind h.len hi (Sat.bind (iappendLoop_sat (hcur.symm ▸ h) hi hty (h.size hi hty).symm
    (le_refl _)) ?_)
  rintro ⟨d, off⟩ t ⟨hinv, hino⟩
  exact winode_sat hinv.len hi fun u hu hh hlen hui hub =>
    ⟨hinv.of_vol hu hh hlen hub, hui.trans hino⟩

def fresh (F : ℕ → Node) (i : ℕ) (type : BitVec 16) : ℕ → Node :=
  update F i { type := type, nlink := 1 }

theorem ialloc_sat {type : BitVec 16} (h : Inv F s (vol s))
    (hi : s.freeinode < NINODES) (hfree : F s.freeinode = {}) (ht : type ≠ 0) :
    Sat (ialloc type) s (fun inum t => inum = s.freeinode ∧ t.freeinode = s.freeinode + 1 ∧
      Inv (fresh F inum type) t (vol t)) E := by
  set inum := s.freeinode
  set d : Dinode := { type := type, nlink := 1, size := 0 }
  have hty : ((vol s).node inum).type = 0 := by
    rw [← Vol.file_type, h.files inum hi, hfree]
  have hplace : ∀ q, ((vol s).setNode inum d).place q = (vol s).place q := by
    rintro ⟨k, l⟩
    rcases eq_or_ne k inum with rfl | hk
    · rw [Vol.place_of_addrs_zero fun j => by rw [Vol.setNode_node_self]]
      simp only [Vol.place, hty, if_true]
    · exact Vol.place_setNode_of_ne hk
  have hlen : ∀ k, (fresh F inum type k).bytes.length = (F k).bytes.length := by
    intro k
    rcases eq_or_ne k inum with rfl | hk
    · rw [fresh, update_self, hfree]
    · rw [fresh, update_of_ne hk]
  unfold ialloc
  refine Sat.get_bind (set_bind ?_)
  refine Sat.bind (R := fun _ t => t.freeinode = inum + 1 ∧ Inv (fresh F inum type) t (vol t)) ?_
    fun _ t ht => Sat.pure ⟨rfl, ht⟩
  refine winode_sat h.len hi fun t hv hh hl hino hb => ⟨hino, ?_⟩
  have hv' : vol t = (vol s).setNode inum d := hv
  have hfull : Inv (fresh F inum type) s ((vol s).setNode inum d) := by
    refine ⟨⟨h.len, rfl, rfl, h.low, h.high, h.zero, h.owned.congr fun q _ => hplace q, h.head⟩,
      fun k hk => ?_, fun k hk l hl => ?_, fun k hk => ?_, ?_⟩
    · rcases eq_or_ne k inum with rfl | hki
      · rw [Vol.file_of_ne (by rwa [Vol.setNode_node_self]), Vol.setNode_node_self, fresh,
          update_self]
        rfl
      · rw [Vol.file_setNode_of_ne hki, fresh, update_of_ne hki, h.files k hk]
    · rw [hplace, hlen]
      exact h.uses k hk l hl
    · rw [hlen]
      exact h.small k hk
    · rw [h.count, demand, demand]
      simp only [hlen]
  exact hfull.of_vol hv' hh hl hb

end Xv6.Mkfs
