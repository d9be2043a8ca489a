import Xv6.Fs.Table

/-! Files as byte strings: what the inode layer does to the contents of inodes. -/
namespace Xv6.Fs
open Bytes Function
open Xv6.Log (BSIZE Block)

def Vol.byte (v : Vol) (i o : ℕ) : Byte := byteAt (v.data (v.block i (o / BSIZE))) (o % BSIZE)

/-- An inode without its blocks. -/
structure Node where
  type : BitVec 16 := 0
  major : BitVec 16 := 0
  minor : BitVec 16 := 0
  nlink : BitVec 16 := 0
  bytes : List Byte := []
  deriving DecidableEq

def Node.nents (n : Node) : ℕ := n.bytes.length / direntSize

def Node.ent (n : Node) (k : ℕ) : Dirent :=
  readDirent ((n.bytes.drop (k * direntSize)).take direntSize)

/-- Inode `i` as a file; a free inode is all zero. -/
def Vol.file (v : Vol) (i : ℕ) : Node :=
  let d := v.node i
  if d.type = 0 then {}
  else
    { type := d.type, major := d.major, minor := d.minor, nlink := d.nlink
      bytes := (List.range d.size.toNat).map (v.byte i) }

variable {sb : Superblock} {v w x : Vol} {i : ℕ}

theorem Vol.file_type (v : Vol) (i : ℕ) : (v.file i).type = (v.node i).type := by
  unfold Vol.file
  dsimp only
  split
  · rename_i h
    exact h.symm
  · rfl

theorem Vol.file_of_ne {v : Vol} (h : (v.node i).type ≠ 0) :
    v.file i = { type := (v.node i).type, major := (v.node i).major, minor := (v.node i).minor
                 nlink := (v.node i).nlink
                 bytes := (List.range (v.node i).size.toNat).map (v.byte i) } := if_neg h

theorem Vol.file_congr (hn : w.node i = v.node i)
    (hb : ∀ o < (v.node i).size.toNat, w.byte i o = v.byte i o) : w.file i = v.file i := by
  unfold Vol.file
  rw [hn]
  dsimp only
  split
  · rfl
  · congr 1
    exact List.map_congr_left fun o ho => hb o (List.mem_range.mp ho)

/-- Blocks were added to inode `i`; all blocks that were there stayed, with their contents. -/
structure Grows (sb : Superblock) (i : ℕ) (v w : Vol) : Prop where
  node : ∃ a, w.node = update v.node i { v.node i with addrs := a }
  keep : ∀ k < sb.ninodes, ∀ j < MAXFILE, v.block k j ≠ 0 →
    w.block k j = v.block k j ∧ w.data (v.block k j) = v.data (v.block k j)

namespace Grows

theorem refl (sb : Superblock) (i : ℕ) (v : Vol) : Grows sb i v v where
  node := ⟨(v.node i).addrs, (update_eq_self i v.node).symm⟩
  keep _ _ _ _ _ := ⟨rfl, rfl⟩

theorem trans (h : Grows sb i v w) (h' : Grows sb i w x) : Grows sb i v x where
  node := by
    obtain ⟨a, ha⟩ := h.node
    obtain ⟨b, hb⟩ := h'.node
    refine ⟨b, ?_⟩
    rw [hb, ha, update_idem, update_self]
  keep k hk j hj hne := by
    obtain ⟨h1, h2⟩ := h.keep k hk j hj hne
    obtain ⟨h3, h4⟩ := h'.keep k hk j hj (by rwa [h1])
    exact ⟨h3.trans h1, by rw [← h1, h4, h1, h2]⟩

theorem node_of_ne (h : Grows sb i v w) {k : ℕ} (hk : k ≠ i) : w.node k = v.node k := by
  obtain ⟨a, ha⟩ := h.node
  rw [ha, update_of_ne hk]

theorem type (h : Grows sb i v w) (k : ℕ) : (w.node k).type = (v.node k).type := by
  obtain ⟨a, ha⟩ := h.node
  rw [ha, update_apply]
  split
  · rename_i hk
    rw [hk]
  · rfl

theorem byte (h : Grows sb i v w) {k o : ℕ} (hk : k < sb.ninodes) (ho : o / BSIZE < MAXFILE)
    (hne : v.block k (o / BSIZE) ≠ 0) : w.byte k o = v.byte k o := by
  obtain ⟨h1, h2⟩ := h.keep k hk _ ho hne
  rw [Vol.byte, Vol.byte, h1, h2]

end Grows

theorem Wf.block_ne (h : Wf sb v) (hi : i < sb.ninodes) (ht : (v.node i).type ≠ 0) {o : ℕ}
    (ho : o < (v.node i).size.toNat) : v.block i (o / BSIZE) ≠ 0 := by
  refine h.full i hi ht _ ?_
  simp only [BSIZE]
  omega

theorem Wf.div_lt (h : Wf sb v) (hi : i < sb.ninodes) (ht : (v.node i).type ≠ 0) {o : ℕ}
    (ho : o < (v.node i).size.toNat) : o / BSIZE < MAXFILE := by
  have := h.small i hi ht
  simp only [MAXFILE, NDIRECT, NINDIRECT, BSIZE] at this ⊢
  omega

theorem Grows.file (h : Grows sb i v w) (hw : Wf sb v) {k : ℕ} (hk : k < sb.ninodes) :
    w.file k = v.file k := by
  by_cases ht : (v.node k).type = 0
  · unfold Vol.file
    rw [if_pos ((h.type k).trans ht), if_pos ht]
  have hbyte : ∀ o < (v.node k).size.toNat, w.byte k o = v.byte k o := fun o ho =>
    h.byte hk (hw.div_lt hk ht ho) (hw.block_ne hk ht ho)
  rcases eq_or_ne k i with rfl | hki
  · obtain ⟨a, ha⟩ := h.node
    rw [Vol.file_of_ne ht, Vol.file_of_ne (by rwa [h.type])]
    rw [ha, update_self]
    congr 1
    exact List.map_congr_left fun o ho => hbyte o (List.mem_range.mp ho)
  · exact Vol.file_congr (h.node_of_ne hki) hbyte

variable {j : Fin (NDIRECT + 1)}

theorem Vol.block_setAddr (h : Owned sb v.place v.bit) {b k l : ℕ}
    (hi : i < sb.ninodes) (ht : (v.node i).type ≠ 0) (h0 : (v.node i).addrs j = 0)
    (hb : sb.IsData b) (hbit : v.bit b = false) (hk : k < sb.ninodes) (hl : l < MAXFILE) :
    ((v.alloc b).setAddr i j b).block k l =
      if (k, blockPlace l) = (i, j.val) then b else v.block k l := by
  rw [Vol.block, place_setAddr h hi ht h0 hb hbit (mem_places hk (blockPlace_lt hl)),
    update_apply]
  rfl

theorem place_of_addr (ht : (v.node i).type ≠ 0) :
    v.place (i, j.val) = ((v.node i).addrs j).toNat := by
  rw [place_direct v ht (Nat.le_of_lt_succ j.isLt), show Fin.ofNat (NDIRECT + 1) j.val = j from
    Fin.ext (by rw [Fin.val_ofNat, Nat.mod_eq_of_lt j.isLt])]

theorem grows_setAddr (h : Owned sb v.place v.bit) {b : ℕ}
    (hi : i < sb.ninodes) (ht : (v.node i).type ≠ 0) (h0 : (v.node i).addrs j = 0)
    (hb : sb.IsData b) (hbit : v.bit b = false) : Grows sb i v ((v.alloc b).setAddr i j b) where
  node := ⟨_, rfl⟩
  keep k hk l hl hne := by
    refine ⟨?_, ?_⟩
    · rw [Vol.block_setAddr h hi ht h0 hb hbit hk hl, if_neg]
      intro he
      obtain ⟨rfl, he⟩ := Prod.mk.inj he
      rw [Vol.block, he, place_of_addr ht, h0] at hne
      exact hne rfl
    · exact update_of_ne (h.fresh hb hbit (mem_places hk (blockPlace_lt hl))) _ _

theorem grows_setEntry (h : Owned sb v.place v.bit) {j b : ℕ} (hi : i < sb.ninodes)
    (ht : (v.node i).type ≠ 0) (ha : (v.node i).addrs (Fin.last NDIRECT) ≠ 0) (hj : j < NINDIRECT)
    (h0 : v.place (i, NDIRECT + 1 + j) = 0) (hb : sb.IsData b) (hbit : v.bit b = false) :
    Grows sb i v ((v.alloc b).setEntry (v.place (i, NDIRECT)) j b) where
  node := ⟨(v.node i).addrs, (update_eq_self i v.node).symm⟩
  keep k hk l hl hne := by
    have hmem : (k, blockPlace l) ∈ places sb := mem_places hk (blockPlace_lt hl)
    refine ⟨?_, ?_⟩
    · rw [Vol.block, place_setEntry h hi ht ha hj hb hbit hmem, update_apply, if_neg]
      · rfl
      · intro he
        rw [Vol.block, he] at hne
        exact hne h0
    · have h1 : v.block k l ≠ v.place (i, NDIRECT) := (h.block_ne_last hk hl hi hne).symm
      have h2 : v.block k l ≠ b := h.fresh hb hbit hmem
      simp only [Vol.setEntry, Vol.alloc, update_of_ne h1, update_of_ne h2]

end Xv6.Fs
