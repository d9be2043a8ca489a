import Xv6.Fs.Call

/-! The disk as three maps: the bitmap, the inodes and the data blocks; and the same maps as the
kernel sees them, with the inodes in the table in front of those on the disk. -/
namespace Xv6.Fs
open Function
open Xv6.Log (BSIZE Block)

structure Vol where
  bit : ℕ → Bool
  node : ℕ → Dinode
  data : ℕ → Block

variable (sb : Superblock)

def diskVol (buf : ℕ → Block) : Vol where
  bit b := decide (b < sb.size) && bitSet (buf (sb.BBLOCK b)) (b % BPB)
  node i := if i < sb.ninodes then readDinode (buf (sb.IBLOCK i)) (i % IPB) else {}
  data b := if sb.IsData b then buf b else fun _ => 0

namespace Superblock
variable {sb : Superblock}

theorem datastart_add : sb.datastart + sb.nblocks = sb.size := by
  have h := sb.bmap_fits
  simp only [BPB, BSIZE] at h
  rw [datastart]
  omega

theorem IBLOCK_lt {i : ℕ} (hi : i < sb.ninodes) :
    sb.inodestart ≤ sb.IBLOCK i ∧ sb.IBLOCK i < sb.bmapstart := by
  have h := sb.inodes_fit
  simp only [IBLOCK, IPB, BSIZE, dinodeSize] at h ⊢
  omega

theorem BBLOCK_lt {b : ℕ} (hb : b < sb.size) :
    sb.bmapstart ≤ sb.BBLOCK b ∧ sb.BBLOCK b < sb.datastart := by
  have h := sb.bmap_fits
  simp only [BBLOCK, datastart, BPB, BSIZE] at h ⊢
  omega

theorem IsData.ne_zero {b : ℕ} (hb : sb.IsData b) : b ≠ 0 := by
  have h := sb.bmap_fits
  have h' := hb.1
  simp only [datastart, BPB, BSIZE] at h h'
  omega

end Superblock

section
variable {sb} {b : ℕ}

theorem diskVol_data (buf : ℕ → Block) (hb : sb.IsData b) (x : Block) :
    diskVol sb (update buf b x) =
      { diskVol sb buf with data := update (diskVol sb buf).data b x } := by
  simp only [diskVol, Vol.mk.injEq]
  refine ⟨funext fun c => ?_, funext fun i => ?_, funext fun c => ?_⟩
  · by_cases hc : c < sb.size
    · have := sb.BBLOCK_lt hc
      rw [update_of_ne (by have := hb.1; omega)]
    · simp [hc]
  · split
    · rename_i hi
      have := sb.IBLOCK_lt hi
      have := sb.BBLOCK_lt (b := 0) (by have := hb.2; omega)
      rw [update_of_ne (by have := hb.1; omega)]
    · rfl
  · rcases eq_or_ne c b with rfl | hc
    · simp [hb]
    · rw [update_of_ne hc, update_of_ne hc]

theorem BBLOCK_eq_iff {b c : ℕ} (hm : c % BPB = b % BPB) : sb.BBLOCK c = sb.BBLOCK b ↔ c = b := by
  simp only [Superblock.BBLOCK, BPB, BSIZE] at hm ⊢
  omega

theorem diskVol_bit (buf : ℕ → Block) (hb : b < sb.size) {x : Block} {v : Bool}
    (hx : ∀ bi < BPB, bitSet x bi = if bi = b % BPB then v else bitSet (buf (sb.BBLOCK b)) bi) :
    diskVol sb (update buf (sb.BBLOCK b) x) =
      { diskVol sb buf with bit := update (diskVol sb buf).bit b v } := by
  have hblk := sb.BBLOCK_lt hb
  have hpos : 0 < BPB := by decide
  simp only [diskVol, Vol.mk.injEq]
  refine ⟨funext fun c => ?_, funext fun i => ?_, funext fun c => ?_⟩
  · rcases eq_or_ne c b with rfl | hc
    · rw [update_self, update_self, hx _ (Nat.mod_lt _ hpos)]
      simp [hb]
    · rw [update_of_ne hc]
      congr 1
      by_cases hbb : sb.BBLOCK c = sb.BBLOCK b
      · rw [hbb, update_self, hx _ (Nat.mod_lt _ hpos), if_neg]
        exact fun hm => hc ((BBLOCK_eq_iff hm).mp hbb)
      · rw [update_of_ne hbb]
  · split
    · rename_i hi
      have := sb.IBLOCK_lt hi
      rw [update_of_ne (by omega)]
    · rfl
  · split
    · rename_i hc
      rw [update_of_ne (by have := hc.1; omega)]
    · rfl

theorem diskVol_mark (buf : ℕ → Block) (hb : b < sb.size) :
    diskVol sb (update buf (sb.BBLOCK b) (markBit (buf (sb.BBLOCK b)) (b % BPB))) =
      { diskVol sb buf with bit := update (diskVol sb buf).bit b true } := by
  refine diskVol_bit buf hb fun bi _ => ?_
  rw [bitSet_markBit _ (Nat.mod_lt _ (by decide))]
  split <;> simp_all

theorem diskVol_clear (buf : ℕ → Block) (hb : b < sb.size) :
    diskVol sb (update buf (sb.BBLOCK b) (clearBit (buf (sb.BBLOCK b)) (b % BPB))) =
      { diskVol sb buf with bit := update (diskVol sb buf).bit b false } := by
  refine diskVol_bit buf hb fun bi _ => ?_
  rw [bitSet_clearBit _ (Nat.mod_lt _ (by decide))]
  split <;> simp_all

theorem diskVol_dinode (buf : ℕ → Block) {i : ℕ} (hi : i < sb.ninodes) (d : Dinode) :
    diskVol sb (update buf (sb.IBLOCK i)
        (writeDinode (buf (sb.IBLOCK i)) (i % IPB) d)) =
      { diskVol sb buf with node := update (diskVol sb buf).node i d } := by
  have hblk := sb.IBLOCK_lt hi
  have hslot : i % IPB < IPB := Nat.mod_lt _ (by decide)
  simp only [diskVol, Vol.mk.injEq]
  refine ⟨funext fun c => ?_, funext fun k => ?_, funext fun c => ?_⟩
  · by_cases hc : c < sb.size
    · have := sb.BBLOCK_lt hc
      rw [update_of_ne (by omega)]
    · simp [hc]
  · rcases eq_or_ne k i with rfl | hk
    · rw [update_self, update_self, if_pos hi, readDinode_writeDinode _ hslot]
    · rw [update_of_ne hk]
      by_cases hbb : sb.IBLOCK k = sb.IBLOCK i
      · rw [hbb, update_self, readDinode_writeDinode_of_ne]
        simp only [Superblock.IBLOCK, IPB, dinodeSize, BSIZE] at hbb ⊢
        omega
      · rw [update_of_ne hbb]
  · split
    · rename_i hc
      have := sb.BBLOCK_lt (b := c) hc.2
      rw [update_of_ne (by have := hc.1; omega)]
    · rfl

end
end Xv6.Fs
