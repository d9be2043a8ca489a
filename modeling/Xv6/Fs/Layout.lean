import Xv6.Lib.Bytes
import Xv6.Log.Redo

/-! What is on the disk (`fs.h`): the super block, the dinodes, the block bitmap and the
directory entries, with the bytes they take. -/
namespace Xv6.Fs
open Bytes BitVec
open Xv6.Log (BSIZE Block)

def ROOTINO : ℕ := 1
def NDIRECT : ℕ := 12
def NINDIRECT : ℕ := BSIZE / 4
def MAXFILE : ℕ := NDIRECT + NINDIRECT
def DIRSIZ : ℕ := 14

instance (priority := 2000) neZero_ndirect : NeZero (NDIRECT + 1) := ⟨by decide⟩

def T_DIR : BitVec 16 := 1
def T_FILE : BitVec 16 := 2
def T_DEVICE : BitVec 16 := 3

structure Dinode where
  type : BitVec 16 := 0
  major : BitVec 16 := 0
  minor : BitVec 16 := 0
  nlink : BitVec 16 := 0
  size : BitVec 32 := 0
  addrs : Fin (NDIRECT + 1) → BitVec 32 := fun _ => 0

def dinodeSize : ℕ := 64

/-- Inodes per block. -/
def IPB : ℕ := BSIZE / dinodeSize

/-- Bitmap bits per block. -/
def BPB : ℕ := BSIZE * 8

/-- The super block, for a layout with the regions in the order in which `mkfs` writes them. -/
structure Superblock where
  size : ℕ
  nblocks : ℕ
  ninodes : ℕ
  nlog : ℕ
  logstart : ℕ
  inodestart : ℕ
  bmapstart : ℕ
  log_pos : 0 < nlog
  log_fits : logstart + nlog ≤ inodestart
  inodes_fit : inodestart + ninodes / IPB + 1 ≤ bmapstart
  bmap_fits : bmapstart + size / BPB + 1 + nblocks ≤ size
  size_lt : size < 2 ^ 31
  root_lt : ROOTINO < ninodes
  /-- Inode numbers fit the 16 bits of a directory entry. -/
  ninodes_le : ninodes ≤ 2 ^ 16

namespace Superblock

def IBLOCK (sb : Superblock) (i : ℕ) : ℕ := i / IPB + sb.inodestart

def BBLOCK (sb : Superblock) (b : ℕ) : ℕ := b / BPB + sb.bmapstart

def datastart (sb : Superblock) : ℕ := sb.size - sb.nblocks

def IsData (sb : Superblock) (b : ℕ) : Prop := sb.datastart ≤ b ∧ b < sb.size

instance (sb : Superblock) (b : ℕ) : Decidable (sb.IsData b) :=
  inferInstanceAs (Decidable (_ ∧ _))

end Superblock

def readDinode (b : Block) (slot : ℕ) : Dinode where
  type := getHalf b (slot * dinodeSize)
  major := getHalf b (slot * dinodeSize + 2)
  minor := getHalf b (slot * dinodeSize + 4)
  nlink := getHalf b (slot * dinodeSize + 6)
  size := getWord b (slot * dinodeSize + 8)
  addrs := fun j => getWord b (slot * dinodeSize + (12 + 4 * j.val))

def Dinode.byte (d : Dinode) (k : ℕ) : Byte :=
  if k < 2 then le d.type.toNat k
  else if k < 4 then le d.major.toNat (k - 2)
  else if k < 6 then le d.minor.toNat (k - 4)
  else if k < 8 then le d.nlink.toNat (k - 6)
  else if k < 12 then le d.size.toNat (k - 8)
  else le (d.addrs (Fin.ofNat _ ((k - 12) / 4))).toNat ((k - 12) % 4)

def writeDinode (b : Block) (slot : ℕ) (d : Dinode) : Block :=
  patch b (slot * dinodeSize) dinodeSize d.byte

theorem readDinode_writeDinode (b : Block) {slot : ℕ} (h : slot < IPB) (d : Dinode) :
    readDinode (writeDinode b slot d) slot = d := by
  have hfit : slot * dinodeSize + dinodeSize ≤ BSIZE := by
    simp only [IPB, dinodeSize, BSIZE] at h ⊢
    omega
  have hhalf (k : ℕ) (v : BitVec 16) (hk : k + 2 ≤ dinodeSize)
      (hv : ∀ j < 2, d.byte (k + j) = le v.toNat (0 + j)) :
      getHalf (writeDinode b slot d) (slot * dinodeSize + k) = v := by
    rw [getHalf, writeDinode, half_patch_in b d.byte hk hfit, half_congr hv, half_le]
  have hword (k : ℕ) (v : BitVec 32) (hk : k + 4 ≤ dinodeSize)
      (hv : ∀ j < 4, d.byte (k + j) = le v.toNat (0 + j)) :
      getWord (writeDinode b slot d) (slot * dinodeSize + k) = v := by
    rw [getWord, writeDinode, word_patch_in b d.byte hk hfit, word_congr hv, word_le]
  have haddr (i : Fin (NDIRECT + 1)) (j : ℕ) (hj : j < 4) :
      d.byte (12 + 4 * i.val + j) = le (d.addrs i).toNat (0 + j) := by
    have hi : Fin.ofNat (NDIRECT + 1) ((12 + 4 * i.val + j - 12) / 4) = i := by
      refine Fin.ext ?_
      have := i.isLt
      rw [Fin.val_ofNat, Nat.mod_eq_of_lt (by omega)]
      omega
    simp only [Dinode.byte]
    rw [if_neg (by omega), if_neg (by omega), if_neg (by omega), if_neg (by omega),
      if_neg (by omega), hi]
    congr 1
    omega
  have h2 (k : ℕ) : k < 2 ↔ k = 0 ∨ k = 1 := by omega
  have h4 (k : ℕ) : k < 4 ↔ k = 0 ∨ k = 1 ∨ k = 2 ∨ k = 3 := by omega
  unfold readDinode
  rw [hhalf 2 d.major (by decide) (by simp [h2, Dinode.byte]),
    hhalf 4 d.minor (by decide) (by simp [h2, Dinode.byte]),
    hhalf 6 d.nlink (by decide) (by simp [h2, Dinode.byte]),
    hword 8 d.size (by decide) (by simp [h4, Dinode.byte])]
  have h0 := hhalf 0 d.type (by decide) (by simp [h2, Dinode.byte])
  rw [add_zero] at h0
  rw [h0]
  congr 1
  funext i
  have := i.isLt
  exact hword _ _ (by simp only [dinodeSize, NDIRECT] at *; omega) (haddr i)

theorem readDinode_writeDinode_of_ne (b : Block) {slot slot' : ℕ} (h : slot' ≠ slot) (d : Dinode) :
    readDinode (writeDinode b slot d) slot' = readDinode b slot' := by
  have hhalf (k : ℕ) (hk : k + 2 ≤ dinodeSize) : getHalf (writeDinode b slot d)
      (slot' * dinodeSize + k) = getHalf b (slot' * dinodeSize + k) := by
    refine half_patch_out b d.byte ?_
    simp only [dinodeSize] at hk ⊢
    omega
  have hword (k : ℕ) (hk : k + 4 ≤ dinodeSize) : getWord (writeDinode b slot d)
      (slot' * dinodeSize + k) = getWord b (slot' * dinodeSize + k) := by
    refine word_patch_out b d.byte ?_
    simp only [dinodeSize] at hk ⊢
    omega
  unfold readDinode
  have h0 := hhalf 0 (by decide)
  rw [add_zero] at h0
  rw [h0, hhalf 2 (by decide), hhalf 4 (by decide), hhalf 6 (by decide), hword 8 (by decide)]
  congr 1
  funext i
  have := i.isLt
  exact hword _ (by simp only [dinodeSize, NDIRECT] at *; omega)

def bitMask (bi : ℕ) : Byte := 1#8 <<< (bi % 8)

def bitSet (b : Block) (bi : ℕ) : Bool := byteAt b (bi / 8) &&& bitMask bi ≠ 0

def markBit (b : Block) (bi : ℕ) : Block :=
  patch b (bi / 8) 1 fun _ => byteAt b (bi / 8) ||| bitMask bi

def clearBit (b : Block) (bi : ℕ) : Block :=
  patch b (bi / 8) 1 fun _ => byteAt b (bi / 8) &&& ~~~bitMask bi

/-- The scan that `balloc` makes of the bitmap block of the blocks from `b`. -/
def findClear (size : ℕ) (bp : Block) (b : ℕ) : ℕ → ℕ → Option ℕ
  | 0, _ => none
  | n + 1, bi =>
    if b + bi < size then
      if bitSet bp bi then findClear size bp b n (bi + 1) else some bi
    else none

theorem getLsbD_bitMask (bi k : ℕ) (hk : k < 8) : (bitMask bi).getLsbD k = decide (k = bi % 8) := by
  rw [bitMask, getLsbD_shiftLeft, getLsbD_one]
  rw [Bool.eq_iff_iff]
  simp only [Bool.and_eq_true, Bool.not_eq_true', decide_eq_false_iff_not, decide_eq_true_eq]
  omega

theorem and_bitMask (x : Byte) (bi : ℕ) : decide (x &&& bitMask bi ≠ 0) = x.getLsbD (bi % 8) := by
  have hbi : bi % 8 < 8 := Nat.mod_lt _ (by decide)
  rw [Bool.eq_iff_iff, decide_eq_true_eq]
  constructor
  · intro hne
    by_contra hx
    refine hne (eq_of_getLsbD_eq fun k hk => ?_)
    rw [getLsbD_and, getLsbD_bitMask bi k hk]
    by_cases hkb : k = bi % 8
    · rw [hkb, Bool.not_eq_true] at *
      simp [hx]
    · simp [hkb]
  · intro hx h0
    have := congrArg (fun y => BitVec.getLsbD y (bi % 8)) h0
    simp [getLsbD_and, getLsbD_bitMask bi _ hbi, hx] at this

theorem bitSet_eq (b : Block) (bi : ℕ) : bitSet b bi = (byteAt b (bi / 8)).getLsbD (bi % 8) :=
  and_bitMask _ _

theorem bitSet_zero (j : ℕ) : bitSet (fun _ => 0) j = false := by
  rw [bitSet_eq]
  have hbyte : byteAt (fun _ => 0 : Block) (j / 8) = 0 := by
    unfold byteAt
    split <;> rfl
  rw [hbyte]
  exact getLsbD_zero

theorem bitSet_markBit (b : Block) {bi bj : ℕ} (hi : bi < BPB) :
    bitSet (markBit b bi) bj = (decide (bj = bi) || bitSet b bj) := by
  rw [bitSet_eq, bitSet_eq, markBit]
  have hbj : bj % 8 < 8 := Nat.mod_lt _ (by decide)
  by_cases hby : bj / 8 = bi / 8
  · have hin := byteAt_patch_one b (fun _ => byteAt b (bi / 8) ||| bitMask bi)
      (show bi / 8 < BSIZE by simp only [BPB, BSIZE] at hi ⊢; omega)
    rw [hby, hin, getLsbD_or, getLsbD_bitMask bi _ hbj, Bool.or_comm]
    congr 1
    rw [decide_eq_decide]
    omega
  · rw [byteAt_patch_out b _ (by omega)]
    have hne : bj ≠ bi := fun h => hby (by rw [h])
    simp [hne]

theorem bitSet_clearBit (b : Block) {bi bj : ℕ} (hi : bi < BPB) :
    bitSet (clearBit b bi) bj = (!decide (bj = bi) && bitSet b bj) := by
  rw [bitSet_eq, bitSet_eq, clearBit]
  have hbj : bj % 8 < 8 := Nat.mod_lt _ (by decide)
  by_cases hby : bj / 8 = bi / 8
  · have hin := byteAt_patch_one b (fun _ => byteAt b (bi / 8) &&& ~~~bitMask bi)
      (show bi / 8 < BSIZE by simp only [BPB, BSIZE] at hi ⊢; omega)
    rw [hby, hin, getLsbD_and, getLsbD_not, getLsbD_bitMask bi _ hbj, Bool.and_comm]
    simp only [hbj, decide_true, Bool.true_and]
    congr 2
    rw [decide_eq_decide]
    omega
  · rw [byteAt_patch_out b _ (by omega)]
    have hne : bj ≠ bi := fun h => hby (by rw [h])
    simp [hne]

theorem findClear_some {bp : Block} {size b k bi r : ℕ} (h : findClear size bp b k bi = some r) :
    r < bi + k ∧ b + r < size ∧ bitSet bp r = false ∧
      ∀ j, bi ≤ j → j < r → bitSet bp j = true := by
  induction k generalizing bi with
  | zero => cases h
  | succ k ih =>
    rw [findClear] at h
    by_cases hlt : b + bi < size
    · rw [if_pos hlt] at h
      by_cases hbit : bitSet bp bi = true
      · rw [if_pos hbit] at h
        obtain ⟨h1, h2, h3, h4⟩ := ih h
        refine ⟨by omega, h2, h3, fun j hj hjr => ?_⟩
        rcases Nat.eq_or_lt_of_le hj with rfl | hj
        · exact hbit
        · exact h4 j hj hjr
      · rw [if_neg hbit] at h
        cases h
        exact ⟨by omega, hlt, by simpa using hbit, fun j hj hjr => by omega⟩
    · rw [if_neg hlt] at h
      cases h

theorem findClear_none {bp : Block} {size b k bi j : ℕ} (h : findClear size bp b k bi = none)
    (hj : bi ≤ j) (hjk : j < bi + k) (hjs : b + j < size) : bitSet bp j = true := by
  induction k generalizing bi with
  | zero => omega
  | succ k ih =>
    rw [findClear, if_pos (by omega)] at h
    by_cases hbit : bitSet bp bi = true
    · rw [if_pos hbit] at h
      rcases Nat.eq_or_lt_of_le hj with rfl | hj
      · exact hbit
      · exact ih h hj (by omega)
    · rw [if_neg hbit] at h
      cases h

structure Dirent where
  inum : BitVec 16
  name : List Byte
  deriving DecidableEq

def direntSize : ℕ := 2 + DIRSIZ

def Dirent.bytes (de : Dirent) : List Byte :=
  [le de.inum.toNat 0, le de.inum.toNat 1] ++ de.name

def readDirent (bs : List Byte) : Dirent where
  inum := half (fun k => bs.getD k 0) 0
  name := bs.drop 2

theorem readDirent_bytes (de : Dirent) : readDirent de.bytes = de := by
  have hn : half (fun k => de.bytes.getD k 0) 0 = de.inum := by
    rw [← half_le de.inum]
    refine half_congr fun k hk => ?_
    obtain rfl | rfl : k = 0 ∨ k = 1 := by omega
    all_goals rfl
  rw [readDirent, hn]
  rfl

end Xv6.Fs
