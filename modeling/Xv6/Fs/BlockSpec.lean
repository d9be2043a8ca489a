import Xv6.Fs.Bitmap
import Xv6.Fs.Owner

/-! What the block layer does to the three maps. -/
namespace Xv6.Fs
open List
open Xv6.Log (BSIZE Block Mach LOGSIZE)

variable (sb : Superblock)

def Mild (e : Panic) : Prop := e ≠ .freeingFreeBlock ∧ e ≠ .ilockNoType

structure LogOk (m : Mach) : Prop where
  room : m.lh.length ≤ sb.nlog - 1
  home : ∀ b ∈ m.lh, sb.inodestart ≤ b ∧ b < sb.size

variable {sb} {s : State} {E : Panic → Prop}

theorem doIf_sat {c : Prop} [Decidable c] {x : M Unit} {Q : Unit → State → Prop}
    (h : c → Sat x s Q E) (h' : ¬ c → Q () s) : Sat (doIf c x) s Q E :=
  Sat.ite h fun hc => Sat.pure (h' hc)

variable {b : ℕ}

theorem bread_bind {α : Type} {f : Block → M α} {Q : α → State → Prop}
    (h : Sat (f (s.m.buf b)) s Q E) : Sat (bread b >>= f) s Q E := h

theorem storeBlock_bind {α : Type} {x : Block} {f : Unit → M α} {Q : α → State → Prop}
    (h : Sat (f ()) { s with m := s.m.store b x } Q E) : Sat (storeBlock b x >>= f) s Q E := h

theorem logWrite_run (sb : Superblock) (b : ℕ) (s : State) :
    Sat (logWrite sb b) s (fun _ t => ∃ lh, t = { s with m := { s.m with lh := lh } } ∧
        (lh = s.m.lh ∧ b ∈ s.m.lh ∨ lh = s.m.lh ++ [b] ∧ s.m.lh.length < sb.nlog - 1))
      fun e => e = .tooBigTransaction ∨ e = .logWriteOutsideOfTrans := by
  unfold logWrite Log.logWrite
  refine Sat.get_bind ?_
  by_cases hfull : LOGSIZE ≤ s.m.lh.length ∨ sb.nlog - 1 ≤ s.m.lh.length
  · rw [if_pos hfull]
    exact Sat.throw (.inl rfl)
  · rw [if_neg hfull]
    refine Sat.ite (fun _ => Sat.throw (.inr rfl)) fun _ => ?_
    by_cases hmem : b ∈ s.m.lh
    · rw [if_pos hmem]
      exact ⟨_, rfl, .inl ⟨rfl, hmem⟩⟩
    · rw [if_neg hmem]
      exact ⟨_, rfl, .inr ⟨rfl, by omega⟩⟩

theorem logWrite_sat (hl : LogOk sb s.m) (hb : sb.inodestart ≤ b ∧ b < sb.size) :
    Sat (logWrite sb b) s
      (fun _ t => ∃ lh, t = { s with m := { s.m with lh := lh } } ∧ LogOk sb t.m) Mild := by
  refine (logWrite_run sb b s).mono ?_ ?_
  · rintro _ t ⟨lh, rfl, ⟨rfl, -⟩ | ⟨rfl, hlt⟩⟩
    · exact ⟨_, rfl, hl⟩
    · refine ⟨_, rfl, ?_, fun c hc => ?_⟩
      · rw [length_append, length_singleton]
        omega
      · rcases mem_append.mp hc with hc | hc
        · exact hl.home c hc
        · exact mem_singleton.mp hc ▸ hb
  · rintro e (rfl | rfl) <;> exact ⟨nofun, nofun⟩

def disk (sb : Superblock) (s : State) : Vol := diskVol sb s.m.buf

/-- From `s` to `t` only the blocks changed, and their maps are now `V`. -/
structure Moves (sb : Superblock) (s t : State) (V : Vol) : Prop where
  eq : t = { s with m := t.m }
  log : LogOk sb t.m
  vol : disk sb t = V

theorem Moves.trans {t u : State} {V W : Vol} (h : Moves sb s t V) (h' : Moves sb t u W) :
    Moves sb s u W where
  eq := h'.eq.trans (by rw [h.eq])
  log := h'.log
  vol := h'.vol

theorem put_sat {x : Block} {V : Vol} (hl : LogOk sb s.m)
    (hb : sb.inodestart ≤ b ∧ b < sb.size) (hV : diskVol sb (Function.update s.m.buf b x) = V) :
    Sat (do storeBlock b x; logWrite sb b) s (fun _ t => Moves sb s t V) Mild := by
  refine storeBlock_bind ?_
  have hl' : LogOk sb (s.m.store b x) := ⟨hl.room, hl.home⟩
  refine (logWrite_sat (s := { s with m := s.m.store b x }) hl' hb).mono ?_ fun _ h => h
  rintro _ t ⟨lh, rfl, hlog⟩
  exact ⟨rfl, hlog, hV⟩

theorem IsData.range (hb : sb.IsData b) : sb.inodestart ≤ b ∧ b < sb.size := by
  have h1 := sb.inodes_fit
  have h2 := sb.BBLOCK_lt hb.2
  have h3 := hb.1
  simp only [IPB, BSIZE, dinodeSize] at h1
  exact ⟨by omega, hb.2⟩

theorem BBLOCK_range (hb : b < sb.size) : sb.inodestart ≤ sb.BBLOCK b ∧ sb.BBLOCK b < sb.size := by
  have h1 := sb.inodes_fit
  have h2 := sb.BBLOCK_lt hb
  have h3 := sb.datastart_add
  simp only [IPB, BSIZE, dinodeSize] at h1
  omega

theorem IBLOCK_range {i : ℕ} (hi : i < sb.ninodes) :
    sb.inodestart ≤ sb.IBLOCK i ∧ sb.IBLOCK i < sb.size := by
  have h1 := sb.IBLOCK_lt hi
  have h2 := sb.bmap_fits
  simp only [BPB, BSIZE] at h2
  omega

theorem bzero_sat (hl : LogOk sb s.m) (hb : sb.IsData b) :
    Sat (bzero sb b) s (fun _ t => Moves sb s t
      { disk sb s with data := Function.update (disk sb s).data b fun _ => 0 }) Mild :=
  put_sat hl (IsData.range hb) (diskVol_data _ hb _)

theorem ballocFrom_sat {n b : ℕ} (hl : LogOk sb s.m)
    (hmeta : ∀ c < sb.datastart, (disk sb s).bit c = true) (hb : b % BPB = 0) :
    Sat (ballocFrom sb n b) s (fun c t => sb.IsData c ∧ (disk sb s).bit c = false ∧
      Moves sb s t ((disk sb s).alloc c)) Mild := by
  induction n generalizing b with
  | zero => exact Sat.throw ⟨nofun, nofun⟩
  | succ n ih =>
    rw [ballocFrom]
    refine Sat.ite (fun hlt => ?_) fun _ => Sat.throw ⟨nofun, nofun⟩
    refine bread_bind ?_
    split
    · rename_i bi hbi
      obtain ⟨h2, h1, h3, -⟩ := findClear_some hbi
      have hblk : sb.BBLOCK (b + bi) = sb.BBLOCK b := by
        simp only [Superblock.BBLOCK, BPB, BSIZE] at hb h2 ⊢
        omega
      have hmod : (b + bi) % BPB = bi := by
        simp only [BPB, BSIZE] at hb h2 ⊢
        omega
      have hbit : (disk sb s).bit (b + bi) = false := by
        simp [disk, diskVol, hblk, hmod, h3]
      have hdata : sb.IsData (b + bi) := by
        refine ⟨?_, h1⟩
        by_contra hlow
        rw [hmeta _ (by omega)] at hbit
        cases hbit
      have hmark := diskVol_mark s.m.buf h1
      rw [hblk, hmod] at hmark
      have hput := put_sat hl (BBLOCK_range hlt) hmark
      rw [← bind_assoc]
      refine Sat.bind hput fun _ t ht => ?_
      refine Sat.bind (bzero_sat ht.log hdata) fun _ u hu => ?_
      refine Sat.pure ⟨hdata, hbit, ?_⟩
      have := ht.trans hu
      rw [ht.vol] at this
      exact this
    · refine ih ?_
      simp only [BPB, BSIZE] at hb ⊢
      omega

theorem balloc_sat (hl : LogOk sb s.m) (hmeta : ∀ c < sb.datastart, (disk sb s).bit c = true) :
    Sat (balloc sb) s (fun c t => sb.IsData c ∧ (disk sb s).bit c = false ∧
      Moves sb s t ((disk sb s).alloc c)) Mild :=
  ballocFrom_sat hl hmeta rfl

def Superblock.bitmap (sb : Superblock) : Bitmap.Super where
  size := BitVec.ofNat 32 sb.size
  bmapstart := BitVec.ofNat 32 sb.bmapstart

theorem Superblock.bitmap_size (sb : Superblock) : sb.bitmap.size.toNat = sb.size :=
  Nat.mod_eq_of_lt (Nat.lt_trans sb.size_lt (by decide))

theorem Superblock.bitmap_BBLOCK (sb : Superblock) (b : ℕ) :
    Bitmap.BBLOCK sb.bitmap b = BitVec.ofNat 32 (sb.BBLOCK b) :=
  (BitVec.ofNat_add _ _).symm

def blocks (buf : ℕ → Block) : Bitmap.Blocks := fun x => buf x.toNat

theorem blocks_ofNat (buf : ℕ → Block) (hb : b < 2 ^ 32) :
    blocks buf (BitVec.ofNat 32 b) = buf b := by
  rw [blocks, BitVec.toNat_ofNat, Nat.mod_eq_of_lt hb]

theorem blocks_update (buf : ℕ → Block) (hb : b < 2 ^ 32) (x : Block) :
    blocks (Function.update buf b x) = Function.update (blocks buf) (BitVec.ofNat 32 b) x := by
  funext c
  by_cases hc : c = BitVec.ofNat 32 b
  · rw [hc, blocks_ofNat _ hb, Function.update_self, Function.update_self]
  · have hne : c.toNat ≠ b := fun h => hc (by rw [← h, BitVec.ofNat_toNat, BitVec.setWidth_eq])
    rw [Function.update_of_ne hc, blocks, Function.update_of_ne hne, blocks]

theorem put_buf (sb : Superblock) (b : ℕ) (x : Block) (s : State) :
    Sat (do storeBlock b x; logWrite sb b) s (fun _ t => t.m.buf = Function.update s.m.buf b x)
      fun e => e = .tooBigTransaction ∨ e = .logWriteOutsideOfTrans := by
  refine storeBlock_bind ((logWrite_run sb b _).post ?_)
  rintro _ t ⟨lh, rfl, -⟩
  rfl

theorem ballocFrom_bitmap {n b : ℕ} :
    Sat (ballocFrom sb n b) s
      (fun c t => Bitmap.ballocLoop sb.bitmap (blocks s.m.buf) n b =
        .ok (BitVec.ofNat 32 c, blocks t.m.buf))
      fun e => e = .outOfBlocks → sb.size + BPB ≤ 2 ^ 31 →
        Bitmap.ballocLoop sb.bitmap (blocks s.m.buf) n b = .error .outOfBlocks := by
  induction n generalizing b with
  | zero => exact Sat.throw fun _ _ => rfl
  | succ n ih =>
    rw [ballocFrom, Bitmap.ballocLoop, sb.bitmap_size]
    by_cases hlt : b < sb.size
    · rw [if_pos hlt, if_pos hlt]
      have hint := sb.size_lt
      have hblk := (BBLOCK_range hlt).2
      refine bread_bind ?_
      dsimp only
      rw [sb.bitmap_BBLOCK, blocks_ofNat _ (by omega)]
      cases hf : findClear sb.size (s.m.buf (sb.BBLOCK b)) b BPB 0 with
      | some bi =>
        have hbi := (findClear_some hf).2.1
        dsimp only
        rw [← bind_assoc]
        refine Sat.bind ((put_buf sb _ _ s).weaken ?_) fun _ t ht => ?_
        · rintro e (rfl | rfl) ⟨⟩
        refine Sat.bind ((put_buf sb (b + bi) _ t).weaken ?_) fun _ u hu => ?_
        · rintro e (rfl | rfl) ⟨⟩
        refine Sat.pure ?_
        rw [hu, ht, blocks_update _ (by omega), blocks_update _ (by omega)]
        rfl
      | none =>
        dsimp only
        by_cases hover : b + BPB < 2 ^ 31
        · rw [if_pos hover]
          exact ih
        · -- the next round of the loop would be past the end of the disk
          have hend : ballocFrom sb n (b + BPB) = throw .outOfBlocks := by
            cases n with
            | zero => rfl
            | succ n => rw [ballocFrom, if_neg (by omega)]
          rw [hend]
          exact Sat.throw fun _ hs => absurd hs (by omega)
    · rw [if_neg hlt, if_neg hlt]
      exact Sat.throw fun _ _ => rfl

/-- On a disk whose size cannot overflow the counter of the loop, `balloc` is the one that counts
in an `int`. -/
theorem balloc_bitmap (sb : Superblock) (s : State) :
    Sat (balloc sb) s
      (fun c t => Bitmap.balloc sb.bitmap (blocks s.m.buf) =
        .ok (BitVec.ofNat 32 c, blocks t.m.buf))
      fun e => e = .outOfBlocks → sb.size + BPB ≤ 2 ^ 31 →
        Bitmap.balloc sb.bitmap (blocks s.m.buf) = .error .outOfBlocks := by
  rw [Bitmap.balloc, sb.bitmap_size]
  exact ballocFrom_bitmap

theorem bfree_bitmap (hb : b < sb.size) :
    Sat (bfree sb b) s
      (fun _ t => Bitmap.bfree sb.bitmap (BitVec.ofNat 32 b) (blocks s.m.buf) = .ok (blocks t.m.buf))
      fun e => e = .freeingFreeBlock →
        Bitmap.bfree sb.bitmap (BitVec.ofNat 32 b) (blocks s.m.buf) = .error .freeingFreeBlock := by
  have hint := sb.size_lt
  have hblk := (BBLOCK_range hb).2
  have hnat : (BitVec.ofNat 32 b).toNat = b := Nat.mod_eq_of_lt (by omega)
  unfold bfree Bitmap.bfree
  rw [hnat, sb.bitmap_BBLOCK, blocks_ofNat _ (by omega)]
  refine bread_bind ?_
  dsimp only
  split
  · refine (put_buf sb _ _ s).mono (fun _ t ht => ?_) ?_
    · rw [ht, blocks_update _ (by omega)]
    · rintro e (rfl | rfl) ⟨⟩
  · exact Sat.throw fun _ => rfl

theorem bfree_sat (hl : LogOk sb s.m) (hb : b < sb.size) (hbit : (disk sb s).bit b = true) :
    Sat (bfree sb b) s (fun _ t => Moves sb s t
      { disk sb s with bit := Function.update (disk sb s).bit b false }) Mild := by
  unfold bfree
  refine bread_bind ?_
  have hset : bitSet (s.m.buf (sb.BBLOCK b)) (b % BPB) = true := by
    simpa [disk, diskVol, hb] using hbit
  rw [if_pos hset]
  exact put_sat hl (BBLOCK_range hb) (diskVol_clear _ hb)

end Xv6.Fs
