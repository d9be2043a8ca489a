import Xv6.Fs.Layout

/-! `balloc` and `bfree` of `fs.c` for a super block of any size and a bitmap of any contents. The
loop of `balloc` counts in an `int`, whose overflow has no meaning in C. -/
namespace Xv6.Bitmap
open Bytes Xv6.Fs Function BitVec
open Xv6.Log (BSIZE Block)

/-- The fields of the super block that the two functions use. -/
structure Super where
  size : BitVec 32
  bmapstart : BitVec 32

/-- The blocks of the disk, as `bread` returns them. -/
abbrev Blocks := BitVec 32 → Block

inductive Stop where
  | outOfBlocks
  | freeingFreeBlock
  | overflow
  deriving DecidableEq

variable (sb : Super)

def BBLOCK (b : ℕ) : BitVec 32 := BitVec.ofNat 32 (b / BPB) + sb.bmapstart

def bzero (bno : BitVec 32) (d : Blocks) : Blocks := update d bno fun _ => 0

def ballocLoop (d : Blocks) : ℕ → ℕ → Except Stop (BitVec 32 × Blocks)
  | 0, _ => .error .outOfBlocks
  | n + 1, b =>
    if b < sb.size.toNat then
      let bp := d (BBLOCK sb b)
      match findClear sb.size.toNat bp b BPB 0 with
      | some bi =>
        let d := update d (BBLOCK sb b) (markBit bp bi)
        .ok (BitVec.ofNat 32 (b + bi), bzero (BitVec.ofNat 32 (b + bi)) d)
      | none => if b + BPB < 2 ^ 31 then ballocLoop d n (b + BPB) else .error .overflow
    else .error .outOfBlocks

def balloc (d : Blocks) : Except Stop (BitVec 32 × Blocks) :=
  ballocLoop sb d (sb.size.toNat / BPB + 1) 0

def bfree (b : BitVec 32) (d : Blocks) : Except Stop Blocks :=
  let bp := d (BBLOCK sb b.toNat)
  if bitSet bp (b.toNat % BPB) then
    .ok (update d (BBLOCK sb b.toNat) (clearBit bp (b.toNat % BPB)))
  else .error .freeingFreeBlock

def bit (d : Blocks) (m : ℕ) : Bool := bitSet (d (BBLOCK sb m)) (m % BPB)

def nbits : ℕ := (sb.size.toNat + BPB - 1) / BPB * BPB

def IsBitmap (x : BitVec 32) : Prop := ∃ m < nbits sb, BBLOCK sb m = x

structure LeastClear (d : Blocks) (n : ℕ) : Prop where
  lt : n < sb.size.toNat
  clear : bit sb d n = false
  least : ∀ m < n, bit sb d m = true

structure Flips (d d' : Blocks) (n : ℕ) (v : Bool) : Prop where
  same : bit sb d' n = v
  others : ∀ m < nbits sb, m ≠ n → bit sb d' m = bit sb d m

structure Allocated (d : Blocks) (n : ℕ) (d' : Blocks) : Prop where
  least : LeastClear sb d n
  flips : Flips sb d d' n true
  zero : d' (BitVec.ofNat 32 n) = fun _ => 0
  data : ∀ x, x ≠ BitVec.ofNat 32 n → ¬ IsBitmap sb x → d' x = d x
  /-- `bfree` undoes it. -/
  undo : ∃ d'', bfree sb (BitVec.ofNat 32 n) d' = .ok d'' ∧
    ∀ m < nbits sb, bit sb d'' m = bit sb d m

structure Manages (d : Blocks) : Prop where
  some : (∃ n < sb.size.toNat, bit sb d n = false) →
    ∃ n d', balloc sb d = .ok (BitVec.ofNat 32 n, d') ∧ Allocated sb d n d'
  none : balloc sb d = .error .outOfBlocks ↔ ∀ n < sb.size.toNat, bit sb d n = true
  free : ∀ b < sb.size, bit sb d b.toNat = true → ∃ d', bfree sb b d = .ok d' ∧
    Flips sb d d' b.toNat false ∧ ∀ x, ¬ IsBitmap sb x → d' x = d x

/-- The disk is small enough for the loop to end before its counter overflows, and the block to
be allocated is not one of the bitmap, whose bits are not all clear. -/
structure Manageable (d : Blocks) : Prop where
  small : (∀ n < sb.size.toNat, bit sb d n = true) → sb.size.toNat ≤ 2 ^ 31 - BPB
  apart : ∀ n, LeastClear sb d n → n < 2 ^ 31 ∧
    ∀ m < nbits sb, BBLOCK sb m = BitVec.ofNat 32 n → m ≠ n ∧ bit sb d m = false

variable {sb} {d : Blocks}

theorem BBLOCK_add {b j : ℕ} (hb : b % BPB = 0) (hj : j < BPB) : BBLOCK sb (b + j) = BBLOCK sb b := by
  have hdiv : (b + j) / BPB = b / BPB := by
    simp only [BPB, BSIZE] at hb hj ⊢
    omega
  rw [BBLOCK, hdiv, BBLOCK]

theorem bit_add {b j : ℕ} (hb : b % BPB = 0) (hj : j < BPB) :
    bit sb d (b + j) = bitSet (d (BBLOCK sb b)) j := by
  have hmod : (b + j) % BPB = j := by
    simp only [BPB, BSIZE] at hb hj ⊢
    omega
  rw [bit, BBLOCK_add hb hj, hmod]

def taken (sb : Super) (d : Blocks) (n : ℕ) : Blocks :=
  bzero (BitVec.ofNat 32 n)
    (update d (BBLOCK sb n) (markBit (d (BBLOCK sb n)) (n % BPB)))

inductive Ends (sb : Super) (d : Blocks) : Except Stop (BitVec 32 × Blocks) → Prop
  | found {n : ℕ} (h : LeastClear sb d n) (hn : n < 2 ^ 31) :
    Ends sb d (.ok (BitVec.ofNat 32 n, taken sb d n))
  | full (h : ∀ n < sb.size.toNat, bit sb d n = true) (hs : sb.size.toNat ≤ 2 ^ 31 - BPB) :
    Ends sb d (.error .outOfBlocks)
  | overflow (h : ∀ n < sb.size.toNat, n < 2 ^ 31 → bit sb d n = true)
    (hs : 2 ^ 31 - BPB < sb.size.toNat) : Ends sb d (.error .overflow)

theorem ballocLoop_ends {k b : ℕ} (hb : b % BPB = 0) (hint : b < 2 ^ 31)
    (hset : ∀ m < b, m < sb.size.toNat → bit sb d m = true) (hk : sb.size.toNat < b + k * BPB) :
    Ends sb d (ballocLoop sb d k b) := by
  have hround : b ≤ 2 ^ 31 - BPB := by
    simp only [BPB, BSIZE] at hb ⊢
    omega
  induction k generalizing b with
  | zero => exact .full (fun n hn => hset n (by omega) hn) (by omega)
  | succ k ih =>
    rw [ballocLoop]
    by_cases hlt : b < sb.size.toNat
    · rw [if_pos hlt]
      dsimp only
      cases hf : findClear sb.size.toNat (d (BBLOCK sb b)) b BPB 0 with
      | some bi =>
        obtain ⟨h1, h2, h3, h4⟩ := findClear_some hf
        rw [Nat.zero_add] at h1
        have hleast : LeastClear sb d (b + bi) := by
          refine ⟨h2, (bit_add hb h1).trans h3, fun m hm => ?_⟩
          rcases Nat.lt_or_ge m b with hmb | hmb
          · exact hset m hmb (by omega)
          · obtain ⟨j, rfl⟩ := Nat.exists_eq_add_of_le hmb
            rw [bit_add hb (by omega)]
            exact h4 j (Nat.zero_le j) (by omega)
        have htaken : taken sb d (b + bi) = bzero (BitVec.ofNat 32 (b + bi))
            (update d (BBLOCK sb b) (markBit (d (BBLOCK sb b)) bi)) := by
          have hmod : (b + bi) % BPB = bi := by
            simp only [BPB, BSIZE] at hb h1 ⊢
            omega
          rw [taken, BBLOCK_add hb h1, hmod]
        have hend := Ends.found hleast (by simp only [BPB, BSIZE] at hround h1; omega)
        rw [htaken] at hend
        exact hend
      | none =>
        have hset' : ∀ m < b + BPB, m < sb.size.toNat → bit sb d m = true := by
          intro m hm hms
          rcases Nat.lt_or_ge m b with hmb | hmb
          · exact hset m hmb hms
          · obtain ⟨j, rfl⟩ := Nat.exists_eq_add_of_le hmb
            rw [bit_add hb (by omega)]
            exact findClear_none hf (Nat.zero_le j) (by omega) hms
        by_cases hover : b + BPB < 2 ^ 31
        · dsimp only
          rw [if_pos hover]
          refine ih (by rw [Nat.add_mod_right]; exact hb) hover hset' ?_ ?_
          · rw [Nat.succ_mul] at hk
            omega
          · simp only [BPB, BSIZE] at hb hover ⊢
            omega
        · dsimp only
          rw [if_neg hover]
          exact .overflow (fun n hn hn' => hset' n (by omega) hn) (by omega)
    · rw [if_neg hlt]
      exact .full (fun n hn => hset n (by omega) hn) (by omega)

theorem balloc_ends (sb : Super) (d : Blocks) : Ends sb d (balloc sb d) := by
  refine ballocLoop_ends rfl (by decide) (fun m hm => absurd hm (Nat.not_lt_zero m)) ?_
  simp only [BPB, BSIZE]
  omega

theorem lt_nbits {n : ℕ} (h : n < sb.size.toNat) : n < nbits sb := by
  simp only [nbits, BPB, BSIZE]
  omega

theorem div_eq_of_BBLOCK {m n : ℕ} (hm : m < nbits sb) (hn : n < nbits sb)
    (h : BBLOCK sb m = BBLOCK sb n) : m / BPB = n / BPB := by
  have hs := sb.size.isLt
  have hdiv := congrArg BitVec.toNat (add_right_cancel h)
  rw [toNat_ofNat, toNat_ofNat] at hdiv
  simp only [nbits, BPB, BSIZE] at hm hn hdiv ⊢
  omega

variable {n m : ℕ}

theorem bit_update {y : Block} {v : Bool} (hn : n < nbits sb) (hm : m < nbits sb)
    (hy : ∀ j, bitSet y j = if j = n % BPB then v else bitSet (d (BBLOCK sb n)) j) :
    bit sb (update d (BBLOCK sb n) y) m = if m = n then v else bit sb d m := by
  rw [bit]
  by_cases hb : BBLOCK sb m = BBLOCK sb n
  · have hdiv := div_eq_of_BBLOCK hm hn hb
    rw [hb, update_self, hy, bit, hb]
    by_cases hmn : m = n
    · rw [if_pos (by rw [hmn]), if_pos hmn]
    · rw [if_neg hmn, if_neg]
      intro hmod
      apply hmn
      rw [← Nat.div_add_mod m BPB, ← Nat.div_add_mod n BPB, hdiv, hmod]
  · rw [update_of_ne hb, if_neg fun h => hb (by rw [h])]
    rfl

theorem mod_lt (n : ℕ) : n % BPB < BPB := Nat.mod_lt n (by decide)

theorem bit_mark (hn : n < nbits sb) (hm : m < nbits sb) :
    bit sb (update d (BBLOCK sb n) (markBit (d (BBLOCK sb n)) (n % BPB))) m =
      if m = n then true else bit sb d m := by
  refine bit_update hn hm fun j => ?_
  rw [bitSet_markBit _ (mod_lt n)]
  by_cases hj : j = n % BPB
  · simp [hj]
  · simp [hj]

theorem bit_clear (hn : n < nbits sb) (hm : m < nbits sb) :
    bit sb (update d (BBLOCK sb n) (clearBit (d (BBLOCK sb n)) (n % BPB))) m =
      if m = n then false else bit sb d m := by
  refine bit_update hn hm fun j => ?_
  rw [bitSet_clearBit _ (mod_lt n)]
  by_cases hj : j = n % BPB
  · simp [hj]
  · simp [hj]

theorem bit_taken (hn : n < nbits sb) (hm : m < nbits sb) :
    bit sb (taken sb d n) m = if BBLOCK sb m = BitVec.ofNat 32 n then false
      else if m = n then true else bit sb d m := by
  rw [bit, taken, bzero]
  by_cases hb : BBLOCK sb m = BitVec.ofNat 32 n
  · rw [if_pos hb, hb, update_self]
    exact bitSet_zero _
  · rw [if_neg hb, update_of_ne hb]
    exact bit_mark hn hm

theorem toNat_ofNat_block {n : ℕ} (h : n < sb.size.toNat) : (BitVec.ofNat 32 n).toNat = n := by
  have := sb.size.isLt
  rw [toNat_ofNat, Nat.mod_eq_of_lt (by omega)]

theorem LeastClear.unique (hn : LeastClear sb d n) (hm : LeastClear sb d m) : n = m := by
  rcases Nat.lt_trichotomy n m with h | h | h
  · exact absurd (hn.clear.symm.trans (hm.least n h)) Bool.false_ne_true
  · exact h
  · exact absurd (hm.clear.symm.trans (hn.least m h)) Bool.false_ne_true

theorem bfree_flips {b : BitVec 32} (hb : b.toNat < nbits sb) (hset : bit sb d b.toNat = true) :
    ∃ d', bfree sb b d = .ok d' ∧ (∀ m < nbits sb, bit sb d' m = if m = b.toNat then false
      else bit sb d m) ∧ ∀ x, ¬ IsBitmap sb x → d' x = d x := by
  refine ⟨_, if_pos hset, fun m hm => bit_clear hb hm, fun x hx => ?_⟩
  exact update_of_ne (fun h => hx ⟨b.toNat, hb, h.symm⟩) _ _

theorem LeastClear.allocated {n : ℕ} (h : LeastClear sb d n)
    (hapart : ∀ m < nbits sb, BBLOCK sb m = BitVec.ofNat 32 n → m ≠ n ∧ bit sb d m = false) :
    Allocated sb d n (taken sb d n) := by
  have hn := lt_nbits h.lt
  have hbits : ∀ m < nbits sb, bit sb (taken sb d n) m = if m = n then true else bit sb d m := by
    intro m hm
    rw [bit_taken hn hm]
    by_cases hb : BBLOCK sb m = BitVec.ofNat 32 n
    · obtain ⟨hne, hclear⟩ := hapart m hm hb
      rw [if_pos hb, if_neg hne, hclear]
    · rw [if_neg hb]
  have hself : bit sb (taken sb d n) n = true := (hbits n hn).trans (if_pos rfl)
  refine ⟨h, ⟨hself, fun m hm hne => (hbits m hm).trans (if_neg hne)⟩, update_self .., ?_, ?_⟩
  · intro x hx hnb
    rw [taken, bzero, update_of_ne hx,
      update_of_ne fun hb => hnb ⟨n, hn, hb.symm⟩]
  · have hnat := toNat_ofNat_block h.lt
    obtain ⟨d'', hrun, hd'', -⟩ := bfree_flips (b := BitVec.ofNat 32 n) (by rwa [hnat])
      (by rwa [hnat])
    refine ⟨d'', hrun, fun m hm => ?_⟩
    rw [hd'' m hm, hnat]
    by_cases hmn : m = n
    · rw [if_pos hmn, hmn, h.clear]
    · rw [if_neg hmn, hbits m hm, if_neg hmn]

theorem exists_leastClear {n : ℕ} (hn : n < sb.size.toNat) (hclear : bit sb d n = false) :
    ∃ m ≤ n, LeastClear sb d m := by
  have hex : ∃ m, bit sb d m = false := ⟨n, hclear⟩
  have hle : Nat.find hex ≤ n := Nat.find_min' hex hclear
  refine ⟨Nat.find hex, hle, hle.trans_lt hn, Nat.find_spec hex, fun m hm => ?_⟩
  simpa using Nat.find_min hex hm

theorem Manageable.manages (h : Manageable sb d) : Manages sb d := by
  refine ⟨?_, ?_, ?_⟩
  · rintro ⟨n, hn, hclear⟩
    have hends := balloc_ends sb d
    generalize balloc sb d = r at hends
    cases hends with
    | found hl _ => exact ⟨_, _, rfl, hl.allocated (h.apart _ hl).2⟩
    | full hall _ => exact absurd ((hall n hn).symm.trans hclear) (Bool.false_ne_true ∘ Eq.symm)
    | overflow hall _ =>
      obtain ⟨m, hm, hl⟩ := exists_leastClear hn hclear
      have hset := hall m hl.lt (h.apart m hl).1
      exact absurd (hset.symm.trans hl.clear) (Bool.false_ne_true ∘ Eq.symm)
  · have hends := balloc_ends sb d
    generalize balloc sb d = r at hends
    cases hends with
    | found hl _ =>
      refine iff_of_false (fun he => by cases he) fun hall => ?_
      exact absurd ((hall _ hl.lt).symm.trans hl.clear) (Bool.false_ne_true ∘ Eq.symm)
    | full hall _ => exact iff_of_true rfl hall
    | overflow hall hs =>
      refine iff_of_false (fun he => by cases he) fun hall => ?_
      exact absurd (h.small hall) (Nat.not_le_of_lt hs)
  · intro b hb hset
    obtain ⟨d', hrun, hbits, hdata⟩ := bfree_flips (lt_nbits hb) hset
    exact ⟨d', hrun, ⟨(hbits _ (lt_nbits hb)).trans (if_pos rfl),
      fun m hm hne => (hbits m hm).trans (if_neg hne)⟩, hdata⟩

theorem Manages.manageable (h : Manages sb d) : Manageable sb d := by
  have hends := balloc_ends sb d
  refine ⟨fun hall => ?_, fun n hl => ?_⟩
  · rw [h.none.mpr hall] at hends
    cases hends with
    | full _ hs => exact hs
  · obtain ⟨n', d', hrun, hd'⟩ := h.some ⟨n, hl.lt, hl.clear⟩
    obtain rfl := hl.unique hd'.least
    rw [hrun] at hends
    generalize hr : (Except.ok (BitVec.ofNat 32 n, d') : Except Stop _) = r at hends
    cases hends with
    | found hl' hlt =>
      obtain rfl := hl.unique hl'
      obtain ⟨-, rfl⟩ := Prod.mk.inj (Except.ok.inj hr)
      have hn := lt_nbits hl.lt
      refine ⟨hlt, fun m hm hb => ?_⟩
      have hbit := bit_taken (d := d) hn hm
      rw [if_pos hb] at hbit
      have hne : m ≠ n := by
        rintro rfl
        exact absurd (hbit.symm.trans hd'.flips.same) Bool.false_ne_true
      exact ⟨hne, (hd'.flips.others m hm hne).symm.trans hbit⟩
    | full _ _ => cases hr
    | overflow _ _ => cases hr

/-- `balloc` and `bfree` manage the bitmap exactly if the disk is not too large for the counter of
the search and the block allocated is not used for the bitmap. -/
theorem manages_iff (sb : Super) (d : Blocks) : Manages sb d ↔ Manageable sb d :=
  ⟨Manages.manageable, Manageable.manages⟩

/-- A disk of which only the last block is free. -/
def bigSuper : Super := ⟨0x80000001, 46⟩

def bigBlocks : Blocks := fun x => if x = 262190 then fun _ => 0 else fun _ => 0xff

theorem bigBlocks_bit {n : ℕ} (hn : n < 2 ^ 31) : bit bigSuper bigBlocks n = true := by
  have hne : BBLOCK bigSuper n ≠ 262190 := by
    intro h
    have hnat := congrArg BitVec.toNat h
    rw [BBLOCK, toNat_add, toNat_ofNat] at hnat
    change (n / BPB % 2 ^ 32 + 46) % 2 ^ 32 = 262190 at hnat
    simp only [BPB, BSIZE] at hnat
    omega
  have hmod : n % BPB / 8 < BSIZE := by
    simp only [BPB, BSIZE]
    omega
  have hones : ∀ k < 8, (0xff : Byte).getLsbD k = true := by decide
  rw [bit, bigBlocks, if_neg hne, bitSet_eq, byteAt, dif_pos hmod]
  exact hones _ (Nat.mod_lt _ (by decide))

/-- The counter overflows before the search comes to the free block. -/
theorem not_manages :
    2 ^ 31 < bigSuper.size.toNat ∧ bit bigSuper bigBlocks (2 ^ 31) = false ∧
      balloc bigSuper bigBlocks = .error .overflow := by
  have hclear : bit bigSuper bigBlocks (2 ^ 31) = false := by
    have hb : BBLOCK bigSuper (2 ^ 31) = 262190 := by decide
    rw [bit, hb]
    exact bitSet_zero _
  refine ⟨by decide, hclear, ?_⟩
  have hends := balloc_ends bigSuper bigBlocks
  generalize balloc bigSuper bigBlocks = r at hends ⊢
  cases hends with
  | found hl hlt => exact absurd ((bigBlocks_bit hlt).symm.trans hl.clear) (by decide)
  | full hall _ => exact absurd ((hall _ (by decide)).symm.trans hclear) (by decide)
  | overflow _ _ => rfl

end Xv6.Bitmap
