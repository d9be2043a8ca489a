import Mathlib.Data.BitVec
import Mathlib.Logic.Function.Basic

/-! Byte buffers of a fixed size, with little-endian 16-, 32- and 64-bit fields in them. -/
namespace Bytes
open BitVec

abbrev Byte := BitVec 8
abbrev Buf (n : ℕ) := Fin n → Byte

variable {n : ℕ}

def byteAt (b : Buf n) (k : ℕ) : Byte := if h : k < n then b ⟨k, h⟩ else 0

/-- The buffer with `len` bytes from `off` on replaced. -/
def patch (b : Buf n) (off len : ℕ) (src : ℕ → Byte) : Buf n :=
  fun i => if off ≤ i.val ∧ i.val < off + len then src (i - off) else b i

theorem byteAt_patch (b : Buf n) (off len : ℕ) (src : ℕ → Byte) {k : ℕ} (hk : k < n) :
    byteAt (patch b off len src) k =
      if off ≤ k ∧ k < off + len then src (k - off) else byteAt b k := by
  simp only [byteAt, patch, hk, dif_pos]

theorem byteAt_patch_in (b : Buf n) {off len : ℕ} (src : ℕ → Byte) {k : ℕ} (hk : k < len)
    (hn : off + len ≤ n) : byteAt (patch b off len src) (off + k) = src k := by
  rw [byteAt_patch b off len src (by omega), if_pos (by omega), Nat.add_sub_cancel_left]

theorem byteAt_patch_one (b : Buf n) (src : ℕ → Byte) {off : ℕ} (h : off < n) :
    byteAt (patch b off 1 src) off = src 0 := byteAt_patch_in b src Nat.one_pos h

theorem byteAt_patch_out (b : Buf n) {off len : ℕ} (src : ℕ → Byte) {k : ℕ}
    (hk : k < off ∨ off + len ≤ k) : byteAt (patch b off len src) k = byteAt b k := by
  rcases lt_or_ge k n with h | h
  · rw [byteAt_patch b off len src h, if_neg (by omega)]
  · simp only [byteAt, Nat.not_lt.mpr h, dif_neg, not_false_eq_true]

/-- The `k`-th byte of a number, least significant first. -/
def le (v k : ℕ) : Byte := BitVec.ofNat 8 (v / 256 ^ k)

def half (f : ℕ → Byte) (off : ℕ) : BitVec 16 :=
  BitVec.ofNat 16 ((f off).toNat + 256 * (f (off + 1)).toNat)

def word (f : ℕ → Byte) (off : ℕ) : BitVec 32 :=
  BitVec.ofNat 32 ((f off).toNat + 256 * (f (off + 1)).toNat + 65536 * (f (off + 2)).toNat +
    16777216 * (f (off + 3)).toNat)

variable {off off' : ℕ} {f g : ℕ → Byte}

theorem half_congr (h : ∀ k < 2, f (off + k) = g (off' + k)) : half f off = half g off' := by
  have h0 := h 0 (by decide)
  have h1 := h 1 (by decide)
  simp only [add_zero] at h0
  rw [half, half, h0, h1]

theorem word_congr (h : ∀ k < 4, f (off + k) = g (off' + k)) : word f off = word g off' := by
  have h0 := h 0 (by decide)
  simp only [add_zero] at h0
  rw [word, word, h0, h 1 (by decide), h 2 (by decide), h 3 (by decide)]

theorem half_le (v : BitVec 16) : half (le v.toNat) 0 = v := by
  apply eq_of_toNat_eq
  have := v.isLt
  simp only [half, le, toNat_ofNat]
  omega

theorem word_le (v : BitVec 32) : word (le v.toNat) 0 = v := by
  apply eq_of_toNat_eq
  have := v.isLt
  simp only [word, le, toNat_ofNat]
  omega

theorem half_patch_in (b : Buf n) {off len k : ℕ} (src : ℕ → Byte) (hk : k + 2 ≤ len)
    (hn : off + len ≤ n) : half (byteAt (patch b off len src)) (off + k) = half src k :=
  half_congr fun j hj => by rw [add_assoc, byteAt_patch_in b src (by omega) hn]

theorem word_patch_in (b : Buf n) {off len k : ℕ} (src : ℕ → Byte) (hk : k + 4 ≤ len)
    (hn : off + len ≤ n) : word (byteAt (patch b off len src)) (off + k) = word src k :=
  word_congr fun j hj => by rw [add_assoc, byteAt_patch_in b src (by omega) hn]

theorem half_patch_out (b : Buf n) {off len k : ℕ} (src : ℕ → Byte)
    (hk : k + 2 ≤ off ∨ off + len ≤ k) :
    half (byteAt (patch b off len src)) k = half (byteAt b) k :=
  half_congr fun j hj => by rw [byteAt_patch_out b src (by omega)]

theorem word_patch_out (b : Buf n) {off len k : ℕ} (src : ℕ → Byte)
    (hk : k + 4 ≤ off ∨ off + len ≤ k) :
    word (byteAt (patch b off len src)) k = word (byteAt b) k :=
  word_congr fun j hj => by rw [byteAt_patch_out b src (by omega)]

def getHalf (b : Buf n) (off : ℕ) : BitVec 16 := half (byteAt b) off

def getWord (b : Buf n) (off : ℕ) : BitVec 32 := word (byteAt b) off

def putWord (b : Buf n) (off : ℕ) (v : BitVec 32) : Buf n := patch b off 4 (le v.toNat)

theorem getWord_putWord (b : Buf n) {off : ℕ} (v : BitVec 32) (h : off + 4 ≤ n) :
    getWord (putWord b off v) off = v :=
  (word_patch_in b (k := 0) (le v.toNat) (le_refl 4) h).trans (word_le v)

theorem getWord_putWord_of_ne (b : Buf n) (v : BitVec 32)
    (h : off' + 4 ≤ off ∨ off + 4 ≤ off') : getWord (putWord b off v) off' = getWord b off' :=
  word_patch_out b (le v.toNat) h

def dword (f : ℕ → Byte) (off : ℕ) : BitVec 64 := word f (off + 4) ++ word f off

theorem dword_congr (h : ∀ k < 8, f (off + k) = g (off' + k)) : dword f off = dword g off' := by
  have hlow : word f off = word g off' := word_congr fun k hk => h k (by omega)
  have hhigh : word f (off + 4) = word g (off' + 4) := word_congr fun k hk => by
    rw [add_assoc, add_assoc]
    exact h (4 + k) (by omega)
  rw [dword, dword, hlow, hhigh]

theorem dword_le (v : BitVec 64) : dword (le v.toNat) 0 = v := by
  apply eq_of_toNat_eq
  have := v.isLt
  simp only [dword, word, le, toNat_append, toNat_ofNat, Nat.shiftLeft_eq]
  rw [← Nat.shiftLeft_eq, ← Nat.shiftLeft_add_eq_or_of_lt (by omega), Nat.shiftLeft_eq]
  omega

def getDword (b : Buf n) (off : ℕ) : BitVec 64 := dword (byteAt b) off

def putDword (b : Buf n) (off : ℕ) (v : BitVec 64) : Buf n := patch b off 8 (le v.toNat)

theorem getDword_putDword (b : Buf n) {off : ℕ} (v : BitVec 64) (h : off + 8 ≤ n) :
    getDword (putDword b off v) off = v :=
  (dword_congr fun k hk => (byteAt_patch_in b (le v.toNat) hk h).trans (by rw [zero_add])).trans
    (dword_le v)

theorem getDword_putDword_of_ne (b : Buf n) (v : BitVec 64)
    (h : off' + 8 ≤ off ∨ off + 8 ≤ off') : getDword (putDword b off v) off' = getDword b off' :=
  dword_congr fun k hk => by rw [putDword, byteAt_patch_out b _ (by omega)]

theorem getDword_zero {off : ℕ} : getDword (fun _ => 0 : Buf n) off = 0 := by
  have hbyte : ∀ k, byteAt (fun _ => 0 : Buf n) k = 0 := by
    intro k
    unfold byteAt
    split <;> rfl
  rw [getDword, dword, word, word]
  simp only [hbyte]
  rfl

end Bytes
