import Xv6.Fs.View
import Xv6.Lib.Count
import Mathlib.Data.Finset.Prod
import Mathlib.Data.Finset.Range

/-! Who owns which block: the places in which inodes and indirect blocks store block numbers,
and the condition that they and the bitmap account for every data block exactly once. -/
namespace Xv6.Fs
open Bytes Function
open Xv6.Log (BSIZE Block)

variable (sb : Superblock)

def places : Finset (ℕ × ℕ) := Finset.range sb.ninodes ×ˢ Finset.range (NDIRECT + 1 + NINDIRECT)

def Vol.place (v : Vol) (p : ℕ × ℕ) : ℕ :=
  let d := v.node p.1
  if d.type = 0 then 0
  else if p.2 ≤ NDIRECT then (d.addrs (Fin.ofNat _ p.2)).toNat
  else if d.addrs (Fin.last NDIRECT) = 0 then 0
  else (getWord (v.data (d.addrs (Fin.last NDIRECT)).toNat) (4 * (p.2 - (NDIRECT + 1)))).toNat

def blockPlace (j : ℕ) : ℕ := if j < NDIRECT then j else j + 1

def Vol.block (v : Vol) (i j : ℕ) : ℕ := v.place (i, blockPlace j)

/-- The table `f` of stored block numbers and the bitmap agree on every data block. -/
structure Owned (f : ℕ × ℕ → ℕ) (bit : ℕ → Bool) : Prop where
  data : ∀ p ∈ places sb, f p ≠ 0 → sb.IsData (f p)
  once : ∀ b, sb.IsData b → Count.occ (places sb) f b = if bit b then 1 else 0

namespace Owned
variable {sb} {f g : ℕ × ℕ → ℕ} {bit : ℕ → Bool}

theorem congr (h : Owned sb f bit) (hg : ∀ p ∈ places sb, g p = f p) : Owned sb g bit where
  data p hp hne := by
    rw [hg p hp] at hne ⊢
    exact h.data p hp hne
  once b hb := (Count.occ_congr hg).trans (h.once b hb)

variable {p : ℕ × ℕ}

theorem bit_set (h : Owned sb f bit) (hp : p ∈ places sb) (hne : f p ≠ 0) : bit (f p) = true := by
  have hocc := h.once _ (h.data p hp hne)
  have hpos : 0 < Count.occ (places sb) f (f p) := Count.occ_pos.mpr ⟨p, hp, rfl⟩
  by_contra hb
  rw [if_neg hb] at hocc
  omega

theorem inj (h : Owned sb f bit) {p q : ℕ × ℕ} (hp : p ∈ places sb) (hq : q ∈ places sb)
    (hne : f p ≠ 0) (he : f q = f p) : q = p := by
  have hocc := h.once _ (h.data p hp hne)
  have hle : Count.occ (places sb) f (f p) ≤ 1 := by
    rw [hocc]
    split <;> omega
  exact Count.occ_le_one.mp hle q hq p hp he rfl

theorem fresh (h : Owned sb f bit) {b : ℕ} (hb : sb.IsData b) (hbit : bit b = false)
    (hp : p ∈ places sb) : f p ≠ b := by
  have hocc := h.once b hb
  rw [hbit] at hocc
  exact Count.occ_eq_zero.mp (by simpa using hocc) p hp

theorem alloc (h : Owned sb f bit) {b : ℕ} (hb : sb.IsData b) (hbit : bit b = false)
    (hp : p ∈ places sb) (hf : f p = 0) : Owned sb (update f p b) (update bit b true) where
  data q hq hne := by
    rcases eq_or_ne q p with rfl | hqp
    · rwa [update_self]
    · rw [update_of_ne hqp] at hne ⊢
      exact h.data q hq hne
  once c hc := by
    have hocc := h.once c hc
    have hup := Count.occ_update (f := f) (b := c) hp b
    rw [hf, if_neg fun h0 => hc.ne_zero h0.symm] at hup
    rcases eq_or_ne c b with rfl | hcb
    · rw [update_self, if_pos rfl]
      rw [hbit] at hocc
      simp at hocc hup
      omega
    · rw [update_of_ne hcb, ← hocc]
      rw [if_neg fun h0 => hcb h0.symm] at hup
      omega

theorem free (h : Owned sb f bit) (hp : p ∈ places sb) (hne : f p ≠ 0) :
    Owned sb (update f p 0) (update bit (f p) false) where
  data q hq hq0 := by
    rcases eq_or_ne q p with rfl | hqp
    · rw [update_self] at hq0
      exact absurd rfl hq0
    · rw [update_of_ne hqp] at hq0 ⊢
      exact h.data q hq hq0
  once c hc := by
    have hocc := h.once c hc
    have hup := Count.occ_update (f := f) (b := c) hp 0
    rw [if_neg (fun h0 : 0 = c => hc.ne_zero h0.symm)] at hup
    rcases eq_or_ne c (f p) with rfl | hcb
    · rw [update_self]
      rw [h.bit_set hp hne] at hocc
      simp at hocc hup ⊢
      omega
    · rw [update_of_ne hcb, ← hocc]
      rw [if_neg fun h0 => hcb h0.symm] at hup
      omega

end Owned

/-- Ownership, no holes below the file size, and a bitmap that covers the metadata. -/
structure Wf (v : Vol) : Prop where
  owned : Owned sb v.place v.bit
  full : ∀ i < sb.ninodes, (v.node i).type ≠ 0 →
    ∀ j, j * BSIZE < (v.node i).size.toNat → v.block i j ≠ 0
  small : ∀ i < sb.ninodes, (v.node i).type ≠ 0 → (v.node i).size.toNat ≤ MAXFILE * BSIZE
  metadata : ∀ b < sb.datastart, v.bit b = true

variable {sb} {v w : Vol}

theorem blockPlace_lt {j : ℕ} (hj : j < MAXFILE) : blockPlace j < NDIRECT + 1 + NINDIRECT := by
  rw [MAXFILE] at hj
  rw [blockPlace]
  split <;> omega

theorem blockPlace_ne (j : ℕ) : blockPlace j ≠ NDIRECT := by
  simp only [blockPlace]
  split <;> omega

theorem blockPlace_inj {j k : ℕ} (h : blockPlace j = blockPlace k) : j = k := by
  simp only [blockPlace] at h
  split at h <;> split at h <;> omega

variable {i j : ℕ}

theorem mem_places (hi : i < sb.ninodes) (hj : j < NDIRECT + 1 + NINDIRECT) :
    (i, j) ∈ places sb := by
  simp only [places, Finset.mem_product, Finset.mem_range]
  exact ⟨hi, hj⟩

theorem place_last (v : Vol) {i : ℕ} (ht : (v.node i).type ≠ 0) :
    v.place (i, NDIRECT) = ((v.node i).addrs (Fin.last NDIRECT)).toNat := by
  simp only [Vol.place, if_neg ht, le_refl, if_true]
  rfl

theorem place_direct (v : Vol) (ht : (v.node i).type ≠ 0) (hj : j ≤ NDIRECT) :
    v.place (i, j) = ((v.node i).addrs (Fin.ofNat _ j)).toNat := by
  simp only [Vol.place, if_neg ht, if_pos hj]

theorem place_congr {i : ℕ} (hn : w.node i = v.node i)
    (hd : (v.node i).type ≠ 0 → (v.node i).addrs (Fin.last NDIRECT) ≠ 0 →
      w.data (v.place (i, NDIRECT)) = v.data (v.place (i, NDIRECT))) (j : ℕ) :
    w.place (i, j) = v.place (i, j) := by
  by_cases ht : (v.node i).type = 0
  · simp [Vol.place, hn, ht]
  by_cases ha : (v.node i).addrs (Fin.last NDIRECT) = 0
  · simp [Vol.place, hn, ha]
  · have := hd ht ha
    rw [place_last v ht] at this
    simp only [Vol.place, hn, this]

theorem Wf.of_owned (h : Wf sb v) (ho : Owned sb w.place w.bit)
    (hn : ∀ i < sb.ninodes, (w.node i).type = (v.node i).type ∧ (w.node i).size = (v.node i).size)
    (hb : ∀ i < sb.ninodes, ∀ j < MAXFILE, v.block i j ≠ 0 → w.block i j ≠ 0)
    (hm : ∀ b < sb.datastart, v.bit b = true → w.bit b = true) : Wf sb w where
  owned := ho
  full i hi ht j hj := by
    rw [(hn i hi).1] at ht
    rw [(hn i hi).2] at hj
    have hs := h.small i hi ht
    refine hb i hi j ?_ (h.full i hi ht j hj)
    simp only [MAXFILE, NDIRECT, NINDIRECT, BSIZE] at hj hs ⊢
    omega
  small i hi ht := by
    rw [(hn i hi).1] at ht
    rw [(hn i hi).2]
    exact h.small i hi ht
  metadata b hlt := hm b hlt (h.metadata b hlt)

def Vol.alloc (v : Vol) (b : ℕ) : Vol :=
  { v with bit := update v.bit b true, data := update v.data b fun _ => 0 }

def Vol.setAddr (v : Vol) (i : ℕ) (j : Fin (NDIRECT + 1)) (b : ℕ) : Vol :=
  { v with node := update v.node i ((v.node i).setAddr j (BitVec.ofNat 32 b)) }

def Vol.setEntry (v : Vol) (a j b : ℕ) : Vol :=
  { v with data := update v.data a (putWord (v.data a) (4 * j) (BitVec.ofNat 32 b)) }

theorem IsData.toNat_ofNat {b : ℕ} (hb : sb.IsData b) : (BitVec.ofNat 32 b).toNat = b := by
  have h1 := hb.2
  have h2 := sb.size_lt
  rw [BitVec.toNat_ofNat, Nat.mod_eq_of_lt (by omega)]

theorem getWord_zero (k : ℕ) : getWord (fun _ => 0 : Block) k = 0 := by
  have h : ∀ k, byteAt (fun _ => 0 : Block) k = 0 := fun k => by
    unfold byteAt
    split <;> rfl
  simp only [getWord, word, h]
  rfl

variable {p : ℕ × ℕ}

theorem place_setAddr (h : Owned sb v.place v.bit) {i b : ℕ} {j : Fin (NDIRECT + 1)}
    (hi : i < sb.ninodes) (ht : (v.node i).type ≠ 0) (h0 : (v.node i).addrs j = 0)
    (hb : sb.IsData b) (hbit : v.bit b = false) (hp : p ∈ places sb) :
    ((v.alloc b).setAddr i j b).place p = update v.place (i, j.val) b p := by
  obtain ⟨k, l⟩ := p
  have hk : k < sb.ninodes := by
    simp only [places, Finset.mem_product, Finset.mem_range] at hp
    exact hp.1
  have hfresh : v.place (k, NDIRECT) ≠ b := h.fresh hb hbit (mem_places hk (by decide))
  rcases eq_or_ne k i with rfl | hki
  · have hnode : ((v.alloc b).setAddr k j b).node k =
        (v.node k).setAddr j (BitVec.ofNat 32 b) := update_self _ _ _
    have ht' : (((v.alloc b).setAddr k j b).node k).type ≠ 0 := by rwa [hnode]
    by_cases hl : l ≤ NDIRECT
    · rw [place_direct _ ht' hl, hnode, Dinode.setAddr]
      dsimp only
      rcases eq_or_ne (Fin.ofNat (NDIRECT + 1) l) j with rfl | hlj
      · have hval : (Fin.ofNat (NDIRECT + 1) l).val = l := by
          rw [Fin.val_ofNat, Nat.mod_eq_of_lt (by omega)]
        rw [update_self, hval, update_self, IsData.toNat_ofNat hb]
      · have hne : (k, l) ≠ (k, j.val) := by
          intro he
          refine hlj (Fin.ext ?_)
          rw [Fin.val_ofNat, Nat.mod_eq_of_lt (by omega)]
          exact (Prod.mk.inj he).2
        rw [update_of_ne hlj, update_of_ne hne, place_direct v ht hl]
    · have hne : (k, l) ≠ (k, j.val) := by
        intro he
        have := (Prod.mk.inj he).2
        have := j.isLt
        omega
      rw [update_of_ne hne]
      rcases eq_or_ne j (Fin.last NDIRECT) with rfl | hj
      · -- the new indirect block is all zero
        have hz : (v.alloc b).data b = fun _ => 0 := update_self _ _ _
        simp only [Vol.place, hnode, Dinode.setAddr, if_neg ht, if_neg hl, update_self, h0, if_true,
          IsData.toNat_ofNat hb]
        rw [show ((v.alloc b).setAddr k (Fin.last NDIRECT) b).data b = fun _ => 0 from hz,
          getWord_zero]
        simp
      · have hlast : update (v.node k).addrs j (BitVec.ofNat 32 b) (Fin.last NDIRECT) =
            (v.node k).addrs (Fin.last NDIRECT) := update_of_ne hj.symm _ _
        rw [place_last v ht] at hfresh
        have hd : ((v.alloc b).setAddr k j b).data ((v.node k).addrs (Fin.last NDIRECT)).toNat =
            v.data ((v.node k).addrs (Fin.last NDIRECT)).toNat := update_of_ne hfresh _ _
        simp only [Vol.place, hnode, Dinode.setAddr, if_neg ht, if_neg hl, hlast, hd]
  · have hne : (k, l) ≠ (i, j.val) := fun he => hki (Prod.mk.inj he).1
    rw [update_of_ne hne]
    exact place_congr (update_of_ne hki _ _)
      (fun _ _ => update_of_ne hfresh _ _) l

theorem mem_places_iff : (i, j) ∈ places sb ↔ i < sb.ninodes ∧ j < NDIRECT + 1 + NINDIRECT := by
  simp only [places, Finset.mem_product, Finset.mem_range]

/-- Writing to a data block that is not an indirect block moves no block number. -/
theorem place_update {c : ℕ} {x : Block}
    (hc : ∀ k < sb.ninodes, v.place (k, NDIRECT) ≠ c) (hp : p ∈ places sb) :
    Vol.place { v with data := update v.data c x } p = v.place p := by
  obtain ⟨k, l⟩ := p
  refine place_congr ?_ (fun _ _ => ?_) l
  · rfl
  · exact update_of_ne (hc k (mem_places_iff.mp hp).1) _ _

theorem Owned.block_ne_last (h : Owned sb v.place v.bit) {i j k : ℕ} (hi : i < sb.ninodes)
    (hj : j < MAXFILE) (hk : k < sb.ninodes) (hne : v.block i j ≠ 0) :
    v.place (k, NDIRECT) ≠ v.block i j := by
  intro he
  have := h.inj (mem_places hi (blockPlace_lt hj)) (mem_places hk (by decide)) hne he
  exact blockPlace_ne j (Prod.mk.inj this).2.symm

theorem place_setEntry (h : Owned sb v.place v.bit) {i j b : ℕ} (hi : i < sb.ninodes)
    (ht : (v.node i).type ≠ 0) (ha : (v.node i).addrs (Fin.last NDIRECT) ≠ 0)
    (hj : j < NINDIRECT) (hb : sb.IsData b) (hbit : v.bit b = false)
    (hp : p ∈ places sb) : ((v.alloc b).setEntry (v.place (i, NDIRECT)) j b).place p =
      update v.place (i, NDIRECT + 1 + j) b p := by
  obtain ⟨k, l⟩ := p
  obtain ⟨hk, hl⟩ := mem_places_iff.mp hp
  have hfresh : v.place (k, NDIRECT) ≠ b := h.fresh hb hbit (mem_places hk (by decide))
  have hai : v.place (i, NDIRECT) ≠ 0 := by
    rw [place_last v ht]
    exact fun h0 => ha (BitVec.eq_of_toNat_eq h0)
  rcases eq_or_ne k i with rfl | hki
  · have hdata : ((v.alloc b).setEntry (v.place (k, NDIRECT)) j b).data (v.place (k, NDIRECT)) =
        putWord (v.data (v.place (k, NDIRECT))) (4 * j) (BitVec.ofNat 32 b) := by
      simp only [Vol.setEntry, Vol.alloc, update_self, update_of_ne hfresh]
    have hplace : ∀ w : Vol, w.node k = v.node k → NDIRECT < l → w.place (k, l) =
        (getWord (w.data (v.place (k, NDIRECT))) (4 * (l - (NDIRECT + 1)))).toNat := by
      intro w hw hlt
      rw [place_last v ht]
      simp only [Vol.place, hw, if_neg ht, if_neg (Nat.not_le.mpr hlt), if_neg ha]
    by_cases hld : l ≤ NDIRECT
    · have hne : (k, l) ≠ (k, NDIRECT + 1 + j) := fun he => by
        have := (Prod.mk.inj he).2
        omega
      have ht' : (((v.alloc b).setEntry (v.place (k, NDIRECT)) j b).node k).type ≠ 0 := ht
      rw [update_of_ne hne, place_direct _ ht' hld, place_direct v ht hld]
      rfl
    · rw [hplace ((v.alloc b).setEntry (v.place (k, NDIRECT)) j b) rfl (by omega), hdata]
      rcases eq_or_ne l (NDIRECT + 1 + j) with rfl | hlj
      · rw [update_self, show NDIRECT + 1 + j - (NDIRECT + 1) = j by omega,
          getWord_putWord _ _ (by simp only [NINDIRECT, BSIZE] at hj ⊢; omega),
          IsData.toNat_ofNat hb]
      · have hne : (k, l) ≠ (k, NDIRECT + 1 + j) := fun he => hlj (Prod.mk.inj he).2
        rw [update_of_ne hne, getWord_putWord_of_ne _ _ (by omega),
          hplace v rfl (by omega)]
  · have hne : (k, l) ≠ (i, NDIRECT + 1 + j) := fun he => hki (Prod.mk.inj he).1
    rw [update_of_ne hne]
    refine place_congr ?_ (fun _ _ => ?_) l
    · rfl
    have hak : v.place (k, NDIRECT) ≠ v.place (i, NDIRECT) := fun he =>
      hki (Prod.mk.inj (h.inj (mem_places hi (by decide)) (mem_places hk (by decide)) hai he)).1
    simp only [Vol.setEntry, Vol.alloc, update_of_ne hak, update_of_ne hfresh]

theorem Wf.setAddr (h : Wf sb v) {i b : ℕ} {j : Fin (NDIRECT + 1)} (hi : i < sb.ninodes)
    (ht : (v.node i).type ≠ 0) (h0 : (v.node i).addrs j = 0) (hb : sb.IsData b)
    (hbit : v.bit b = false) : Wf sb ((v.alloc b).setAddr i j b) := by
  have hplace := fun p hp => place_setAddr h.owned hi ht h0 hb hbit (p := p) hp
  have hf0 : v.place (i, j.val) = 0 := by
    rw [place_direct v ht (by omega), show Fin.ofNat (NDIRECT + 1) j.val = j from
      Fin.ext (by rw [Fin.val_ofNat, Nat.mod_eq_of_lt j.isLt]), h0]
    rfl
  have hj : (i, j.val) ∈ places sb := mem_places hi (by have := j.isLt; omega)
  refine h.of_owned ((h.owned.alloc hb hbit hj hf0).congr hplace) (fun k _ => ?_)
    (fun k hk l hl hne => ?_) fun c _ hc => ?_
  · rcases eq_or_ne k i with rfl | hki
    · have : ((v.alloc b).setAddr k j b).node k = (v.node k).setAddr j (BitVec.ofNat 32 b) :=
        update_self _ _ _
      rw [this]
      exact ⟨rfl, rfl⟩
    · have : ((v.alloc b).setAddr i j b).node k = v.node k := update_of_ne hki _ _
      rw [this]
      exact ⟨rfl, rfl⟩
  · rw [Vol.block, hplace _ (mem_places hk (blockPlace_lt hl)), update_apply]
    split
    · exact hb.ne_zero
    · exact hne
  · change update v.bit b true c = true
    rw [update_apply]
    split
    · rfl
    · exact hc

theorem Wf.setEntry (h : Wf sb v) {i j b : ℕ} (hi : i < sb.ninodes) (ht : (v.node i).type ≠ 0)
    (ha : (v.node i).addrs (Fin.last NDIRECT) ≠ 0) (hj : j < NINDIRECT)
    (h0 : v.place (i, NDIRECT + 1 + j) = 0) (hb : sb.IsData b) (hbit : v.bit b = false) :
    Wf sb ((v.alloc b).setEntry (v.place (i, NDIRECT)) j b) := by
  have hplace := fun p hp => place_setEntry h.owned hi ht ha hj hb hbit (p := p) hp
  refine h.of_owned ((h.owned.alloc hb hbit (mem_places hi (by omega)) h0).congr hplace)
    (fun _ _ => ⟨rfl, rfl⟩) (fun k hk l hl hne => ?_) fun c _ hc => ?_
  · rw [Vol.block, hplace _ (mem_places hk (blockPlace_lt hl)), update_apply]
    split
    · exact hb.ne_zero
    · exact hne
  · change update v.bit b true c = true
    rw [update_apply]
    split
    · rfl
    · exact hc

theorem Wf.putData (h : Wf sb v) (hi : i < sb.ninodes) (hj : j < MAXFILE)
    (hne : v.block i j ≠ 0) (x : Block) :
    Wf sb { v with data := update v.data (v.block i j) x } := by
  have hplace := fun p hp => place_update (p := p) (x := x)
    (fun k hk => h.owned.block_ne_last hi hj hk hne) hp
  refine h.of_owned (h.owned.congr hplace) (fun _ _ => ⟨rfl, rfl⟩) (fun k hk l hl hl0 => ?_)
    fun _ _ hc => hc
  rwa [Vol.block, hplace _ (mem_places hk (blockPlace_lt hl))]

end Xv6.Fs
