import Xv6.Lib.Move

/-! `memmove` of the kernel (`string.c`) and of the user library (`ulib.c`). -/
namespace Xv6
open Move

abbrev Addr := BitVec 64

/-- The kernel's `memmove`, whose `n` is a `uint`. -/
def Kernel.memmove (m : Addr → BitVec 8) (dst src : Addr) (n : BitVec 32) : Addr → BitVec 8 :=
  if n = 0 then m
  else if src < dst ∧ dst < src + n.setWidth 64 then
    backward m (dst + n.setWidth 64) (src + n.setWidth 64) n.toNat
  else forward m dst src n.toNat

/-- The user library's `memmove`, whose `n` is an `int`. -/
def User.memmove (m : Addr → BitVec 8) (vdst vsrc : Addr) (n : BitVec 32) : Addr → BitVec 8 :=
  if vdst < vsrc then forward m vdst vsrc n.toInt.toNat
  else backward m (vdst + n.signExtend 64) (vsrc + n.signExtend 64) n.toInt.toNat

variable {m : Addr → BitVec 8} {dst src : Addr} {n : BitVec 32}

theorem setWidth_eq (n : BitVec 32) : n.setWidth 64 = BitVec.ofNat 64 n.toNat := by
  apply BitVec.eq_of_toNat_eq
  rw [BitVec.toNat_setWidth, BitVec.toNat_ofNat]

theorem toInt_of_lt (hn : n.toNat < 2 ^ 31) : n.toInt = n.toNat := by
  rw [BitVec.toInt_eq_toNat_cond, if_pos (by omega)]

theorem signExtend_eq (hn : n.toNat < 2 ^ 31) : n.signExtend 64 = BitVec.ofNat 64 n.toNat := by
  rw [BitVec.signExtend, toInt_of_lt hn, BitVec.ofInt_natCast]

theorem Kernel.memmove_eq (hd : dst.toNat + n.toNat ≤ 2 ^ 64) (hs : src.toNat + n.toNat ≤ 2 ^ 64) :
    Kernel.memmove m dst src n = moved m dst src n.toNat := by
  rw [Kernel.memmove]
  by_cases h0 : n = 0
  · rw [if_pos h0, h0]
    exact funext fun x => (moved_out (by change _ ∨ _ + 0 ≤ _; omega)).symm
  · rw [if_neg h0, setWidth_eq]
    have hpos : 0 < n.toNat := Nat.pos_of_ne_zero fun h => h0 (BitVec.eq_of_toNat_eq h)
    split
    · rename_i hover
      exact backward_eq hd hs (.inl (BitVec.le_of_lt hover.1))
    · rename_i hover
      refine forward_eq hd hs ?_
      rcases Nat.lt_or_ge src.toNat dst.toNat with hlt | hge
      · -- the end of the source does not wrap, because that of the destination does not
        have hend : (src + BitVec.ofNat 64 n.toNat).toNat = src.toNat + n.toNat :=
          toNat_add_ofNat (by omega)
        rw [not_and, BitVec.lt_def, BitVec.lt_def, hend] at hover
        exact .inr (Nat.le_of_not_lt (hover hlt))
      · exact .inl hge

theorem User.memmove_eq (hn : n.toNat < 2 ^ 31) (hd : dst.toNat + n.toNat ≤ 2 ^ 64)
    (hs : src.toNat + n.toNat ≤ 2 ^ 64) : User.memmove m dst src n = moved m dst src n.toNat := by
  rw [User.memmove, signExtend_eq hn, toInt_of_lt hn, Int.toNat_natCast]
  split
  · rename_i hlt
    exact forward_eq hd hs (.inl (BitVec.le_of_lt hlt))
  · rename_i hlt
    exact backward_eq hd hs (.inl (Nat.le_of_not_lt hlt))

/-- Both functions put the original bytes of the source into the destination and change nothing
else, however the two overlap. -/
theorem memmoves_move (m : Addr → BitVec 8) (dst src : Addr) (n : BitVec 32)
    (hn : n.toNat < 2 ^ 31) (hd : dst.toNat + n.toNat ≤ 2 ^ 64)
    (hs : src.toNat + n.toNat ≤ 2 ^ 64) :
    (∀ x : Addr, Kernel.memmove m dst src n x =
      if dst.toNat ≤ x.toNat ∧ x.toNat < dst.toNat + n.toNat then m (src + (x - dst)) else m x) ∧
    User.memmove m dst src n = Kernel.memmove m dst src n := by
  refine ⟨fun x => ?_, ?_⟩
  · rw [Kernel.memmove_eq hd hs]
    rfl
  · rw [User.memmove_eq hn hd hs, Kernel.memmove_eq hd hs]

theorem memmoves_move_overlap :
    Kernel.memmove (fun x => x.setWidth 8) 11 10 3 13 = 12 ∧
      User.memmove (fun x => x.setWidth 8) 11 10 3 = Kernel.memmove (fun x => x.setWidth 8) 11 10 3 := by
  obtain ⟨hk, hu⟩ := memmoves_move (fun x => x.setWidth 8) 11 10 3 (by decide) (by decide) (by decide)
  exact ⟨(hk 13).trans (by decide), hu⟩

end Xv6
