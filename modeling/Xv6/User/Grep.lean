import Xv6.Lib.Bytes
import Mathlib.Data.List.Induction

/-! The matcher of `user/grep.c`. A C string is the list of its bytes before the NUL. -/
namespace Xv6.Grep
open Bytes List

def charStar : Byte := 0x2a
def charDot : Byte := 0x2e
def charCaret : Byte := 0x5e
def charDollar : Byte := 0x24

def matchstar (c : Byte) (here : List Byte → Bool) : List Byte → Bool
  | [] => here []
  | t :: text => here (t :: text) || ((t = c || c = charDot) && matchstar c here text)

def matchone (c : Byte) (here : List Byte → Bool) : List Byte → Bool
  | [] => false
  | t :: text => (c = charDot || c = t) && here text

def matchhere : List Byte → List Byte → Bool
  | [], _ => true
  | [c], text =>
    if c = charDollar then text.isEmpty else matchone c (matchhere []) text
  | c :: c' :: re, text =>
    if c' = charStar then matchstar c (matchhere re) text
    else matchone c (matchhere (c' :: re)) text

def matchany (here : List Byte → Bool) : List Byte → Bool
  | [] => here []
  | t :: text => here (t :: text) || matchany here text

def matchText (re text : List Byte) : Bool :=
  match re with
  | [] => matchany (matchhere []) text
  | c :: re => if c = charCaret then matchhere re text else matchany (matchhere (c :: re)) text

/-- What a pattern is made of, after a `^` at its beginning. -/
inductive Item where
  | star (c : Byte)
  | eot
  | one (c : Byte)
  deriving DecidableEq

def items : List Byte → List Item
  | [] => []
  | [c] => if c = charDollar then [.eot] else [.one c]
  | c :: c' :: re => if c' = charStar then .star c :: items re else .one c :: items (c' :: re)

/-- A character of a pattern stands for the byte `b`. -/
def StandsFor (c b : Byte) : Prop := c = charDot ∨ c = b

/-- The pattern describes `s`, a part of a text that is followed by `rest`. -/
def Describes : List Item → List Byte → List Byte → Prop
  | [], s, _ => s = []
  | .star c :: is, s, rest =>
    ∃ u v, s = u ++ v ∧ (∀ b ∈ u, StandsFor c b) ∧ Describes is v rest
  | .eot :: is, s, rest => rest = [] ∧ Describes is s rest
  | .one c :: is, s, rest => ∃ b v, s = b :: v ∧ StandsFor c b ∧ Describes is v rest

section
variable {c : Byte} {here : List Byte → Bool} {text : List Byte}

theorem matchstar_iff : matchstar c here text = true ↔
    ∃ u v, text = u ++ v ∧ (∀ b ∈ u, StandsFor c b) ∧ here v = true := by
  induction text with
  | nil =>
    rw [matchstar]
    constructor
    · exact fun h => ⟨[], [], rfl, by simp, h⟩
    · rintro ⟨u, v, huv, -, h⟩
      rwa [(append_eq_nil_iff.mp huv.symm).2] at h
  | cons t text ih =>
    have ht : (decide (t = c) || decide (c = charDot)) = true ↔ StandsFor c t := by
      rw [Bool.or_eq_true, decide_eq_true_iff, decide_eq_true_iff, StandsFor, or_comm,
        eq_comm (a := t)]
    rw [matchstar, Bool.or_eq_true, Bool.and_eq_true, ht, ih]
    constructor
    · rintro (h | ⟨hs, u, v, rfl, hu, h⟩)
      · exact ⟨[], t :: text, rfl, by simp, h⟩
      · exact ⟨t :: u, v, rfl, forall_mem_cons.mpr ⟨hs, hu⟩, h⟩
    · rintro ⟨u, v, huv, hu, h⟩
      cases u with
      | nil =>
        rw [nil_append] at huv
        exact .inl (huv ▸ h)
      | cons b u =>
        obtain ⟨rfl, rfl⟩ := List.cons.inj huv
        obtain ⟨hb, hu⟩ := forall_mem_cons.mp hu
        exact .inr ⟨hb, u, v, rfl, hu, h⟩

theorem matchone_iff : matchone c here text = true ↔
    ∃ b v, text = b :: v ∧ StandsFor c b ∧ here v = true := by
  cases text with
  | nil =>
    rw [matchone]
    simp
  | cons t text =>
    have ht : (decide (c = charDot) || decide (c = t)) = true ↔ StandsFor c t := by
      rw [Bool.or_eq_true, decide_eq_true_iff, decide_eq_true_iff, StandsFor]
    rw [matchone, Bool.and_eq_true, ht]
    constructor
    · exact fun h => ⟨t, text, rfl, h⟩
    · rintro ⟨b, v, hbv, h⟩
      obtain ⟨rfl, rfl⟩ := List.cons.inj hbv
      exact h

theorem matchany_iff : matchany here text = true ↔ ∃ u v, text = u ++ v ∧ here v = true := by
  induction text with
  | nil =>
    rw [matchany]
    constructor
    · exact fun h => ⟨[], [], rfl, h⟩
    · rintro ⟨u, v, huv, h⟩
      rwa [(append_eq_nil_iff.mp huv.symm).2] at h
  | cons t text ih =>
    rw [matchany, Bool.or_eq_true, ih]
    constructor
    · rintro (h | ⟨u, v, rfl, h⟩)
      · exact ⟨[], t :: text, rfl, h⟩
      · exact ⟨t :: u, v, rfl, h⟩
    · rintro ⟨u, v, huv, h⟩
      cases u with
      | nil =>
        rw [nil_append] at huv
        exact .inl (huv ▸ h)
      | cons b u => exact .inr ⟨u, v, (List.cons.inj huv).2, h⟩

end

def Begins (is : List Item) (text : List Byte) : Prop :=
  ∃ s rest, text = s ++ rest ∧ Describes is s rest

variable {text : List Byte}

theorem begins_one {c : Byte} {is : List Item} :
    Begins (.one c :: is) text ↔ ∃ b v, text = b :: v ∧ StandsFor c b ∧ Begins is v := by
  constructor
  · rintro ⟨s, rest, rfl, b, v, rfl, hb, h⟩
    exact ⟨b, v ++ rest, rfl, hb, v, rest, rfl, h⟩
  · rintro ⟨b, v, rfl, hb, s, rest, rfl, h⟩
    exact ⟨b :: s, rest, rfl, b, s, rfl, hb, h⟩

theorem begins_star {c : Byte} {is : List Item} : Begins (.star c :: is) text ↔
      ∃ u v, text = u ++ v ∧ (∀ b ∈ u, StandsFor c b) ∧ Begins is v := by
  constructor
  · rintro ⟨s, rest, rfl, u, v, rfl, hu, h⟩
    exact ⟨u, v ++ rest, append_assoc .., hu, v, rest, rfl, h⟩
  · rintro ⟨u, v, rfl, hu, s, rest, rfl, h⟩
    exact ⟨u ++ s, rest, (append_assoc ..).symm, u, s, rfl, hu, h⟩

theorem begins_nil (text : List Byte) : Begins [] text := ⟨[], text, rfl, rfl⟩

theorem begins_eot : Begins [.eot] text ↔ text = [] := by
  constructor
  · rintro ⟨s, rest, rfl, rfl, hs⟩
    rw [Describes] at hs
    rw [hs, append_nil]
  · rintro rfl
    exact ⟨[], [], rfl, rfl, rfl⟩

theorem matchhere_iff (re text : List Byte) : matchhere re text = true ↔ Begins (items re) text := by
  induction re using List.twoStepInduction generalizing text with
  | nil => exact iff_of_true rfl (begins_nil text)
  | singleton c =>
    rw [matchhere, items]
    by_cases hc : c = charDollar
    · rw [if_pos hc, if_pos hc, begins_eot, List.isEmpty_iff]
    · rw [if_neg hc, if_neg hc, matchone_iff, begins_one]
      simp only [matchhere, begins_nil]
  | cons_cons c c' re ih ih' =>
    rw [matchhere, items]
    by_cases hc : c' = charStar
    · rw [if_pos hc, if_pos hc, matchstar_iff, begins_star]
      simp only [ih]
    · rw [if_neg hc, if_neg hc, matchone_iff, begins_one]
      simp only [ih']

/-- `match` finds a part of the text that the pattern describes, at the beginning of the text if
the pattern starts with `^`. -/
theorem matchText_iff (re text : List Byte) : matchText re text = true ↔
    (∃ re', re = charCaret :: re' ∧ ∃ s rest, text = s ++ rest ∧ Describes (items re') s rest) ∨
    (re.head? ≠ some charCaret ∧
      ∃ before s rest, text = before ++ (s ++ rest) ∧ Describes (items re) s rest) := by
  have hany : ∀ re, matchany (matchhere re) text = true ↔
      ∃ before s rest, text = before ++ (s ++ rest) ∧ Describes (items re) s rest := by
    intro re
    rw [matchany_iff]
    simp only [matchhere_iff]
    constructor
    · rintro ⟨u, v, rfl, s, rest, rfl, h⟩
      exact ⟨u, s, rest, rfl, h⟩
    · rintro ⟨u, s, rest, rfl, h⟩
      exact ⟨u, s ++ rest, rfl, s, rest, rfl, h⟩
  cases re with
  | nil =>
    rw [matchText, hany]
    simp
  | cons c re =>
    rw [matchText]
    by_cases hc : c = charCaret
    · subst hc
      rw [if_pos rfl, matchhere_iff]
      constructor
      · exact fun h => .inl ⟨re, rfl, h⟩
      · rintro (⟨re', hre, h⟩ | ⟨hne, -⟩)
        · rw [(List.cons.inj hre).2]
          exact h
        · exact absurd rfl hne
    · rw [if_neg hc, hany]
      constructor
      · exact fun h => .inr ⟨by simpa using hc, h⟩
      · rintro (⟨re', hre, -⟩ | ⟨-, h⟩)
        · exact absurd (List.cons.inj hre).1 hc
        · exact h

end Xv6.Grep
