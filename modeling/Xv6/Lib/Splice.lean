import Mathlib.Data.List.Basic

/-! Writing a list over another one at an offset, as `write` does to a file. -/
namespace Splice
open List

variable {α : Type*} {l a b : List α} {off j : ℕ}

/-- The list `l` with `a` over its elements from `off` on; it may become longer. -/
def splice (l : List α) (off : ℕ) (a : List α) : List α :=
  l.take off ++ a ++ l.drop (off + a.length)

@[simp] theorem splice_nil (l : List α) (off : ℕ) : splice l off [] = l := by
  simp [splice]

theorem length_splice (h : off ≤ l.length) :
    (splice l off a).length = max l.length (off + a.length) := by
  simp only [splice, length_append, length_take, length_drop]
  omega

theorem getElem?_splice_of_lt (h : off ≤ l.length) (hj : j < off) :
    (splice l off a)[j]? = l[j]? := by
  have htake : (l.take off).length = off := by rw [length_take]; omega
  rw [splice, append_assoc, getElem?_append_left (by omega), getElem?_take_of_lt hj]

theorem getElem?_splice_of_mid (h : off ≤ l.length) (hj : off ≤ j) (hlt : j < off + a.length) :
    (splice l off a)[j]? = a[j - off]? := by
  have htake : (l.take off).length = off := by rw [length_take]; omega
  rw [splice, append_assoc, getElem?_append_right (by omega), htake,
    getElem?_append_left (by omega)]

theorem getElem?_splice_of_le (h : off ≤ l.length) (hj : off + a.length ≤ j) :
    (splice l off a)[j]? = l[j]? := by
  have htake : (l.take off ++ a).length = off + a.length := by
    rw [length_append, length_take]
    omega
  rw [splice, getElem?_append_right (by omega), htake, getElem?_drop]
  congr 1
  omega

/-- Two writes, the second one where the first one ended, are one write. -/
theorem splice_splice (h : off ≤ l.length) :
    splice (splice l off a) (off + a.length) b = splice l off (a ++ b) := by
  have hlen := length_splice (a := a) h
  have hle : off + a.length ≤ (splice l off a).length := by omega
  refine ext_getElem? fun j => ?_
  rcases Nat.lt_or_ge j (off + a.length) with hj | hj
  · rw [getElem?_splice_of_lt hle hj]
    rcases Nat.lt_or_ge j off with hoff | hoff
    · rw [getElem?_splice_of_lt h hoff, getElem?_splice_of_lt h hoff]
    · rw [getElem?_splice_of_mid h hoff hj,
        getElem?_splice_of_mid h hoff (by rw [length_append]; omega),
        getElem?_append_left (by omega)]
  · rcases Nat.lt_or_ge j (off + a.length + b.length) with hb | hb
    · rw [getElem?_splice_of_mid hle hj hb,
        getElem?_splice_of_mid h (by omega) (by rw [length_append]; omega),
        getElem?_append_right (by omega)]
      congr 1
      omega
    · rw [getElem?_splice_of_le hle hb, getElem?_splice_of_le h hj,
        getElem?_splice_of_le h (by rw [length_append]; omega)]

theorem eq_splice {l' : List α} (h : off ≤ l.length)
    (hlen : l'.length = max l.length (off + a.length))
    (hold : ∀ j < l.length, j < off ∨ off + a.length ≤ j → l'[j]? = l[j]?)
    (hnew : ∀ j, off ≤ j → j < off + a.length → l'[j]? = a[j - off]?) : l' = splice l off a := by
  have hlens := length_splice (a := a) h
  refine ext_getElem? fun j => ?_
  rcases Nat.lt_or_ge j off with hj | hj
  · rw [getElem?_splice_of_lt h hj, hold j (by omega) (.inl hj)]
  rcases Nat.lt_or_ge j (off + a.length) with hja | hja
  · rw [getElem?_splice_of_mid h hj hja, hnew j hj hja]
  rcases Nat.lt_or_ge j l.length with hjl | hjl
  · rw [getElem?_splice_of_le h hja, hold j hjl (.inr hja)]
  · rw [getElem?_eq_none (by omega), getElem?_eq_none (by omega)]

end Splice
