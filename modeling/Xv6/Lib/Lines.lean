import Mathlib.Data.List.Basic

/-! A stream cut at a separator: the lines that end with it, and what comes after the last. -/
namespace Lines
open List
variable {α : Type*} [DecidableEq α] (sep : α)

def split : List α → List (List α) × List α
  | [] => ([], [])
  | b :: l =>
    if b = sep then ([] :: (split l).1, (split l).2)
    else match (split l).1 with
      | [] => ([], b :: (split l).2)
      | x :: xs => ((b :: x) :: xs, (split l).2)

def lines (l : List α) : List (List α) := (split sep l).1

def tail (l : List α) : List α := (split sep l).2

variable {sep} {l x : List α}

theorem split_of_notMem (h : sep ∉ l) : split sep l = ([], l) := by
  induction l with
  | nil => rfl
  | cons b l ih =>
    rw [mem_cons, not_or] at h
    rw [split, if_neg (Ne.symm h.1), ih h.2]

theorem split_line (h : sep ∉ x) (l : List α) :
    split sep (x ++ sep :: l) = (x :: lines sep l, tail sep l) := by
  induction x with
  | nil =>
    rw [nil_append, split, if_pos rfl]
    rfl
  | cons b x ih =>
    rw [mem_cons, not_or] at h
    rw [cons_append, split, if_neg (Ne.symm h.1), ih h.2]

theorem lines_of_notMem (h : sep ∉ l) : lines sep l = [] := by rw [lines, split_of_notMem h]

theorem tail_of_notMem (h : sep ∉ l) : tail sep l = l := by rw [tail, split_of_notMem h]

theorem lines_line (h : sep ∉ x) (l : List α) :
    lines sep (x ++ sep :: l) = x :: lines sep l := by rw [lines, split_line h]

theorem tail_line (h : sep ∉ x) (l : List α) : tail sep (x ++ sep :: l) = tail sep l := by
  rw [tail, split_line h]

theorem induction_on (sep : α) {P : List α → Prop} (l : List α) (hrest : ∀ l, sep ∉ l → P l)
    (hline : ∀ x l, sep ∉ x → P l → P (x ++ sep :: l)) : P l := by
  induction hn : l.length using Nat.strongRecOn generalizing l with
  | ind n ih =>
    by_cases h : sep ∈ l
    · obtain ⟨x, m, rfl, hx⟩ := eq_append_cons_of_mem h
      refine hline x m hx (ih m.length ?_ m rfl)
      rw [length_append, length_cons] at hn
      omega
    · exact hrest l h

/-- Of a stream in two parts, the tail of the first goes on in the second. -/
theorem lines_append (l m : List α) :
    lines sep (l ++ m) = lines sep l ++ lines sep (tail sep l ++ m) := by
  induction l using induction_on sep with
  | hrest l h => rw [lines_of_notMem h, tail_of_notMem h, nil_append]
  | hline x l h ih =>
    rw [append_assoc, cons_append, lines_line h, lines_line h, tail_line h, ih,
      cons_append]

theorem notMem_tail (l : List α) : sep ∉ tail sep l := by
  induction l using induction_on sep with
  | hrest l h => rwa [tail_of_notMem h]
  | hline x l h ih => rwa [tail_line h]

theorem length_tail_le (sep : α) (l : List α) : (tail sep l).length ≤ l.length := by
  induction l using induction_on sep with
  | hrest l h => exact (tail_of_notMem h).symm ▸ Nat.le_refl _
  | hline x l h ih =>
    rw [tail_line h, length_append, length_cons]
    omega

theorem mem_of_mem_tail {b : α} (h : b ∈ tail sep l) : b ∈ l := by
  induction l using induction_on sep with
  | hrest l hl => rwa [tail_of_notMem hl] at h
  | hline x l hx ih =>
    rw [tail_line hx] at h
    exact mem_append_right x (mem_cons_of_mem sep (ih h))

theorem length_of_mem_lines (h : x ∈ lines sep l) : x.length < l.length := by
  induction l using induction_on sep with
  | hrest l hl =>
    rw [lines_of_notMem hl] at h
    exact absurd h not_mem_nil
  | hline y l hy ih =>
    rw [lines_line hy, mem_cons] at h
    rw [length_append, length_cons]
    rcases h with rfl | h
    · omega
    · have := ih h
      omega

theorem length_head_lines {y : List α} {ys : List (List α)} (h : sep ∉ x)
    (hl : lines sep (x ++ l) = y :: ys) : x.length ≤ y.length := by
  induction l using induction_on sep with
  | hrest l h' =>
    rw [lines_of_notMem (by rw [mem_append, not_or]; exact ⟨h, h'⟩)] at hl
    cases hl
  | hline z l h' ih =>
    rw [← append_assoc, lines_line (by rw [mem_append, not_or]; exact ⟨h, h'⟩)] at hl
    rw [← (List.cons.inj hl).1, length_append]
    omega

end Lines
