import Mathlib.Data.List.Find
import Mathlib.Logic.Basic

/-! Tables with holes: the first `n` slots hold keys with values, or are free. With distinct keys such
a table is a finite map; an entry is added in a free slot or behind the last, and removed by freeing
its slot. -/
namespace Slots
open Function List Option

variable {κ ν : Type}

def key (slot : ℕ → Option (κ × ν)) (k : ℕ) : Option κ := (slot k).map Prod.fst

def Distinct (n : ℕ) (slot : ℕ → Option (κ × ν)) : Prop :=
  ∀ j < n, ∀ k < n, ∀ a, key slot j = some a → key slot k = some a → j = k

variable {n k : ℕ} {slot slot' : ℕ → Option (κ × ν)} {a b : κ} {v : ν}

theorem Distinct.congr (h : Distinct n slot) (hs : ∀ j < n, slot' j = slot j) :
    Distinct n slot' := by
  intro j hj k hk a hja hka
  rw [key, hs j hj] at hja
  rw [key, hs k hk] at hka
  exact h j hj k hk a hja hka

theorem key_update_self : key (update slot k (some (a, v))) k = some a := by
  rw [key, update_self, map_some]

theorem key_update_of_ne {x : Option (κ × ν)} {j : ℕ} (h : j ≠ k) :
    key (update slot k x) j = key slot j := by
  rw [key, update_of_ne h, key]

theorem Distinct.clear (h : Distinct n slot) : Distinct n (update slot k none) := by
  have hkey : ∀ {j b}, key (update slot k none) j = some b → key slot j = some b := by
    intro j b hj
    rcases eq_or_ne j k with rfl | hne
    · rw [key, update_self] at hj
      cases hj
    · rwa [key_update_of_ne hne] at hj
  intro i hi j hj b hib hjb
  exact h i hi j hj b (hkey hib) (hkey hjb)

variable [DecidableEq κ]

def find (n : ℕ) (slot : ℕ → Option (κ × ν)) (a : κ) : Option ℕ :=
  (List.range n).find? fun k => key slot k = some a

def get (n : ℕ) (slot : ℕ → Option (κ × ν)) (a : κ) : Option ν :=
  (find n slot a).bind fun k => (slot k).map Prod.snd

theorem find_congr (h : ∀ j < n, slot' j = slot j) : find n slot' a = find n slot a := by
  refine find?_congr fun j hj => ?_
  rw [key, h j (mem_range.mp hj), ← key]

theorem get_congr (h : ∀ j < n, slot' j = slot j) : get n slot' a = get n slot a := by
  rw [get, get, find_congr h]
  refine Option.bind_congr fun k hk => ?_
  rw [h k (mem_range.mp (mem_of_find?_eq_some hk))]

theorem of_find (h : find n slot a = some k) : k < n ∧ key slot k = some a := by
  have hk := find?_some h
  exact ⟨mem_range.mp (mem_of_find?_eq_some h), by simpa using hk⟩

theorem find_eq_none : find n slot a = none ↔ ∀ k < n, key slot k ≠ some a := by
  simp [find, find?_eq_none]

theorem Distinct.find_eq_some (h : Distinct n slot) :
    find n slot a = some k ↔ k < n ∧ key slot k = some a := by
  refine ⟨of_find, fun ⟨hk, ha⟩ => ?_⟩
  cases hf : find n slot a with
  | none => exact absurd ha (find_eq_none.mp hf k hk)
  | some j =>
    obtain ⟨hj, hja⟩ := of_find hf
    rw [h j hj k hk a hja ha]

/-- What is in the slots after a new key was put into `k`, which is free or the end. -/
theorem key_set (hk : k ≤ n) (ha : find n slot a = none) {j : ℕ} (hj : j < max n (k + 1)) :
    key (update slot k (some (a, v))) j = some b ↔
      if b = a then j = k else j < n ∧ j ≠ k ∧ key slot j = some b := by
  rcases eq_or_ne j k with rfl | hne
  · rw [key_update_self]
    split
    · rename_i hb
      simp [hb]
    · rename_i hb
      simp [Ne.symm hb]
  · have hjn : j < n := by omega
    rw [key_update_of_ne hne]
    split
    · rename_i hb
      subst hb
      simp [hne, find_eq_none.mp ha j hjn]
    · simp [hjn, hne]

theorem Distinct.set (h : Distinct n slot) (hk : k ≤ n) (ha : find n slot a = none) :
    Distinct (max n (k + 1)) (update slot k (some (a, v))) := by
  intro i hi j hj b hib hjb
  rw [key_set hk ha hi] at hib
  rw [key_set hk ha hj] at hjb
  split at hib
  · rw [if_pos (by assumption)] at hjb
    rw [hib, hjb]
  · rw [if_neg (by assumption)] at hjb
    exact h i hib.1 j hjb.1 b hib.2.2 hjb.2.2

theorem Distinct.find_set (h : Distinct n slot) (hk : k ≤ n) (hfree : k < n → slot k = none)
    (ha : find n slot a = none) (b : κ) :
    find (max n (k + 1)) (update slot k (some (a, v))) b =
      if b = a then some k else find n slot b := by
  refine Option.ext fun j => ?_
  rw [(h.set hk ha).find_eq_some]
  constructor
  · rintro ⟨hj, hjb⟩
    rw [key_set hk ha hj] at hjb
    split at hjb
    · rw [if_pos (by assumption), hjb]
    · rw [if_neg (by assumption), h.find_eq_some]
      exact ⟨hjb.1, hjb.2.2⟩
  · intro hj
    split at hj
    · rename_i hb
      obtain rfl := Option.some.inj hj
      exact ⟨by omega, by rw [key_update_self, hb]⟩
    · rename_i hb
      obtain ⟨hjn, hjb⟩ := h.find_eq_some.mp hj
      have hne : j ≠ k := by
        rintro rfl
        rw [key, hfree hjn] at hjb
        cases hjb
      exact ⟨by omega, by rwa [key_update_of_ne hne]⟩

theorem Distinct.get_set (h : Distinct n slot) (hk : k ≤ n) (hfree : k < n → slot k = none)
    (ha : find n slot a = none) (b : κ) :
    get (max n (k + 1)) (update slot k (some (a, v))) b =
      if b = a then some v else get n slot b := by
  rw [get, h.find_set hk hfree ha]
  split
  · rw [bind_some, update_self, map_some]
  · rw [get]
    refine Option.bind_congr fun j hj => ?_
    rw [update_of_ne]
    rintro rfl
    obtain ⟨hjn, hjb⟩ := of_find hj
    rw [key, hfree hjn] at hjb
    cases hjb

theorem Distinct.find_clear (h : Distinct n slot) (ha : find n slot a = some k) (b : κ) :
    find n (update slot k none) b = if b = a then none else find n slot b := by
  obtain ⟨hk, hka⟩ := of_find ha
  refine Option.ext fun j => ?_
  rw [h.clear.find_eq_some]
  constructor
  · rintro ⟨hj, hjb⟩
    have hne : j ≠ k := by
      rintro rfl
      rw [key, update_self] at hjb
      cases hjb
    rw [key_update_of_ne hne] at hjb
    rw [if_neg, h.find_eq_some]
    · exact ⟨hj, hjb⟩
    · rintro rfl
      exact hne (h j hj k hk b hjb hka)
  · intro hj
    split at hj
    · cases hj
    · rename_i hb
      obtain ⟨hjn, hjb⟩ := h.find_eq_some.mp hj
      have hne : j ≠ k := by
        rintro rfl
        exact hb (Option.some.inj (hjb.symm.trans hka))
      exact ⟨hjn, by rwa [key_update_of_ne hne]⟩

theorem Distinct.get_clear (h : Distinct n slot) (ha : find n slot a = some k) (b : κ) :
    get n (update slot k none) b = if b = a then none else get n slot b := by
  rw [get, h.find_clear ha]
  split
  · rfl
  · rename_i hb
    rw [get]
    refine Option.bind_congr fun j hj => ?_
    rw [update_of_ne]
    rintro rfl
    exact hb (Option.some.inj ((of_find hj).2.symm.trans (of_find ha).2))

end Slots
