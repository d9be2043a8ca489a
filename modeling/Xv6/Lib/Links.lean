import Mathlib.Data.List.Chain
import Mathlib.Order.Basic

/-! Singly linked rings, as a map from a node to the next one. The ring of head `h` and nodes `l` is
the chain `h :: l ++ [h]`. -/
namespace Links
open List
variable {α : Type*}

/-- Each node of the list but the last one is followed by the next one of the list. -/
def Chain (next : α → α) (l : List α) : Prop := l.IsChain fun a b => next a = b

variable {next next' : α → α} {a b g h p x z : α} {l us vs : List α}

theorem chain_split : Chain next (us ++ p :: vs) ↔ Chain next (us ++ [p]) ∧ Chain next (p :: vs) :=
  isChain_split

theorem chain_cons_cons : Chain next (a :: b :: l) ↔ next a = b ∧ Chain next (b :: l) :=
  isChain_cons_cons

theorem chain_singleton (next : α → α) (a : α) : Chain next [a] := isChain_singleton a

theorem Chain.tail (hc : Chain next (a :: l)) : Chain next l := List.IsChain.tail hc

theorem Chain.congr (hc : Chain next (us ++ [g])) (hn : ∀ x ∈ us, next' x = next x) :
    Chain next' (us ++ [g]) := by
  induction us with
  | nil => exact chain_singleton next' g
  | cons x us ih =>
    have hrest := ih hc.tail fun y hy => hn y (mem_cons_of_mem _ hy)
    have hx := hn x mem_cons_self
    cases us with
    | nil => exact chain_cons_cons.mpr ⟨hx.trans (chain_cons_cons.mp hc).1, hrest⟩
    | cons y us => exact chain_cons_cons.mpr ⟨hx.trans (chain_cons_cons.mp hc).1, hrest⟩

theorem Chain.cons (hc : Chain next (vs ++ [z])) (ha : next a = (vs ++ [z]).headD z) :
    Chain next (a :: (vs ++ [z])) := by
  cases vs with
  | nil => exact chain_cons_cons.mpr ⟨ha, hc⟩
  | cons v vs => exact chain_cons_cons.mpr ⟨ha, hc⟩

theorem Chain.next_eq (hc : Chain next (a :: (vs ++ [z]))) : next a = (vs ++ [z]).headD z := by
  cases vs with
  | nil => exact (chain_cons_cons.mp hc).1
  | cons v vs => exact (chain_cons_cons.mp hc).1

theorem Chain.next_mem [Preorder α] (hc : Chain next (us ++ [g]))
    (hs : (us ++ [g]).Pairwise (· < ·)) (hx : x ∈ us) : next x ∈ us ++ [g] ∧ x < next x := by
  obtain ⟨u, v, rfl⟩ := append_of_mem hx
  rw [append_assoc, cons_append] at hc hs
  have hmem : next x ∈ v ++ [g] := by
    rw [(chain_split.mp hc).2.next_eq]
    cases v <;> exact mem_cons_self
  have hlt := (pairwise_cons.mp (pairwise_append.mp hs).2.1).1
  refine ⟨?_, hlt _ hmem⟩
  rw [append_assoc, cons_append]
  exact mem_append_right _ (mem_cons_of_mem _ hmem)

/-- A ring can be read from each of its nodes. -/
theorem Chain.rotate (hc : Chain next (h :: l ++ [h])) (hl : h :: l = us ++ p :: vs) :
    Chain next (p :: (vs ++ us) ++ [p]) := by
  rw [hl, append_assoc, cons_append] at hc
  obtain ⟨hus, hvs⟩ := chain_split.mp hc
  cases us with
  | nil =>
    cases hl
    rwa [append_nil]
  | cons u us =>
    cases hl
    rw [cons_append, append_assoc, cons_append, ← cons_append]
    exact chain_split.mpr ⟨hvs, hus⟩

theorem Chain.next_mem_ring (hc : Chain next (h :: l ++ [h])) (hx : x ∈ h :: l) : next x ∈ h :: l := by
  obtain ⟨us, vs, hcut⟩ := append_of_mem hx
  rw [hcut, append_assoc, cons_append] at hc
  rw [(chain_split.mp hc).2.next_eq]
  cases vs with
  | nil => exact mem_cons_self
  | cons v vs =>
    rw [hcut]
    exact mem_append_right _ (mem_cons_of_mem _ mem_cons_self)

theorem Chain.way [Preorder α] (hc : Chain next (h :: l ++ [h])) (hs : (h :: l).Pairwise (· < ·))
    (hp : p ∈ h :: l) :
    ∃ m, Chain next (p :: (m ++ [p])) ∧ p ∉ m ∧ m.length = l.length ∧
      ∀ x, x ∈ p :: m ↔ x ∈ h :: l := by
  obtain ⟨us, vs, hcut⟩ := append_of_mem hp
  have hlen := congrArg List.length hcut
  simp only [length_cons, length_append] at hlen
  rw [hcut] at hs
  obtain ⟨-, hvs, hus⟩ := pairwise_append.mp hs
  refine ⟨vs ++ us, hc.rotate hcut, ?_, by rw [length_append]; omega, fun x => ?_⟩
  · intro hmem
    rcases mem_append.mp hmem with hmem | hmem
    · exact absurd ((pairwise_cons.mp hvs).1 _ hmem) (lt_irrefl _)
    · exact absurd (hus _ hmem _ mem_cons_self) (lt_irrefl _)
  · rw [hcut]
    simp only [mem_cons, mem_append]
    tauto

def walk (next : α → α) (p : α → Bool) : ℕ → α → Option α
  | 0, _ => none
  | n + 1, a => if p a then some a else walk next p n (next a)

theorem Chain.walk {p : α → Bool} (hc : Chain next (a :: l ++ [z])) (hx : ∃ x ∈ a :: l, p x = true)
    {n : ℕ} (hn : l.length < n) : walk next p n a = (a :: l).find? p := by
  induction l generalizing a n with
  | nil =>
    obtain ⟨n, rfl⟩ : ∃ m, n = m + 1 := ⟨n - 1, by omega⟩
    obtain ⟨x, hx, hp⟩ := hx
    cases mem_singleton.mp hx
    rw [Links.walk, if_pos hp, find?_cons, hp]
  | cons b l ih =>
    obtain ⟨n, rfl⟩ : ∃ m, n = m + 1 := ⟨n - 1, by omega⟩
    rw [Links.walk, find?_cons]
    cases hp : p a with
    | true => rfl
    | false =>
      obtain ⟨hnext, hc⟩ := chain_cons_cons.mp hc
      obtain ⟨x, hmem, hpx⟩ := hx
      have hne : x ∈ b :: l := by
        rcases mem_cons.mp hmem with rfl | hmem
        · rw [hp] at hpx
          cases hpx
        · exact hmem
      rw [hnext, ih hc ⟨x, hne, hpx⟩ (Nat.lt_of_succ_lt_succ hn)]
      rfl

theorem Chain.walk_unique {p : α → Bool} (hc : Chain next (h :: l ++ [h])) (ha : a ∈ h :: l)
    (hg : g ∈ h :: l) (hp : ∀ x ∈ h :: l, p x = true ↔ x = g) {n : ℕ} (hn : l.length < n) :
    Links.walk next p n a = some g := by
  obtain ⟨us, vs, hl⟩ := append_of_mem ha
  have hmem : ∀ x, x ∈ a :: (vs ++ us) ↔ x ∈ h :: l := by
    intro x
    rw [hl]
    simp only [mem_cons, mem_append]
    tauto
  have hlen := congrArg List.length hl
  simp only [length_cons, length_append] at hlen
  rw [(hc.rotate hl).walk ⟨g, (hmem g).mpr hg, (hp g hg).mpr rfl⟩
    (by rw [length_append]; omega)]
  cases hfind : (a :: (vs ++ us)).find? p with
  | none => exact absurd ((hp g hg).mpr rfl) (find?_eq_none.mp hfind g ((hmem g).mpr hg))
  | some x =>
    have hx := (hmem x).mp (mem_of_find?_eq_some hfind)
    rw [(hp x hx).mp (find?_some hfind)]

end Links
