import Mathlib.Data.Set.Insert
import Mathlib.Data.List.Induction

/-! Nodes that hold links to further nodes, seen from a root: what a path of links leads to, and
when the nodes near the root form a tree. -/
namespace Radix
open List Option
variable {P ι : Type*}

/-- The node at the end of a path. -/
def node (child : P → ι → Option P) (r : P) : List ι → Option P
  | [] => some r
  | i :: p => (child r i).bind fun q => node child q p

/-- The nodes within `d` links of the root. -/
def nodes (child : P → ι → Option P) (r : P) (d : ℕ) : Set P :=
  {x | ∃ p : List ι, p.length ≤ d ∧ node child r p = some x}

/-- No node within `d` links of the root has two paths. -/
def IsTree (child : P → ι → Option P) (r : P) (d : ℕ) : Prop :=
  ∀ ⦃p q : List ι⦄ ⦃x : P⦄, p.length ≤ d → q.length ≤ d → node child r p = some x →
    node child r q = some x → p = q

variable {child child' : P → ι → Option P} {r x y : P} {i : ι} {p q : List ι} {d : ℕ}

theorem node_append (p q : List ι) :
    node child r (p ++ q) = (node child r p).bind fun x => node child x q := by
  induction p generalizing r with
  | nil => rfl
  | cons i p ih =>
    rw [cons_append, node, node, bind_assoc]
    exact congrArg _ (funext fun x => ih)

theorem node_concat (p : List ι) (i : ι) :
    node child r (p ++ [i]) = (node child r p).bind fun x => child x i := by
  rw [node_append]
  refine congrArg _ (funext fun x => ?_)
  rw [node]
  exact bind_fun_some (child x i)

theorem root_mem : r ∈ nodes child r d := ⟨[], Nat.zero_le d, rfl⟩

theorem node_congr (h : ∀ p x, p.length < d → node child r p = some x → child' x = child x)
    (hp : p.length ≤ d) : node child' r p = node child r p := by
  induction p using List.reverseRecOn with
  | nil => rfl
  | append_singleton p i ih =>
    rw [length_append, length_singleton] at hp
    rw [node_concat, node_concat, ih (by omega)]
    cases hx : node child r p with
    | none => rfl
    | some x => exact congrFun (h p x (by omega) hx) i

theorem nodes_congr (h : ∀ p x, p.length < d → node child r p = some x → child' x = child x) :
    nodes child' r d = nodes child r d := by
  ext x
  refine exists_congr fun p => and_congr_right fun hp => ?_
  rw [node_congr h hp]

theorem IsTree.congr (ht : IsTree child r d)
    (h : ∀ p x, p.length < d → node child r p = some x → child' x = child x) :
    IsTree child' r d := by
  intro p q x hp hq hpx hqx
  rw [node_congr h hp] at hpx
  rw [node_congr h hq] at hqx
  exact ht hp hq hpx hqx

structure Links (child child' : P → ι → Option P) (r : P) (d : ℕ) (x : P) (i : ι) (y : P) :
    Prop where
  link : child' x i = some y
  others : ∀ j, j ≠ i → child' x j = child x j
  empty : ∀ j, child' y j = none
  kept : ∀ z ∈ nodes child r d, z ≠ x → child' z = child z

theorem Links.node_eq [DecidableEq ι] (h : Links child child' r d x i y)
    (ht : IsTree child r d) (hp : p.length < d) (hx : node child r p = some x)
    (hi : child x i = none) (hq : q.length ≤ d) :
    node child' r q = if q = p ++ [i] then some y else node child r q := by
  have hnone : node child r (p ++ [i]) = none := by
    rw [node_concat, hx]
    exact hi
  induction q using List.reverseRecOn with
  | nil => exact (if_neg fun h => append_ne_nil_of_right_ne_nil p (cons_ne_nil i []) h.symm).symm
  | append_singleton q j ih =>
    rw [length_append, length_singleton] at hq
    rw [node_concat, node_concat, ih (by omega)]
    by_cases hqp : q = p ++ [i]
    · -- below the new node there is nothing, as before
      have hne : q ++ [j] ≠ p ++ [i] := fun h => by
        have := congrArg List.length h
        rw [hqp, length_append, length_singleton] at this
        omega
      rw [if_pos hqp, if_neg hne, hqp, hnone]
      exact h.empty j
    · rw [if_neg hqp]
      cases hz : node child r q with
      | none =>
        have hne : q ++ [j] ≠ p ++ [i] := fun h => by
          rw [(append_inj' h rfl).1, hx] at hz
          cases hz
        rw [if_neg hne]
        rfl
      | some z =>
        by_cases hzx : z = x
        · subst hzx
          have hqp := ht (by omega) hp.le hz hx
          subst hqp
          by_cases hji : j = i
          · rw [if_pos (by rw [hji]), hji]
            exact h.link
          · rw [if_neg fun h => hji (by simpa using h)]
            exact h.others j hji
        · have hne : q ++ [j] ≠ p ++ [i] := fun h => by
            rw [(append_inj' h rfl).1, hx] at hz
            exact hzx (Option.some.inj hz).symm
          rw [if_neg hne]
          exact congrFun (h.kept z ⟨q, by omega, hz⟩ hzx) j

section
variable [DecidableEq ι] (h : Links child child' r d x i y) (ht : IsTree child r d)
  (hp : p.length < d) (hx : node child r p = some x) (hi : child x i = none)
include h ht hp hx hi

theorem Links.node_new : node child' r (p ++ [i]) = some y := by
  rw [h.node_eq ht hp hx hi (by rw [length_append, length_singleton]; omega),
    if_pos rfl]

theorem Links.node_old {z : P} (hq : q.length ≤ d) (hz : node child r q = some z) :
    node child' r q = some z := by
  rw [h.node_eq ht hp hx hi hq, if_neg, hz]
  rintro rfl
  rw [node_concat, hx] at hz
  exact absurd (hi.symm.trans hz) (some_ne_none z).symm

theorem Links.nodes_eq : nodes child' r d = insert y (nodes child r d) := by
  ext z
  constructor
  · rintro ⟨q, hq, hz⟩
    rw [h.node_eq ht hp hx hi hq] at hz
    by_cases hqp : q = p ++ [i]
    · rw [if_pos hqp] at hz
      exact .inl (Option.some.inj hz).symm
    · rw [if_neg hqp] at hz
      exact .inr ⟨q, hq, hz⟩
  · rintro (rfl | ⟨q, hq, hz⟩)
    · refine ⟨p ++ [i], ?_, h.node_new ht hp hx hi⟩
      rw [length_append, length_singleton]
      omega
    · exact ⟨q, hq, h.node_old ht hp hx hi hq hz⟩

theorem Links.isTree (hy : y ∉ nodes child r d) : IsTree child' r d := by
  intro q q' z hq hq' hz hz'
  rw [h.node_eq ht hp hx hi hq] at hz
  rw [h.node_eq ht hp hx hi hq'] at hz'
  by_cases hqp : q = p ++ [i] <;> by_cases hqp' : q' = p ++ [i]
  · rw [hqp, hqp']
  · rw [if_pos hqp] at hz
    rw [if_neg hqp'] at hz'
    cases hz
    exact absurd ⟨q', hq', hz'⟩ hy
  · rw [if_neg hqp] at hz
    rw [if_pos hqp'] at hz'
    cases hz'
    exact absurd ⟨q, hq, hz⟩ hy
  · rw [if_neg hqp] at hz
    rw [if_neg hqp'] at hz'
    exact ht hq hq' hz hz'

end

end Radix
