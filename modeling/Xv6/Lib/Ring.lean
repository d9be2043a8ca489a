import Mathlib.Data.List.Perm.Basic
import Mathlib.Data.List.Nodup
import Mathlib.Logic.Basic

/-! Circular doubly linked lists with a head node, as two pointer maps. The list of the nodes is
the abstract value; each pointer operation is an operation on it. -/
namespace Ring
open Function List
variable {α : Type*}

structure Links (α : Type*) where
  next : α → α
  prev : α → α

/-- From `a` the nodes `l` follow, and then `z`. -/
def Linked (s : Links α) : α → List α → α → Prop
  | a, [], z => s.next a = z ∧ s.prev z = a
  | a, x :: l, z => s.next a = x ∧ s.prev x = a ∧ Linked s x l z

/-- The ring of head `h` and nodes `l`. -/
structure IsRing (s : Links α) (h : α) (l : List α) : Prop where
  linked : Linked s h l h
  nodup : (h :: l).Nodup

variable {s t : Links α} {a b h x z : α} {l l₁ l₂ : List α} {p : α → Bool}

theorem Linked.congr (hl : Linked s a l z) (hn : ∀ y ∈ a :: l, t.next y = s.next y)
    (hp : ∀ y ∈ l ++ [z], t.prev y = s.prev y) : Linked t a l z := by
  induction l generalizing a with
  | nil => exact ⟨(hn a (by simp)).trans hl.1, (hp z (by simp)).trans hl.2⟩
  | cons x l ih =>
    refine ⟨(hn a (by simp)).trans hl.1, (hp x (by simp)).trans hl.2.1, ?_⟩
    exact ih hl.2.2 (fun y hy => hn y (mem_cons_of_mem _ hy)) fun y hy =>
      hp y (mem_cons_of_mem _ hy)

theorem linked_append : Linked s a (l₁ ++ b :: l₂) z ↔ Linked s a l₁ b ∧ Linked s b l₂ z := by
  induction l₁ generalizing a with
  | nil => exact and_assoc.symm
  | cons x l ih => simp only [cons_append, Linked, ih, and_assoc]

theorem Linked.next_mem (hl : Linked s a l z) : s.next a ∈ l ++ [z] := by
  cases l with
  | nil => simp [hl.1]
  | cons x l => simp [hl.1]

theorem Linked.prev_mem (hl : Linked s a l z) : s.prev z ∈ a :: l := by
  induction l generalizing a with
  | nil => simp [hl.2]
  | cons x l ih => exact mem_cons_of_mem _ (ih hl.2.2)

theorem Linked.reverse (hl : Linked s a l z) : Linked ⟨s.prev, s.next⟩ z l.reverse a := by
  induction l generalizing a with
  | nil => exact ⟨hl.2, hl.1⟩
  | cons x l ih =>
    rw [reverse_cons, linked_append]
    exact ⟨ih hl.2.2, hl.2.1, hl.1⟩

theorem isRing_nil (h : α) : IsRing ⟨fun _ => h, fun _ => h⟩ h [] :=
  ⟨⟨rfl, rfl⟩, nodup_singleton h⟩

section Ops
variable [DecidableEq α]

namespace Links

def setNext (s : Links α) (a b : α) : Links α := { s with next := update s.next a b }
def setPrev (s : Links α) (a b : α) : Links α := { s with prev := update s.prev a b }

/-- `b->next->prev = b->prev; b->prev->next = b->next;` -/
def unlink (s : Links α) (b : α) : Links α :=
  let s := s.setPrev (s.next b) (s.prev b)
  s.setNext (s.prev b) (s.next b)

def push (s : Links α) (h b : α) : Links α :=
  let s := s.setNext b (s.next h)
  let s := s.setPrev b h
  let s := s.setPrev (s.next h) b
  s.setNext h b

end Links

theorem Linked.bypass (h₁ : Linked s a l₁ b) (h₂ : Linked s b l₂ z) (hnd : (a :: l₁ ++ l₂).Nodup)
    (hz : z ∉ l₁ ++ l₂) (hn : t.next = update s.next (s.prev b) (s.next b))
    (hp : t.prev = update s.prev (s.next b) (s.prev b)) : Linked t a (l₁ ++ l₂) z := by
  induction l₁ generalizing a with
  | nil =>
    obtain ⟨ha, hb⟩ := h₁
    rw [hb] at hn hp
    have hself : t.next a = s.next b := by rw [hn, update_self]
    cases l₂ with
    | nil =>
      refine ⟨hself.trans h₂.1, ?_⟩
      rw [hp, h₂.1, update_self]
    | cons y l =>
      obtain ⟨hby, -, hl⟩ := h₂
      refine ⟨hself.trans hby, by rw [hp, hby, update_self], hl.congr ?_ ?_⟩
      · intro w hw
        rw [hn, update_of_ne]
        rintro rfl
        exact (nodup_cons.mp hnd).1 hw
      · intro w hw
        rw [hp, hby, update_of_ne]
        rintro rfl
        rcases mem_append.mp hw with hw | hw
        · exact (nodup_cons.mp (nodup_cons.mp hnd).2).1 hw
        · exact hz (mem_singleton.mp hw ▸ mem_cons_self)
  | cons x l ih =>
    obtain ⟨ha, hx, hl⟩ := h₁
    have hnd' := nodup_cons.mp hnd
    have hrest := ih hl hnd'.2 fun hmem => hz (mem_cons_of_mem _ hmem)
    refine ⟨?_, ?_, hrest⟩
    · rw [hn, update_of_ne]
      · exact ha
      · intro heq
        exact hnd'.1 (heq ▸ mem_append_left _ hl.prev_mem)
    · rw [hp, update_of_ne]
      · exact hx
      · intro heq
        rcases mem_append.mp (heq ▸ h₂.next_mem) with hmem | hmem
        · exact (nodup_cons.mp hnd'.2).1 (mem_append_right _ hmem)
        · exact hz (mem_singleton.mp hmem ▸ mem_cons_self)

theorem IsRing.unlink (hr : IsRing s h (l₁ ++ b :: l₂)) : IsRing (s.unlink b) h (l₁ ++ l₂) := by
  obtain ⟨h₁, h₂⟩ := linked_append.mp hr.linked
  have hnd : (b :: (h :: l₁ ++ l₂)).Nodup := nodup_middle.mp hr.nodup
  obtain ⟨hb, hnd⟩ := nodup_cons.mp hnd
  have hbn : b ≠ s.next b := by
    intro heq
    have hnext := h₂.next_mem
    rw [← heq] at hnext
    refine hb ?_
    rcases mem_append.mp hnext with hmem | hmem
    · exact mem_append_right _ hmem
    · rw [mem_singleton.mp hmem]
      exact mem_cons_self
  refine ⟨h₁.bypass h₂ hnd (nodup_cons.mp hnd).1 ?_ rfl, hnd⟩
  simp only [Links.unlink, Links.setNext, Links.setPrev, update_of_ne hbn]

theorem IsRing.push (hr : IsRing s h l) (hb : b ∉ h :: l) : IsRing (s.push h b) h (b :: l) := by
  have hbh : b ≠ h := fun heq => hb (heq ▸ mem_cons_self)
  have hbl : b ∉ l := fun hmem => hb (mem_cons_of_mem _ hmem)
  obtain ⟨hhl, hnd⟩ := nodup_cons.mp hr.nodup
  have hnext : (s.push h b).next = update (update s.next b (s.next h)) h b := rfl
  have hprev : (s.push h b).prev =
      update (update s.prev b h) (s.next h) b := by
    simp only [Links.push, Links.setNext, Links.setPrev, update_of_ne hbh.symm]
  have hbn : b ≠ s.next h := by
    intro heq
    rcases mem_append.mp (heq ▸ hr.linked.next_mem) with hmem | hmem
    · exact hbl hmem
    · exact hbh (mem_singleton.mp hmem)
  have hself : (s.push h b).next b = s.next h := by
    rw [hnext, update_of_ne hbh, update_self]
  have hlinked : Linked (s.push h b) b l h := by
    cases l with
    | nil =>
      refine ⟨hself.trans hr.linked.1, ?_⟩
      rw [hprev, hr.linked.1, update_self]
    | cons y l =>
      obtain ⟨hy, -, hl⟩ := hr.linked
      refine ⟨hself.trans hy, by rw [hprev, hy, update_self], hl.congr ?_ ?_⟩
      · intro w hw
        have hwh : w ≠ h := by
          rintro rfl
          exact hhl hw
        have hwb : w ≠ b := by
          rintro rfl
          exact hbl hw
        rw [hnext, update_of_ne hwh, update_of_ne hwb]
      · intro w hw
        have hwy : w ≠ y := by
          rintro rfl
          rcases mem_append.mp hw with hw | hw
          · exact (nodup_cons.mp hnd).1 hw
          · exact hhl (mem_singleton.mp hw ▸ mem_cons_self)
        have hwb : w ≠ b := by
          rintro rfl
          rcases mem_append.mp hw with hw | hw
          · exact hbl (mem_cons_of_mem _ hw)
          · exact hbh (mem_singleton.mp hw)
        rw [hprev, hy, update_of_ne hwy, update_of_ne hwb]
  refine ⟨⟨by rw [hnext, update_self], ?_, hlinked⟩, ?_⟩
  · rw [hprev, update_of_ne hbn, update_self]
  · rw [nodup_cons, nodup_cons]
    refine ⟨fun hmem => ?_, hbl, hnd⟩
    rcases mem_cons.mp hmem with heq | hmem
    · exact hbh heq.symm
    · exact hhl hmem

theorem IsRing.toFront (hr : IsRing s h (l₁ ++ b :: l₂)) :
    IsRing ((s.unlink b).push h b) h (b :: (l₁ ++ l₂)) := by
  have hnd : (b :: (h :: l₁ ++ l₂)).Nodup := nodup_middle.mp hr.nodup
  exact hr.unlink.push (nodup_cons.mp hnd).1

theorem IsRing.foldl_push {bs : List α} (hr : IsRing s h l) (hnd : bs.Nodup)
    (hb : ∀ b ∈ bs, b ∉ h :: l) :
    IsRing (bs.foldl (fun s b => s.push h b) s) h (bs.reverse ++ l) := by
  induction bs generalizing s l with
  | nil => exact hr
  | cons b bs ih =>
    obtain ⟨hbs, hnd⟩ := nodup_cons.mp hnd
    rw [foldl_cons, reverse_cons, append_assoc]
    refine ih (hr.push (hb b mem_cons_self)) hnd fun b' hb' hmem => ?_
    rcases mem_cons.mp hmem with rfl | hmem
    · exact hb _ (mem_cons_of_mem _ hb') mem_cons_self
    · rcases mem_cons.mp hmem with rfl | hmem
      · exact hbs hb'
      · exact hb _ (mem_cons_of_mem _ hb') (mem_cons_of_mem _ hmem)

def search (f : α → α) (h : α) (p : α → Bool) : ℕ → α → Option α
  | 0, _ => none
  | n + 1, a => if a = h then none else if p a then some a else search f h p n (f a)

theorem Linked.search (hl : Linked s a l h) (hh : h ∉ l) {n : ℕ} (hn : l.length < n) :
    search s.next h p n (s.next a) = l.find? p := by
  induction l generalizing a n with
  | nil =>
    obtain ⟨n, rfl⟩ := Nat.exists_eq_add_of_lt hn
    rw [hl.1, Ring.search, if_pos rfl]
    rfl
  | cons x l ih =>
    cases n with
    | zero => exact absurd hn (Nat.not_lt_zero _)
    | succ n =>
      have hx : x ≠ h := fun heq => hh (heq ▸ mem_cons_self)
      have hrest := ih (n := n) hl.2.2 (fun hmem => hh (mem_cons_of_mem _ hmem))
        (Nat.lt_of_succ_lt_succ hn)
      rw [hl.1, Ring.search, if_neg hx, hrest, find?_cons]
      cases p x <;> rfl

theorem IsRing.search_next (hr : IsRing s h l) {n : ℕ} (hn : l.length < n) :
    search s.next h p n (s.next h) = l.find? p :=
  hr.linked.search (nodup_cons.mp hr.nodup).1 hn

theorem IsRing.search_prev (hr : IsRing s h l) {n : ℕ} (hn : l.length < n) :
    search s.prev h p n (s.prev h) = l.reverse.find? p := by
  refine Linked.search (s := ⟨s.prev, s.next⟩) hr.linked.reverse ?_ ?_
  · rw [mem_reverse]
    exact (nodup_cons.mp hr.nodup).1
  · rwa [length_reverse]

def walk (f : α → α) : ℕ → α → List α
  | 0, _ => []
  | n + 1, a => f a :: walk f n (f a)

end Ops

theorem Linked.walk (hl : Linked s a l z) : walk s.next (l.length + 1) a = l ++ [z] := by
  induction l generalizing a with
  | nil => simp [Ring.walk, hl.1]
  | cons x l ih => rw [length_cons, Ring.walk, hl.1, ih hl.2.2, cons_append]

theorem IsRing.walk (hr : IsRing s h l) : walk s.next (l.length + 1) h = l ++ [h] ∧
    walk s.prev (l.length + 1) h = l.reverse ++ [h] := by
  refine ⟨hr.linked.walk, ?_⟩
  have hback := hr.linked.reverse.walk
  rwa [length_reverse] at hback

end Ring
