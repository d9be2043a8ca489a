import Mathlib.Algebra.Order.Ring.Int
import Mathlib.Data.BitVec
import Mathlib.Tactic.Linarith
import Mathlib.Tactic.Positivity
import Xv6.Sched.Proc

/-! The stride branch of `scheduler()`: the choice of `findMinStride`, and the fairness of the
dispatches between processes that are runnable at every selection. -/
namespace Xv6.Sched.Stride
open List

def scanMin : List Proc → ℕ → ℕ × Proc → ℕ × Proc
  | [], _, m => m
  | p :: ps, j, m =>
    scanMin ps (j + 1) (if p.state = .runnable ∧ 0 < p.tickets.toInt ∧
      p.stridePass.toInt < m.2.stridePass.toInt then (j, p) else m)

/-- The slot returned; the first loop takes the first runnable process whatever its tickets. -/
def findMinStride (ps : List Proc) : Option ℕ := do
  let i ← ps.findIdx? fun p => p.state = .runnable
  let p ← ps[i]?
  some (scanMin (ps.drop (i + 1)) (i + 1) (i, p)).1

def dispatch (i : ℕ) (ps : List Proc) : List Proc :=
  ps.modify i fun p =>
    if p.state = .runnable then
      { p with
        state := .running, schedCnt := p.schedCnt + 1
        stridePass := p.stridePass + divw STRIDE_NUM p.tickets }
    else p

def Eligible (p : Proc) : Prop := p.state = .runnable ∧ 0 < p.tickets.toInt

instance : DecidablePred Eligible := fun p =>
  inferInstanceAs (Decidable (p.state = .runnable ∧ 0 < p.tickets.toInt))

theorem scanMin_cases (ps : List Proc) (j : ℕ) (m : ℕ × Proc) :
    (scanMin ps j m = m ∧ ∀ q ∈ ps, Eligible q → m.2.stridePass.toInt ≤ q.stridePass.toInt) ∨
      ∃ k p, ps[k]? = some p ∧ scanMin ps j m = (j + k, p) ∧ Eligible p ∧
        p.stridePass.toInt < m.2.stridePass.toInt ∧
        ∀ l q, ps[l]? = some q → Eligible q → p.stridePass.toInt ≤ q.stridePass.toInt ∧
          (l < k → p.stridePass.toInt < q.stridePass.toInt) := by
  induction ps generalizing j m with
  | nil => exact Or.inl ⟨rfl, nofun⟩
  | cons p ps ih =>
    unfold scanMin
    split
    · rename_i hp
      rcases ih (j + 1) (j, p) with ⟨h, hle⟩ | ⟨k, q, hk, h, hq, hlt, hleast⟩
      · refine Or.inr ⟨0, p, rfl, h, ⟨hp.1, hp.2.1⟩, hp.2.2, ?_⟩
        rintro (_ | l) r hr hre
        · cases hr
          exact ⟨le_rfl, nofun⟩
        · exact ⟨hle r (mem_of_getElem? hr) hre, nofun⟩
      · refine Or.inr ⟨k + 1, q, hk, by rw [h, Nat.add_right_comm, Nat.add_assoc], hq,
          hlt.trans hp.2.2, ?_⟩
        rintro (_ | l) r hr hre
        · cases hr
          exact ⟨hlt.le, fun _ => hlt⟩
        · exact ⟨(hleast l r hr hre).1, fun hl => (hleast l r hr hre).2 (Nat.lt_of_succ_lt_succ hl)⟩
    · rename_i hp
      have hseed : Eligible p → m.2.stridePass.toInt ≤ p.stridePass.toInt := fun he =>
        not_lt.mp fun hlt => hp ⟨he.1, he.2, hlt⟩
      rcases ih (j + 1) m with ⟨h, hle⟩ | ⟨k, q, hk, h, hq, hlt, hleast⟩
      · refine Or.inl ⟨h, ?_⟩
        intro r hr hre
        rcases mem_cons.mp hr with rfl | hr
        · exact hseed hre
        · exact hle r hr hre
      · refine Or.inr ⟨k + 1, q, hk, by rw [h, Nat.add_right_comm, Nat.add_assoc], hq, hlt, ?_⟩
        rintro (_ | l) r hr hre
        · cases hr
          have hqr := hlt.trans_le (hseed hre)
          exact ⟨hqr.le, fun _ => hqr⟩
        · exact ⟨(hleast l r hr hre).1, fun hl => (hleast l r hr hre).2 (Nat.lt_of_succ_lt_succ hl)⟩

variable {ps : List Proc}

theorem findMinStride_eq_none : findMinStride ps = none ↔ ∀ p ∈ ps, p.state ≠ .runnable := by
  cases hf : ps.findIdx? fun p => p.state = .runnable with
  | none =>
    have hnot := findIdx?_eq_none_iff.mp hf
    exact ⟨fun _ p hp => by simpa using hnot p hp, fun _ => by simp [findMinStride, hf]⟩
  | some f =>
    obtain ⟨hlt, hr, -⟩ := findIdx?_eq_some_iff_getElem.mp hf
    have hnull : findMinStride ps ≠ none := by simp [findMinStride, hf, hlt]
    have hrun : ps[f].state = .runnable := by simpa using hr
    exact ⟨fun h => absurd h hnull, fun h => absurd hrun (h _ (getElem_mem hlt))⟩

theorem findMinStride_cases {i : ℕ} (h : findMinStride ps = some i) :
    ∃ f p₀, ps[f]? = some p₀ ∧ p₀.state = .runnable ∧
      (∀ n q, ps[n]? = some q → q.state = .runnable → f ≤ n) ∧
      ((i = f ∧ ∀ q ∈ ps, Eligible q → p₀.stridePass.toInt ≤ q.stridePass.toInt) ∨
        ∃ p, ps[i]? = some p ∧ Eligible p ∧ p.stridePass.toInt < p₀.stridePass.toInt ∧
          ∀ n q, ps[n]? = some q → Eligible q → p.stridePass.toInt ≤ q.stridePass.toInt ∧
            (n < i → p.stridePass.toInt < q.stridePass.toInt)) := by
  simp only [findMinStride, bind, Option.bind_eq_some_iff, Option.some.injEq] at h
  obtain ⟨f, hf, p₀, hp₀, rfl⟩ := h
  obtain ⟨hlt, hr, hbefore⟩ := findIdx?_eq_some_iff_getElem.mp hf
  have hrun : p₀.state = .runnable := by
    rw [getElem?_eq_getElem hlt] at hp₀
    cases hp₀
    simpa using hr
  have hfirst : ∀ n q, ps[n]? = some q → q.state = .runnable → f ≤ n := by
    intro n q hq hs
    refine not_lt.mp fun hn => ?_
    obtain ⟨hn', rfl⟩ := List.getElem?_eq_some_iff.mp hq
    exact absurd hs (by simpa using hbefore n hn)
  -- an eligible slot is the seed's, or the second loop reads it
  have hsplit : ∀ n q, ps[n]? = some q → q.state = .runnable →
      n = f ∧ q = p₀ ∨ ∃ l, n = f + 1 + l ∧ (ps.drop (f + 1))[l]? = some q := by
    intro n q hq hs
    rcases eq_or_lt_of_le (hfirst n q hq hs) with rfl | hn
    · exact Or.inl ⟨rfl, Option.some.inj (hq.symm.trans hp₀)⟩
    · obtain ⟨l, rfl⟩ := Nat.exists_eq_add_of_le (Nat.succ_le_of_lt hn)
      exact Or.inr ⟨l, rfl, by rw [getElem?_drop]; exact hq⟩
  refine ⟨f, p₀, hp₀, hrun, hfirst, ?_⟩
  rcases scanMin_cases (ps.drop (f + 1)) (f + 1) (f, p₀) with
    ⟨h, hle⟩ | ⟨k, p, hk, h, hp, hless, hleast⟩
  · refine Or.inl ⟨by rw [h], ?_⟩
    intro q hq he
    obtain ⟨n, hn⟩ := mem_iff_getElem?.mp hq
    rcases hsplit n q hn he.1 with ⟨-, rfl⟩ | ⟨l, -, hl⟩
    · exact le_rfl
    · exact hle q (mem_of_getElem? hl) he
  · rw [h]
    rw [getElem?_drop] at hk
    refine Or.inr ⟨p, hk, hp, hless, ?_⟩
    intro n q hn he
    rcases hsplit n q hn he.1 with ⟨rfl, rfl⟩ | ⟨l, rfl, hl⟩
    · exact ⟨hless.le, fun _ => hless⟩
    · exact ⟨(hleast l q hl he).1, fun hlk => (hleast l q hl he).2 (Nat.lt_of_add_lt_add_left hlk)⟩

theorem findMinStride_spec {i : ℕ} (h : findMinStride ps = some i) :
    ∃ p, ps[i]? = some p ∧ p.state = .runnable ∧
      (∀ q ∈ ps, Eligible q → p.stridePass.toInt ≤ q.stridePass.toInt) ∧
      ∀ n q, ps[n]? = some q → Eligible q → q.stridePass = p.stridePass → i ≤ n := by
  obtain ⟨f, p₀, hp₀, hrun, hfirst, ⟨rfl, hle⟩ | ⟨p, hp, he, -, hleast⟩⟩ := findMinStride_cases h
  · exact ⟨p₀, hp₀, hrun, hle, fun n q hq he _ => hfirst n q hq he.1⟩
  · refine ⟨p, hp, he.1, ?_, ?_⟩
    · intro q hq hqe
      obtain ⟨n, hn⟩ := mem_iff_getElem?.mp hq
      exact (hleast n q hn hqe).1
    · intro n q hq hqe heq
      refine not_lt.mp fun hn => ?_
      have := (hleast n q hq hqe).2 hn
      rw [heq] at this
      exact lt_irrefl _ this

structure ChoosesMin (ps : List Proc) (r : Option ℕ) : Prop where
  null : r = none ↔ ∀ p ∈ ps, p.state ≠ .runnable
  least : ∀ i, r = some i → ∃ p, ps[i]? = some p ∧ p.state = .runnable ∧
    (∀ q ∈ ps, Eligible q → p.stridePass.toInt ≤ q.stridePass.toInt) ∧
    (∀ n q, ps[n]? = some q → Eligible q → q.stridePass = p.stridePass → i ≤ n) ∧
    ((∃ q ∈ ps, Eligible q) → 0 < p.tickets.toInt)

def SeedOk (ps : List Proc) : Prop :=
  ∀ p₀, ps.find? (fun p => p.state = .runnable) = some p₀ → 0 < p₀.tickets.toInt ∨
    (∃ q ∈ ps, Eligible q ∧ q.stridePass.toInt < p₀.stridePass.toInt) ∨ ∀ q ∈ ps, ¬ Eligible q

theorem find?_runnable {f : ℕ} {p₀ : Proc} (hp₀ : ps[f]? = some p₀) (hrun : p₀.state = .runnable)
    (hfirst : ∀ n q, ps[n]? = some q → q.state = .runnable → f ≤ n) :
    ps.find? (fun p => p.state = .runnable) = some p₀ := by
  obtain ⟨hlt, rfl⟩ := List.getElem?_eq_some_iff.mp hp₀
  refine find?_eq_some_iff_getElem.mpr ⟨by simpa using hrun, f, hlt, rfl, ?_⟩
  intro n hn
  have hnot : ps[n].state ≠ .runnable := fun hs =>
    absurd (hfirst n _ (getElem?_eq_getElem (hn.trans hlt)) hs) (not_le.mpr hn)
  simpa using hnot

/-- The seed is taken without a look at its tickets, so the choice is right exactly when that
does not matter. -/
theorem findMinStride_choosesMin_iff (ps : List Proc) :
    ChoosesMin ps (findMinStride ps) ↔ SeedOk ps := by
  constructor
  · intro hc p₀ hp₀
    by_contra hbad
    simp only [not_or, not_exists, not_and, not_forall, not_not] at hbad
    obtain ⟨ht, hnot, q, hq, hqe⟩ := hbad
    have hsome : findMinStride ps ≠ none := fun h =>
      hc.null.mp h q hq hqe.1
    obtain ⟨i, hi⟩ := Option.ne_none_iff_exists'.mp hsome
    obtain ⟨p, hp, -, -, -, htick⟩ := hc.least i hi
    obtain ⟨f, p₁, hp₁, hrun, hfirst, ⟨rfl, -⟩ | ⟨p', hp', he, hlt, -⟩⟩ := findMinStride_cases hi
    · cases (find?_runnable hp₁ hrun hfirst).symm.trans hp₀
      cases hp₁.symm.trans hp
      exact ht (htick ⟨q, hq, hqe⟩)
    · cases (find?_runnable hp₁ hrun hfirst).symm.trans hp₀
      exact hnot p' (mem_of_getElem? hp') he hlt
  · intro hseed
    refine ⟨findMinStride_eq_none, ?_⟩
    intro i hi
    obtain ⟨p, hp, hrun, hle, hlow⟩ := findMinStride_spec hi
    refine ⟨p, hp, hrun, hle, hlow, ?_⟩
    rintro ⟨q, hq, hqe⟩
    obtain ⟨f, p₀, hp₀, hrun₀, hfirst, ⟨rfl, hkept⟩ | ⟨p', hp', he, -⟩⟩ := findMinStride_cases hi
    · cases hp₀.symm.trans hp
      rcases hseed p (find?_runnable hp hrun₀ hfirst) with ht | ⟨r, hr, hre, hlt⟩ | hnone
      · exact ht
      · exact absurd hlt (not_lt.mpr (hkept r hr hre))
      · exact absurd hqe (hnone q hq)
    · cases hp'.symm.trans hp
      exact he.2

def ticketlessSeed : List Proc :=
  [{ state := .runnable }, { state := .runnable, tickets := 1, stridePass := 60 }]

theorem findMinStride_ticketless : findMinStride ticketlessSeed = some 0 ∧
    ¬ ChoosesMin ticketlessSeed (findMinStride ticketlessSeed) := by
  refine ⟨rfl, fun h => ?_⟩
  obtain ⟨p, hp, -, -, -, ht⟩ := h.least 0 rfl
  cases hp
  exact absurd (ht ⟨_, mem_cons_of_mem _ (mem_singleton_self _), by decide⟩) (by decide)

def strideOf (t : BitVec 32) : ℤ := 60 / t.toInt

theorem divw_toInt {t : BitVec 32} (ht : 1 ≤ t.toInt) :
    (divw STRIDE_NUM t).toInt = strideOf t := by
  have hne : t ≠ 0 := by rintro rfl; simp at ht
  have h₀ : 0 ≤ (60 : ℤ) / t.toInt := Int.ediv_nonneg (by decide) (by omega)
  have h₁ : (60 : ℤ) / t.toInt ≤ 60 := Int.ediv_le_self _ (by decide)
  rw [divw, if_neg hne, BitVec.toInt_sdiv, show STRIDE_NUM.toInt = 60 from rfl,
    Int.tdiv_eq_ediv_of_nonneg (by decide), Int.bmod_def, strideOf]
  omega

theorem strideOf_nonneg {t : BitVec 32} (ht : 1 ≤ t.toInt) : 0 ≤ strideOf t :=
  Int.ediv_nonneg (by decide) (by omega)

structure JustSet (p : Proc) : Prop where
  pos : 1 ≤ p.tickets.toInt
  pass : p.stridePass = divw STRIDE_NUM p.tickets

inductive Iterations (S : Set ℕ) (ps : List Proc) : List ℕ → List Proc → Prop
  | start (h : ∀ k ∈ S, ∃ p, ps[k]? = some p ∧ JustSet p) : Iterations S ps [] ps
  | iterate {cs : List ℕ} {qs rs : List Proc} {i : ℕ} (h : Iterations S ps cs qs)
      (hready : ∀ k ∈ S, ∃ p, qs[k]? = some p ∧ p.state = .runnable)
      (hmin : findMinStride qs = some i)
      (hover : i ∈ S → ∀ p, qs[i]? = some p →
        p.stridePass.toInt + (divw STRIDE_NUM p.tickets).toInt ≤ 2 ^ 31 - 1)
      (hkeep : ∀ k ∈ S, ∀ p, (dispatch i qs)[k]? = some p →
        ∃ q, rs[k]? = some q ∧ q.tickets = p.tickets ∧ q.stridePass = p.stridePass) :
      Iterations S ps (cs ++ [i]) rs

def PassOf (cs : List ℕ) (k : ℕ) (t : BitVec 32) (p : Proc) : Prop :=
  p.tickets = t ∧ 1 ≤ t.toInt ∧ p.stridePass.toInt = strideOf t * (cs.count k + 1)

theorem iterations_pass {S : Set ℕ} {ps qs : List Proc} {cs : List ℕ}
    (h : Iterations S ps cs qs) :
    ∀ k ∈ S, ∃ t p, (∃ p₀, ps[k]? = some p₀ ∧ p₀.tickets = t) ∧ qs[k]? = some p ∧ PassOf cs k t p := by
  induction h with
  | start h =>
    intro k hk
    obtain ⟨p, hp, hj⟩ := h k hk
    refine ⟨p.tickets, p, ⟨p, hp, rfl⟩, hp, rfl, hj.pos, ?_⟩
    rw [hj.pass, divw_toInt hj.pos]
    simp
  | @iterate cs qs rs i h hready hmin hover hkeep ih =>
    intro k hk
    obtain ⟨t, p, h₀, hp, ht, hpos, hpass⟩ := ih k hk
    obtain ⟨p', hp', hrun⟩ := hready k hk
    rw [hp] at hp'
    cases hp'
    rcases eq_or_ne i k with rfl | hik
    · have hd : (dispatch i qs)[i]? = some { p with
          state := .running, schedCnt := p.schedCnt + 1
          stridePass := p.stridePass + divw STRIDE_NUM p.tickets } := by
        simp [dispatch, hp, hrun]
      obtain ⟨q, hq, hqt, hqp⟩ := hkeep i hk _ hd
      refine ⟨t, q, h₀, hq, hqt.trans ht, hpos, ?_⟩
      have ho := hover hk p hp
      have hs := divw_toInt (t := p.tickets) (by rw [ht]; exact hpos)
      have hn := strideOf_nonneg hpos
      have hp0 : 0 ≤ p.stridePass.toInt := by rw [hpass]; positivity
      rw [ht] at hs ho
      simp only at hqp
      rw [hqp, ht, BitVec.toInt_add, hs, Int.bmod_def, count_append]
      rw [hs] at ho
      simp only [count_singleton_self, Nat.cast_add, Nat.cast_one]
      rw [mul_add, ← hpass, mul_one]
      omega
    · obtain ⟨q, hq, hqt, hqp⟩ := hkeep k hk p (by simpa [dispatch, hik] using hp)
      refine ⟨t, q, h₀, hq, hqt.trans ht, hpos, ?_⟩
      rw [hqp, hpass, count_append]
      simp [hik]

/-- When `i` is selected its pass is at most that of `j`, which bounds the dispatches of `i`
by those of `j`; a later selection of `j` only loosens the bound. -/
theorem dispatches_fair {S : Set ℕ} {ps qs : List Proc} {cs : List ℕ}
    (h : Iterations S ps cs qs) {i j : ℕ} (hi : i ∈ S) (hj : j ∈ S) {p q : Proc}
    (hp : ps[i]? = some p) (hq : ps[j]? = some q) :
    cs.count i * strideOf p.tickets ≤ (cs.count j + 1) * strideOf q.tickets := by
  have hpos : ∀ k ∈ S, ∀ r, ps[k]? = some r → 0 ≤ strideOf r.tickets := by
    intro k hk r hr
    obtain ⟨t, -, ⟨r', hr', rfl⟩, -, -, ht, -⟩ := iterations_pass h k hk
    rw [hr] at hr'
    cases hr'
    exact strideOf_nonneg ht
  have hsi := hpos i hi p hp
  have hsj := hpos j hj q hq
  induction h with
  | start h => simpa using hsj
  | @iterate cs qs rs c h hready hmin hover hkeep ih =>
    rw [count_append, count_append, count_singleton, count_singleton]
    have hmono : (cs.count j + 1 : ℤ) * strideOf q.tickets ≤
        (((cs.count j + if (c == j) = true then 1 else 0 : ℕ) : ℤ) + 1) * strideOf q.tickets :=
      mul_le_mul_of_nonneg_right (by push_cast; split <;> omega) hsj
    refine le_trans ?_ hmono
    rcases eq_or_ne c i with rfl | hci
    · obtain ⟨t, pi, ⟨p₀, hp₀, rfl⟩, hpi, -, -, hpassi⟩ := iterations_pass h c hi
      obtain ⟨u, qj, ⟨q₀, hq₀, rfl⟩, hqj, htj, hposj, hpassj⟩ := iterations_pass h j hj
      rw [hp] at hp₀
      rw [hq] at hq₀
      cases hp₀
      cases hq₀
      obtain ⟨pm, hpm, -, hleast, -⟩ := findMinStride_spec hmin
      rw [hpi] at hpm
      cases hpm
      obtain ⟨q', hq', hrun⟩ := hready j hj
      rw [hqj] at hq'
      cases hq'
      have hle := hleast qj (mem_of_getElem? hqj) ⟨hrun, by rw [htj]; omega⟩
      rw [hpassi, hpassj] at hle
      simp only [beq_self_eq_true, if_true, Nat.cast_add, Nat.cast_one]
      linarith
    · simpa [hci] using ih

theorem dispatches_fair_two : ∃ ps qs : List Proc, Iterations {0, 1} ps [1] qs ∧
    ([1].count 1 : ℤ) * strideOf 30 ≤ ([1].count 0 + 1) * strideOf 20 := by
  let p₀ : Proc := { state := .runnable, tickets := 20, stridePass := 3 }
  let p₁ : Proc := { state := .runnable, tickets := 30, stridePass := 2 }
  have h : Iterations {0, 1} [p₀, p₁] [1] [p₀, { p₁ with schedCnt := 1, stridePass := 4 }] := by
    refine Iterations.iterate (.start ?_ : Iterations {0, 1} [p₀, p₁] [] [p₀, p₁]) ?_ rfl ?_ ?_
    · rintro k (rfl | rfl)
      · exact ⟨p₀, rfl, by decide, by decide⟩
      · exact ⟨p₁, rfl, by decide, by decide⟩
    · rintro k (rfl | rfl)
      · exact ⟨p₀, rfl, rfl⟩
      · exact ⟨p₁, rfl, rfl⟩
    · rintro - p hp
      cases hp
      decide
    · rintro k (rfl | rfl) p hp
      · cases hp
        exact ⟨p₀, rfl, rfl, rfl⟩
      · cases hp
        exact ⟨_, rfl, rfl, by decide⟩
  exact ⟨_, _, h, dispatches_fair h (i := 1) (j := 0) (by simp) (by simp) rfl rfl⟩

end Xv6.Sched.Stride
