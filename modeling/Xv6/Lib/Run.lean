import Mathlib.Data.List.Induction
import Mathlib.Data.Option.Basic

/-! Runs of a partial step function. An event that is not enabled has no successor,
so a run is the list of the events that were taken. -/
namespace PartialRun
variable {σ ε : Type*}

def run (step : σ → ε → Option σ) : σ → List ε → Option σ
  | s, [] => some s
  | s, e :: es => (step s e).bind fun t => run step t es

/-- Every step taken from `s` along `es` meets the condition `C`. -/
def Along (step : σ → ε → Option σ) (C : σ → ε → Prop) : σ → List ε → Prop
  | _, [] => True
  | s, e :: es => C s e ∧ ∀ t, step s e = some t → Along step C t es

variable {step : σ → ε → Option σ} {C : σ → ε → Prop}

instance Along.instDecidable [∀ s e, Decidable (C s e)] :
    ∀ (s : σ) (es : List ε), Decidable (Along step C s es)
  | _, [] => isTrue trivial
  | s, e :: es => match h : step s e with
    | none => decidable_of_iff (C s e) (by simp [Along, h])
    | some t =>
      have := Along.instDecidable t es
      decidable_of_iff (C s e ∧ Along step C t es) (by simp [Along, h])

theorem guard_iff {p : Prop} [Decidable p] {s t : σ} :
    (if p then some s else none) = some t ↔ p ∧ s = t := by
  rw [Option.ite_none_right_eq_some, Option.some.injEq]

@[simp] theorem run_nil (s : σ) : run step s [] = some s := rfl

theorem run_cons (s : σ) (e : ε) (es : List ε) :
    run step s (e :: es) = (step s e).bind fun t => run step t es := rfl

theorem run_append (s : σ) (es fs : List ε) :
    run step s (es ++ fs) = (run step s es).bind fun t => run step t fs := by
  induction es generalizing s with
  | nil => rfl
  | cons e es ih =>
    rw [List.cons_append, run_cons, run_cons, Option.bind_assoc]
    exact congrArg _ (funext fun t => ih t)

theorem run_concat (s : σ) (es : List ε) (e : ε) :
    run step s (es ++ [e]) = (run step s es).bind fun t => step t e := by
  rw [run_append]
  exact congrArg _ (funext fun t => by rw [run_cons]; cases step t e <;> rfl)

variable {es : List ε}

theorem run_concat_eq_some {s t : σ} {e : ε} :
    run step s (es ++ [e]) = some t ↔ ∃ u, run step s es = some u ∧ step u e = some t := by
  rw [run_concat, Option.bind_eq_some_iff]

variable {s : σ}

theorem along_concat {e : ε} : Along step C s (es ++ [e]) ↔
      Along step C s es ∧ ∀ t, run step s es = some t → C t e := by
  induction es generalizing s with
  | nil => simp [Along]
  | cons a es ih =>
    simp only [List.cons_append, Along, ih, run_cons, Option.bind_eq_some_iff]
    refine ⟨fun h => ⟨⟨h.1, fun t ht => (h.2 t ht).1⟩, ?_⟩, fun h => ⟨h.1.1, fun t ht => ⟨?_, ?_⟩⟩⟩
    · rintro t ⟨u, hu, hr⟩
      exact (h.2 u hu).2 t hr
    · exact h.1.2 t ht
    · exact fun u hu => h.2 u ⟨t, ht, hu⟩

theorem Along.and {C' : σ → ε → Prop} (h : Along step C s es)
    (h' : Along step C' s es) : Along step (fun s e => C s e ∧ C' s e) s es := by
  induction es generalizing s with
  | nil => trivial
  | cons e es ih => exact ⟨⟨h.1, h'.1⟩, fun t ht => ih (h.2 t ht) (h'.2 t ht)⟩

/-- The invariant rule with history: `I es s` speaks of the events taken so far. -/
theorem run_history {I : List ε → σ → Prop} (h₀ : I [] s)
    (hstep : ∀ es t e u, run step s es = some t → I es t → C t e → step t e = some u →
      I (es ++ [e]) u) {t : σ} (hc : Along step C s es) (hr : run step s es = some t) : I es t := by
  induction es using List.reverseRecOn generalizing t with
  | nil => cases hr; exact h₀
  | append_singleton es e ih =>
    obtain ⟨u, hu, he⟩ := run_concat_eq_some.mp hr
    have hc := along_concat.mp hc
    exact hstep es u e t hu (ih hc.1 hu) (hc.2 u hu) he

theorem along_true (s : σ) (es : List ε) : Along step (fun _ _ => True) s es := by
  induction es generalizing s with
  | nil => trivial
  | cons e es ih => exact ⟨trivial, fun t _ => ih t⟩

theorem along_of_forall {P : ε → Prop} (h : ∀ e ∈ es, P e) (s : σ) :
    Along step (fun _ e => P e) s es := by
  induction es generalizing s with
  | nil => trivial
  | cons e es ih => exact ⟨h e List.mem_cons_self, fun t _ => ih (fun f hf => h f (List.mem_cons_of_mem _ hf)) t⟩

/-- Two conditions that say the same in every state with `I` say the same along a run, if `I` is kept
where the second one holds. -/
theorem along_iff {P Q : σ → ε → Prop} {I : σ → Prop} (h₀ : I s) (hc : Along step C s es)
    (hpq : ∀ s e, I s → C s e → (P s e ↔ Q s e))
    (hstep : ∀ s e t, I s → C s e → Q s e → step s e = some t → I t) :
    Along step P s es ↔ Along step Q s es := by
  induction es generalizing s with
  | nil => exact Iff.rfl
  | cons e es ih =>
    have hq := hpq s e h₀ hc.1
    constructor
    · rintro ⟨hp, hrest⟩
      have hq := hq.mp hp
      exact ⟨hq, fun t ht => (ih (hstep s e t h₀ hc.1 hq ht) (hc.2 t ht)).mp (hrest t ht)⟩
    · rintro ⟨hq', hrest⟩
      exact ⟨hq.mpr hq', fun t ht => (ih (hstep s e t h₀ hc.1 hq' ht) (hc.2 t ht)).mpr (hrest t ht)⟩

/-- The plain invariant rule, for steps that all meet `C`. -/
theorem run_invariant {I : σ → Prop} (h₀ : I s)
    (hstep : ∀ t e u, I t → C t e → step t e = some u → I u) {t : σ}
    (hc : Along step C s es) (hr : run step s es = some t) : I t :=
  run_history (I := fun _ => I) h₀ (fun _ t e u _ hi hce hs => hstep t e u hi hce hs) hc hr

end PartialRun
