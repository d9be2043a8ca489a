import Mathlib.Order.Defs.Unbundled

/-! Postconditions for programs with a state that can stop with an error. -/

/-- From `s`, `m` ends with a result and a state that meet `Q`, or stops with an error in `E`. -/
def Sat {σ ε α : Type} (m : StateT σ (Except ε) α) (s : σ) (Q : α → σ → Prop) (E : ε → Prop) :
    Prop :=
  match m s with
  | .ok r => Q r.1 r.2
  | .error e => E e

namespace Sat
variable {σ ε α β : Type} {m : StateT σ (Except ε) α} {f : α → StateT σ (Except ε) β} {s t : σ}
  {Q R : α → σ → Prop} {Q' : β → σ → Prop} {E E' : ε → Prop}

variable {a : α}

theorem pure (h : Q a s) : Sat (Pure.pure a : StateT σ (Except ε) α) s Q E := h

theorem throw {e : ε} (h : E e) : Sat (MonadExcept.throw e : StateT σ (Except ε) α) s Q E := h

theorem get_bind {f : σ → StateT σ (Except ε) β} (h : Sat (f s) s Q' E) :
    Sat (MonadState.get >>= f) s Q' E := h

theorem bind (h : Sat m s R E) (hf : ∀ a t, R a t → Sat (f a) t Q' E) :
    Sat (m >>= f) s Q' E := by
  have hb : (m >>= f) s = (m s).bind fun r => f r.1 r.2 := rfl
  unfold Sat at h ⊢
  rw [hb]
  cases hm : m s with
  | ok r => exact hf r.1 r.2 (by rwa [hm] at h)
  | error e => rwa [hm] at h

theorem run_bind (h : m s = .ok (a, t)) : (m >>= f) s = f a t := by
  have hb : (m >>= f) s = (m s).bind fun r => f r.1 r.2 := rfl
  rw [hb, h]
  rfl

theorem bind_ok (h : m s = .ok (a, t)) (hf : Sat (f a) t Q' E) : Sat (m >>= f) s Q' E := by
  unfold Sat at hf ⊢
  rwa [run_bind h]

theorem bind_error {e : ε} (h : m s = .error e) (he : E e) : Sat (m >>= f) s Q' E := by
  have hb : (m >>= f) s = (m s).bind fun r => f r.1 r.2 := rfl
  unfold Sat
  rw [hb, h]
  exact he

theorem mono (h : Sat m s R E') (hQ : ∀ a t, R a t → Q a t) (hE : ∀ e, E' e → E e) :
    Sat m s Q E := by
  unfold Sat at h ⊢
  cases hm : m s with
  | ok r => exact hQ r.1 r.2 (by rwa [hm] at h)
  | error e => exact hE e (by rwa [hm] at h)

theorem post (h : Sat m s R E) (hQ : ∀ a t, R a t → Q a t) : Sat m s Q E :=
  h.mono hQ fun _ he => he

theorem weaken (h : Sat m s Q E') (hE : ∀ e, E' e → E e) : Sat m s Q E :=
  h.mono (fun _ _ hq => hq) hE

theorem and (h : Sat m s Q E) (h' : Sat m s R E') :
    Sat m s (fun a t => Q a t ∧ R a t) (fun e => E e ∧ E' e) := by
  unfold Sat at h h' ⊢
  cases hm : m s with
  | ok r => exact ⟨by rwa [hm] at h, by rwa [hm] at h'⟩
  | error e => exact ⟨by rwa [hm] at h, by rwa [hm] at h'⟩

/-- Both postconditions, with the errors of the second. -/
theorem beside (h : Sat m s Q E) (h' : Sat m s R E') : Sat m s (fun a t => Q a t ∧ R a t) E' :=
  (h.and h').weaken fun _ he => he.2

theorem ite {c : Prop} [Decidable c] {m' : StateT σ (Except ε) α} (h : c → Sat m s Q E)
    (h' : ¬ c → Sat m' s Q E) : Sat (if c then m else m') s Q E := by
  split
  · exact h (by assumption)
  · exact h' (by assumption)

theorem ok (h : Sat m s Q E) {t : σ} (hm : m s = .ok (a, t)) : Q a t := by
  unfold Sat at h
  rwa [hm] at h

theorem any : Sat m s (fun _ _ => True) fun _ => True := by
  unfold Sat
  split <;> trivial

theorem skip (hf : ∀ a t, Sat (f a) t Q' fun _ => True) : Sat (m >>= f) s Q' fun _ => True :=
  any.bind fun a t _ => hf a t

theorem exists_ok (h : Sat m s Q fun _ => False) : ∃ a t, m s = .ok (a, t) ∧ Q a t := by
  unfold Sat at h
  split at h
  · rename_i r hr
    exact ⟨r.1, r.2, hr, h⟩
  · exact h.elim

theorem of_toOption {γ : Type} {g : α × σ → γ} {c : γ} (h : (m s).toOption.map g = some c) :
    ∃ a t, m s = .ok (a, t) ∧ g (a, t) = c := by
  cases hm : m s with
  | ok r =>
    rw [hm] at h
    exact ⟨r.1, r.2, rfl, Option.some.inj h⟩
  | error e =>
    rw [hm] at h
    cases h

theorem error (h : Sat m s Q E) {e : ε} (hm : m s = .error e) : E e := by
  unfold Sat at h
  rwa [hm] at h

end Sat

/-- From every state `m` ends in one that `R` relates to it, or stops with an error in `E`. -/
def Relates {σ ε α : Type} (R : σ → σ → Prop) (E : ε → Prop) (m : StateT σ (Except ε) α) : Prop :=
  ∀ s, Sat m s (fun _ t => R s t) E

instance isPreorder_true {σ : Type} : IsPreorder σ fun _ _ => True where
  refl _ := trivial
  trans _ _ _ _ _ := trivial

namespace Relates
variable {σ ε α β : Type} {R : σ → σ → Prop} [IsPreorder σ R] {E : ε → Prop}
  {m m' : StateT σ (Except ε) α} {f : α → StateT σ (Except ε) β}

theorem pure (a : α) : Relates R E (Pure.pure a : StateT σ (Except ε) α) := fun s =>
  Sat.pure (Std.Refl.refl s)

omit [IsPreorder σ R] in
theorem throw {e : ε} (h : E e) : Relates R E (MonadExcept.throw e : StateT σ (Except ε) α) :=
  fun _ => Sat.throw h

theorem bind (h : Relates R E m) (hf : ∀ a, Relates R E (f a)) : Relates R E (m >>= f) := fun s =>
  Sat.bind (h s) fun a t ht => (hf a t).post fun _ _ hu => IsTrans.trans _ _ _ ht hu

omit [IsPreorder σ R] in
theorem ite {c : Prop} [Decidable c] (h : c → Relates R E m) (h' : ¬ c → Relates R E m') :
    Relates R E (if c then m else m') := fun s => Sat.ite (fun hc => h hc s) fun hc => h' hc s

theorem forM {γ : Type} {g : γ → StateT σ (Except ε) PUnit} (h : ∀ a, Relates R E (g a))
    (l : List γ) : Relates R E (l.forM g) := by
  induction l with
  | nil => exact pure _
  | cons a l ih => exact bind (h a) fun _ => ih

end Relates
