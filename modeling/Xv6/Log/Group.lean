import Mathlib.Data.Fintype.Basic
import Mathlib.Data.Finset.Card
import Xv6.Log.Crash

/-! Group commit: `begin_op`, `log_write` and `end_op` of any number of processes, with every
lock-protected section and every stage of `commit` as one step. -/
namespace Xv6.Log.Group
open PartialRun Function List Finset

inductive Stage where
  | log | head | install | erase | done
  deriving DecidableEq

inductive Pc where
  | user
  | sleeping
  | woken
  | inOp
  | commits (st : Stage)
  deriving DecidableEq

inductive Panic where
  | logCommitting
  | tooBig
  | outsideOfTrans
  deriving DecidableEq

/-- The log and the processes using it. Two history variables identify operations by process and
number: `ended p` counts the calls of `end_op` by `p`, and `wrote` lists the calls of `log_write`
since the log was last erased. -/
structure State (P : Type) where
  m : Mach
  outstanding : ℤ := 0
  committing : Bool := false
  pc : P → Pc := fun _ => .user
  panic : Option Panic := none
  ended : P → ℕ := fun _ => 0
  wrote : List (ℕ × P × ℕ) := []

def boot {P : Type} (d : ℕ → Block) : State P := { m := restart d }

inductive Event (P : Type) where
  | beginOp (p : P)
  | kill (p : P)
  | logWrite (p : P) (b : ℕ) (x : Block)
  | endOp (p : P)
  | writeLog (p : P)
  | writeHead (p : P)
  | installTrans (p : P)
  | eraseLog (p : P)
  | finish (p : P)

variable {P : Type}

def wakeup (s : State P) : State P :=
  { s with pc := fun p => if s.pc p = .sleeping then .woken else s.pc p }

section
variable [DecidableEq P]

def State.setPc (s : State P) (p : P) (c : Pc) : State P :=
  { s with pc := update s.pc p c }

/-- One turn of the loop in `begin_op`. -/
def beginOp (s : State P) (p : P) : State P :=
  if s.committing ∨ (LOGSIZE : ℤ) < s.m.lh.length + (s.outstanding + 1) * MAXOPBLOCKS then
    s.setPc p .sleeping
  else
    { s.setPc p .inOp with outstanding := s.outstanding + 1 }

/-- `log_write` by `p` on the block `b`, whose buffer now holds `x`. -/
def logWrite (size : ℕ) (s : State P) (p : P) (b : ℕ) (x : Block) : State P :=
  match Log.logWrite size (s.m.store b x) b with
  | none => { s with panic := some .tooBig }
  | some m =>
    if s.outstanding < 1 then { s with panic := some .outsideOfTrans }
    else { s with m := m, wrote := s.wrote ++ [(b, p, s.ended p)] }

/-- The locked section of `end_op`. -/
def endOp (s : State P) (p : P) : State P :=
  let s := { s with
    outstanding := s.outstanding - 1
    ended := update s.ended p (s.ended p + 1) }
  if s.committing then { s with panic := some .logCommitting }
  else if s.outstanding = 0 then
    { s.setPc p (.commits (if 0 < s.m.lh.length then .log else .done)) with committing := true }
  else wakeup (s.setPc p .user)

variable (start size : ℕ)

def enabled (s : State P) : Event P → Bool
  | .beginOp p => s.pc p = .user ∨ s.pc p = .woken
  | .kill p => s.pc p = .sleeping
  | .logWrite p _ _ => s.pc p = .inOp
  | .endOp p => s.pc p = .inOp
  | .writeLog p => s.pc p = .commits .log
  | .writeHead p => s.pc p = .commits .head
  | .installTrans p => s.pc p = .commits .install
  | .eraseLog p => s.pc p = .commits .erase
  | .finish p => s.pc p = .commits .done

def effect (s : State P) : Event P → State P
  | .beginOp p => beginOp s p
  | .kill p => s.setPc p .woken
  | .logWrite p b x => logWrite size s p b x
  | .endOp p => endOp s p
  | .writeLog p => { s.setPc p (.commits .head) with m := Log.writeLog start s.m }
  | .writeHead p => { s.setPc p (.commits .install) with m := Log.writeHead start s.m }
  | .installTrans p => { s.setPc p (.commits .erase) with m := Log.installTrans start s.m }
  | .eraseLog p =>
    { s.setPc p (.commits .done) with
      m := Log.writeHead start { s.m with lh := [] }, wrote := [] }
  | .finish p => wakeup { s.setPc p .user with committing := false }

def step (s : State P) (e : Event P) : Option (State P) :=
  if s.panic = none ∧ enabled s e then some (effect start size s e) else none

theorem step_eq_some {start size : ℕ} {s t : State P} {e : Event P} :
    step start size s e = some t ↔
      s.panic = none ∧ enabled s e ∧ effect start size s e = t := by
  simp only [step, guard_iff, and_assoc]

end

section
variable [DecidableEq P]

def leaveOp (s : State P) (p : P) (c : Pc) : State P :=
  { s.setPc p c with
    outstanding := s.outstanding - 1, ended := update s.ended p (s.ended p + 1) }

theorem endOp_eq {s : State P} {p : P} (hc : s.committing = false) :
    endOp s p =
      if s.outstanding - 1 = 0 then
        { leaveOp s p (.commits (if 0 < s.m.lh.length then .log else .done)) with
          committing := true }
      else wakeup (leaveOp s p .user) := by
  rw [endOp]
  dsimp only
  rw [if_neg (by simp [hc])]
  rfl

theorem leaveOp_pc {s : State P} {p : P} {c : Pc} (hc : c ≠ .inOp) (q : P) :
    (leaveOp s p c).pc q = .inOp ↔ q ≠ p ∧ s.pc q = .inOp := by
  change update s.pc p c q = .inOp ↔ _
  rcases eq_or_ne q p with rfl | hq
  · simp [hc]
  · rw [update_of_ne hq]
    simp [hq]

end

theorem logWrite_eq {size : ℕ} {s : State P} (hs : 0 < s.outstanding) (p : P) (b : ℕ) (x : Block) :
    logWrite size s p b x =
      if LOGSIZE ≤ s.m.lh.length ∨ size - 1 ≤ s.m.lh.length then { s with panic := some .tooBig }
      else { s with
        m := { s.m.store b x with lh := if b ∈ s.m.lh then s.m.lh else s.m.lh ++ [b] }
        wrote := s.wrote ++ [(b, p, s.ended p)] } := by
  have hlh : (s.m.store b x).lh = s.m.lh := rfl
  unfold logWrite Log.logWrite
  rw [hlh]
  by_cases hfull : LOGSIZE ≤ s.m.lh.length ∨ size - 1 ≤ s.m.lh.length
  · rw [if_pos hfull, if_pos hfull]
  · rw [if_neg hfull, if_neg hfull]
    dsimp only
    rw [if_neg (by omega)]
    split <;> rfl

section
variable [Fintype P]

/-- The processes between their `begin_op` and their `end_op`. -/
def inOps (s : State P) : Finset P := Finset.univ.filter fun p => s.pc p = .inOp

structure Inv (size : ℕ) (s : State P) : Prop where
  outstanding : s.outstanding = (inOps s).card
  alone : s.committing = true → ∀ p, s.pc p ≠ .inOp
  committer : ∀ p st, s.pc p = .commits st → s.committing = true
  unique : ∀ p q st st', s.pc p = .commits st → s.pc q = .commits st' → p = q
  erased : ∀ p, s.pc p = .commits .done → s.m.lh = [] ∧ s.wrote = []
  idle : s.committing = false → s.outstanding = 0 → s.m.lh = [] ∧ s.wrote = []
  writers : ∀ w ∈ s.wrote, w.2.2 < s.ended w.2.1 ∨ w.2.2 = s.ended w.2.1 ∧ s.pc w.2.1 = .inOp
  logged : ∀ b, b ∈ s.m.lh ↔ b ∈ s.wrote.map Prod.fst
  nodup : s.m.lh.Nodup
  room : s.m.lh.length ≤ size - 1
  panic : s.panic = none ∨ s.panic = some .tooBig

theorem inOps_congr {s t : State P} (h : ∀ p, t.pc p = .inOp ↔ s.pc p = .inOp) :
    inOps t = inOps s := Finset.filter_congr fun p _ => h p

theorem inv_boot (size : ℕ) (d : ℕ → Block) : Inv size (boot (P := P) d) where
  outstanding := by simp [boot, inOps]
  alone := nofun
  committer := nofun
  unique := nofun
  erased := nofun
  idle _ _ := ⟨rfl, rfl⟩
  writers := nofun
  logged _ := Iff.rfl
  nodup := nodup_nil
  room := Nat.zero_le _
  panic := Or.inl rfl

variable {size : ℕ} {s : State P}

theorem Inv.setPcs (h : Inv size s) {f : P → Pc} (hin : ∀ p, f p = .inOp ↔ s.pc p = .inOp)
    (hst : ∀ p st, f p = .commits st ↔ s.pc p = .commits st) : Inv size { s with pc := f } where
  outstanding := by
    rw [inOps_congr (s := s) hin]
    exact h.outstanding
  alone hc p hp := h.alone hc p ((hin p).mp hp)
  committer p st hp := h.committer p st ((hst p st).mp hp)
  unique p q st st' hp hq := h.unique p q st st' ((hst p st).mp hp) ((hst q st').mp hq)
  erased p hp := h.erased p ((hst p _).mp hp)
  idle := h.idle
  writers w hw := (h.writers w hw).imp_right fun hp => ⟨hp.1, (hin _).mpr hp.2⟩
  logged := h.logged
  nodup := h.nodup
  room := h.room
  panic := h.panic

theorem Inv.wakeup (h : Inv size s) : Inv size (wakeup s) := by
  refine h.setPcs (fun p => ?_) (fun p st => ?_)
  all_goals split <;> simp_all

variable {p : P}

theorem Inv.outstanding_pos (h : Inv size s) (hp : s.pc p = .inOp) : 0 < s.outstanding := by
  rw [h.outstanding]
  exact_mod_cast card_pos.mpr ⟨p, by simpa [inOps] using hp⟩

theorem Inv.not_committing (h : Inv size s) (hp : s.pc p = .inOp) : s.committing = false := by
  by_contra hc
  exact h.alone (by simpa using hc) p hp

theorem Inv.not_commits (h : Inv size s) (hp : s.pc p = .inOp) (q : P) (st : Stage) :
    s.pc q ≠ .commits st := by
  intro hq
  have := h.committer q st hq
  rw [h.not_committing hp] at this
  cases this

theorem Inv.wrote_nil (h : Inv size s) (hlh : s.m.lh = []) : s.wrote = [] := by
  have hmap : s.wrote.map Prod.fst = [] :=
    eq_nil_iff_forall_not_mem.mpr fun b hb =>
      not_mem_nil (hlh ▸ (h.logged b).mpr hb : b ∈ ([] : List ℕ))
  exact map_eq_nil_iff.mp hmap

theorem Inv.logWrite (h : Inv size s) (hp : s.pc p = .inOp) (b : ℕ) (x : Block) :
    Inv size (logWrite size s p b x) := by
  have hpos := h.outstanding_pos hp
  rw [logWrite_eq hpos]
  split
  · exact { h with panic := Or.inr rfl }
  rename_i hroom
  rw [not_or, not_le, not_le] at hroom
  refine { h with
    erased := fun q hq => ?_, idle := fun _ ho => absurd ho hpos.ne', writers := fun w hw => ?_,
    logged := fun c => ?_, nodup := ?_, room := ?_ }
  · have := h.committer q _ hq
    rw [h.not_committing hp] at this
    cases this
  · rcases mem_append.mp hw with hw | hw
    · exact h.writers w hw
    · rw [List.mem_singleton.mp hw]
      exact Or.inr ⟨rfl, hp⟩
  · simp only [map_append, List.map_cons, map_nil, mem_append, List.mem_singleton,
      ← h.logged]
    split
    · rename_i hb
      exact ⟨Or.inl, fun hc => hc.elim id (· ▸ hb)⟩
    · rw [mem_append, List.mem_singleton]
  · dsimp only
    split
    · exact h.nodup
    · rename_i hb
      exact nodup_append.mpr ⟨h.nodup, nodup_singleton b, fun c hc d hd => by
        rw [List.mem_singleton.mp hd]
        exact fun he => hb (he ▸ hc)⟩
  · dsimp only
    split
    · exact h.room
    · rw [length_append, length_singleton]
      omega

variable [DecidableEq P]

theorem inOps_enter {s t : State P} (h : t.pc = update s.pc p .inOp) :
    inOps t = insert p (inOps s) := by
  ext q
  simp only [inOps, mem_filter_univ, mem_insert, h, update_apply]
  split <;> simp_all

theorem inOps_leave {s t : State P} (h : ∀ q, t.pc q = .inOp ↔ q ≠ p ∧ s.pc q = .inOp) :
    inOps t = (inOps s).erase p := by
  ext q
  simp only [inOps, mem_filter_univ, mem_erase, h]

theorem Inv.setPc (h : Inv size s) {c : Pc}
    (hp : s.pc p = .user ∨ s.pc p = .woken ∨ s.pc p = .sleeping) (hc : c = .sleeping ∨ c = .woken) :
    Inv size (s.setPc p c) := by
  refine h.setPcs (fun q => ?_) (fun q st => ?_)
  all_goals
    rw [update_apply]
    split
    · rename_i hq
      subst hq
      rcases hc with rfl | rfl <;> rcases hp with hp | hp | hp <;> simp [hp]
    · rfl

theorem Inv.beginOp (h : Inv size s) (hp : s.pc p = .user ∨ s.pc p = .woken) :
    Inv size (beginOp s p) := by
  unfold Group.beginOp
  split
  · exact h.setPc (hp.imp_right Or.inl) (Or.inl rfl)
  rename_i hadm
  rw [not_or, Bool.not_eq_true] at hadm
  have hno : s.pc p ≠ .inOp := by rcases hp with hp | hp <;> simp [hp]
  have hpc : ∀ q, q ≠ p → update s.pc p .inOp q = s.pc q :=
    fun q hq => update_of_ne hq _ _
  have hcom : ∀ q st, update s.pc p .inOp q = .commits st → s.pc q = .commits st := by
    intro q st hq
    rcases eq_or_ne q p with rfl | hne
    · simp at hq
    · rwa [hpc q hne] at hq
  refine ⟨?_, fun hc => ?_, fun q st hq => h.committer q st (hcom q st hq),
    fun q r st st' hq hr => h.unique q r st st' (hcom q st hq) (hcom r st' hr),
    fun q hq => h.erased q (hcom q _ hq), fun _ ho => ?_, fun w hw => ?_, h.logged, h.nodup,
    h.room, h.panic⟩
  · rw [inOps_enter (s := s) (p := p) rfl, card_insert_of_notMem (by simpa [inOps] using hno)]
    simp only [h.outstanding]
    push_cast
    rfl
  · exact absurd hc (by simpa [State.setPc] using hadm.1)
  · have := h.outstanding
    simp only at ho
    omega
  · refine (h.writers w hw).imp_right fun hin => ⟨hin.1, ?_⟩
    exact (hpc _ fun he => hno (he ▸ hin.2)).trans hin.2

theorem Inv.leave_outstanding (h : Inv size s) (hp : s.pc p = .inOp) {c : Pc}
    (hc : c ≠ .inOp) : s.outstanding - 1 = (inOps (leaveOp s p c)).card := by
  have hmem : p ∈ inOps s := by simpa [inOps] using hp
  have hpos := card_pos.mpr ⟨p, hmem⟩
  rw [inOps_leave (leaveOp_pc hc), card_erase_of_mem hmem, h.outstanding]
  omega

theorem Inv.leave_writers (h : Inv size s) {c : Pc}
    (hc : c ≠ .inOp) : ∀ w ∈ s.wrote, w.2.2 < (leaveOp s p c).ended w.2.1 ∨
      w.2.2 = (leaveOp s p c).ended w.2.1 ∧ (leaveOp s p c).pc w.2.1 = .inOp := by
  intro w hw
  have hold := h.writers w hw
  change w.2.2 < update s.ended p _ w.2.1 ∨ w.2.2 = update s.ended p _ w.2.1 ∧ _
  rcases eq_or_ne w.2.1 p with hq | hq
  · rw [hq] at hold ⊢
    rw [update_self]
    omega
  · rw [update_of_ne hq, leaveOp_pc hc]
    exact hold.imp_right fun hin => ⟨hin.1, hq, hin.2⟩

theorem Inv.endOp (h : Inv size s) (hp : s.pc p = .inOp) : Inv size (endOp s p) := by
  have hcom := h.not_commits hp
  rw [endOp_eq (h.not_committing hp)]
  split
  · rename_i hzero
    generalize hc : Pc.commits (if 0 < s.m.lh.length then Stage.log else Stage.done) = c
    have hne : c ≠ .inOp := by rw [← hc]; nofun
    have hout := h.leave_outstanding hp hne
    have honly : ∀ q st, (leaveOp s p c).pc q = .commits st → q = p := by
      intro q st hq
      by_contra hqp
      exact hcom q st ((update_of_ne hqp _ _).symm.trans hq)
    refine ⟨hout, fun _ q hq => ?_, fun _ _ _ => rfl, fun q r st st' hq hr => ?_, fun q hq => ?_,
      nofun, h.leave_writers hne, h.logged, h.nodup, h.room, h.panic⟩
    · -- the last operation has left
      have hcard : (inOps (leaveOp s p c)).card = 0 := by omega
      rw [card_eq_zero] at hcard
      have : q ∈ inOps (leaveOp s p c) := by simpa [inOps] using hq
      simp [hcard] at this
    · rw [honly q st hq, honly r st' hr]
    · rw [honly q _ hq] at hq
      have hdone : c = .commits .done := by
        change update s.pc p c p = _ at hq
        rwa [update_self] at hq
      have hlh : s.m.lh = [] := by
        rw [← hc, Pc.commits.injEq] at hdone
        split at hdone
        · cases hdone
        · rename_i hlen
          simpa using hlen
      exact ⟨hlh, h.wrote_nil hlh⟩
  · rename_i hpos
    have hout := h.leave_outstanding hp (c := .user) nofun
    have hcom' : ∀ q st, (leaveOp s p .user).pc q ≠ .commits st := by
      intro q st hq
      change update s.pc p .user q = .commits st at hq
      rw [update_apply] at hq
      split at hq
      · cases hq
      · exact hcom q st hq
    refine Inv.wakeup ⟨hout, fun hc => ?_, fun q st hq => absurd hq (hcom' q st),
      fun q r st st' hq _ => absurd hq (hcom' q st), fun q hq => absurd hq (hcom' q _),
      fun _ ho => absurd ho hpos, h.leave_writers nofun, h.logged, h.nodup, h.room, h.panic⟩
    exact absurd ((h.not_committing hp).symm.trans hc) nofun

theorem Inv.stage (h : Inv size s) {st st' : Stage} (hp : s.pc p = .commits st)
    {m : Mach} {ws : List (ℕ × P × ℕ)}
    (hm : m.lh = s.m.lh ∧ ws = s.wrote ∧ st' ≠ .done ∨ m.lh = [] ∧ ws = []) :
    Inv size { s.setPc p (.commits st') with m := m, wrote := ws } := by
  have hpc : ∀ q st, update s.pc p (.commits st') q = .commits st →
      ∃ st, s.pc q = .commits st := by
    intro q st hq
    rw [update_apply] at hq
    split at hq
    · rename_i heq
      exact ⟨_, heq ▸ hp⟩
    · exact ⟨st, hq⟩
  have hin : ∀ q, update s.pc p (.commits st') q = .inOp ↔ s.pc q = .inOp := by
    intro q
    rw [update_apply]
    split
    · rename_i heq
      subst heq
      simp [hp]
    · rfl
  have hcom := h.committer p st hp
  refine ⟨?_, fun hc q hq => h.alone hc q ((hin q).mp hq), fun _ _ _ => hcom,
    fun q r _ _ hq hr => ?_, fun q hq => ?_, fun hc => absurd (hcom.symm.trans hc) nofun, ?_, ?_, ?_,
    ?_, h.panic⟩
  · rw [inOps_congr (s := s) hin]
    exact h.outstanding
  · obtain ⟨_, hq⟩ := hpc q _ hq
    obtain ⟨_, hr⟩ := hpc r _ hr
    exact h.unique q r _ _ hq hr
  · rcases hm with ⟨-, -, hst⟩ | hm
    · obtain ⟨st'', hq'⟩ := hpc q _ hq
      obtain rfl := h.unique q p _ _ hq' hp
      change update s.pc q _ q = _ at hq
      rw [update_self, Pc.commits.injEq] at hq
      exact absurd hq hst
    · exact hm
  · rcases hm with ⟨-, rfl, -⟩ | ⟨-, rfl⟩
    · exact fun w hw => (h.writers w hw).imp_right fun hq => ⟨hq.1, (hin _).mpr hq.2⟩
    · exact nofun
  · rcases hm with ⟨hlh, rfl, -⟩ | ⟨hlh, rfl⟩
    · simpa only [hlh] using h.logged
    · simp [hlh]
  all_goals rcases hm with ⟨hlh, -⟩ | ⟨hlh, -⟩
  · simpa only [hlh] using h.nodup
  · simp [hlh]
  · simpa only [hlh] using h.room
  · simp [hlh]

theorem Inv.finish (h : Inv size s) (hp : s.pc p = .commits .done) :
    Inv size (Group.wakeup { s.setPc p .user with committing := false }) := by
  have hno : ∀ q, s.pc q ≠ .inOp := h.alone (h.committer p _ hp)
  have hpc : ∀ q st, update s.pc p .user q ≠ .commits st := by
    intro q st hq
    rw [update_apply] at hq
    split at hq
    · cases hq
    · rename_i hne
      exact hne (h.unique q p _ _ hq hp)
  have hin : ∀ q, update s.pc p .user q = .inOp ↔ s.pc q = .inOp := by
    intro q
    rw [update_apply]
    split
    · simp [hno q]
    · rfl
  refine Inv.wakeup ⟨?_, nofun, fun q st hq => absurd hq (hpc q st),
    fun q _ st _ hq _ => absurd hq (hpc q st), fun q hq => absurd hq (hpc q _),
    fun _ _ => h.erased p hp,
    fun w hw => (h.writers w hw).imp_right fun hq => ⟨hq.1, (hin _).mpr hq.2⟩, h.logged, h.nodup,
    h.room, h.panic⟩
  rw [inOps_congr (s := s) hin]
  exact h.outstanding

theorem Inv.step (h : Inv size s) {start : ℕ} {e : Event P} {t : State P}
    (hs : step start size s e = some t) : Inv size t := by
  obtain ⟨-, hp, rfl⟩ := step_eq_some.mp hs
  cases e with
  | beginOp p => exact h.beginOp (of_decide_eq_true hp)
  | kill p => exact h.setPc (Or.inr (Or.inr (of_decide_eq_true hp))) (Or.inr rfl)
  | logWrite p b x => exact h.logWrite (of_decide_eq_true hp) b x
  | endOp p => exact h.endOp (of_decide_eq_true hp)
  | writeLog p =>
    exact h.stage (of_decide_eq_true hp) (Or.inl ⟨writeLogFrom_lh _ _ _ _, rfl, nofun⟩)
  | writeHead p => exact h.stage (of_decide_eq_true hp) (Or.inl ⟨rfl, rfl, nofun⟩)
  | installTrans p =>
    exact h.stage (of_decide_eq_true hp) (Or.inl ⟨installFrom_lh _ _ _ _, rfl, nofun⟩)
  | eraseLog p => exact h.stage (of_decide_eq_true hp) (Or.inr ⟨rfl, rfl⟩)
  | finish p => exact h.finish (of_decide_eq_true hp)

theorem run_inv {start : ℕ} {d : ℕ → Block} {es : List (Event P)}
    (hr : run (step start size) (boot d) es = some s) : Inv size s :=
  run_invariant (inv_boot size d) (fun _ _ _ h _ hs => h.step hs) (along_true _ _) hr

/-- Every `log_write` of the operations now logged belongs to one that has called `end_op`. -/
def WritersEnded (s : State P) : Prop :=
  ∀ b ∈ s.m.lh, (∃ q k, (b, q, k) ∈ s.wrote) ∧ ∀ q k, (b, q, k) ∈ s.wrote → k < s.ended q

/-- Group-commit isolation, in every state that any interleaving reaches. -/
theorem commit_isolated {start : ℕ} {d : ℕ → Block} {es : List (Event P)}
    (hr : run (step start size) (boot d) es = some s) :
    (∀ p t, step start size s (.endOp p) = some t → t.committing = true → WritersEnded t) ∧
    (s.committing = true → (∀ p b x, step start size s (.logWrite p b x) = none) ∧
      ∀ p t, step start size s (.beginOp p) = some t → t.pc p = .sleeping) ∧
    s.outstanding = (inOps s).card ∧
    s.panic ≠ some .logCommitting ∧ s.panic ≠ some .outsideOfTrans := by
  have h := run_inv hr
  refine ⟨fun p t ht hc b hb => ?_, fun hc => ⟨fun p b x => ?_, fun p t ht => ?_⟩, h.outstanding, ?_,
    ?_⟩
  · have hi := h.step ht
    refine ⟨?_, fun q k hw => ?_⟩
    · obtain ⟨w, hw, rfl⟩ := List.mem_map.mp ((hi.logged b).mp hb)
      exact ⟨w.2.1, w.2.2, hw⟩
    · rcases hi.writers _ hw with hlt | ⟨-, hin⟩
      · exact hlt
      · exact absurd hin (hi.alone hc q)
  · refine if_neg fun hen => h.alone hc p ?_
    exact of_decide_eq_true hen.2
  · obtain ⟨-, -, rfl⟩ := step_eq_some.mp ht
    rw [effect, beginOp, if_pos (Or.inl hc)]
    exact update_self _ _ _
  all_goals rcases h.panic with hp | hp <;> rw [hp] <;> nofun

end

def someRun : List (Event Bool) :=
  [.beginOp false, .logWrite false 40 fun _ => 1, .beginOp true, .endOp false,
    .logWrite true 41 fun _ => 2, .endOp true]

theorem commit_isolated_someRun :
    ∃ s, run (step 2 30) (boot fun _ _ => 0) someRun = some s ∧
      s.committing = true ∧ s.m.lh = [40, 41] ∧ s.outstanding = (inOps s).card := by
  have hr : run (step 2 30) (boot fun _ _ => 0) someRun = some _ := rfl
  exact ⟨_, hr, rfl, rfl, (commit_isolated hr).2.2.1⟩

end Xv6.Log.Group
