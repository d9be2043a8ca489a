import Mathlib.Data.Int.Basic
import Mathlib.Data.List.Basic
import Mathlib.Logic.Basic
import Xv6.Lib.Run

/-! `push_off` and `pop_off` over any number of CPUs and kernel threads, with the switches between
the threads of the processes and the `scheduler()` of each CPU. A step is what one CPU does while
nothing else can happen on it. -/
namespace Xv6.Intr
open PartialRun Function List Option

inductive Panic where
  | popOff
  | popOffInterruptible
  | schedLocks
  | schedInterruptible
  deriving DecidableEq, Repr

/-- `struct cpu` with the interrupt-enable bit of the CPU; without a process in `proc` it runs its
`scheduler()`. -/
structure Cpu where
  noff : ℤ := 0
  intena : Bool := false
  intr : Bool := false
  proc : Option ℕ := none
  deriving DecidableEq, Repr

/-- Where a thread is: outside `sched`, at its start in `forkret`, in the `swtch` of `sched` or
behind it with its local `intena`, in the `swtch` of `scheduler()`, or behind that with the lock of
the process that ran. -/
inductive Phase where
  | runs
  | fresh
  | switched (intena : Bool)
  | resumed (intena : Bool)
  | away
  | back
  deriving DecidableEq, Repr

/-- A kernel thread: the interrupt-enable states before its unmatched calls of `push_off`, the last
one first; the local `old` of a `push_off` that was just entered; and for each interrupt handler it
is in, the `old` of the code that was interrupted. -/
structure Thread where
  unmatched : List Bool := []
  old : Option Bool := none
  frames : List (Option Bool) := []
  phase : Phase := .runs
  deriving DecidableEq, Repr

def Phase.Active (x : Phase) : Prop := x = .runs ∨ x = .back

instance (x : Phase) : Decidable x.Active := inferInstanceAs (Decidable (_ ∨ _))

/-- What a thread does on its CPU by itself: it turns interrupts on or off outside of all
`push_off`s, takes an interrupt and returns from its handler, enters `push_off` and completes it,
calls `pop_off` for an unmatched `push_off`, and returns from `sched`. -/
inductive Op where
  | setIntr (b : Bool)
  | trap
  | sret
  | intrGet
  | pushOff
  | popOff
  | schedRet
  deriving DecidableEq, Repr

def popOff (c : Cpu) : Except Panic Cpu :=
  if c.intr then .error .popOffInterruptible
  else if c.noff < 1 then .error .popOff
  else
    let c := { c with noff := c.noff - 1 }
    .ok (if c.noff = 0 ∧ c.intena then { c with intr := true } else c)

def pushOff (c : Cpu) (old : Bool) : Cpu :=
  { c with
    intr := false
    intena := if c.noff = 0 then old else c.intena
    noff := c.noff + 1 }

def Op.act (c : Cpu) (t : Thread) : Op → Option (Except Panic (Cpu × Thread))
  | .setIntr b =>
    if t.unmatched = [] ∧ t.old = none ∧ t.phase.Active then some (.ok ({ c with intr := b }, t))
    else none
  | .trap =>
    if c.intr then
      some (.ok ({ c with intr := false }, { t with old := none, frames := t.old :: t.frames }))
    else none
  | .sret =>
    match t.frames with
    | [] => none
    | old :: frames =>
      -- a handler ends with its `push_off`s matched; interrupts were on before it
      if t.unmatched = [] ∧ t.old = none ∧ t.phase.Active then
        some (.ok ({ c with intr := true }, { t with old := old, frames := frames }))
      else none
  | .intrGet =>
    if t.old = none ∧ t.phase.Active then some (.ok (c, { t with old := some c.intr })) else none
  | .pushOff =>
    match t.old with
    | none => none
    | some old => some (.ok (Intr.pushOff c old, { t with unmatched := old :: t.unmatched, old := none }))
  | .popOff =>
    match t.unmatched with
    | [] => none
    | _ :: rest =>
      if t.old = none ∧ t.phase.Active then
        some ((Intr.popOff c).map fun c =>
          (c, { t with unmatched := rest, phase := if rest = [] then .runs else t.phase }))
      else none
  | .schedRet =>
    match t.phase with
    | .resumed intena => some (.ok ({ c with intena := intena }, { t with phase := .runs }))
    | _ => none

structure State where
  cpu : ℕ → Cpu := fun _ => {}
  scheduler : ℕ → Thread := fun _ => {}
  proc : ℕ → Thread := fun _ => { phase := .fresh }
  panic : Option Panic := none

def State.thread (s : State) (c : ℕ) : Thread :=
  match (s.cpu c).proc with
  | none => s.scheduler c
  | some p => s.proc p

def State.setThread (s : State) (c : ℕ) (t : Thread) : State :=
  match (s.cpu c).proc with
  | none => { s with scheduler := update s.scheduler c t }
  | some p => { s with proc := update s.proc p t }

inductive Event where
  | op (c : ℕ) (x : Op)
  | swtch (c p : ℕ)
  | sched (c : ℕ)
  | allocproc (p : ℕ)
  deriving DecidableEq, Repr

def swtch (s : State) (c p : ℕ) : Option State :=
  let t := s.scheduler c
  if (s.cpu c).proc = none ∧ t.phase = .runs ∧ t.unmatched.length = 1 ∧ t.old = none ∧
      t.frames = [] then
    let go (u : Thread) : State := { s with
      cpu := update s.cpu c { s.cpu c with proc := some p }
      scheduler := update s.scheduler c { t with phase := .away }
      proc := update s.proc p u }
    match (s.proc p).phase with
    | .fresh => some (go { s.proc p with unmatched := t.unmatched, phase := .runs })
    | .switched intena => some (go { s.proc p with phase := .resumed intena })
    | _ => none
  else none

def sched (s : State) (c : ℕ) : Option State :=
  match (s.cpu c).proc with
  | none => none
  | some p =>
    let t := s.proc p
    if t.phase = .runs ∧ t.unmatched.length = 1 ∧ t.old = none then
      if (s.cpu c).noff ≠ 1 then some { s with panic := some .schedLocks }
      else if (s.cpu c).intr then some { s with panic := some .schedInterruptible }
      else some { s with
        cpu := update s.cpu c { s.cpu c with proc := none }
        scheduler := update s.scheduler c { s.scheduler c with phase := .back }
        proc := update s.proc p { t with phase := .switched (s.cpu c).intena } }
    else none

def step (s : State) (e : Event) : Option State :=
  if s.panic.isSome then none
  else match e with
    | .op c x =>
      (x.act (s.cpu c) (s.thread c)).map fun r => match r with
        | .error e => { s with panic := some e }
        | .ok (y, t) => { s.setThread c t with cpu := update s.cpu c y }
    | .swtch c p => swtch s c p
    | .sched c => sched s c
    | .allocproc p =>
      match (s.proc p).phase with
      | .fresh | .switched _ => some { s with proc := update s.proc p { phase := .fresh } }
      | _ => none

/-- The CPU and the thread that runs on it fit together. Behind its `swtch` the scheduler finds the
`intena` of the process that ran. -/
structure Runs (c : Cpu) (t : Thread) : Prop where
  noff : c.noff = t.unmatched.length
  off : t.unmatched ≠ [] → c.intr = false
  old : ∀ b, t.old = some b → b = c.intr
  frames : ∀ b, some b ∈ t.frames → b = true
  phase : match t.phase with
    | .runs => t.unmatched ≠ [] → t.unmatched.getLast? = some c.intena
    | .back => t.unmatched ≠ []
    | .resumed intena => t.unmatched = [intena] ∧ t.old = none
    | _ => False

variable {c d : Cpu} {t u : Thread} {x : Op}

theorem popOff_ok (h : Runs c t) {b : Bool} {rest : List Bool} (ht : t.unmatched = b :: rest) :
    popOff c = .ok { c with noff := c.noff - 1, intr := rest.isEmpty && c.intena } := by
  have hoff := h.off (by rw [ht]; nofun)
  have hnoff := h.noff
  rw [ht, length_cons] at hnoff
  rw [popOff, hoff, if_neg (by decide), if_neg (by omega)]
  cases rest with
  | nil =>
    cases c.intena <;> simp [hnoff, ← hoff]
  | cons b' rest =>
    have hne : ¬ (c.noff - 1 = 0 ∧ c.intena = true) := fun hc => by
      rw [length_cons] at hnoff
      omega
    dsimp only
    rw [if_neg hne]
    simp [← hoff]

theorem Runs.pushOff (h : Runs c t) {b : Bool} (ho : t.old = some b) :
    Runs (pushOff c b) { t with unmatched := b :: t.unmatched, old := none } where
  noff := by
    rw [Intr.pushOff, length_cons, h.noff]
    simp
  off _ := rfl
  old := nofun
  frames := h.frames
  phase := by
    have hp := h.phase
    have hz : c.noff = 0 ↔ t.unmatched = [] := by
      rw [h.noff, ← length_eq_zero_iff]
      exact Int.ofNat_eq_zero
    dsimp only
    split at hp <;> rename_i hph
    · intro _
      by_cases hu : t.unmatched = []
      · rw [Intr.pushOff, if_pos (hz.mpr hu), hu]
        rfl
      · rw [Intr.pushOff, if_neg (mt hz.mp hu), getLast?_cons, hp hu]
        rfl
    · nofun
    · rw [hp.2] at ho
      cases ho
    · exact hp.elim

theorem Runs.popOff (h : Runs c t) {b : Bool} {rest : List Bool} (ht : t.unmatched = b :: rest)
    (ho : t.old = none) (ha : t.phase.Active) :
    Runs { c with noff := c.noff - 1, intr := rest.isEmpty && c.intena }
      { t with unmatched := rest, phase := if rest = [] then .runs else t.phase } where
  noff := by
    rw [h.noff, ht, length_cons]
    simp
  off hr := by
    cases rest with
    | nil => exact absurd rfl hr
    | cons b' rest => rfl
  old b hb := by
    rw [ho] at hb
    cases hb
  frames := h.frames
  phase := by
    have hp := h.phase
    cases rest with
    | nil => exact fun hr => absurd rfl hr
    | cons b' rest =>
      rw [if_neg (by nofun)]
      rcases ha with ha | ha <;> rw [ha] at hp ⊢
      · intro _
        have hlast := hp (by rw [ht]; nofun)
        rw [ht, getLast?_cons_cons] at hlast
        exact hlast
      · nofun

theorem Runs.act (h : Runs c t) {r : Except Panic (Cpu × Thread)} (hr : x.act c t = some r) :
    ∃ d u, r = .ok (d, u) ∧ Runs d u ∧ d.proc = c.proc ∧
      (u.phase = t.phase ∨ u.phase = .runs) := by
  have hfree : t.unmatched = [] → t.old = none → t.phase.Active → ∀ b, Runs { c with intr := b } t := by
    intro hu ho ha b
    refine ⟨h.noff, fun hn => absurd hu hn, fun b hb => ?_, h.frames, ?_⟩
    · rw [ho] at hb
      cases hb
    · have hp := h.phase
      rcases ha with ha | ha <;> rw [ha] at hp ⊢
      · exact hp
      · exact absurd hu hp
  cases x with
  | setIntr b =>
    simp only [Op.act] at hr
    split_ifs at hr with hc
    cases hr
    exact ⟨_, _, rfl, hfree hc.1 hc.2.1 hc.2.2 b, rfl, .inl rfl⟩
  | trap =>
    simp only [Op.act] at hr
    split_ifs at hr with hc
    cases hr
    have hu : t.unmatched = [] := by
      by_contra hu
      rw [h.off hu] at hc
      cases hc
    refine ⟨_, _, rfl, ⟨h.noff, fun _ => rfl, nofun, ?_, ?_⟩, rfl, .inl rfl⟩
    · intro b hb
      rcases mem_cons.mp hb with hb | hb
      · rw [h.old b hb.symm, hc]
      · exact h.frames b hb
    · have hp := h.phase
      dsimp only
      split at hp <;> rename_i hph
      · exact fun hn => absurd hu hn
      · exact hp
      · exact ⟨hp.1, rfl⟩
      · exact hp
  | sret =>
    simp only [Op.act] at hr
    split at hr
    · cases hr
    rename_i old frames hf
    split_ifs at hr with hc
    cases hr
    have hrun := hfree hc.1 hc.2.1 hc.2.2 true
    refine ⟨_, _, rfl, ⟨hrun.noff, hrun.off, ?_, ?_, ?_⟩, rfl, .inl rfl⟩
    · intro b hb
      exact h.frames b (by rw [hf, ← hb]; exact mem_cons_self)
    · exact fun b hb => h.frames b (by rw [hf]; exact mem_cons_of_mem _ hb)
    · have hp := hrun.phase
      rcases hc.2.2 with ha | ha <;> rw [ha] at hp ⊢ <;> exact hp
  | intrGet =>
    simp only [Op.act] at hr
    split_ifs at hr with hc
    cases hr
    refine ⟨_, _, rfl, ⟨h.noff, h.off, ?_, h.frames, ?_⟩, rfl, .inl rfl⟩
    · rintro b ⟨⟩
      rfl
    · have hp := h.phase
      rcases hc.2 with ha | ha <;> rw [ha] at hp ⊢ <;> exact hp
  | pushOff =>
    simp only [Op.act] at hr
    split at hr
    · cases hr
    rename_i b ho
    cases hr
    exact ⟨_, _, rfl, h.pushOff ho, rfl, .inl rfl⟩
  | popOff =>
    simp only [Op.act] at hr
    split at hr
    · cases hr
    rename_i b rest ht
    split at hr
    swap
    · cases hr
    rename_i hc
    cases hr
    rw [popOff_ok h ht]
    refine ⟨_, _, rfl, h.popOff ht hc.1 hc.2, rfl, ?_⟩
    dsimp only
    split_ifs
    · exact .inr rfl
    · exact .inl rfl
  | schedRet =>
    simp only [Op.act] at hr
    split at hr
    · rename_i intena hph
      cases hr
      have hp := h.phase
      rw [hph] at hp
      refine ⟨_, _, rfl, ⟨h.noff, h.off, h.old, h.frames, ?_⟩, rfl, .inr rfl⟩
      intro _
      dsimp only
      rw [hp.1]
      rfl
    · cases hr

def Parked (t : Thread) : Prop :=
  t.old = none ∧ (∀ b, some b ∈ t.frames → b = true) ∧
    (t.phase = .fresh ∨ ∃ intena, t.phase = .switched intena ∧ t.unmatched = [intena])

structure Away (t : Thread) : Prop where
  phase : t.phase = .away
  one : t.unmatched.length = 1
  old : t.old = none
  frames : t.frames = []

structure Inv (s : State) : Prop where
  panic : s.panic = none
  runs : ∀ c, Runs (s.cpu c) (s.thread c)
  away : ∀ c p, (s.cpu c).proc = some p → Away (s.scheduler c) ∧ (s.proc p).phase ≠ .back
  once : ∀ c c' p, (s.cpu c).proc = some p → (s.cpu c').proc = some p → c = c'
  parked : ∀ p, (∀ c, (s.cpu c).proc ≠ some p) → Parked (s.proc p)

variable {s s' : State} {i p : ℕ}

theorem thread_none (h : (s.cpu i).proc = none) : s.thread i = s.scheduler i := by
  rw [State.thread, h]

theorem thread_some (h : (s.cpu i).proc = some p) : s.thread i = s.proc p := by
  rw [State.thread, h]

theorem Inv.not_running (h : Inv s) (hp : (s.proc p).phase = .fresh ∨
    ∃ intena, (s.proc p).phase = .switched intena) (c : ℕ) : (s.cpu c).proc ≠ some p := by
  intro hc
  have hrun := (h.runs c).phase
  rw [thread_some hc] at hrun
  rcases hp with hp | ⟨intena, hp⟩ <;> rw [hp] at hrun <;> exact hrun

theorem Inv.change (h : Inv s) (hpanic : s'.panic = none)
    (hother : ∀ c, c ≠ i → s'.cpu c = s.cpu c ∧ s'.scheduler c = s.scheduler c ∧
      ∀ p, (s.cpu c).proc = some p → s'.proc p = s.proc p)
    (hrun : Runs (s'.cpu i) (s'.thread i))
    (haway : ∀ p, (s'.cpu i).proc = some p → Away (s'.scheduler i) ∧ (s'.proc p).phase ≠ .back ∧
      ∀ c, c ≠ i → (s.cpu c).proc ≠ some p)
    (hparked : ∀ p, (∀ c, (s'.cpu c).proc ≠ some p) → Parked (s'.proc p)) : Inv s' := by
  refine ⟨hpanic, fun c => ?_, fun c p hc => ?_, fun c c' p hc hc' => ?_, hparked⟩
  · rcases eq_or_ne c i with rfl | hci
    · exact hrun
    · obtain ⟨h₁, h₂, h₃⟩ := hother c hci
      have hold := h.runs c
      rw [State.thread] at hold ⊢
      rw [h₁, h₂]
      cases hp : (s.cpu c).proc with
      | none => rwa [hp] at hold
      | some p =>
        rw [hp] at hold
        dsimp only
        rwa [h₃ p hp]
  · rcases eq_or_ne c i with rfl | hci
    · exact ⟨(haway p hc).1, (haway p hc).2.1⟩
    · obtain ⟨h₁, h₂, h₃⟩ := hother c hci
      rw [h₁] at hc
      rw [h₂, h₃ p hc]
      exact h.away c p hc
  · by_cases hci : c = i <;> by_cases hci' : c' = i
    · exact hci.trans hci'.symm
    · subst hci
      rw [(hother c' hci').1] at hc'
      exact absurd hc' ((haway p hc).2.2 c' hci')
    · subst hci'
      rw [(hother c hci).1] at hc
      exact absurd hc ((haway p hc').2.2 c hci)
    · rw [(hother c hci).1] at hc
      rw [(hother c' hci').1] at hc'
      exact h.once c c' p hc hc'

theorem Inv.op (h : Inv s) {d : Cpu} {u : Thread} (hrun : Runs d u) (hproc : d.proc = (s.cpu i).proc)
    (hphase : u.phase = (s.thread i).phase ∨ u.phase = .runs) :
    Inv { s.setThread i u with cpu := update s.cpu i d } := by
  have hcpu : ∀ c, (update s.cpu i d c).proc = (s.cpu c).proc := by
    intro c
    rcases eq_or_ne c i with rfl | hc
    · rw [update_self, hproc]
    · rw [update_of_ne hc]
  cases hi : (s.cpu i).proc with
  | none =>
    rw [State.setThread, hi]
    refine h.change (i := i) h.panic (fun c hc => ?_) ?_ (fun p hp => ?_) fun p hp => ?_
    · exact ⟨update_of_ne hc .., update_of_ne hc .., fun _ _ => rfl⟩
    · rw [thread_none (by dsimp only; rw [hcpu, hi])]
      dsimp only
      rw [update_self, update_self]
      exact hrun
    · dsimp only at hp
      rw [hcpu, hi] at hp
      cases hp
    · refine h.parked p fun c => ?_
      rw [← hcpu c]
      exact hp c
  | some q =>
    rw [State.setThread, hi]
    rw [thread_some hi] at hphase
    refine h.change (i := i) h.panic (fun c hc => ?_) ?_ (fun p hp => ?_) fun p hp => ?_
    · refine ⟨update_of_ne hc .., rfl, fun p hp => update_of_ne ?_ ..⟩
      rintro rfl
      exact hc (h.once c i p hp hi)
    · rw [thread_some (p := q) (by dsimp only; rw [hcpu, hi])]
      dsimp only
      rw [update_self, update_self]
      exact hrun
    · dsimp only at hp ⊢
      rw [hcpu, hi] at hp
      cases hp
      refine ⟨(h.away i q hi).1, ?_, fun c hc hcq => hc (h.once c i q hcq hi)⟩
      rw [update_self]
      rcases hphase with hphase | hphase <;> rw [hphase]
      · exact (h.away i q hi).2
      · nofun
    · dsimp only at hp ⊢
      have hpq : p ≠ q := by
        rintro rfl
        exact hp i (by rw [hcpu, hi])
      rw [update_of_ne hpq]
      refine h.parked p fun c => ?_
      rw [← hcpu c]
      exact hp c

theorem Inv.swtch (h : Inv s) (hs : swtch s i p = some s') : Inv s' := by
  unfold Intr.swtch at hs
  dsimp only at hs
  split at hs
  swap
  · cases hs
  rename_i hc
  obtain ⟨hi, hruns, hone, hold, hframes⟩ := hc
  have hsched := h.runs i
  rw [thread_none hi] at hsched
  have hphase := hsched.phase
  rw [hruns] at hphase
  obtain ⟨b, hb⟩ := length_eq_one_iff.mp hone
  have hoff := hsched.off (by rw [hb]; nofun)
  have hnoff := hsched.noff
  rw [hb] at hphase hnoff
  have hlast : b = (s.cpu i).intena := by simpa using hphase
  -- the new thread is in order on this CPU, whichever way it starts
  have go : ∀ u : Thread, (∀ c, (s.cpu c).proc ≠ some p) → Runs { s.cpu i with proc := some p } u →
      u.phase ≠ .back → Inv { s with
        cpu := update s.cpu i { s.cpu i with proc := some p }
        scheduler := update s.scheduler i { s.scheduler i with phase := .away }
        proc := update s.proc p u } := by
    intro u hnot hu hback
    refine h.change (i := i) h.panic (fun c hc => ?_) ?_ (fun q hq => ?_) fun q hq => ?_
    · refine ⟨update_of_ne hc .., update_of_ne hc .., fun q hq =>
        update_of_ne ?_ ..⟩
      rintro rfl
      exact hnot c hq
    · rw [thread_some (p := p) (by dsimp only; rw [update_self])]
      dsimp only
      rw [update_self, update_self]
      exact hu
    · dsimp only at hq ⊢
      rw [update_self] at hq
      cases hq
      rw [update_self, update_self]
      exact ⟨⟨rfl, hone, hold, hframes⟩, hback, fun c _ => hnot c⟩
    · dsimp only at hq ⊢
      have hqp : q ≠ p := by
        rintro rfl
        exact hq i (by rw [update_self])
      rw [update_of_ne hqp]
      refine h.parked q fun c hc => ?_
      rcases eq_or_ne c i with rfl | hci
      · rw [hi] at hc
        cases hc
      · exact hq c (by rw [update_of_ne hci, hc])
  split at hs
  · rename_i hp
    have hnot := h.not_running (.inl hp)
    obtain ⟨ho, hf, -⟩ := h.parked p hnot
    cases hs
    refine go _ hnot ⟨by rw [hb]; exact hnoff, fun _ => hoff, ?_, hf, fun _ => ?_⟩ nofun
    · intro b hb
      dsimp only at hb
      rw [ho] at hb
      cases hb
    · dsimp only
      rw [hb, hlast]
      rfl
  · rename_i intena hp
    have hnot := h.not_running (.inr ⟨intena, hp⟩)
    obtain ⟨ho, hf, hpark⟩ := h.parked p hnot
    obtain hfresh | ⟨intena', hp', hu⟩ := hpark
    · rw [hp] at hfresh
      cases hfresh
    rw [hp] at hp'
    cases hp'
    cases hs
    refine go _ hnot ⟨by rw [hu]; exact hnoff, fun _ => hoff, ?_, hf, ⟨hu, ho⟩⟩ nofun
    intro b hb
    dsimp only at hb
    rw [ho] at hb
    cases hb
  · cases hs

theorem Inv.sched (h : Inv s) (hs : sched s i = some s') : Inv s' := by
  unfold Intr.sched at hs
  split at hs
  · cases hs
  rename_i p hi
  dsimp only at hs
  split at hs
  swap
  · cases hs
  rename_i hc
  obtain ⟨hruns, hone, hold⟩ := hc
  have hrun := h.runs i
  rw [thread_some hi] at hrun
  have hphase := hrun.phase
  rw [hruns] at hphase
  obtain ⟨b, hb⟩ := length_eq_one_iff.mp hone
  have hoff := hrun.off (by rw [hb]; nofun)
  have hnoff : (s.cpu i).noff = 1 := by
    rw [hrun.noff, hone]
    rfl
  rw [hb] at hphase
  have hlast : b = (s.cpu i).intena := by simpa using hphase
  have haway := (h.away i p hi).1
  rw [if_neg (not_not.mpr hnoff), if_neg (by rw [hoff]; decide)] at hs
  cases hs
  refine h.change (i := i) h.panic (fun c hc => ?_) ?_ (fun q hq => ?_) fun q hq => ?_
  · refine ⟨update_of_ne hc .., update_of_ne hc .., fun q hq =>
      update_of_ne ?_ ..⟩
    rintro rfl
    exact hc (h.once c i q hq hi)
  · rw [thread_none (by dsimp only; rw [update_self])]
    dsimp only
    rw [update_self, update_self]
    have hne : (s.scheduler i).unmatched ≠ [] := fun hz => by
      have := haway.one
      rw [hz] at this
      cases this
    refine ⟨by rw [haway.one]; exact hnoff, fun _ => hoff, ?_, ?_, hne⟩
    · intro b hb
      dsimp only at hb
      rw [haway.old] at hb
      cases hb
    · intro b hb
      dsimp only at hb
      rw [haway.frames] at hb
      cases hb
  · dsimp only at hq
    rw [update_self] at hq
    cases hq
  · dsimp only at hq ⊢
    rcases eq_or_ne q p with rfl | hqp
    · rw [update_self]
      exact ⟨hold, hrun.frames, .inr ⟨_, rfl, by rw [hb, hlast]⟩⟩
    · rw [update_of_ne hqp]
      refine h.parked q fun c hc => ?_
      rcases eq_or_ne c i with rfl | hci
      · rw [hi] at hc
        exact hqp (Option.some.inj hc).symm
      · exact hq c (by rw [update_of_ne hci, hc])

theorem Inv.allocproc (h : Inv s) (hnot : ∀ c, (s.cpu c).proc ≠ some p) :
    Inv { s with proc := update s.proc p { phase := .fresh } } := by
  have hne : ∀ {c q}, (s.cpu c).proc = some q → q ≠ p := by
    rintro c q hq rfl
    exact hnot c hq
  refine ⟨h.panic, fun c => ?_, fun c q hq => ?_, h.once, fun q hq => ?_⟩
  · have hold := h.runs c
    cases hc : (s.cpu c).proc with
    | none =>
      rw [thread_none hc] at hold
      rwa [thread_none (by exact hc)]
    | some q =>
      rw [thread_some hc] at hold
      rw [thread_some (p := q) (by exact hc)]
      dsimp only
      rwa [update_of_ne (hne hc)]
  · dsimp only
    rw [update_of_ne (hne hq)]
    exact h.away c q hq
  · dsimp only
    rcases eq_or_ne q p with rfl | hqp
    · rw [update_self]
      exact ⟨rfl, nofun, .inl rfl⟩
    · rw [update_of_ne hqp]
      exact h.parked q hq

theorem Inv.step (h : Inv s) {e : Event} (hs : step s e = some s') : Inv s' := by
  rw [Intr.step.eq_def, if_neg (by rw [h.panic]; decide)] at hs
  cases e with
  | op c x =>
    obtain ⟨r, hr, rfl⟩ := map_eq_some_iff.mp hs
    obtain ⟨d, u, rfl, hrun, hproc, hphase⟩ := (h.runs c).act hr
    exact h.op hrun hproc hphase
  | swtch c p => exact h.swtch hs
  | sched c => exact h.sched hs
  | allocproc p =>
    dsimp only at hs
    split at hs
    · rename_i hp
      cases hs
      exact h.allocproc (h.not_running (.inl hp))
    · rename_i intena hp
      cases hs
      exact h.allocproc (h.not_running (.inr ⟨intena, hp⟩))
    · cases hs

theorem inv_boot : Inv {} where
  panic := rfl
  runs _ := ⟨rfl, fun h => absurd rfl h, nofun, nofun, fun h => absurd rfl h⟩
  away := nofun
  once := nofun
  parked _ _ := ⟨rfl, nofun, .inl rfl⟩

/-- In every state that is reached each CPU counts the unmatched calls of its thread, with interrupts
off as long as there are any; the last `pop_off` of a process brings back what was before the
matching `push_off`; and nothing panics. -/
theorem nesting {es : List Event} (hrun : run step {} es = some s) :
    s.panic = none ∧
      (∀ c, (s.cpu c).noff = (s.thread c).unmatched.length ∧
        ((s.thread c).unmatched ≠ [] → (s.cpu c).intr = false)) ∧
      ∀ c p b s', (s.cpu c).proc = some p → (s.proc p).unmatched = [b] →
        step s (.op c .popOff) = some s' → s'.panic = none ∧ (s'.cpu c).intr = b := by
  have hinv : Inv s := run_invariant (C := fun _ _ => True) inv_boot
    (fun _ _ _ hi _ hs => hi.step hs) (along_true _ es) hrun
  refine ⟨hinv.panic, fun c => ⟨(hinv.runs c).noff, (hinv.runs c).off⟩, ?_⟩
  intro c p b s' hc hb hs
  have hinv' := hinv.step hs
  refine ⟨hinv'.panic, ?_⟩
  have hr := hinv.runs c
  rw [thread_some hc] at hr
  rw [step.eq_def, if_neg (by rw [hinv.panic]; decide)] at hs
  obtain ⟨r, hact, rfl⟩ := map_eq_some_iff.mp hs
  rw [thread_some hc, Op.act.eq_def] at hact
  dsimp only at hact
  rw [hb] at hact
  dsimp only at hact
  split at hact
  swap
  · cases hact
  rename_i hactive
  cases hact
  rw [popOff_ok hr hb]
  have hphase := hr.phase
  rcases hactive.2 with hruns | hback
  · rw [hruns, hb] at hphase
    have hlast : b = (s.cpu c).intena := by simpa using hphase
    simp [Except.map, hlast]
  · exact absurd hback (hinv.away c p hc).2

/-- Process 7 starts on CPU 0 and is interrupted at the start of a `push_off`; it yields in the
handler, goes on with CPU 1 and completes the call there. -/
def migrates : List Event :=
  [.op 0 (.setIntr true), .op 0 .intrGet, .op 0 .pushOff, .swtch 0 7, .op 0 .popOff,
    .op 0 .intrGet, .op 0 .trap, .op 0 .intrGet, .op 0 .pushOff, .sched 0, .op 0 .popOff,
    .op 1 .intrGet, .op 1 .pushOff, .swtch 1 7, .op 1 .schedRet, .op 1 .popOff, .op 1 .sret,
    .op 1 .pushOff]

theorem nesting_migrates : ∃ s s', run step {} migrates = some s ∧ (s.cpu 1).noff = 1 ∧
    step s (.op 1 .popOff) = some s' ∧ s'.panic = none ∧ (s'.cpu 1).intr = true := by
  have heval : ((run step {} migrates).bind fun s => (step s (.op 1 .popOff)).map fun s' =>
      ((s.cpu 1).proc, (s.proc 7).unmatched, (s.cpu 1).noff)) = some (some 7, [true], 1) := by
    decide +kernel
  obtain ⟨s, hs, hpop⟩ := bind_eq_some_iff.mp heval
  obtain ⟨s', hs', hfacts⟩ := map_eq_some_iff.mp hpop
  simp only [Prod.mk.injEq] at hfacts
  obtain ⟨hproc, hunmatched, hnoff⟩ := hfacts
  exact ⟨s, s', hs, hnoff, hs', (nesting hs).2.2 1 7 true s' hproc hunmatched hs'⟩

end Xv6.Intr
