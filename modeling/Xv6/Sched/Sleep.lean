import Xv6.Sched.Kill

/-! `sleep` and `wakeup` under a spinlock `lk`. Processes and interrupt handlers take `lk`, change
the conditions it guards, wake the processes that wait for one, or wait themselves. A step is a
section under `lk` or `p->lock`; `wakeup` takes the locks of the slots one after the other. -/
namespace Xv6.Sched.Sleep
open PartialRun Function List Option

/-- A process, together with the handlers that interrupt it, or the handlers of an idle CPU. -/
inductive Agent where
  | proc (i : ℕ)
  | cpu (c : ℕ)
  deriving DecidableEq, Repr

inductive Pc where
  | free
  /-- At the end of `sleep`, before `acquire(lk)`. -/
  | resuming
  /-- In a section of `lk`; `back` for a handler that has interrupted the end of `sleep`. -/
  | owns (back : Bool)
  /-- In `wakeup(chan)`, before slot `k`. -/
  | scanning (back : Bool) (chan k : ℕ)
  /-- In `sleep(chan, lk)`, with `p->lock` taken and `lk` released. -/
  | parking (chan : ℕ)
  /-- In `sleep`, inside `sched()`. -/
  | parked
  deriving DecidableEq, Repr

/-- `cond chan` is the condition that the sleepers on `chan` wait for. -/
structure World where
  tab : Table
  cond : ℕ → Bool
  lk : Option Agent := none
  pc : Agent → Pc := fun _ => .free

inductive Event where
  | acquire (a : Agent)
  | release (a : Agent)
  | setCond (a : Agent) (chan : ℕ) (v : Bool)
  | wakeStart (a : Agent) (chan : ℕ)
  | scan (a : Agent)
  | wakeDone (a : Agent)
  | sleepBegin (i chan : ℕ)
  | park (i : ℕ)
  | sleepReturn (i : ℕ)
  | kill (pid : BitVec 32) (i : ℕ)
  | dispatch (i : ℕ)
  | yield (i : ℕ)
  deriving DecidableEq, Repr

def Pc.holdsLock : Pc → Bool
  | .parking _ => true
  | _ => false

def Pc.holdsLk : Pc → Bool
  | .owns _ | .scanning _ _ _ => true
  | _ => false

namespace World

def setPc (s : World) (a : Agent) (pc : Pc) : World := { s with pc := update s.pc a pc }
def setTab (s : World) (i : ℕ) (f : Proc → Proc) : World := { s with tab := s.tab.modify i f }

def locked (s : World) (i : ℕ) : Bool := (s.pc (.proc i)).holdsLock

end World

def executes (s : World) : Agent → Bool
  | .proc i => s.tab.inState i .running
  | .cpu _ => true

def scanSlot (s : World) (a : Agent) (chan k : ℕ) : Option World :=
  if a = .proc k then some s
  else if s.locked k then none
  else some (s.setTab k (wakeup chan))

def step (s : World) : Event → Option World
  | .acquire a =>
    if s.lk = none ∧ executes s a then match s.pc a with
      | .free => some ({ s with lk := some a }.setPc a (.owns false))
      | .resuming => some ({ s with lk := some a }.setPc a (.owns true))
      | _ => none
    else none
  | .release a => match s.pc a with
    | .owns back => some ({ s with lk := none }.setPc a (if back then .resuming else .free))
    | _ => none
  | .setCond a chan v => match s.pc a with
    | .owns _ => some { s with cond := update s.cond chan v }
    | _ => none
  | .wakeStart a chan => match s.pc a with
    | .owns back => some (s.setPc a (.scanning back chan 0))
    | _ => none
  | .scan a => match s.pc a with
    | .scanning back chan k =>
      if k < s.tab.proc.length then
        (scanSlot s a chan k).map fun t => t.setPc a (.scanning back chan (k + 1))
      else none
    | _ => none
  | .wakeDone a => match s.pc a with
    | .scanning back _ k => if k < s.tab.proc.length then none else some (s.setPc a (.owns back))
    | _ => none
  | .sleepBegin i chan =>
    if s.pc (.proc i) = .owns false ∧ s.cond chan = false then
      some ({ s with lk := none }.setPc (.proc i) (.parking chan))
    else none
  | .park i => match s.pc (.proc i) with
    | .parking chan =>
      some ((s.setTab i fun p => { p with chan := chan, state := .sleeping }).setPc (.proc i) .parked)
    | _ => none
  | .sleepReturn i =>
    if s.lk = none ∧ s.tab.inState i .running ∧ s.pc (.proc i) = .resuming then
      some ({ s with lk := some (.proc i) }.setPc (.proc i) (.owns false))
    else none
  | .kill pid i =>
    if s.locked i then none
    else some (s.setTab i fun p => if p.pid = pid then killProc p else p)
  | .dispatch i =>
    if s.tab.inState i .runnable ∧ ¬ s.locked i then
      some (if s.pc (.proc i) = .parked then
        (s.setTab i fun p => { p with state := .running, chan := 0 }).setPc (.proc i) .resuming
      else s.setTab i fun p => { p with state := .running })
    else none
  | .yield i =>
    if s.tab.inState i .running ∧ (s.pc (.proc i) = .free ∨ s.pc (.proc i) = .resuming) then
      some (s.setTab i fun p => { p with state := .runnable })
    else none

structure Start (s : World) : Prop where
  lk : s.lk = none
  pc : ∀ a, s.pc a = .free
  awake : ∀ p ∈ s.tab.proc, p.state ≠ .sleeping ∧ p.chan = 0

/-- Process `i` sleeps on `chan`, or will before it gives its lock away. -/
def Waits (s : World) (chan i : ℕ) : Prop :=
  (∃ p, s.tab.proc[i]? = some p ∧ p.state = .sleeping ∧ p.chan = chan) ∨
    i < s.tab.proc.length ∧ s.pc (.proc i) = .parking chan

structure Sound (s : World) : Prop where
  held : ∀ {a}, (s.pc a).holdsLk → s.lk = some a
  asleep : ∀ {i p}, s.tab.proc[i]? = some p → p.state = .sleeping → s.pc (.proc i) = .parked
  chan : ∀ {i p}, s.tab.proc[i]? = some p → s.pc (.proc i) ≠ .parked → p.chan = 0
  passed : ∀ {a back chan k}, s.pc a = .scanning back chan k → ∀ i < k, ¬ Waits s chan i

variable {s t : World} {e : Event} {a : Agent} {i k chan : ℕ} {p q : Proc} {f : Proc → Proc}

inductive Effect (s : World) : Event → World → Prop
  | take (e : Event) (a : Agent) (back : Bool) (hl : s.lk = none)
      (hp : s.pc a = .free ∨ s.pc a = .resuming) :
      Effect s e ({ s with lk := some a }.setPc a (.owns back))
  | drop (e : Event) (a : Agent) (pc : Pc) (hp : (s.pc a).holdsLk)
      (hpc : pc = .free ∨ pc = .resuming) : Effect s e ({ s with lk := none }.setPc a pc)
  | cond (e : Event) (c : ℕ → Bool) : Effect s e { s with cond := c }
  | mark (e : Event) (a : Agent) (pc : Pc) (hp : (s.pc a).holdsLk)
      (hpc : (∃ back, pc = .owns back) ∨ ∃ back chan, pc = .scanning back chan 0) :
      Effect s e (s.setPc a pc)
  | pass (e : Event) (a : Agent) (back : Bool) (chan k : ℕ) (u : World)
      (hp : s.pc a = .scanning back chan k) (hu : scanSlot s a chan k = some u) :
      Effect s e (u.setPc a (.scanning back chan (k + 1)))
  | sleep (i chan : ℕ) (hp : s.pc (.proc i) = .owns false) (hc : s.cond chan = false) :
      Effect s (.sleepBegin i chan) ({ s with lk := none }.setPc (.proc i) (.parking chan))
  | park (e : Event) (i chan : ℕ) (hp : s.pc (.proc i) = .parking chan) :
      Effect s e ((s.setTab i fun p => { p with chan := chan, state := .sleeping }).setPc
        (.proc i) .parked)
  | resume (e : Event) (i : ℕ) (hp : s.pc (.proc i) = .parked) :
      Effect s e ((s.setTab i fun p => { p with state := .running, chan := 0 }).setPc
        (.proc i) .resuming)
  | slot (e : Event) (i : ℕ) (f : Proc → Proc)
      (hf : ∀ p, (f p).chan = p.chan ∧ ((f p).state = .sleeping → p.state = .sleeping)) :
      Effect s e (s.setTab i f)

theorem effect_of_step (h : step s e = some t) : Effect s e t := by
  cases e with
  | acquire a =>
    simp only [step, ite_none_right_eq_some] at h
    obtain ⟨⟨hl, -⟩, h⟩ := h
    split at h
    · rename_i hp
      cases h
      exact .take _ a _ hl (.inl hp)
    · rename_i hp
      cases h
      exact .take _ a _ hl (.inr hp)
    · cases h
  | release a =>
    simp only [step] at h
    split at h
    · rename_i back hp
      cases h
      refine .drop _ a _ (by rw [hp]; rfl) ?_
      cases back
      · exact .inl rfl
      · exact .inr rfl
    · cases h
  | setCond a chan v =>
    simp only [step] at h
    split at h
    · cases h
      exact .cond _ _
    · cases h
  | wakeStart a chan =>
    simp only [step] at h
    split at h
    · rename_i back hp
      cases h
      exact .mark _ a _ (by rw [hp]; rfl) (.inr ⟨_, _, rfl⟩)
    · cases h
  | scan a =>
    simp only [step] at h
    split at h
    · rename_i back chan k hp
      rw [ite_none_right_eq_some] at h
      obtain ⟨u, hu, rfl⟩ := map_eq_some_iff.mp h.2
      exact .pass _ a back chan k u hp hu
    · cases h
  | wakeDone a =>
    simp only [step] at h
    split at h
    · rename_i back chan k hp
      rw [ite_none_left_eq_some] at h
      cases h.2
      exact .mark _ a _ (by rw [hp]; rfl) (.inl ⟨_, rfl⟩)
    · cases h
  | sleepBegin i chan =>
    simp only [step, guard_iff] at h
    obtain ⟨⟨hp, hc⟩, rfl⟩ := h
    exact .sleep i chan hp hc
  | park i =>
    simp only [step] at h
    split at h
    · rename_i chan hp
      cases h
      exact .park _ i chan hp
    · cases h
  | sleepReturn i =>
    simp only [step, guard_iff] at h
    obtain ⟨⟨hl, -, hp⟩, rfl⟩ := h
    exact .take _ (.proc i) _ hl (.inr hp)
  | kill pid i =>
    simp only [step, ite_none_left_eq_some, Option.some.injEq] at h
    obtain ⟨-, rfl⟩ := h
    refine .slot _ i _ fun p => ?_
    split
    · refine ⟨rfl, fun hs => ?_⟩
      by_contra hne
      rw [killProc, if_neg hne] at hs
      exact hne hs
    · exact ⟨rfl, id⟩
  | dispatch i =>
    simp only [step, guard_iff] at h
    obtain ⟨-, rfl⟩ := h
    split
    · rename_i hp
      exact .resume _ i hp
    · exact .slot _ i _ fun p => ⟨rfl, by rintro ⟨⟩⟩
  | yield i =>
    simp only [step, guard_iff] at h
    obtain ⟨-, rfl⟩ := h
    exact .slot _ i _ fun p => ⟨rfl, by rintro ⟨⟩⟩

theorem setTab_length : (s.setTab i f).tab.proc.length = s.tab.proc.length :=
  length_modify _ _ _

theorem setTab_slot (h : (s.setTab i f).tab.proc[k]? = some q) :
    ∃ p, s.tab.proc[k]? = some p ∧ (k = i ∧ q = f p ∨ k ≠ i ∧ q = p) := by
  rcases eq_or_ne i k with rfl | hik
  · simp only [World.setTab, Table.modify, getElem?_modify_eq] at h
    obtain ⟨p, hp, rfl⟩ := map_eq_some_iff.mp h
    exact ⟨p, hp, .inl ⟨rfl, rfl⟩⟩
  · simp only [World.setTab, Table.modify, getElem?_modify_ne _ _ hik] at h
    exact ⟨q, h, .inr ⟨hik.symm, rfl⟩⟩

theorem scanSlot_cases {u : World} (h : scanSlot s a chan k = some u) :
    a = .proc k ∧ u = s ∨ s.locked k = false ∧ u = s.setTab k (wakeup chan) := by
  unfold scanSlot at h
  split at h
  · rename_i ha
    cases h
    exact .inl ⟨ha, rfl⟩
  · split at h
    · cases h
    · rename_i hl
      cases h
      exact .inr ⟨by simpa using hl, rfl⟩

theorem wakeup_keeps (chan : ℕ) (p : Proc) : (wakeup chan p).chan = p.chan ∧
    ((wakeup chan p).state = .sleeping → p.state = .sleeping ∧ p.chan ≠ chan) := by
  unfold wakeup
  split
  · exact ⟨rfl, nofun⟩
  · rename_i hne
    exact ⟨rfl, fun hs => ⟨hs, fun hc => hne ⟨hs, hc⟩⟩⟩

theorem Waits.of_setTab (hf : ∀ p, (f p).chan = p.chan ∧ ((f p).state = .sleeping → p.state = .sleeping))
    (h : Waits (s.setTab k f) chan i) : Waits s chan i := by
  rcases h with ⟨q, hq, hst, hch⟩ | hp
  · obtain ⟨p, hp, ⟨-, rfl⟩ | ⟨-, rfl⟩⟩ := setTab_slot hq
    · exact .inl ⟨p, hp, (hf p).2 hst, (hf p).1 ▸ hch⟩
    · exact .inl ⟨q, hp, hst, hch⟩
  · exact .inr (setTab_length ▸ hp)

theorem Waits.of_setPc {pc : Pc} (hpc : pc.holdsLock = false) (h : Waits (s.setPc a pc) chan i) :
    Waits s chan i := by
  refine h.imp_right (And.imp_right fun hp => ?_)
  simp only [World.setPc, update_apply] at hp
  split at hp
  · rw [hp] at hpc
    cases hpc
  · exact hp

theorem waits_step (h : Effect s e t) (hw : Waits t chan i) : Waits s chan i ∨
    e = .sleepBegin i chan ∧ s.pc (.proc i) = .owns false ∧ s.cond chan = false := by
  cases h with
  | take e a back => exact .inl (Waits.of_setPc (s := { s with lk := some a }) rfl hw)
  | drop e a pc hp hpc =>
    refine .inl (Waits.of_setPc (s := { s with lk := none }) ?_ hw)
    rcases hpc with rfl | rfl <;> rfl
  | cond => exact .inl hw
  | mark e a pc hp hpc =>
    refine .inl (hw.of_setPc ?_)
    rcases hpc with ⟨back, rfl⟩ | ⟨back, chan, rfl⟩ <;> rfl
  | pass e a back c k u hp hu =>
    have hw := hw.of_setPc rfl
    rcases scanSlot_cases hu with ⟨-, rfl⟩ | ⟨-, rfl⟩
    · exact .inl hw
    · exact .inl (hw.of_setTab fun p => ⟨(wakeup_keeps _ p).1, fun hs => ((wakeup_keeps _ p).2 hs).1⟩)
  | sleep j c hp hc =>
    rcases hw with hw | ⟨hlt, hw⟩
    · exact .inl (.inl hw)
    · simp only [World.setPc, update_apply] at hw
      split at hw
      · rename_i hij
        cases hij
        cases hw
        exact .inr ⟨rfl, hp, hc⟩
      · exact .inl (.inr ⟨hlt, hw⟩)
  | park e j c hp =>
    left
    rcases hw.of_setPc rfl with ⟨q, hq, hst, hch⟩ | hpc
    · obtain ⟨p, hp', ⟨rfl, rfl⟩ | ⟨-, rfl⟩⟩ := setTab_slot hq
      · exact .inr ⟨(List.getElem?_eq_some_iff.mp hp').1, hch ▸ hp⟩
      · exact .inl ⟨q, hp', hst, hch⟩
    · exact .inr (setTab_length ▸ hpc)
  | resume e j hp =>
    left
    rcases hw.of_setPc rfl with ⟨q, hq, hst, hch⟩ | hpc
    · obtain ⟨p, hp', ⟨rfl, rfl⟩ | ⟨-, rfl⟩⟩ := setTab_slot hq
      · cases hst
      · exact .inl ⟨q, hp', hst, hch⟩
    · exact .inr (setTab_length ▸ hpc)
  | slot e j f hf => exact .inl (hw.of_setTab hf)

theorem scanSlot_same {u : World} (h : scanSlot s a chan k = some u) : u.pc = s.pc ∧ u.lk = s.lk := by
  rcases scanSlot_cases h with ⟨-, rfl⟩ | ⟨-, rfl⟩ <;> exact ⟨rfl, rfl⟩

theorem held_step (hs : Sound s) (h : Effect s e t) {b : Agent} (hb : (t.pc b).holdsLk) :
    t.lk = some b := by
  -- an agent keeps `lk`
  have hkeep : ∀ {a : Agent} {pc : Pc}, (pc.holdsLk → (s.pc a).holdsLk) →
      (update s.pc a pc b).holdsLk → s.lk = some b := by
    intro a pc hpc hb
    rcases eq_or_ne b a with rfl | hne
    · rw [update_self] at hb
      exact hs.held (hpc hb)
    · rw [update_of_ne hne] at hb
      exact hs.held hb
  -- it lets it go, and nobody else was in a section of it
  have hdrop : ∀ {a : Agent} {pc : Pc}, (s.pc a).holdsLk → pc.holdsLk = false →
      ¬ (update s.pc a pc b).holdsLk := by
    intro a pc ha hpc hb
    rcases eq_or_ne b a with rfl | hne
    · rw [update_self, hpc] at hb
      cases hb
    · rw [update_of_ne hne] at hb
      have hlk := hs.held hb
      rw [hs.held ha] at hlk
      exact hne (Option.some.inj hlk).symm
  cases h with
  | take e a back hl hp =>
    rcases eq_or_ne b a with rfl | hne
    · rfl
    · simp only [World.setPc, update_of_ne hne] at hb
      rw [hs.held hb] at hl
      cases hl
  | drop e a pc hp hpc =>
    refine absurd hb (hdrop hp ?_)
    rcases hpc with rfl | rfl <;> rfl
  | cond => exact hs.held hb
  | mark e a pc hp hpc => exact hkeep (fun _ => hp) hb
  | pass e a back c k u hp hu =>
    obtain ⟨hpc, hlk⟩ := scanSlot_same hu
    simp only [World.setPc, hpc, hlk] at hb ⊢
    exact hkeep (fun _ => by rw [hp]; rfl) hb
  | sleep j c hp hc => exact absurd hb (hdrop (by rw [hp]; rfl) rfl)
  | park e j c hp =>
    refine hkeep ?_ hb
    exact nofun
  | resume e j hp =>
    refine hkeep ?_ hb
    exact nofun
  | slot e j f hf => exact hs.held hb

theorem slot_step (h : Effect s e t) (hq : t.tab.proc[i]? = some q) :
    ∃ p, s.tab.proc[i]? = some p ∧
      ((q.chan = p.chan ∧ (q.state = .sleeping → p.state = .sleeping) ∧
          (t.pc (.proc i) = .parked ↔ s.pc (.proc i) = .parked)) ∨
        t.pc (.proc i) = .parked ∨ q.state ≠ .sleeping ∧ q.chan = 0) := by
  have hpc : ∀ {a : Agent} {pc : Pc}, s.pc a ≠ .parked → pc ≠ .parked →
      (update s.pc a pc (.proc i) = .parked ↔ s.pc (.proc i) = .parked) := by
    intro a pc ha hne
    rcases eq_or_ne (.proc i) a with rfl | hia
    · rw [update_self]
      exact iff_of_false hne ha
    · rw [update_of_ne hia]
  have hholds : ∀ {a : Agent}, (s.pc a).holdsLk → s.pc a ≠ .parked := by
    intro a ha hp
    rw [hp] at ha
    cases ha
  cases h with
  | take e a back hl hp =>
    refine ⟨q, hq, .inl ⟨rfl, id, hpc ?_ nofun⟩⟩
    rcases hp with hp | hp <;> rw [hp] <;> exact nofun
  | drop e a pc hp hpc' =>
    refine ⟨q, hq, .inl ⟨rfl, id, hpc (hholds hp) ?_⟩⟩
    rcases hpc' with rfl | rfl <;> exact nofun
  | cond => exact ⟨q, hq, .inl ⟨rfl, id, Iff.rfl⟩⟩
  | mark e a pc hp hpc' =>
    refine ⟨q, hq, .inl ⟨rfl, id, hpc (hholds hp) ?_⟩⟩
    rcases hpc' with ⟨back, rfl⟩ | ⟨back, chan, rfl⟩ <;> exact nofun
  | pass e a back c k u hp hu =>
    have hiff : update s.pc a (.scanning back c (k + 1)) (.proc i) = .parked ↔
        s.pc (.proc i) = .parked := hpc (by rw [hp]; exact nofun) nofun
    rcases scanSlot_cases hu with ⟨-, rfl⟩ | ⟨-, rfl⟩
    · exact ⟨q, hq, .inl ⟨rfl, id, hiff⟩⟩
    · obtain ⟨p, hp', ⟨-, rfl⟩ | ⟨-, rfl⟩⟩ := setTab_slot hq
      · have hkeeps := wakeup_keeps c p
        exact ⟨p, hp', .inl ⟨hkeeps.1, fun hst => (hkeeps.2 hst).1, hiff⟩⟩
      · exact ⟨q, hp', .inl ⟨rfl, id, hiff⟩⟩
  | sleep j c hp hc =>
    exact ⟨q, hq, .inl ⟨rfl, id, hpc (by rw [hp]; exact nofun) nofun⟩⟩
  | park e j c hp =>
    obtain ⟨p, hp', ⟨rfl, rfl⟩ | ⟨hij, rfl⟩⟩ := setTab_slot hq
    · exact ⟨p, hp', .inr (.inl (update_self _ _ _))⟩
    · refine ⟨q, hp', .inl ⟨rfl, id, ?_⟩⟩
      simp only [World.setPc]
      rw [update_of_ne fun h => hij (Agent.proc.inj h)]
      rfl
  | resume e j hp =>
    obtain ⟨p, hp', ⟨rfl, rfl⟩ | ⟨hij, rfl⟩⟩ := setTab_slot hq
    · exact ⟨p, hp', .inr (.inr ⟨nofun, rfl⟩)⟩
    · refine ⟨q, hp', .inl ⟨rfl, id, ?_⟩⟩
      simp only [World.setPc]
      rw [update_of_ne fun h => hij (Agent.proc.inj h)]
      rfl
  | slot e j f hf =>
    obtain ⟨p, hp', ⟨-, rfl⟩ | ⟨-, rfl⟩⟩ := setTab_slot hq
    · exact ⟨p, hp', .inl ⟨(hf p).1, (hf p).2, Iff.rfl⟩⟩
    · exact ⟨q, hp', .inl ⟨rfl, id, Iff.rfl⟩⟩

/-- The scan stands where it stood, begins, or has passed one more slot, that does not wait. -/
theorem scanning_step (hs : Sound s) (h : Effect s e t) {back : Bool}
    (ht : t.pc a = .scanning back chan k) : s.pc a = .scanning back chan k ∨ k = 0 ∨
      ∃ m, k = m + 1 ∧ s.pc a = .scanning back chan m ∧ ¬ Waits t chan m := by
  have hother : ∀ {b : Agent} {pc : Pc}, (∀ back' c m, pc ≠ .scanning back' c m) →
      update s.pc b pc a = .scanning back chan k → s.pc a = .scanning back chan k := by
    intro b pc hpc hb
    rcases eq_or_ne a b with rfl | hab
    · rw [update_self] at hb
      exact absurd hb (hpc _ _ _)
    · rwa [update_of_ne hab] at hb
  cases h with
  | take e b back' => exact .inl (hother (by exact nofun) ht)
  | drop e b pc hp hpc =>
    refine .inl (hother (fun _ _ _ => ?_) ht)
    rcases hpc with rfl | rfl <;> exact nofun
  | cond | slot => exact .inl ht
  | sleep | park | resume => exact .inl (hother (by exact nofun) ht)
  | mark e b pc hp hpc =>
    rcases eq_or_ne a b with rfl | hab
    · simp only [World.setPc, update_self] at ht
      rcases hpc with ⟨back', rfl⟩ | ⟨back', c, rfl⟩
      · cases ht
      · cases ht
        exact .inr (.inl rfl)
    · simp only [World.setPc, update_of_ne hab] at ht
      exact .inl ht
  | pass e b back' c m u hp hu =>
    simp only [World.setPc, (scanSlot_same hu).1] at ht
    rcases eq_or_ne a b with rfl | hab
    · rw [update_self] at ht
      cases ht
      refine .inr (.inr ⟨m, rfl, hp, fun hw => ?_⟩)
      replace hw := hw.of_setPc rfl
      rcases scanSlot_cases hu with ⟨rfl, rfl⟩ | ⟨hl, rfl⟩
      · -- the scanning process itself is awake
        rcases hw with ⟨q, hq, hst, -⟩ | ⟨-, hpk⟩
        · have hparked := hs.asleep hq hst
          rw [hp] at hparked
          cases hparked
        · rw [hp] at hpk
          cases hpk
      · rcases hw with ⟨q, hq, hst, hch⟩ | ⟨-, hpk⟩
        · obtain ⟨p, -, ⟨-, rfl⟩ | ⟨hne, -⟩⟩ := setTab_slot hq
          · obtain ⟨hchan, hkeeps⟩ := wakeup_keeps chan p
            exact (hkeeps hst).2 (hchan ▸ hch)
          · exact hne rfl
        · rw [World.locked, show s.pc (.proc m) = _ from hpk] at hl
          cases hl
    · rw [update_of_ne hab] at ht
      exact .inl ht

theorem sound_step (hs : Sound s) (hstep : step s e = some t) : Sound t where
  held := held_step hs (effect_of_step hstep)
  asleep {i q} hq hst := by
    obtain ⟨p, hp, ⟨-, hsl, hpk⟩ | hpk | ⟨hne, -⟩⟩ := slot_step (effect_of_step hstep) hq
    · exact hpk.mpr (hs.asleep hp (hsl hst))
    · exact hpk
    · exact absurd hst hne
  chan {i q} hq hne := by
    obtain ⟨p, hp, ⟨hch, -, hpk⟩ | hpk | ⟨-, hch⟩⟩ := slot_step (effect_of_step hstep) hq
    · rw [hch]
      exact hs.chan hp fun h => hne (hpk.mpr h)
    · exact absurd hpk hne
    · exact hch
  passed {a back chan k} ht i hi hw := by
    -- the scanner has `lk`, so no process can begin to wait
    have hold : ∀ {m : ℕ}, s.pc a = .scanning back chan m → Waits s chan i := by
      intro m ha
      rcases waits_step (effect_of_step hstep) hw with hw | ⟨-, hp, -⟩
      · exact hw
      · have h1 := hs.held (a := a) (by rw [ha]; rfl)
        rw [hs.held (a := .proc i) (by rw [hp]; rfl)] at h1
        cases h1
        rw [hp] at ha
        cases ha
    rcases scanning_step hs (effect_of_step hstep) ht with ha | rfl | ⟨m, rfl, ha, hnot⟩
    · exact hs.passed ha i hi (hold ha)
    · exact absurd hi (Nat.not_lt_zero i)
    · rcases Nat.lt_succ_iff_lt_or_eq.mp hi with hlt | rfl
      · exact hs.passed ha i hlt (hold ha)
      · exact hnot hw

theorem Start.sound (h : Start s) : Sound s where
  held {a} ha := by
    rw [h.pc a] at ha
    cases ha
  asleep hp hst := absurd hst (h.awake _ (mem_of_getElem? hp)).1
  chan hp _ := (h.awake _ (mem_of_getElem? hp)).2
  passed {a _ _ _} ha := by
    rw [h.pc a] at ha
    cases ha

theorem run_sound {es : List Event} (h : Start s) (hr : run step s es = some t) : Sound t :=
  run_invariant (C := fun _ _ => True) h.sound (fun _ _ _ hs _ hst => sound_step hs hst)
    (along_true _ es) hr

theorem Waits.lt (h : Waits s chan i) : i < s.tab.proc.length := by
  rcases h with ⟨p, hp, -⟩ | ⟨hlt, -⟩
  · exact (List.getElem?_eq_some_iff.mp hp).1
  · exact hlt

theorem wakeDone_none (hs : Sound s) {back : Bool} (ha : s.pc a = .scanning back chan k)
    (h : step s (.wakeDone a) = some t) (i : ℕ) : ¬ Waits t chan i := by
  simp only [step, ha, ite_none_left_eq_some, Option.some.injEq] at h
  obtain ⟨hk, rfl⟩ := h
  intro hw
  have hw := hw.of_setPc rfl
  exact hs.passed ha i (Nat.lt_of_lt_of_le hw.lt (Nat.le_of_not_lt hk)) hw

theorem none_waits {es : List Event} (hnone : ∀ i, ¬ Waits s chan i)
    (hc : Along step (fun s _ => s.cond chan = true) s es) (hr : run step s es = some t) :
    ∀ i, ¬ Waits t chan i := by
  refine run_invariant (I := fun s => ∀ i, ¬ Waits s chan i) hnone ?_ hc hr
  intro u e v hu hcond hs i hw
  rcases waits_step (effect_of_step hs) hw with hw | ⟨-, -, hfalse⟩
  · exact hu i hw
  · rw [hcond] at hfalse
    cases hfalse

/-- No process sleeps on a channel whose condition has been true since a `wakeup` completed, and
`sleep` returns with `lk` held and no channel. -/
theorem no_lost_wakeup {s₀ : World} {es : List Event} (h₀ : Start s₀)
    (hr : run step s₀ es = some s) :
    (∀ a back chan k t fs u, s.pc a = .scanning back chan k → step s (.wakeDone a) = some t →
      run step t fs = some u → Along step (fun s _ => s.cond chan = true) t fs →
      ∀ p ∈ u.tab.proc, ¬ (p.state = .sleeping ∧ p.chan = chan)) ∧
    ∀ i t p, step s (.sleepReturn i) = some t → t.tab.proc[i]? = some p →
      t.lk = some (.proc i) ∧ p.chan = 0 := by
  have hs := run_sound h₀ hr
  constructor
  · intro a back chan k t fs u ha ht hu hc p hp hsl
    obtain ⟨i, hi⟩ := mem_iff_getElem?.mp hp
    exact none_waits (wakeDone_none hs ha ht) hc hu i (.inl ⟨p, hi, hsl⟩)
  · intro i t p ht hp
    have hst := sound_step hs ht
    simp only [step, guard_iff] at ht
    obtain ⟨-, rfl⟩ := ht
    refine ⟨rfl, hst.chan hp ?_⟩
    simp only [World.setPc, update_self]
    exact nofun

def twoProcs : World where
  tab := { proc := [{ state := .running, pid := 1 }, { state := .running, pid := 2 }] }
  cond := fun _ => false

/-- The first sleeps on channel 5; the second makes the condition true and scans the table. -/
def someRun : List Event :=
  [.acquire (.proc 0), .sleepBegin 0 5, .acquire (.proc 1), .setCond (.proc 1) 5 true,
    .wakeStart (.proc 1) 5, .park 0, .scan (.proc 1), .scan (.proc 1)]

theorem start_twoProcs : Start twoProcs := ⟨rfl, fun _ => rfl, by decide⟩

theorem no_lost_wakeup_someRun : ∃ s t, run step twoProcs someRun = some s ∧
    step s (.wakeDone (.proc 1)) = some t ∧ t.cond 5 = true ∧
    ∀ p ∈ t.tab.proc, ¬ (p.state = .sleeping ∧ p.chan = 5) := by
  have hs : ((run step twoProcs someRun).bind fun s => (step s (.wakeDone (.proc 1))).map fun t =>
      (s.pc (.proc 1), t.cond 5)) = some (.scanning false 5 2, true) := by decide
  obtain ⟨s, hs, h⟩ := bind_eq_some_iff.mp hs
  obtain ⟨t, ht, h⟩ := map_eq_some_iff.mp h
  obtain ⟨hpc, hcond⟩ := Prod.mk.inj h
  refine ⟨s, t, hs, ht, hcond, ?_⟩
  exact (no_lost_wakeup start_twoProcs hs).1 (.proc 1) false 5 2 t [] t hpc ht rfl trivial

end Xv6.Sched.Sleep
