import Xv6.Sched.Kill

/-! The life cycle of the processes, over the fields that tickets do not touch: which process is on
which CPU, who holds `wait_lock`, and who is the parent of whom. A step is one section under
`p->lock` or `wait_lock`. -/
namespace Xv6.Sched
open Function

/-- What a process is in the middle of between two sections. -/
inductive Task where
  | user
  | forking (np : ℕ)
  | forked (np : ℕ)
  | waiting
  | waitAgain
  | exiting (status : BitVec 32)
  deriving DecidableEq, Repr

def Task.child : Task → Option ℕ
  | .forking np | .forked np => some np
  | _ => none

def Task.holdsWait : Task → Bool
  | .waiting | .exiting _ => true
  | _ => false

/-- `lock i` is the CPU that holds the lock of slot `i` from one step to the next: its process is
inside `sched()`, and `scheduler()` has not yet cleared `c->proc`. -/
structure Life where
  core : ℕ → Core
  nextpid : BitVec 32
  cpuProc : ℕ → Option ℕ
  lock : ℕ → Option ℕ
  task : ℕ → Task
  waitLock : Option ℕ

/-- What a step shows of the family of processes, by pids. -/
inductive Act where
  | forked (parent child : BitVec 32)
  | exited (pid status : BitVec 32)
  | waited (parent child : BitVec 32) (status : Option (BitVec 32))
  deriving DecidableEq

def Act.subject : Act → BitVec 32
  | .forked _ q | .exited q _ | .waited _ q _ => q

def Core.freed : Core := ⟨.unused, 0, 0, 0, 0, none⟩

namespace Life
variable {a a' : Life} {c d i j np : ℕ} {o : Option Act}

def Runs (a : Life) (c i : ℕ) : Prop := a.cpuProc c = some i ∧ a.lock i = none

def setCore (a : Life) (i : ℕ) (k : Core) : Life := { a with core := update a.core i k }
def setCpu (a : Life) (c : ℕ) (p : Option ℕ) : Life :=
  { a with cpuProc := update a.cpuProc c p }
def setLock (a : Life) (i : ℕ) (l : Option ℕ) : Life :=
  { a with lock := update a.lock i l }
def setTask (a : Life) (i : ℕ) (t : Task) : Life := { a with task := update a.task i t }

@[simp] theorem setCore_self (a : Life) (i : ℕ) (k : Core) : (a.setCore i k).core i = k :=
  update_self _ _ _

@[simp] theorem setCore_setCore (a : Life) (i : ℕ) (k k' : Core) :
    (a.setCore i k).setCore i k' = a.setCore i k' := by
  simp only [setCore, update_idem]

structure SameProc (k k' : Core) : Prop where
  pid : k'.pid = k.pid
  parent : k'.parent = k.parent
  xstate : k'.xstate = k.xstate

inductive Step (a : Life) : Option Act → Life → Prop
  | idle : Step a none a
  | nudge (i : ℕ) (k : Core) (hl : a.lock i = none) (hk : SameProc (a.core i) k)
      (hs : k.state = (a.core i).state ∨ (a.core i).state = .sleeping ∧ k.state = .runnable) :
      Step a none (a.setCore i k)
  | dispatch (c i : ℕ) (k : Core) (hc : a.cpuProc c = none) (hl : a.lock i = none)
      (hr : (a.core i).state = .runnable) (hk : SameProc (a.core i) k) (hs : k.state = .running) :
      Step a none ((a.setCore i k).setCpu c (some i))
  | leave (c i : ℕ) (k : Core) (hr : a.Runs c i) (hk : SameProc (a.core i) k)
      (hs : k.state = .runnable ∨ k.state = .sleeping) :
      Step a none ((a.setCore i k).setLock i (some c))
  | swtch (c i : ℕ) (hl : a.lock i = some c) : Step a none ((a.setCpu c none).setLock i none)
  | alloc (c i np : ℕ) (hr : a.Runs c i) (ht : a.task i = .user) (hl : a.lock np = none)
      (hu : (a.core np).state = .unused) :
      Step a none ({ a with nextpid := a.nextpid + 1 }.setCore np
        { a.core np with pid := a.nextpid, state := .used } |>.setTask i (.forking np))
  | allocFail (np : ℕ) (hl : a.lock np = none) (hu : (a.core np).state = .unused) :
      Step a none ({ a with nextpid := a.nextpid + 1 }.setCore np .freed)
  | link (c i np : ℕ) (hr : a.Runs c i) (ht : a.task i = .forking np) (hw : a.waitLock = none) :
      Step a (some (.forked (a.core i).pid (a.core np).pid))
        (a.setCore np { a.core np with parent := some i } |>.setTask i (.forked np))
  | start (c i np : ℕ) (hr : a.Runs c i) (ht : a.task i = .forked np) (hl : a.lock np = none) :
      Step a none (a.setCore np { a.core np with state := .runnable } |>.setTask i .user)
  | orphan (c i : ℕ) (st : BitVec 32) (hr : a.Runs c i) (ht : a.task i = .user) (hi : i ≠ initproc)
      (hw : a.waitLock = none) :
      Step a none ({ a with
        core := fun j => if (a.core j).parent = some i then
          { a.core j with parent := some initproc } else a.core j
        waitLock := some i }.setTask i (.exiting st))
  | die (c i : ℕ) (st : BitVec 32) (hr : a.Runs c i) (ht : a.task i = .exiting st) :
      Step a (some (.exited (a.core i).pid st))
        ({ a with waitLock := none }.setCore i { a.core i with xstate := st, state := .zombie }
          |>.setLock i (some c) |>.setTask i .user)
  | lockWait (c i : ℕ) (hr : a.Runs c i) (ht : a.task i = .user ∨ a.task i = .waitAgain)
      (hw : a.waitLock = none) : Step a none ({ a with waitLock := some i }.setTask i .waiting)
  | unlockWait (c i : ℕ) (hr : a.Runs c i) (ht : a.task i = .waiting) :
      Step a none ({ a with waitLock := none }.setTask i .user)
  | leaveWait (c i : ℕ) (k : Core) (hr : a.Runs c i) (ht : a.task i = .waiting) (hk : SameProc (a.core i) k)
      (hs : k.state = .sleeping) :
      Step a none ({ a with waitLock := none }.setCore i k |>.setLock i (some c)
        |>.setTask i .waitAgain)
  | reap (c i np : ℕ) (st : Option (BitVec 32)) (hr : a.Runs c i) (ht : a.task i = .waiting) (hl : a.lock np = none)
      (hp : (a.core np).parent = some i) (hz : (a.core np).state = .zombie)
      (hst : ∀ v ∈ st, v = (a.core np).xstate) :
      Step a (some (.waited (a.core i).pid (a.core np).pid st))
        ({ a with waitLock := none }.setCore np .freed |>.setTask i .user)

structure Placed (a : Life) : Prop where
  runs : ∀ {c i}, a.Runs c i → (a.core i).state = .running
  locked : ∀ {c i}, a.lock i = some c → a.cpuProc c = some i
  state : ∀ {c i}, a.lock i = some c → (a.core i).state = .runnable ∨
    (a.core i).state = .sleeping ∨ (a.core i).state = .zombie
  one : ∀ {c d i}, a.cpuProc c = some i → a.cpuProc d = some i → c = d
  placed : ∀ {i}, (a.core i).state = .running → ∃ c, a.cpuProc c = some i
  used : ∀ {i np}, (a.task i).child = some np → (a.core np).state = .used
  owner : ∀ {i j np}, (a.task i).child = some np → (a.task j).child = some np → i = j

namespace Placed

theorem congr (h : Placed a) (hcore : ∀ j, (a'.core j).state = (a.core j).state)
    (hcpu : a'.cpuProc = a.cpuProc) (hlock : a'.lock = a.lock) (htask : a'.task = a.task) :
    Placed a' := by
  constructor <;> simp only [Runs, hcore, hcpu, hlock, htask]
  exacts [h.runs, h.locked, h.state, h.one, h.placed, h.used, h.owner]

theorem setCore {k : Core} (h : Placed a) (hl : a.lock i = none)
    (hrun : k.state = .running ↔ (a.core i).state = .running)
    (hused : (a.core i).state = .used → k.state = .used ∨ ∀ j, (a.task j).child ≠ some i) :
    Placed (a.setCore i k) := by
  have hstate : ∀ j, ((a.setCore i k).core j).state = .running ↔ (a.core j).state = .running := by
    intro j
    rcases eq_or_ne j i with rfl | hj
    · simpa only [Life.setCore, update_self] using hrun
    · simp only [Life.setCore, update_of_ne hj]
  have hother : ∀ {c j}, a.lock j = some c → (a.setCore i k).core j = a.core j := by
    rintro c j hj
    refine update_of_ne (fun hji => ?_) _ _
    rw [hji, hl] at hj
    cases hj
  refine ⟨fun hr => (hstate _).mpr (h.runs hr), h.locked, fun hj => ?_, h.one,
    fun hr => h.placed ((hstate _).mp hr), fun {j np} hc => ?_, h.owner⟩
  · rw [hother hj]
    exact h.state hj
  · have hnp := h.used hc
    rcases eq_or_ne np i with rfl | hne
    · simpa only [Life.setCore, update_self] using
        (hused hnp).resolve_right fun hno => hno j hc
    · simpa only [Life.setCore, update_of_ne hne] using hnp

theorem setTask {t : Task} (h : Placed a) (ht : ∀ np, t.child = some np →
    (a.core np).state = .used ∧ ∀ j, (a.task j).child = some np → j = i) :
    Placed (a.setTask i t) := by
  have hcases : ∀ {j np}, ((a.setTask i t).task j).child = some np →
      j = i ∧ t.child = some np ∨ j ≠ i ∧ (a.task j).child = some np := by
    intro j np hj
    rcases eq_or_ne j i with rfl | hne
    · simp only [Life.setTask, update_self] at hj
      exact .inl ⟨rfl, hj⟩
    · simp only [Life.setTask, update_of_ne hne] at hj
      exact .inr ⟨hne, hj⟩
  refine ⟨h.runs, h.locked, h.state, h.one, h.placed, fun hj => ?_, fun hj hj' => ?_⟩
  · rcases hcases hj with ⟨-, hc⟩ | ⟨-, hc⟩
    · exact (ht _ hc).1
    · exact h.used hc
  · rcases hcases hj with ⟨rfl, hc⟩ | ⟨-, hc⟩ <;> rcases hcases hj' with ⟨rfl, hc'⟩ | ⟨-, hc'⟩
    · rfl
    · exact ((ht _ hc).2 _ hc').symm
    · exact (ht _ hc').2 _ hc
    · exact h.owner hc hc'

theorem park {k : Core} (h : Placed a) (hr : a.Runs c i)
    (hk : k.state = .runnable ∨ k.state = .sleeping ∨ k.state = .zombie) :
    Placed ((a.setCore i k).setLock i (some c)) := by
  have hrunning := h.runs hr
  have hne : k.state ≠ .running ∧ k.state ≠ .used := by
    rcases hk with hk | hk | hk <;> rw [hk] <;> decide
  constructor <;> simp only [Runs, Life.setCore, setLock, update_apply]
  · rintro d j ⟨hd, hl⟩
    split at hl
    · cases hl
    · rename_i hji
      rw [if_neg hji]
      exact h.runs ⟨hd, hl⟩
  · intro d j hl
    split at hl
    · rename_i hji
      cases hl
      rw [hji]
      exact hr.1
    · exact h.locked hl
  · intro d j hl
    split at hl
    · rename_i hji
      rw [if_pos hji]
      exact hk
    · rename_i hji
      rw [if_neg hji]
      exact h.state hl
  · exact h.one
  · intro j hj
    split at hj
    · exact absurd hj hne.1
    · exact h.placed hj
  · intro j np hc
    have hu := h.used hc
    rw [if_neg]
    · exact hu
    · rintro rfl
      rw [hrunning] at hu
      cases hu
  · exact h.owner

theorem dispatch {k : Core} (h : Placed a) (hc : a.cpuProc c = none) (hl : a.lock i = none)
    (hr : (a.core i).state = .runnable) (hk : k.state = .running) :
    Placed ((a.setCore i k).setCpu c (some i)) := by
  -- no CPU has the process: one that does would run it
  have hfree : ∀ d, a.cpuProc d ≠ some i := by
    intro d hd
    have hrun := h.runs ⟨hd, hl⟩
    rw [hr] at hrun
    cases hrun
  have hother : ∀ {d j}, a.cpuProc d = some j → d ≠ c ∧ j ≠ i := by
    refine fun {d j} hd => ⟨fun hdc => ?_, fun hji => hfree d (hji ▸ hd)⟩
    rw [hdc, hc] at hd
    cases hd
  constructor <;> simp only [Runs, Life.setCore, setCpu, update_apply]
  · rintro d j ⟨hd, hlj⟩
    split at hd
    · cases hd
      rw [if_pos rfl]
      exact hk
    · rw [if_neg (hother hd).2]
      exact h.runs ⟨hd, hlj⟩
  · intro d j hlj
    have hd := h.locked hlj
    rw [if_neg (hother hd).1]
    exact hd
  · intro d j hlj
    rw [if_neg (hother (h.locked hlj)).2]
    exact h.state hlj
  · intro d d' j hd hd'
    split at hd <;> split at hd'
    · rename_i h1 h2
      rw [h1, h2]
    · cases hd
      exact absurd hd' (hfree d')
    · cases hd'
      exact absurd hd (hfree d)
    · exact h.one hd hd'
  · intro j hj
    rcases eq_or_ne j i with rfl | hji
    · exact ⟨c, if_pos rfl⟩
    · rw [if_neg hji] at hj
      obtain ⟨d, hd⟩ := h.placed hj
      exact ⟨d, by rw [if_neg (hother hd).1]; exact hd⟩
  · intro j np hch
    have hu := h.used hch
    rw [if_neg]
    · exact hu
    · rintro rfl
      rw [hr] at hu
      cases hu
  · exact h.owner

theorem swtch (h : Placed a) (hl : a.lock i = some c) :
    Placed ((a.setCpu c none).setLock i none) := by
  have hci := h.locked hl
  have hother : ∀ {d j}, a.cpuProc d = some j → j ≠ i → d ≠ c := by
    rintro d j hd hji rfl
    rw [hci, Option.some.injEq] at hd
    exact hji hd.symm
  constructor <;> simp only [Runs, setCpu, setLock, update_apply]
  · rintro d j ⟨hd, hlj⟩
    split at hd
    · cases hd
    · rename_i hdc
      rw [if_neg] at hlj
      · exact h.runs ⟨hd, hlj⟩
      · rintro rfl
        exact hdc (h.one hd hci)
  · intro d j hlj
    split at hlj
    · cases hlj
    · rename_i hji
      have hd := h.locked hlj
      rw [if_neg (hother hd hji)]
      exact hd
  · intro d j hlj
    split at hlj
    · cases hlj
    · exact h.state hlj
  · intro d d' j hd hd'
    split at hd
    · cases hd
    · split at hd'
      · cases hd'
      · exact h.one hd hd'
  · intro j hj
    obtain ⟨d, hd⟩ := h.placed hj
    refine ⟨d, ?_⟩
    rw [if_neg (hother hd ?_)]
    · exact hd
    · rintro rfl
      rcases h.state hl with hs | hs | hs <;> rw [hs] at hj <;> cases hj
  · exact h.used
  · exact h.owner

end Placed

theorem placed_step (h : Placed a) (hs : Step a o a') : Placed a' := by
  have hnone : ∀ {b : Life} {i : ℕ} {t : Task}, Placed b → t.child = none →
      Placed (b.setTask i t) := by
    intro b i t hb ht
    refine hb.setTask fun np hnp => ?_
    rw [ht] at hnp
    cases hnp
  cases hs with
  | idle => exact h
  | nudge i k hl hk hs =>
    refine h.setCore hl ?_ fun hu => ?_
    · rcases hs with hs | ⟨hs, hs'⟩
      · rw [hs]
      · simp [hs, hs']
    · rcases hs with hs | ⟨hs, -⟩
      · exact .inl (hs.trans hu)
      · rw [hs] at hu
        cases hu
  | dispatch c i k hc hl hr hk hs => exact h.dispatch hc hl hr hs
  | leave c i k hr hk hs => exact h.park hr (hs.imp_right .inl)
  | swtch c i hl => exact h.swtch hl
  | alloc c i np hr ht hl hu =>
    have hnew : ∀ j, (a.task j).child ≠ some np := by
      intro j hj
      have hused := h.used hj
      rw [hu] at hused
      cases hused
    refine Placed.setTask (Placed.congr (a := a.setCore np _) (h.setCore hl ?_ fun _ => .inl rfl)
      (fun _ => rfl) rfl rfl rfl) fun m hm => ?_
    · simp [hu]
    · cases hm
      exact ⟨by simp only [setCore, update_self], fun j hj => absurd hj (hnew j)⟩
  | allocFail np hl hu =>
    refine Placed.congr (a := a.setCore np _) (h.setCore hl ?_ ?_) (fun _ => rfl) rfl rfl rfl
    · simp [Core.freed, hu]
    · simp [hu]
  | link c i np hr ht hw =>
    have hch : (a.task i).child = some np := by rw [ht]; rfl
    have hl : a.lock np = none := by
      cases hlock : a.lock np with
      | none => rfl
      | some d => rcases h.state hlock with hs | hs | hs <;> rw [h.used hch] at hs <;> cases hs
    refine Placed.setTask (h.setCore hl Iff.rfl .inl) fun m hm => ?_
    cases hm
    refine ⟨?_, fun j hj => h.owner hj hch⟩
    simpa only [setCore, update_self] using h.used hch
  | start c i np hr ht hl =>
    -- the child is let go first: nobody refers to it any more
    have hch : (a.task i).child = some np := by rw [ht]; rfl
    refine Placed.setCore (a := a.setTask i .user) (hnone h rfl) hl ?_ fun _ => .inr fun j hj => ?_
    · simp [setTask, h.used hch]
    · rcases eq_or_ne j i with rfl | hji
      · simp only [setTask, update_self] at hj
        cases hj
      · simp only [setTask, update_of_ne hji] at hj
        exact hji (h.owner hj hch)
  | orphan c i st hr ht hi hw =>
    refine hnone (h.congr (fun j => ?_) rfl rfl rfl) rfl
    dsimp only
    split <;> rfl
  | die c i st hr ht =>
    exact hnone (Placed.congr (h.park hr (.inr (.inr rfl))) (fun _ => rfl) rfl rfl rfl) rfl
  | lockWait c i hr ht hw => exact hnone (h.congr (fun _ => rfl) rfl rfl rfl) rfl
  | unlockWait c i hr ht => exact hnone (h.congr (fun _ => rfl) rfl rfl rfl) rfl
  | leaveWait c i k hr ht hk hs =>
    exact hnone (Placed.congr (h.park hr (.inr (.inl hs))) (fun _ => rfl) rfl rfl rfl) rfl
  | reap c i np st hr ht hl hp hz hst =>
    refine hnone (Placed.congr (a := a.setCore np _) (h.setCore hl ?_ ?_) (fun _ => rfl) rfl rfl rfl)
      rfl
    · simp [Core.freed, hz]
    · simp [hz]

theorem Placed.off (h : Placed a) (hl : a.lock i = none) (hr : (a.core i).state ≠ .running) (c : ℕ) :
    a.cpuProc c ≠ some i :=
  fun hc => hr (h.runs ⟨hc, hl⟩)

end Life
end Xv6.Sched
