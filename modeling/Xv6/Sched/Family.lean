import Xv6.Sched.Life

/-! Parents and children along a run: nobody is lost between `exit` and `wait`. -/
namespace Xv6.Sched.Life
open Function List
variable {a a' : Life} {c i j np p : ℕ} {o : Option Act} {hist : List Act} {q v w : BitVec 32}

def Alive (a : Life) (i : ℕ) : Prop :=
  (a.core i).state ≠ .unused ∧ (a.core i).state ≠ .used ∧ (a.core i).state ≠ .zombie

def initPid : BitVec 32 := 1

/-- One `wait` has returned the process `q`, which exited with `v`: the `wait` of the process that
forked it, or of `init` if that one had exited by then. -/
def Reaped (h : List Act) (q v : BitVec 32) : Prop :=
  ∃ h₁ h₂ p w st, h = h₁ ++ .waited w q st :: h₂ ∧ .exited q v ∈ h₁ ∧ (∀ x ∈ st, x = v) ∧
    (∀ w' st', .waited w' q st' ∉ h₁ ∧ .waited w' q st' ∉ h₂) ∧
    .forked p q ∈ h₁ ∧ (∀ p', .forked p' q ∈ h → p' = p) ∧
    ((∃ u, .exited p u ∈ h₁) ∧ w = initPid ∨ (∀ u, .exited p u ∉ h₁) ∧ w = p)

structure Kin (a : Life) : Prop where
  alive : ∀ {j p}, (a.core j).parent = some p → a.Alive p
  adopted : ∀ {j}, (a.core j).state ≠ .unused → (a.core j).state ≠ .used → j ≠ initproc →
    (a.core j).parent ≠ none
  orphan : ∀ {j}, (a.core j).state = .unused → (a.core j).parent = none
  init : a.Alive initproc
  busy : ∀ {i}, a.task i ≠ .user → a.Alive i
  linked : ∀ {i np}, a.task i = .forked np → (a.core np).parent = some i
  unlinked : ∀ {i np}, a.task i = .forking np → (a.core np).parent = none
  leaving : ∀ {i st}, a.task i = .exiting st → i ≠ initproc ∧ ∀ j, (a.core j).parent ≠ some i
  holds : ∀ {i}, (a.task i).holdsWait → a.waitLock = some i

structure Pids (a : Life) (h : List Act) : Prop where
  below : ∀ {j}, (a.core j).state ≠ .unused → (a.core j).pid.toNat < a.nextpid.toNat
  one : ∀ {i j}, (a.core i).state ≠ .unused → (a.core j).state ≠ .unused →
    (a.core i).pid = (a.core j).pid → i = j
  init : (a.core initproc).pid = initPid
  named : ∀ {x}, x ∈ h → x.subject.toNat < a.nextpid.toNat

structure Story (a : Life) (h : List Act) : Prop where
  forked : ∀ {j r}, (a.core j).parent = some r → ∃ p, .forked p (a.core j).pid ∈ h ∧
    ((a.core r).pid = p ∧ (∀ v, .exited p v ∉ h) ∨ r = initproc ∧ ((∃ v, .exited p v ∈ h) ∨
      ∃ i st, (a.core i).pid = p ∧ a.task i = .exiting st))
  unforked : ∀ {j p}, (a.core j).state ≠ .unused → (a.core j).parent = none →
    .forked p (a.core j).pid ∉ h
  once : ∀ {p p' q}, .forked p q ∈ h → .forked p' q ∈ h → p = p'
  living : ∀ {j v}, (a.core j).state ≠ .unused → (a.core j).state ≠ .zombie →
    .exited (a.core j).pid v ∉ h
  zombie : ∀ {j}, (a.core j).state = .zombie → .exited (a.core j).pid (a.core j).xstate ∈ h
  gone : ∀ {j w q st}, .waited w q st ∈ h → (a.core j).state ≠ .unused → (a.core j).pid ≠ q
  ended : ∀ {q v}, .exited q v ∈ h →
    (∃ j, (a.core j).state = .zombie ∧ (a.core j).pid = q ∧ (a.core j).xstate = v) ∨ Reaped h q v
  waits : ∀ {w q st}, .waited w q st ∈ h → ∃ v, .exited q v ∈ h

theorem Pids.append {xs : List Act} (hp : Pids a hist)
    (hpid : ∀ j, (a'.core j).pid = (a.core j).pid)
    (hu : ∀ {j}, (a'.core j).state ≠ .unused → (a.core j).state ≠ .unused)
    (hn : a'.nextpid = a.nextpid) (hx : ∀ x ∈ xs, x.subject.toNat < a.nextpid.toNat) :
    Pids a' (hist ++ xs) where
  below {j} hj := by
    rw [hpid, hn]
    exact hp.below (hu hj)
  one {i j} hi hj heq := by
    rw [hpid, hpid] at heq
    exact hp.one (hu hi) (hu hj) heq
  init := (hpid initproc).trans hp.init
  named {x} hmem := by
    rw [hn]
    exact (mem_append.mp hmem).elim hp.named (hx x)

theorem Pids.update {k : Core} {x : Act} (hp : Pids a hist)
    (hcore : a'.core = update a.core i k) (hpid : k.pid = (a.core i).pid)
    (hu : (a.core i).state ≠ .unused) (hn : a'.nextpid = a.nextpid)
    (hx : x.subject = (a.core i).pid) : Pids a' (hist ++ [x]) := by
  refine hp.append (fun j => ?_) (fun {j} hj => ?_) hn fun y hy => ?_
  · rw [hcore]
    rcases eq_or_ne j i with rfl | hne
    · rw [update_self, hpid]
    · rw [update_of_ne hne]
  · rcases eq_or_ne j i with rfl | hne
    · exact hu
    · rwa [hcore, update_of_ne hne] at hj
  · rw [mem_singleton.mp hy, hx]
    exact hp.below hu

structure SameFamily (a a' : Life) : Prop where
  proc : ∀ j, SameProc (a.core j) (a'.core j)
  unused : ∀ {j}, (a'.core j).state = .unused ↔ (a.core j).state = .unused
  zombie : ∀ {j}, (a'.core j).state = .zombie ↔ (a.core j).state = .zombie
  used : ∀ {j}, (a'.core j).state = .used → (a.core j).state = .used
  started : ∀ {j}, (a.core j).state = .used → (a'.core j).state ≠ .used →
    (a.core j).parent ≠ none
  task : ∀ i, a'.task i = a.task i ∨
    (a'.task i = .user ∨ a'.task i = .waiting ∨ a'.task i = .waitAgain) ∧ a.Alive i
  leaving : ∀ {i st}, a.task i = .exiting st → a'.task i = .exiting st
  nextpid : a'.nextpid = a.nextpid

namespace SameFamily

theorem alive (h : SameFamily a a') (hi : a.Alive i) : a'.Alive i :=
  ⟨fun hu => hi.1 (h.unused.mp hu), fun hu => hi.2.1 (h.used hu), fun hz => hi.2.2 (h.zombie.mp hz)⟩

theorem kin (h : SameFamily a a') (hk : Kin a)
    (holds : ∀ {i}, (a'.task i).holdsWait → a'.waitLock = some i) : Kin a' where
  alive {j p} hp := h.alive (hk.alive ((h.proc j).parent ▸ hp))
  adopted {j} hu hused hj := by
    rw [(h.proc j).parent]
    by_cases hs : (a.core j).state = .used
    · exact h.started hs hused
    · exact hk.adopted (fun h0 => hu (h.unused.mpr h0)) hs hj
  orphan {j} hu := by
    rw [(h.proc j).parent]
    exact hk.orphan (h.unused.mp hu)
  init := h.alive hk.init
  busy {i} ht := by
    rcases h.task i with hti | ⟨-, hi⟩
    · exact h.alive (hk.busy (hti ▸ ht))
    · exact h.alive hi
  linked {i np} ht := by
    rw [(h.proc np).parent]
    rcases h.task i with hti | ⟨hti | hti | hti, -⟩ <;> rw [hti] at ht
    · exact hk.linked ht
    all_goals cases ht
  unlinked {i np} ht := by
    rw [(h.proc np).parent]
    rcases h.task i with hti | ⟨hti | hti | hti, -⟩ <;> rw [hti] at ht
    · exact hk.unlinked ht
    all_goals cases ht
  leaving {i st} ht := by
    rcases h.task i with hti | ⟨hti | hti | hti, -⟩ <;> rw [hti] at ht
    · refine ⟨(hk.leaving ht).1, fun j => ?_⟩
      rw [(h.proc j).parent]
      exact (hk.leaving ht).2 j
    all_goals cases ht
  holds := holds

theorem story (h : SameFamily a a') (hs : Story a hist) : Story a' hist where
  forked {j r} hp := by
    rw [(h.proc j).parent] at hp
    rw [(h.proc j).pid, (h.proc r).pid]
    obtain ⟨p, hf, hr⟩ := hs.forked hp
    refine ⟨p, hf, hr.imp_right (And.imp_right (Or.imp_right ?_))⟩
    rintro ⟨i, st, hi, ht⟩
    exact ⟨i, st, (h.proc i).pid.trans hi, h.leaving ht⟩
  unforked {j p} hu hp := by
    rw [(h.proc j).pid]
    exact hs.unforked (fun h0 => hu (h.unused.mpr h0)) ((h.proc j).parent ▸ hp)
  once := hs.once
  living {j v} hu hz := by
    rw [(h.proc j).pid]
    exact hs.living (fun h0 => hu (h.unused.mpr h0)) fun h0 => hz (h.zombie.mpr h0)
  zombie {j} hz := by
    rw [(h.proc j).pid, (h.proc j).xstate]
    exact hs.zombie (h.zombie.mp hz)
  gone {j w q st} hw hu := by
    rw [(h.proc j).pid]
    exact hs.gone hw fun h0 => hu (h.unused.mpr h0)
  ended {q v} he := by
    refine (hs.ended he).imp_left ?_
    rintro ⟨j, hz, hq, hv⟩
    exact ⟨j, h.zombie.mpr hz, (h.proc j).pid.trans hq, (h.proc j).xstate.trans hv⟩
  waits := hs.waits

end SameFamily

theorem sameFamily_refl (a : Life) : SameFamily a a where
  proc _ := ⟨rfl, rfl, rfl⟩
  unused := Iff.rfl
  zombie := Iff.rfl
  used := id
  started hu hne := absurd hu hne
  task _ := .inl rfl
  leaving := id
  nextpid := rfl

theorem SameFamily.setCore {k : Core} (h : SameFamily a a') (hi : a'.core i = a.core i)
    (hk : SameProc (a.core i) k)
    (hs : k.state = (a.core i).state ∨ (k.state ≠ .unused ∧ k.state ≠ .used ∧ k.state ≠ .zombie) ∧
      (a.Alive i ∨ (a.core i).state = .used ∧ (a.core i).parent ≠ none)) :
    SameFamily a (a'.setCore i k) := by
  have hcases : ∀ j, (a'.setCore i k).core j = a'.core j ∨ j = i ∧ (a'.setCore i k).core j = k := by
    intro j
    rcases eq_or_ne j i with rfl | hne
    · exact .inr ⟨rfl, update_self _ _ _⟩
    · exact .inl (update_of_ne hne _ _)
  have hstate : (k.state = .unused ↔ (a.core i).state = .unused) ∧
      (k.state = .zombie ↔ (a.core i).state = .zombie) ∧
      (k.state = .used → (a.core i).state = .used) ∧
      ((a.core i).state = .used → k.state ≠ .used → (a.core i).parent ≠ none) := by
    rcases hs with hs | ⟨⟨h1, h2, h3⟩, hi | ⟨hu, hp⟩⟩
    · rw [hs]
      exact ⟨Iff.rfl, Iff.rfl, id, fun hu hne => absurd hu hne⟩
    · exact ⟨iff_of_false h1 hi.1, iff_of_false h3 hi.2.2, fun hu => absurd hu h2,
        fun hu => absurd hu hi.2.1⟩
    · rw [hu]
      exact ⟨iff_of_false h1 nofun, iff_of_false h3 nofun, fun _ => rfl, fun _ _ => hp⟩
  refine ⟨fun j => ?_, fun {j} => ?_, fun {j} => ?_, fun {j} => ?_, fun {j} => ?_, h.task, h.leaving,
    h.nextpid⟩ <;> rcases hcases j with hj | ⟨rfl, hj⟩ <;> rw [hj]
  · exact h.proc j
  · exact hk
  · exact h.unused
  · exact hstate.1
  · exact h.zombie
  · exact hstate.2.1
  · exact h.used
  · exact hstate.2.2.1
  · exact h.started
  · exact hstate.2.2.2

theorem SameFamily.setTask {t : Task} (h : SameFamily a a') (hi : a.Alive i)
    (ht : t = .user ∨ t = .waiting ∨ t = .waitAgain) (hold : ∀ st, a.task i ≠ .exiting st) :
    SameFamily a (a'.setTask i t) := by
  refine ⟨h.proc, h.unused, h.zombie, h.used, h.started, fun j => ?_, fun {j st} hj => ?_, h.nextpid⟩
  · rcases eq_or_ne j i with rfl | hne
    · simpa only [Life.setTask, update_self] using .inr ⟨ht, hi⟩
    · simpa only [Life.setTask, update_of_ne hne] using h.task j
  · rcases eq_or_ne j i with rfl | hne
    · exact absurd hj (hold st)
    · simpa only [Life.setTask, update_of_ne hne] using h.leaving hj

theorem SameFamily.congr {b : Life} (h : SameFamily a a') (hcore : b.core = a'.core)
    (htask : b.task = a'.task) (hpid : b.nextpid = a'.nextpid) : SameFamily a b := by
  obtain ⟨h1, h2, h3, h4, h5, h6, h7, h8⟩ := h
  constructor <;> simp only [hcore, htask, hpid] <;> assumption

theorem alive_of_runs (hpl : Placed a) (hr : a.Runs c i) : a.Alive i := by
  rw [Alive, hpl.runs hr]
  exact ⟨nofun, nofun, nofun⟩

structure Recycles (a a' : Life) (np : ℕ) : Prop where
  old : (a.core np).state = .unused ∨ (a.core np).state = .zombie
  new : (a'.core np).state = .unused ∨ (a'.core np).state = .used
  parent : (a'.core np).parent = none
  other : ∀ {j}, j ≠ np → a'.core j = a.core j
  task : ∀ i, a'.task i = a.task i ∨
    (a'.task i = .user ∨ a'.task i = .forking np) ∧ a.Alive i ∧ ∀ st, a.task i ≠ .exiting st

theorem recycles_setCore (b : Life) {k : Core} (hcore : b.core = a.core) (hb : b.task = a.task)
    (hold : (a.core np).state = .unused ∨ (a.core np).state = .zombie)
    (hnew : k.state = .unused ∨ k.state = .used) (hpar : k.parent = none) :
    Recycles a (b.setCore np k) np := by
  have hself := setCore_self b np k
  refine ⟨hold, ?_, ?_, fun hj => ?_, fun i => .inl (congrFun hb i)⟩
  · rwa [hself]
  · rwa [hself]
  · rw [← hcore]
    exact update_of_ne hj _ _

theorem Recycles.setTask {t : Task} (h : Recycles a a' np) (ht : t = .user ∨ t = .forking np)
    (hi : a.Alive i) (hne : ∀ st, a.task i ≠ .exiting st) : Recycles a (a'.setTask i t) np := by
  refine ⟨h.old, h.new, h.parent, h.other, fun j => ?_⟩
  rcases eq_or_ne j i with rfl | hji
  · simpa only [Life.setTask, update_self] using .inr ⟨ht, hi, hne⟩
  · simpa only [Life.setTask, update_of_ne hji] using h.task j

namespace Recycles

theorem ne_of_alive (h : Recycles a a' np) (hi : a.Alive i) : i ≠ np := by
  rintro rfl
  rcases h.old with ho | ho
  · exact hi.1 ho
  · exact hi.2.2 ho

theorem alive (h : Recycles a a' np) (hi : a.Alive i) : a'.Alive i := by
  rw [Alive, h.other (h.ne_of_alive hi)]
  exact hi

theorem ne_of_parent (h : Recycles a a' np) (hp : (a'.core j).parent = some p) : j ≠ np := by
  rintro rfl
  rw [h.parent] at hp
  cases hp

theorem leaving (h : Recycles a a' np) {st : BitVec 32} :
    a'.task i = .exiting st ↔ a.task i = .exiting st := by
  rcases h.task i with ht | ⟨ht | ht, -, hne⟩ <;> rw [ht]
  · exact iff_of_false nofun (hne st)
  · exact iff_of_false nofun (hne st)

theorem kin (h : Recycles a a' np) (hpl : Placed a) (hk : Kin a)
    (holds : ∀ {i}, (a'.task i).holdsWait → a'.waitLock = some i) : Kin a' where
  alive {j p} hp := by
    rw [h.other (h.ne_of_parent hp)] at hp
    exact h.alive (hk.alive hp)
  adopted {j} hu hused hj := by
    have hne : j ≠ np := by
      rintro rfl
      exact h.new.elim hu hused
    rw [h.other hne] at hu hused ⊢
    exact hk.adopted hu hused hj
  orphan {j} hu := by
    rcases eq_or_ne j np with rfl | hne
    · exact h.parent
    · rw [h.other hne] at hu ⊢
      exact hk.orphan hu
  init := h.alive hk.init
  busy {i} ht := by
    rcases h.task i with hti | ⟨-, hi, -⟩
    · exact h.alive (hk.busy (hti ▸ ht))
    · exact h.alive hi
  linked {i m} ht := by
    rcases h.task i with hti | ⟨hti | hti, -⟩ <;> rw [hti] at ht
    · have hm : (a.core m).state = .used := hpl.used (by rw [ht]; rfl)
      have hne : m ≠ np := by
        rintro rfl
        rcases h.old with ho | ho <;> rw [hm] at ho <;> cases ho
      rw [h.other hne]
      exact hk.linked ht
    all_goals cases ht
  unlinked {i m} ht := by
    rcases eq_or_ne m np with rfl | hne
    · exact h.parent
    · rw [h.other hne]
      rcases h.task i with hti | ⟨hti | hti, -⟩ <;> rw [hti] at ht
      · exact hk.unlinked ht
      · cases ht
      · cases ht
        exact absurd rfl hne
  leaving {i st} ht := by
    have ht := h.leaving.mp ht
    refine ⟨(hk.leaving ht).1, fun j hj => ?_⟩
    rw [h.other (h.ne_of_parent hj)] at hj
    exact (hk.leaving ht).2 j hj
  holds := holds

theorem forked {hist hist' : List Act} (h : Recycles a a' np) (hk : Kin a) (hs : Story a hist)
    (hsub : ∀ {x}, x ∈ hist → x ∈ hist') (hexit : ∀ {q v}, .exited q v ∈ hist' → .exited q v ∈ hist)
    {j r : ℕ} (hp : (a'.core j).parent = some r) : ∃ p, .forked p (a'.core j).pid ∈ hist' ∧
      ((a'.core r).pid = p ∧ (∀ v, .exited p v ∉ hist') ∨ r = initproc ∧
        ((∃ v, .exited p v ∈ hist') ∨ ∃ i st, (a'.core i).pid = p ∧ a'.task i = .exiting st)) := by
  have hj := h.other (h.ne_of_parent hp)
  rw [hj] at hp ⊢
  rw [h.other (h.ne_of_alive (hk.alive hp))]
  obtain ⟨p, hf, hcase⟩ := hs.forked hp
  refine ⟨p, hsub hf, hcase.imp (And.imp_right fun hno v hv => hno v (hexit hv))
    (And.imp_right (Or.imp (Exists.imp fun v => hsub) ?_))⟩
  rintro ⟨i, st, hi, ht⟩
  have hal : a.Alive i := hk.busy (by rw [ht]; exact nofun)
  exact ⟨i, st, (h.other (h.ne_of_alive hal)).symm ▸ hi, h.leaving.mpr ht⟩

end Recycles

theorem toNat_succ {n : BitVec 32} (hw : n.toNat ≤ (n + 1).toNat) : (n + 1).toNat = n.toNat + 1 := by
  rw [BitVec.toNat_add] at hw ⊢
  have := n.isLt
  rw [show (1 : BitVec 32).toNat = 1 from rfl] at hw ⊢
  omega

theorem Recycles.pids (h : Recycles a a' np) (hk : Kin a) (hp : Pids a hist)
    (hn : a.nextpid.toNat ≤ a'.nextpid.toNat)
    (hnew : (a'.core np).state ≠ .unused → (a'.core np).pid = a.nextpid ∧
      a.nextpid.toNat < a'.nextpid.toNat) : Pids a' hist where
  below {j} hu := by
    rcases eq_or_ne j np with rfl | hne
    · rw [(hnew hu).1]
      exact (hnew hu).2
    · rw [h.other hne] at hu ⊢
      exact Nat.lt_of_lt_of_le (hp.below hu) hn
  one {i j} hi hj heq := by
    -- the new pid is above all others
    have hlt : ∀ {k}, k ≠ np → (a'.core k).state ≠ .unused → (a'.core np).state ≠ .unused →
        (a'.core k).pid ≠ (a'.core np).pid := by
      intro k hk hku hnu heq
      rw [h.other hk] at hku heq
      have hbelow := hp.below hku
      rw [heq, (hnew hnu).1] at hbelow
      exact absurd hbelow (Nat.lt_irrefl _)
    rcases eq_or_ne i np with rfl | hin <;> rcases eq_or_ne j i with rfl | hji
    · rfl
    · exact absurd heq.symm (hlt hji hj hi)
    · rfl
    · rcases eq_or_ne j np with rfl | hjn
      · exact absurd heq (hlt hin hi hj)
      · rw [h.other hin, h.other hjn] at *
        exact hp.one hi hj heq
  init := by
    rw [h.other (h.ne_of_alive hk.init)]
    exact hp.init
  named hx := Nat.lt_of_lt_of_le (hp.named hx) hn

/-- A free slot is taken, or stays free. -/
theorem Recycles.story (h : Recycles a a' np) (hk : Kin a) (hp : Pids a hist)
    (hs : Story a hist) (hfree : (a.core np).state = .unused)
    (hnew : (a'.core np).state ≠ .unused → (a'.core np).pid = a.nextpid) : Story a' hist where
  forked := h.forked hk hs id id
  unforked {j p} hu hpar hf := by
    rcases eq_or_ne j np with rfl | hne
    · rw [hnew hu] at hf
      exact absurd (hp.named hf) (Nat.lt_irrefl _)
    · rw [h.other hne] at hu hpar hf
      exact hs.unforked hu hpar hf
  once := hs.once
  living {j v} hu hz he := by
    rcases eq_or_ne j np with rfl | hne
    · rw [hnew hu] at he
      exact absurd (hp.named he) (Nat.lt_irrefl _)
    · rw [h.other hne] at hu hz he
      exact hs.living hu hz he
  zombie {j} hz := by
    rcases eq_or_ne j np with rfl | hne
    · rcases h.new with hn | hn <;> rw [hz] at hn <;> cases hn
    · rw [h.other hne] at hz ⊢
      exact hs.zombie hz
  gone {j w q st} hw hu heq := by
    rcases eq_or_ne j np with rfl | hne
    · rw [hnew hu] at heq
      rw [← heq] at hw
      exact absurd (hp.named hw) (Nat.lt_irrefl _)
    · rw [h.other hne] at hu heq
      exact hs.gone hw hu heq
  ended {q v} he := by
    refine (hs.ended he).imp_left ?_
    rintro ⟨j, hz, hq⟩
    have hne : j ≠ np := by
      rintro rfl
      rw [hfree] at hz
      cases hz
    exact ⟨j, (h.other hne).symm ▸ ⟨hz, hq⟩⟩
  waits := hs.waits

/-- The history goes on without a `wait` for `q` and without a second fork of it. -/
theorem Reaped.concat {x : Act} (h : Reaped hist q v) (hw : ∀ w st, x ≠ .waited w q st)
    (hf : ∀ p', x = .forked p' q → .forked p' q ∈ hist) : Reaped (hist ++ [x]) q v := by
  obtain ⟨h₁, h₂, p, w, st, rfl, he, hst, hone, hfork, hfirst, hpar⟩ := h
  refine ⟨h₁, h₂ ++ [x], p, w, st, by simp, he, hst, fun w' st' => ⟨(hone w' st').1, ?_⟩, hfork,
    fun p' hp' => hfirst p' ?_, hpar⟩
  · rw [mem_append, mem_singleton, not_or]
    exact ⟨(hone w' st').2, fun hx => hw w' st' hx.symm⟩
  · rw [mem_append, mem_singleton] at hp'
    exact hp'.elim id fun hx => hf p' hx.symm

theorem Reaped.waited (h : Reaped hist q v) : ∃ w st, .waited w q st ∈ hist := by
  obtain ⟨h₁, h₂, p, w, st, rfl, -⟩ := h
  exact ⟨w, st, by simp⟩

theorem mem_of_concat {x y : Act} (hy : y ∈ hist ++ [x]) (hne : y ≠ x) : y ∈ hist := by
  rw [mem_append, mem_singleton] at hy
  exact hy.resolve_right hne

theorem kin_link (hpl : Placed a) (hk : Kin a) (hr : a.Runs c i) (ht : a.task i = .forking np) :
    Kin (a.setCore np { a.core np with parent := some i } |>.setTask i (.forked np)) := by
  have hi := alive_of_runs hpl hr
  have hu : (a.core np).state = .used := hpl.used (i := i) (by rw [ht]; rfl)
  have howner := @Placed.owner _ hpl
  obtain ⟨h1, h2, h3, h4, h5, h6, h7, h8, h9⟩ := hk
  constructor <;> simp only [Alive, setCore, setTask, update_apply] at * <;>
    grind [Task.holdsWait, Task.child]

theorem story_link (hpl : Placed a) (hk : Kin a) (hp : Pids a hist) (hs : Story a hist)
    (hr : a.Runs c i) (ht : a.task i = .forking np) :
    Story (a.setCore np { a.core np with parent := some i } |>.setTask i (.forked np))
      (hist ++ [.forked (a.core i).pid (a.core np).pid]) := by
  have hi := alive_of_runs hpl hr
  have hu : (a.core np).state ≠ .unused := by
    rw [hpl.used (i := i) (by rw [ht]; rfl)]
    rintro ⟨⟩
  have hpar := hk.unlinked ht
  -- only the parent of `np` changes
  have hcore : ∀ j, ((update a.core np { a.core np with parent := some i }) j).state =
      (a.core j).state ∧ (update a.core np { a.core np with parent := some i } j).pid =
      (a.core j).pid ∧ (update a.core np { a.core np with parent := some i } j).xstate =
      (a.core j).xstate := by
    intro j
    rcases eq_or_ne j np with rfl | hne
    · simp only [update_self, and_self]
    · simp only [update_of_ne hne, and_self]
  constructor
  all_goals try simp only [setCore, setTask, (hcore _).1, (hcore _).2.1, (hcore _).2.2]
  case forked =>
    intro j r hjr
    rcases eq_or_ne j np with rfl | hne
    · rw [update_self] at hjr
      cases hjr
      refine ⟨(a.core i).pid, by simp, .inl ⟨rfl, fun v hv => ?_⟩⟩
      exact hs.living hi.1 hi.2.2 (mem_of_concat hv (by rintro ⟨⟩))
    · rw [update_of_ne hne] at hjr
      obtain ⟨p, hf, hcase⟩ := hs.forked hjr
      refine ⟨p, mem_append_left _ hf, hcase.imp (And.imp_right fun hno v hv =>
        hno v (mem_of_concat hv (by rintro ⟨⟩))) (And.imp_right (Or.imp (Exists.imp fun v hv =>
        mem_append_left _ hv) ?_))⟩
      rintro ⟨k, st, hkp, hkt⟩
      refine ⟨k, st, hkp, ?_⟩
      rw [update_of_ne]
      · exact hkt
      · rintro rfl
        rw [ht] at hkt
        cases hkt
  case unforked =>
    intro j p hju hjp
    have hne : j ≠ np := by
      rintro rfl
      rw [update_self] at hjp
      cases hjp
    rw [update_of_ne hne] at hjp
    refine fun hf => hs.unforked hju hjp (mem_of_concat hf fun heq => ?_)
    injection heq with _ hq
    exact hne (hp.one hju hu hq)
  case once =>
    -- the child had no parent, so the history has no fork of it
    have hnew : ∀ {p q}, .forked p q ∈ hist → q ≠ (a.core np).pid := by
      rintro p q hf rfl
      exact hs.unforked hu hpar hf
    intro p p' q hf hf'
    rw [mem_append, mem_singleton] at hf hf'
    rcases hf with hf | hf <;> rcases hf' with hf' | hf'
    · exact hs.once hf hf'
    · cases hf'
      exact absurd rfl (hnew hf)
    · cases hf
      exact absurd rfl (hnew hf')
    · cases hf
      cases hf'
      rfl
  case living => exact fun hju hjz hv => hs.living hju hjz (mem_of_concat hv (by rintro ⟨⟩))
  case zombie => exact fun hz => mem_append_left _ (hs.zombie hz)
  case gone => exact fun hw => hs.gone (mem_of_concat hw (by rintro ⟨⟩))
  case ended =>
    intro q v he
    refine (hs.ended (mem_of_concat he (by rintro ⟨⟩))).imp_right fun hre => hre.concat (by rintro _ _ ⟨⟩) ?_
    intro p' heq
    injection heq with _ hq
    obtain ⟨w, st, hw⟩ := hre.waited
    exact absurd hq (hs.gone hw hu)
  case waits =>
    intro w q st hw
    obtain ⟨v, hv⟩ := hs.waits (mem_of_concat hw (by rintro ⟨⟩))
    exact ⟨v, mem_append_left _ hv⟩

theorem kin_orphan (hpl : Placed a) (hk : Kin a) (hr : a.Runs c i)
    (hi : i ≠ initproc) (hw : a.waitLock = none) : Kin ({ a with
      core := fun j => if (a.core j).parent = some i then
        { a.core j with parent := some initproc } else a.core j
      waitLock := some i }.setTask i (.exiting v)) := by
  have hia := alive_of_runs hpl hr
  obtain ⟨h1, h2, h3, h4, h5, h6, h7, h8, h9⟩ := hk
  constructor <;> simp only [Alive, setTask, update_apply] at * <;>
    grind [Task.holdsWait]

theorem story_orphan (hs : Story a hist) (ht : a.task i = .user) (hi : i ≠ initproc) :
    Story ({ a with
      core := fun j => if (a.core j).parent = some i then
        { a.core j with parent := some initproc } else a.core j
      waitLock := some i }.setTask i (.exiting v)) hist := by
  have hcore : ∀ j, (if (a.core j).parent = some i then
      { a.core j with parent := some initproc } else a.core j).state = (a.core j).state ∧
      (if (a.core j).parent = some i then
      { a.core j with parent := some initproc } else a.core j).pid = (a.core j).pid ∧
      (if (a.core j).parent = some i then
      { a.core j with parent := some initproc } else a.core j).xstate = (a.core j).xstate := by
    intro j
    split <;> exact ⟨rfl, rfl, rfl⟩
  have hleaving : ∀ {k st}, a.task k = .exiting st →
      update a.task i (.exiting v) k = .exiting st := by
    intro k st hk
    rw [update_of_ne]
    · exact hk
    · rintro rfl
      rw [ht] at hk
      cases hk
  constructor
  all_goals try simp only [setTask, (hcore _).1, (hcore _).2.1, (hcore _).2.2]
  case forked =>
    intro j r hjr
    split at hjr
    · rename_i hj
      cases hjr
      obtain ⟨p, hf, ⟨hpid, -⟩ | ⟨hinit, -⟩⟩ := hs.forked hj
      · exact ⟨p, hf, .inr ⟨rfl, .inr ⟨i, v, hpid, update_self _ _ _⟩⟩⟩
      · exact absurd hinit hi
    · obtain ⟨p, hf, hcase⟩ := hs.forked hjr
      refine ⟨p, hf, hcase.imp_right (And.imp_right (Or.imp_right ?_))⟩
      rintro ⟨k, st, hkp, hkt⟩
      exact ⟨k, st, hkp, hleaving hkt⟩
  case unforked =>
    intro j p hju hjp
    split at hjp
    · cases hjp
    · exact hs.unforked hju hjp
  case once => exact hs.once
  case living => exact hs.living
  case zombie => exact hs.zombie
  case gone => exact hs.gone
  case ended => exact hs.ended
  case waits => exact hs.waits

theorem kin_die (hpl : Placed a) (hk : Kin a) (hr : a.Runs c i) (ht : a.task i = .exiting v) :
    Kin ({ a with waitLock := none }.setCore i { a.core i with xstate := v, state := .zombie }
      |>.setLock i (some c) |>.setTask i .user) := by
  have hia := alive_of_runs hpl hr
  obtain ⟨h1, h2, h3, h4, h5, h6, h7, h8, h9⟩ := hk
  constructor <;> simp only [Alive, setCore, setLock, setTask, update_apply] at * <;>
    grind [Task.holdsWait, Task.child]

theorem story_die (hpl : Placed a) (hk : Kin a) (hp : Pids a hist) (hs : Story a hist)
    (hr : a.Runs c i) (ht : a.task i = .exiting v) :
    Story ({ a with waitLock := none }.setCore i { a.core i with xstate := v, state := .zombie }
      |>.setLock i (some c) |>.setTask i .user) (hist ++ [.exited (a.core i).pid v]) := by
  have hia := alive_of_runs hpl hr
  have hcore : ∀ j, (update a.core i { a.core i with xstate := v, state := .zombie } j).pid =
      (a.core j).pid ∧ (update a.core i
        { a.core i with xstate := v, state := .zombie } j).parent = (a.core j).parent := by
    intro j
    rcases eq_or_ne j i with rfl | hne
    · simp only [update_self, and_self]
    · simp only [update_of_ne hne, and_self]
  have hunused : ∀ {j}, (update a.core i
      { a.core i with xstate := v, state := .zombie } j).state ≠ .unused →
      (a.core j).state ≠ .unused := by
    intro j hj
    rcases eq_or_ne j i with rfl | hne
    · exact hia.1
    · rwa [update_of_ne hne] at hj
  -- another process has another pid
  have hpid : ∀ {j w}, j ≠ i → (a.core j).state ≠ .unused →
      Act.exited (a.core j).pid w ≠ .exited (a.core i).pid v := by
    intro j w hne hj heq
    injection heq with hq
    exact hne (hp.one hj hia.1 hq)
  constructor
  all_goals try simp only [setCore, setLock, setTask, (hcore _).1, (hcore _).2]
  case forked =>
    intro j r hjr
    have hne : r ≠ i := fun h => (hk.leaving ht).2 j (h ▸ hjr)
    obtain ⟨p, hf, hcase⟩ := hs.forked hjr
    refine ⟨p, mem_append_left _ hf, ?_⟩
    rcases hcase with ⟨rfl, hno⟩ | ⟨hinit, ⟨w, hw⟩ | ⟨k, st, hkp, hkt⟩⟩
    · left
      exact ⟨rfl, fun w hw => hno w (mem_of_concat hw (hpid hne (hk.alive hjr).1))⟩
    · exact .inr ⟨hinit, .inl ⟨w, mem_append_left _ hw⟩⟩
    · rcases eq_or_ne k i with rfl | hki
      · exact .inr ⟨hinit, .inl ⟨v, by rw [← hkp]; simp⟩⟩
      · exact .inr ⟨hinit, .inr ⟨k, st, hkp, by rw [update_of_ne hki]; exact hkt⟩⟩
  case unforked =>
    exact fun hju hjp hf => hs.unforked (hunused hju) hjp (mem_of_concat hf (by rintro ⟨⟩))
  case once =>
    exact fun hf hf' => hs.once (mem_of_concat hf (by rintro ⟨⟩)) (mem_of_concat hf' (by rintro ⟨⟩))
  case living =>
    intro j w hju hjz
    have hne : j ≠ i := by
      rintro rfl
      rw [update_self] at hjz
      exact hjz rfl
    rw [update_of_ne hne] at hju hjz
    exact fun hv => hs.living hju hjz (mem_of_concat hv (hpid hne hju))
  case zombie =>
    intro j hz
    rcases eq_or_ne j i with rfl | hne
    · simp only [update_self, mem_append, mem_singleton, or_true]
    · rw [update_of_ne hne] at hz ⊢
      exact mem_append_left _ (hs.zombie hz)
  case gone => exact fun hw hju => hs.gone (mem_of_concat hw (by rintro ⟨⟩)) (hunused hju)
  case ended =>
    intro q w he
    rw [mem_append, mem_singleton] at he
    rcases he with he | he
    · refine (hs.ended he).imp ?_ fun hre => hre.concat (by rintro _ _ ⟨⟩) (by rintro _ ⟨⟩)
      rintro ⟨j, hz, hq, hx⟩
      have hne : j ≠ i := by
        rintro rfl
        exact hia.2.2 hz
      exact ⟨j, by rw [update_of_ne hne]; exact ⟨hz, hq, hx⟩⟩
    · cases he
      exact .inl ⟨i, by rw [update_self]; exact ⟨rfl, rfl, rfl⟩⟩
  case waits =>
    intro w q st hw
    obtain ⟨u, hu⟩ := hs.waits (mem_of_concat hw (by rintro ⟨⟩))
    exact ⟨u, mem_append_left _ hu⟩

theorem story_reap {st : Option (BitVec 32)} (h : Recycles a a' np) (hk : Kin a)
    (hp : Pids a hist) (hs : Story a hist) (ht : a.task i = .waiting)
    (hpar : (a.core np).parent = some i) (hz : (a.core np).state = .zombie)
    (hst : ∀ v ∈ st, v = (a.core np).xstate) (hfree : (a'.core np).state = .unused) :
    Story a' (hist ++ [.waited (a.core i).pid (a.core np).pid st]) := by
  have hu : (a.core np).state ≠ .unused := by
    rw [hz]
    exact nofun
  have hne : ∀ {j}, (a'.core j).state ≠ .unused → j ≠ np := by
    rintro j hj rfl
    exact hj hfree
  constructor
  case forked =>
    refine h.forked hk hs (fun hx => mem_append_left _ hx) fun hx => ?_
    exact mem_of_concat hx nofun
  case unforked =>
    intro j p hju hjp hf
    have hj := h.other (hne hju)
    rw [hj] at hju hjp hf
    exact hs.unforked hju hjp (mem_of_concat hf nofun)
  case once =>
    exact fun hf hf' => hs.once (mem_of_concat hf nofun) (mem_of_concat hf' nofun)
  case living =>
    intro j v hju hjz hv
    have hj := h.other (hne hju)
    rw [hj] at hju hjz hv
    exact hs.living hju hjz (mem_of_concat hv nofun)
  case zombie =>
    intro j hjz
    have hj := h.other (hne (by rw [hjz]; exact nofun))
    rw [hj] at hjz ⊢
    exact mem_append_left _ (hs.zombie hjz)
  case gone =>
    intro j w q st' hw hju
    have hj := hne hju
    rw [h.other hj] at hju ⊢
    rw [mem_append, mem_singleton] at hw
    rcases hw with hw | hw
    · exact hs.gone hw hju
    · cases hw
      exact fun heq => hj (hp.one hju hu heq)
  case ended =>
    intro q v he
    replace he := mem_of_concat he nofun
    rcases hs.ended he with ⟨j, hjz, hq, hx⟩ | hre
    · rcases eq_or_ne j np with rfl | hj
      · right
        subst hq hx
        obtain ⟨p, hf, hcase⟩ := hs.forked hpar
        refine ⟨hist, [], p, _, st, rfl, he, hst, fun w' st' => ⟨fun hw => ?_, by simp⟩, hf,
          fun p' hp' => hs.once (mem_of_concat hp' nofun) hf, ?_⟩
        · exact hs.gone hw hu rfl
        · rcases hcase with ⟨hpid, hno⟩ | ⟨rfl, hexit | ⟨k, st', -, hkt⟩⟩
          · exact .inr ⟨hno, hpid⟩
          · exact .inl ⟨hexit, hp.init⟩
          · -- `wait` has `wait_lock`, so nobody is in the middle of `exit`
            have hki : some k = some initproc :=
              (hk.holds (by rw [hkt]; rfl)).symm.trans (hk.holds (by rw [ht]; rfl))
            cases hki
            rw [ht] at hkt
            cases hkt
      · exact .inl ⟨j, by rw [h.other hj]; exact ⟨hjz, hq, hx⟩⟩
    · refine .inr (hre.concat (fun w' st' heq => ?_) nofun)
      obtain ⟨w, st'', hw⟩ := hre.waited
      injection heq with _ hq
      exact hs.gone hw hu hq
  case waits =>
    intro w q st' hw
    rw [mem_append, mem_singleton] at hw
    rcases hw with hw | hw
    · obtain ⟨u, hu⟩ := hs.waits hw
      exact ⟨u, mem_append_left _ hu⟩
    · cases hw
      exact ⟨_, mem_append_left _ (hs.zombie hz)⟩

structure Family (a : Life) (h : List Act) : Prop where
  placed : Placed a
  kin : Kin a
  pids : Pids a h
  story : Story a h

theorem holds_step (hk : Kin a) (hst : Step a o a') :
    ∀ {i}, (a'.task i).holdsWait → a'.waitLock = some i := by
  -- a task that does not hold the lock
  have hother : ∀ {k j : ℕ} {t : Task}, t.holdsWait = false →
      (update a.task k t j).holdsWait → j ≠ k ∧ a.waitLock = some j := by
    intro k j t ht hj
    have hjk : j ≠ k := by
      rintro rfl
      rw [update_self, ht] at hj
      cases hj
    rw [update_of_ne hjk] at hj
    exact ⟨hjk, hk.holds hj⟩
  -- the one that held it lets it go
  have hgone : ∀ {k j : ℕ} {t : Task}, (a.task k).holdsWait → t.holdsWait = false →
      (update a.task k t j).holdsWait → False := by
    intro k j t hkt ht hj
    obtain ⟨hjk, hwj⟩ := hother ht hj
    rw [hk.holds hkt] at hwj
    exact hjk (Option.some.inj hwj).symm
  -- it was free and is taken
  have htaken : ∀ {k j : ℕ} {t : Task}, a.waitLock = none →
      (update a.task k t j).holdsWait → some k = some j := by
    intro k j t hw hj
    rcases eq_or_ne j k with rfl | hjk
    · rfl
    · rw [update_of_ne hjk] at hj
      rw [hk.holds hj] at hw
      cases hw
  intro j hj
  cases hst with
  | idle | nudge | dispatch | leave | swtch | allocFail => exact hk.holds hj
  | alloc | link | start => exact (hother rfl hj).2
  | orphan c i st hr ht hi hw => exact htaken hw hj
  | lockWait c i hr ht hw => exact htaken hw hj
  | die c i st hr ht | unlockWait c i hr ht | leaveWait c i k hr ht | reap c i np st hr ht =>
    exact (hgone (by rw [ht]; rfl) rfl hj).elim

theorem SameFamily.family (hsame : SameFamily a a') (h : Family a hist) (hst : Step a none a') :
    Family a' (hist ++ []) where
  placed := placed_step h.placed hst
  kin := hsame.kin h.kin (holds_step h.kin hst)
  pids := h.pids.append (fun j => (hsame.proc j).pid) (fun hu h0 => hu (hsame.unused.mpr h0))
    hsame.nextpid nofun
  story := by
    rw [append_nil]
    exact hsame.story h.story

theorem Recycles.family (hre : Recycles a a' np) (h : Family a hist) (hst : Step a none a')
    (hfree : (a.core np).state = .unused) (hn : a'.nextpid = a.nextpid + 1)
    (hw : a.nextpid.toNat ≤ a'.nextpid.toNat)
    (hpid : (a'.core np).state ≠ .unused → (a'.core np).pid = a.nextpid) :
    Family a' (hist ++ []) where
  placed := placed_step h.placed hst
  kin := hre.kin h.placed h.kin (holds_step h.kin hst)
  pids := by
    rw [append_nil]
    refine hre.pids h.kin h.pids hw fun hu => ⟨hpid hu, ?_⟩
    rw [hn] at hw ⊢
    rw [toNat_succ hw]
    exact Nat.lt_succ_self _
  story := by
    rw [append_nil]
    exact hre.story h.kin h.pids h.story hfree hpid

theorem family_step (h : Family a hist) (hst : Step a o a')
    (hw : a.nextpid.toNat ≤ a'.nextpid.toNat) : Family a' (hist ++ o.toList) := by
  have hpl := placed_step h.placed hst
  have hstep := hst
  cases hst with
  | idle => exact (sameFamily_refl a).family h hstep
  | nudge i k hl hk hs =>
    refine ((sameFamily_refl a).setCore rfl hk (hs.imp_right ?_)).family h hstep
    rintro ⟨hsl, hrn⟩
    rw [Alive, hsl, hrn]
    exact ⟨by decide, .inl (by decide)⟩
  | dispatch c i k hc hl hr hk hs =>
    refine SameFamily.family (((sameFamily_refl a).setCore (i := i) rfl hk (.inr ?_)).congr
      rfl rfl rfl) h hstep
    rw [Alive, hr, hs]
    exact ⟨by decide, .inl (by decide)⟩
  | leave c i k hr hk hs =>
    refine SameFamily.family (((sameFamily_refl a).setCore (i := i) rfl hk
      (.inr ⟨?_, .inl (alive_of_runs h.placed hr)⟩)).congr rfl rfl rfl) h hstep
    rcases hs with hs | hs <;> rw [hs] <;> decide
  | swtch c i hl => exact SameFamily.family ((sameFamily_refl a).congr rfl rfl rfl) h hstep
  | start c i np hr ht hl =>
    have hu : (a.core np).state = .used := h.placed.used (i := i) (by rw [ht]; rfl)
    have hpar : (a.core np).parent ≠ none := by
      rw [h.kin.linked ht]
      rintro ⟨⟩
    have hsame : SameFamily a (a.setCore np { a.core np with state := .runnable }) :=
      (sameFamily_refl a).setCore rfl ⟨rfl, rfl, rfl⟩
        (.inr ⟨by dsimp only; decide, .inr ⟨hu, hpar⟩⟩)
    refine (hsame.setTask (alive_of_runs h.placed hr) (.inl rfl) ?_).family h hstep
    rw [ht]
    rintro _ ⟨⟩
  | lockWait c i hr ht hw' =>
    refine SameFamily.family ((((sameFamily_refl a).setTask (alive_of_runs h.placed hr)
      (.inr (.inl rfl)) ?_)).congr rfl rfl rfl) h hstep
    rcases ht with ht | ht <;> rw [ht] <;> rintro _ ⟨⟩
  | unlockWait c i hr ht =>
    refine SameFamily.family ((((sameFamily_refl a).setTask (alive_of_runs h.placed hr)
      (.inl rfl) ?_)).congr rfl rfl rfl) h hstep
    rw [ht]
    rintro _ ⟨⟩
  | leaveWait c i k hr ht hk hs =>
    refine SameFamily.family ((((sameFamily_refl a).setCore (i := i) rfl hk
      (.inr ⟨?_, .inl (alive_of_runs h.placed hr)⟩)).setTask (alive_of_runs h.placed hr)
      (.inr (.inr rfl)) ?_).congr rfl rfl rfl) h hstep
    · rw [hs]
      decide
    · rw [ht]
      rintro _ ⟨⟩
  | alloc c i np hr ht hl hu =>
    have hre := recycles_setCore (a := a) { a with nextpid := a.nextpid + 1 }
      (k := { a.core np with pid := a.nextpid, state := .used }) rfl rfl (.inl hu) (.inr rfl)
      (h.kin.orphan hu)
    refine (hre.setTask (.inr rfl) (alive_of_runs h.placed hr) (by rw [ht]; rintro _ ⟨⟩)).family h
      hstep hu rfl hw fun _ => ?_
    simp only [setTask, setCore_self]
  | allocFail np hl hu =>
    have hre := recycles_setCore (a := a) { a with nextpid := a.nextpid + 1 } (k := .freed) rfl rfl
      (.inl hu) (.inl rfl) rfl
    refine hre.family h hstep hu rfl hw fun hne => absurd ?_ hne
    rw [setCore_self]
    rfl
  | link c i np hr ht hw' =>
    have hu : (a.core np).state ≠ .unused := by
      rw [h.placed.used (i := i) (by rw [ht]; rfl)]
      rintro ⟨⟩
    exact ⟨hpl, kin_link h.placed h.kin hr ht, h.pids.update rfl rfl hu rfl rfl,
      story_link h.placed h.kin h.pids h.story hr ht⟩
  | orphan c i st hr ht hi hw' =>
    refine ⟨hpl, kin_orphan h.placed h.kin hr hi hw', h.pids.append (fun j => ?_) (fun {j} => ?_) rfl
      (fun x hx => absurd hx not_mem_nil), ?_⟩
    · simp only [setTask]
      split <;> rfl
    · simp only [setTask]
      split <;> exact id
    · rw [Option.toList_none, append_nil]
      exact story_orphan h.story ht hi
  | die c i st hr ht =>
    exact ⟨hpl, kin_die h.placed h.kin hr ht,
      h.pids.update rfl rfl (alive_of_runs h.placed hr).1 rfl rfl,
      story_die h.placed h.kin h.pids h.story hr ht⟩
  | reap c i np st hr ht hl hp hz hst' =>
    have hre := (recycles_setCore (a := a) { a with waitLock := none } (k := .freed) rfl rfl
      (.inr hz) (.inl rfl) rfl).setTask (i := i) (.inl rfl) (alive_of_runs h.placed hr)
      (by rw [ht]; rintro _ ⟨⟩)
    have hfree : (({ a with waitLock := none }.setCore np .freed).core np).state = .unused := by
      rw [setCore_self]
      rfl
    have hpids : Pids a (hist ++ [.waited (a.core i).pid (a.core np).pid st]) :=
      h.pids.update (update_eq_self _ _).symm rfl (by rw [hz]; rintro ⟨⟩) rfl rfl
    exact ⟨hpl, hre.kin h.placed h.kin (holds_step h.kin hstep),
      hre.pids h.kin hpids hw fun hne => absurd hfree hne,
      story_reap hre h.kin h.pids h.story ht hp hz hst' hfree⟩

def HasParent (a : Life) (j : ℕ) : Prop :=
  ∃ p, (a.core j).parent = some p ∧ (a.core p).state ≠ .unused ∧ (a.core p).state ≠ .zombie

structure Accounted (a : Life) (h : List Act) : Prop where
  parent : ∀ j, j ≠ initproc → (a.core j).state ≠ .unused → (a.core j).state ≠ .used →
    a.HasParent j
  exited : ∀ q v, .exited q v ∈ h → Reaped h q v ∨ (∀ w st, .waited w q st ∉ h) ∧
    ∃ j, (a.core j).state = .zombie ∧ (a.core j).pid = q ∧ (a.core j).xstate = v ∧ a.HasParent j
  waited : ∀ w q st, .waited w q st ∈ h → ∃ v, .exited q v ∈ h

theorem Kin.hasParent (h : Kin a) (hu : (a.core j).state ≠ .unused)
    (hused : (a.core j).state ≠ .used) (hj : j ≠ initproc) : a.HasParent j := by
  obtain ⟨p, hp⟩ := Option.ne_none_iff_exists'.mp (h.adopted hu hused hj)
  have hal := h.alive hp
  exact ⟨p, hp, hal.1, hal.2.2⟩

theorem Family.accounted (h : Family a hist) : Accounted a hist where
  parent j hj hu hused := h.kin.hasParent hu hused hj
  exited q v he := by
    rcases h.story.ended he with ⟨j, hz, hq, hv⟩ | hre
    · have hne : (a.core j).state ≠ .unused ∧ (a.core j).state ≠ .used := by
        rw [hz]
        exact ⟨nofun, nofun⟩
      refine .inr ⟨fun w st hw => h.story.gone hw hne.1 hq, j, hz, hq, hv, ?_⟩
      exact h.kin.hasParent hne.1 hne.2 fun hj => h.kin.init.2.2 (hj ▸ hz)
    · exact .inl hre
  waited w q st hw := h.story.waits hw

end Xv6.Sched.Life
