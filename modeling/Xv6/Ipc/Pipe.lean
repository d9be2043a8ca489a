import Xv6.Lib.Circular
import Xv6.Lib.Bytes
import Xv6.Lib.Run

/-! `pipewrite`, `piperead` and `pipeclose` on one pipe by any number of processes. A step is one
turn of a loop of the process that holds `pi->lock`, and it may be followed by a step of any other
process where the lock is free; `kill` comes at any time. -/
namespace Xv6.Ipc
open Bytes PartialRun Function List

def PIPESIZE : ℕ := 512

instance : NeZero PIPESIZE := ⟨by decide⟩

structure Pipe where
  data : Buf PIPESIZE
  nread : BitVec 32 := 0
  nwrite : BitVec 32 := 0
  readopen : Bool := true
  writeopen : Bool := true

inductive Chan where
  | nread
  | nwrite
  deriving DecidableEq, Repr

/-- A call at the head of a loop in which it may sleep: `pipewrite(pi, addr, n)` with `i` bytes
stored, where the user's bytes at `addr` are `src`, and `piperead(pi, addr, n)`. -/
inductive Call where
  | pipewrite (src : ℕ → Byte) (n : BitVec 32) (i : ℕ)
  | piperead (n : BitVec 32)

inductive Pc where
  /-- In no call; `r` is what the last one returned. -/
  | out (r : Option ℤ)
  /-- Before `acquire(&pi->lock)`, at the start of a call or at the end of `sleep`. -/
  | waits (c : Call)
  | locked (c : Call)
  | asleep (chan : Chan) (c : Call)
  /-- In the second loop of `piperead`, with the lock held. -/
  | copies (n : BitVec 32) (i : ℕ)

def Pc.awake : Pc → Pc
  | .asleep _ c => .waits c
  | pc => pc

/-- `stored` and `delivered` record the bytes that writers stored and that were copied out to
readers, each with its process. -/
structure State where
  pi : Pipe
  lock : Option ℕ := none
  freed : Bool := false
  killed : ℕ → Bool := fun _ => false
  pc : ℕ → Pc := fun _ => .out none
  stored : List (ℕ × Byte) := []
  delivered : List (ℕ × Byte) := []

def pipealloc (data : Buf PIPESIZE) : State := { pi := { data } }

namespace State

def setPc (s : State) (p : ℕ) (pc : Pc) : State := { s with pc := update s.pc p pc }

def wakeup (s : State) (chan : Chan) : State :=
  { s with pc := fun p => match s.pc p with
      | .asleep ch c => if ch = chan then .waits c else .asleep ch c
      | pc => pc }

def leave (s : State) (p : ℕ) (r : ℤ) : State := { s with lock := none }.setPc p (.out (some r))

def sleep (s : State) (p : ℕ) (chan : Chan) (c : Call) : State :=
  { s with lock := none }.setPc p (.asleep chan c)

end State

def pipewrite (s : State) (p : ℕ) (src : ℕ → Byte) (n : BitVec 32) (i : ℕ) (ok : Bool) : State :=
  if (i : ℤ) < n.toInt then
    if s.pi.readopen = false ∨ s.killed p then s.leave p (-1)
    else if s.pi.nwrite = s.pi.nread + BitVec.ofNat 32 PIPESIZE then
      (s.wakeup .nread).sleep p .nwrite (.pipewrite src n i)
    else if ok then
      { s with
        pi := { s.pi with
          data := update s.pi.data (Circular.cell PIPESIZE s.pi.nwrite) (src i)
          nwrite := s.pi.nwrite + 1 }
        stored := s.stored ++ [(p, src i)] }.setPc p (.locked (.pipewrite src n (i + 1)))
    else (s.wakeup .nread).leave p i
  else (s.wakeup .nread).leave p i

def pipereadWait (s : State) (p : ℕ) (n : BitVec 32) : State :=
  if s.pi.nread = s.pi.nwrite ∧ s.pi.writeopen then
    if s.killed p then s.leave p (-1) else s.sleep p .nread (.piperead n)
  else s.setPc p (.copies n 0)

def pipereadCopy (s : State) (p : ℕ) (n : BitVec 32) (i : ℕ) (ok : Bool) : State :=
  if (i : ℤ) < n.toInt then
    if s.pi.nread = s.pi.nwrite then (s.wakeup .nwrite).leave p i
    else
      let ch := s.pi.data (Circular.cell PIPESIZE s.pi.nread)
      let s := { s with pi := { s.pi with nread := s.pi.nread + 1 } }
      if ok then
        { s with delivered := s.delivered ++ [(p, ch)] }.setPc p (.copies n (i + 1))
      else (s.wakeup .nwrite).leave p i
  else (s.wakeup .nwrite).leave p i

def turn (s : State) (p : ℕ) (ok : Bool) : Option State := match s.pc p with
  | .locked (.pipewrite src n i) => some (pipewrite s p src n i ok)
  | .locked (.piperead n) => some (pipereadWait s p n)
  | .copies n i => some (pipereadCopy s p n i ok)
  | _ => none

def pipeclose (s : State) (writable : Bool) : State :=
  let s := if writable then { s with pi := { s.pi with writeopen := false } }.wakeup .nread
    else { s with pi := { s.pi with readopen := false } }.wakeup .nwrite
  if s.pi.readopen = false ∧ s.pi.writeopen = false then { s with freed := true } else s

inductive Event where
  | pipewrite (p : ℕ) (src : ℕ → Byte) (n : BitVec 32)
  | piperead (p : ℕ) (n : BitVec 32)
  | acquire (p : ℕ)
  | turn (p : ℕ) (ok : Bool)
  | pipeclose (writable : Bool)
  | kill (p : ℕ)

/-- Process `p` calls: nothing of the pipe is read before the lock is taken. -/
def enter (s : State) (p : ℕ) (c : Call) : Option State := match s.pc p with
  | .out _ => some (s.setPc p (.waits c))
  | _ => none

def act (s : State) : Event → Option State
  | .pipewrite p src n => enter s p (.pipewrite src n 0)
  | .piperead p n => enter s p (.piperead n)
  | .acquire p => match s.pc p, s.lock with
    | .waits c, none => some ({ s with lock := some p }.setPc p (.locked c))
    | _, _ => none
  | .turn p ok => turn s p ok
  | .pipeclose writable => if s.lock = none then some (pipeclose s writable) else none
  | .kill p => some ({ s with
      killed := update s.killed p true }.setPc p (s.pc p).awake)

/-- Nothing happens in a pipe whose page was given back. -/
def step (s : State) (e : Event) : Option State := if s.freed then none else act s e

def Event.Copies : Event → Prop
  | .turn _ ok => ok = true
  | _ => True

def Pc.holds : Pc → Bool
  | .locked _ | .copies _ _ => true
  | _ => false

def bytesOf (p : ℕ) (h : List (ℕ × Byte)) : List Byte := (h.filter (·.1 = p)).map Prod.snd

def Accepted (h : List (ℕ × Byte)) (p : ℕ) (src : ℕ → Byte) (i : ℕ) : Prop :=
  (List.range i).map src <:+ bytesOf p h

def Returned (h : List (ℕ × Byte)) (p i : ℕ) : Prop :=
  ∃ bs : List Byte, bs.length = i ∧ bs.map (p, ·) <:+ h

def Fits (s : State) (p : ℕ) : Pc → Prop
  | .waits (.pipewrite src _ i) | .locked (.pipewrite src _ i) => Accepted s.stored p src i
  | .copies _ i => Returned s.delivered p i ∧
      (i = 0 → s.pi.nread = s.pi.nwrite → s.pi.writeopen = false)
  | _ => True

structure Inv (s : State) : Prop where
  queue : ∃ l, Circular.Holds s.pi.data s.pi.nread s.pi.nwrite l ∧
    s.stored.map Prod.snd = s.delivered.map Prod.snd ++ l
  lock : ∀ p, (s.pc p).holds → s.lock = some p
  fits : ∀ p, Fits s p (s.pc p).awake

variable {s t : State} {p q i : ℕ} {pc : Pc} {chan : Chan} {src : ℕ → Byte} {n : BitVec 32} {x : Byte}
  {r : ℤ} {e : Event}

theorem awake_wakeup (s : State) (chan : Chan) (q : ℕ) :
    ((s.wakeup chan).pc q).awake = (s.pc q).awake := by
  cases h : s.pc q with
  | asleep ch c =>
    simp only [State.wakeup, h]
    split_ifs <;> rfl
  | out r => simp only [State.wakeup, h]
  | waits c => simp only [State.wakeup, h]
  | locked c => simp only [State.wakeup, h]
  | copies n i => simp only [State.wakeup, h]

theorem awake_awake (pc : Pc) : pc.awake.awake = pc.awake := by cases pc <;> rfl

theorem holds_awake (pc : Pc) : pc.awake.holds = pc.holds := by cases pc <;> rfl

theorem Inv.not_holds (h : Inv s) (hp : (s.pc p).holds) (hq : q ≠ p) : (s.pc q).holds = false := by
  refine Bool.eq_false_iff.mpr fun hh => hq ?_
  have := (h.lock q hh).symm.trans (h.lock p hp)
  simpa using this

theorem Fits.mono (hw : ∀ src i, Accepted s.stored p src i → Accepted t.stored p src i)
    (hc : pc.holds → ∀ i, (Returned s.delivered p i ∧
        (i = 0 → s.pi.nread = s.pi.nwrite → s.pi.writeopen = false)) →
      Returned t.delivered p i ∧ (i = 0 → t.pi.nread = t.pi.nwrite → t.pi.writeopen = false))
    (h : Fits s p pc) : Fits t p pc := by
  cases pc with
  | waits c => cases c with
    | pipewrite src n i => exact hw src i h
    | piperead n => trivial
  | locked c => cases c with
    | pipewrite src n i => exact hw src i h
    | piperead n => trivial
  | copies n i => exact hc rfl i h
  | out r => trivial
  | asleep chan c => trivial

theorem Inv.frame (h : Inv s) (hpi : t.pi = s.pi) (hs : t.stored = s.stored)
    (hd : t.delivered = s.delivered) (hpc : ∀ q, q ≠ p → (t.pc q).awake = (s.pc q).awake)
    (hother : ∀ q, q ≠ p → s.lock = some q → t.lock = some q)
    (hlock : (t.pc p).holds → t.lock = some p) (hfit : Fits s p (t.pc p).awake) : Inv t := by
  have hfits : ∀ q pc, Fits s q pc → Fits t q pc := fun q pc hf =>
    Fits.mono (fun _ _ ha => hs ▸ ha) (fun _ _ hc => by rw [hpi, hd]; exact hc) hf
  refine ⟨by rw [hpi, hs, hd]; exact h.queue, fun q hq => ?_, fun q => ?_⟩
  · by_cases he : q = p
    · subst he
      exact hlock hq
    · rw [← holds_awake, hpc q he, holds_awake] at hq
      exact hother q he (h.lock q hq)
  · by_cases he : q = p
    · subst he
      exact hfits q _ hfit
    · rw [hpc q he]
      exact hfits q _ (h.fits q)

theorem Inv.release (h : Inv s) (hp : (s.pc p).holds) (chan : Option Chan)
    (hn : pc.holds = false) (hfit : Fits s p pc.awake) :
    Inv ({ (chan.elim s s.wakeup) with lock := none }.setPc p pc) := by
  refine h.frame (p := p) ?_ ?_ ?_ (fun q hq => ?_) (fun q hq hl => ?_) ?_ ?_
  · cases chan <;> rfl
  · cases chan <;> rfl
  · cases chan <;> rfl
  · cases chan with
    | none => simp only [State.setPc, Option.elim, update_of_ne hq]
    | some chan => simpa only [State.setPc, Option.elim, update_of_ne hq] using awake_wakeup s chan q
  · rw [h.lock p hp] at hl
    exact absurd (Option.some.inj hl).symm hq
  · intro hh
    simp [State.setPc, hn] at hh
  · simpa [State.setPc] using hfit

theorem Inv.leave (h : Inv s) (hp : (s.pc p).holds) (r : ℤ) : Inv (s.leave p r) :=
  h.release hp none rfl trivial

theorem Inv.wake_leave (h : Inv s) (hp : (s.pc p).holds) (chan : Chan) (r : ℤ) :
    Inv ((s.wakeup chan).leave p r) := h.release hp (some chan) rfl trivial

theorem accepted_other (h : Accepted s.stored p src i) (hq : q ≠ p) (x : Byte) :
    Accepted (s.stored ++ [(q, x)]) p src i := by
  rw [Accepted, bytesOf, filter_append, filter_singleton]
  simpa [hq, Accepted, bytesOf] using h

theorem accepted_self (h : Accepted s.stored p src i) :
    Accepted (s.stored ++ [(p, src i)]) p src (i + 1) := by
  obtain ⟨l, hl⟩ := h
  refine ⟨l, ?_⟩
  rw [bytesOf, filter_append, filter_singleton, range_succ, map_append,
    ← append_assoc, hl]
  simp [bytesOf]

theorem returned_self (h : Returned s.delivered p i) (x : Byte) :
    Returned (s.delivered ++ [(p, x)]) p (i + 1) := by
  obtain ⟨bs, rfl, l, hl⟩ := h
  refine ⟨bs ++ [x], by simp, l, ?_⟩
  rw [map_append, ← append_assoc, hl]
  rfl

theorem step_act (hs : step s e = some t) : act s e = some t := by
  rw [step] at hs
  split_ifs at hs
  exact hs

theorem Inv.hold (h : Inv s) (hp : (s.pc p).holds) (hl : t.lock = s.lock)
    (hpc : t.pc = update s.pc p pc)
    (hq : ∃ l, Circular.Holds t.pi.data t.pi.nread t.pi.nwrite l ∧
      t.stored.map Prod.snd = t.delivered.map Prod.snd ++ l)
    (hw : ∀ q, q ≠ p → ∀ src i, Accepted s.stored q src i → Accepted t.stored q src i)
    (hfit : Fits t p pc.awake) : Inv t := by
  refine ⟨hq, fun q hh => ?_, fun q => ?_⟩
  · by_cases he : q = p
    · subst he
      exact hl.trans (h.lock q hp)
    · rw [hpc, update_of_ne he] at hh
      exact hl.trans (h.lock q hh)
  · by_cases he : q = p
    · subst he
      rwa [hpc, update_self]
    · rw [hpc, update_of_ne he]
      refine (h.fits q).mono (hw q he) fun hh => ?_
      rw [holds_awake, h.not_holds hp he] at hh
      cases hh

theorem Inv.pipewrite (h : Inv s) (hp : s.pc p = .locked (.pipewrite src n i)) (ok : Bool) :
    Inv (pipewrite s p src n i ok) := by
  have hh : (s.pc p).holds := by rw [hp]; rfl
  have hfit : Accepted s.stored p src i := by
    have := h.fits p
    rwa [hp] at this
  rw [Ipc.pipewrite]
  split_ifs with hn hbad hfull hok
  · exact h.leave hh _
  · exact h.release hh (some .nread) rfl hfit
  · obtain ⟨l, hq, heq⟩ := h.queue
    have hlt : l.length < PIPESIZE := lt_of_le_of_ne hq.length_le fun hl =>
      hfull ((hq.full_iff (by decide)).mpr hl)
    refine h.hold hh rfl rfl ⟨l ++ [src i], hq.push (by decide) hlt _, ?_⟩ ?_ (accepted_self hfit)
    · simp [State.setPc, heq]
    · exact fun q hq src i ha => accepted_other ha hq.symm _
  · exact h.wake_leave hh _ _
  · exact h.wake_leave hh _ _

theorem Inv.pipereadWait (h : Inv s) (hp : s.pc p = .locked (.piperead n)) :
    Inv (pipereadWait s p n) := by
  have hh : (s.pc p).holds := by rw [hp]; rfl
  rw [Ipc.pipereadWait]
  split_ifs with hempty hkill
  · exact h.leave hh _
  · exact h.release hh none rfl trivial
  · refine h.hold hh rfl rfl h.queue (fun _ _ _ _ ha => ha) ⟨⟨[], rfl, nil_suffix⟩, fun _ he => ?_⟩
    exact Bool.eq_false_iff.mpr fun hw => hempty ⟨he, hw⟩

theorem Inv.pipereadCopy (h : Inv s) (hp : s.pc p = .copies n i) :
    Inv (pipereadCopy s p n i true) := by
  have hh : (s.pc p).holds := by rw [hp]; rfl
  have hfit : Returned s.delivered p i := by
    have := h.fits p
    rw [hp] at this
    exact this.1
  rw [Ipc.pipereadCopy]
  split_ifs with hn hempty hok
  · exact h.wake_leave hh _ _
  · obtain ⟨l, hq, heq⟩ := h.queue
    -- the queue is not empty, so the byte taken is its first one
    obtain ⟨x, l, rfl⟩ := exists_cons_of_ne_nil fun hl =>
      hempty ((hq.empty_iff (by decide)).mpr hl)
    obtain ⟨hx, hpop⟩ := hq.pop
    refine h.hold hh rfl rfl ⟨l, hpop, ?_⟩ (fun _ _ _ _ ha => ha) ⟨returned_self hfit _, by simp⟩
    simp [State.setPc, heq, hx]
  · exact absurd rfl hok
  · exact h.wake_leave hh _ _

theorem Inv.pipeclose (h : Inv s) (hl : s.lock = none) (writable : Bool) :
    Inv (pipeclose s writable) := by
  have hfree : ∀ q, (s.pc q).holds = false := fun q =>
    Bool.eq_false_iff.mpr fun hh => by
      rw [h.lock q hh] at hl
      cases hl
  have key : ∀ (pi : Pipe) (chan : Chan) (b : Bool), pi.data = s.pi.data → pi.nread = s.pi.nread →
      pi.nwrite = s.pi.nwrite → Inv { { s with pi }.wakeup chan with freed := b } := by
    intro pi chan b hd hr hw
    have haw : ∀ q, (({ s with pi }.wakeup chan).pc q).awake = (s.pc q).awake :=
      awake_wakeup { s with pi } chan
    refine ⟨?_, fun q hh => ?_, fun q => ?_⟩
    · change ∃ l, Circular.Holds pi.data pi.nread pi.nwrite l ∧ _
      rw [hd, hr, hw]
      exact h.queue
    · have hh' : (({ s with pi }.wakeup chan).pc q).holds := hh
      rw [← holds_awake, haw, holds_awake, hfree q] at hh'
      cases hh'
    · change Fits _ q (({ s with pi }.wakeup chan).pc q).awake
      rw [haw]
      refine Fits.mono (s := s) (fun _ _ ha => ha) (fun hh => ?_) (h.fits q)
      rw [holds_awake, hfree q] at hh
      cases hh
  rw [Ipc.pipeclose]
  split_ifs
  · exact key _ _ true rfl rfl rfl
  · exact key _ _ s.freed rfl rfl rfl
  · exact key _ _ true rfl rfl rfl
  · exact key _ _ s.freed rfl rfl rfl

theorem Inv.moves (h : Inv s) (hl : pc.holds → (s.pc p).holds) (hfit : Fits s p pc.awake)
    (killed : ℕ → Bool) : Inv ({ s with killed }.setPc p pc) := by
  refine h.frame (p := p) rfl rfl rfl (fun q hq => ?_) (fun q _ hl => hl) (fun hh => ?_) ?_
  · simp only [State.setPc, update_of_ne hq]
  · simp only [State.setPc, update_self] at hh
    exact h.lock p (hl hh)
  · simpa [State.setPc] using hfit

theorem Inv.enter {c : Call} (h : Inv s) (hs : enter s p c = some t) (hfit : Fits s p (.waits c)) :
    Inv t := by
  rw [Ipc.enter.eq_def] at hs
  split at hs
  · cases hs
    refine h.moves ?_ hfit s.killed
    exact nofun
  · cases hs

theorem step_inv (h : Inv s) (hc : e.Copies) (hs : step s e = some t) : Inv t := by
  replace hs := step_act hs
  cases e with
  | pipewrite p src n => exact h.enter hs ⟨_, append_nil _⟩
  | piperead p n => exact h.enter hs trivial
  | acquire p =>
    simp only [act] at hs
    split at hs <;> cases hs
    next c hp hl =>
      refine h.frame (p := p) rfl rfl rfl (fun q hq => ?_) (fun q _ hq => ?_) (fun _ => rfl) ?_
      · simp only [State.setPc, update_of_ne hq]
      · rw [hl] at hq
        cases hq
      · have hf := h.fits p
        rw [hp] at hf
        simp only [State.setPc, update_self]
        cases c <;> exact hf
  | turn p ok =>
    simp only [act, turn] at hs
    split at hs <;> cases hs
    next hp => exact h.pipewrite hp ok
    next hp => exact h.pipereadWait hp
    next hp =>
      cases hc
      exact h.pipereadCopy hp
  | pipeclose writable =>
    simp only [act] at hs
    split_ifs at hs with hl
    cases hs
    exact h.pipeclose hl writable
  | kill p =>
    cases hs
    refine h.moves (fun hh => (holds_awake _) ▸ hh) ?_ _
    rw [awake_awake]
    exact h.fits p

theorem inv_pipealloc (data : Buf PIPESIZE) : Inv (pipealloc data) :=
  ⟨⟨[], Circular.holds_nil _ _, rfl⟩, fun _ h => (by cases h), fun _ => trivial⟩

def Reads (s : State) (p : ℕ) (n : BitVec 32) : Prop :=
  (s.pc p).awake = .waits (.piperead n) ∨ s.pc p = .locked (.piperead n) ∨ ∃ i, s.pc p = .copies n i

structure Fifo (s : State) : Prop where
  inOrder : s.delivered.map Prod.snd <+: s.stored.map Prod.snd
  count : (s.pi.nwrite - s.pi.nread).toNat = s.stored.length - s.delivered.length
  bound : (s.pi.nwrite - s.pi.nread).toNat ≤ PIPESIZE
  /-- A writer has stored the first bytes of its buffer. -/
  accepted : ∀ {p src n i}, s.pc p = .locked (.pipewrite src n i) → Accepted s.stored p src i
  /-- A reader in its copying loop has been given as many bytes as it counts. -/
  returned : ∀ {p n i}, s.pc p = .copies n i → Returned s.delivered p i

theorem Inv.fifo (h : Inv s) : Fifo s := by
  obtain ⟨l, hq, heq⟩ := h.queue
  have hcount := hq.count (by decide)
  have hlen := congrArg List.length heq
  simp only [length_map, length_append] at hlen
  refine ⟨⟨l, heq.symm⟩, by omega, hcount.trans_le hq.length_le, fun {p _ _ _} hp => ?_,
    fun {p _ _} hp => ?_⟩
  · have := h.fits p
    rwa [hp] at this
  · have := h.fits p
    rw [hp] at this
    exact this.1

theorem Reads.awake_ne (hr : Reads s p n) (r : Option ℤ) : (s.pc p).awake ≠ .out r := by
  rcases hr with h | h | ⟨i, h⟩ <;> rw [h] <;> nofun

theorem turn_other {ok : Bool} (hs : turn s q ok = some t) (hpq : p ≠ q) :
    (t.pc p).awake = (s.pc p).awake := by
  rw [turn.eq_def] at hs
  split at hs <;> cases hs
  · rw [pipewrite]
    split_ifs <;> simp [State.setPc, State.leave, State.sleep, hpq, awake_wakeup]
  · rw [pipereadWait]
    split_ifs <;> simp [State.setPc, State.leave, State.sleep, hpq]
  · rw [pipereadCopy]
    split_ifs <;> simp [State.setPc, State.leave, hpq, awake_wakeup]

theorem pipeclose_awake (s : State) (writable : Bool) (p : ℕ) :
    ((pipeclose s writable).pc p).awake = (s.pc p).awake := by
  rw [pipeclose]
  split_ifs
  · exact awake_wakeup { s with pi := _ } _ p
  · exact awake_wakeup { s with pi := _ } _ p
  · exact awake_wakeup { s with pi := _ } _ p
  · exact awake_wakeup { s with pi := _ } _ p

theorem enter_awake {c : Call} {r : Option ℤ} (hs : enter s q c = some t)
    (ht : (t.pc p).awake = .out r) : (s.pc p).awake = .out r := by
  rw [enter.eq_def] at hs
  split at hs <;> cases hs
  by_cases hpq : p = q
  · simp [State.setPc, hpq, Pc.awake] at ht
  · simpa [State.setPc, hpq] using ht

theorem step_awake (hs : step s e = some t) (he : ∀ ok, e ≠ .turn p ok) {r : Option ℤ}
    (ht : (t.pc p).awake = .out r) : (s.pc p).awake = .out r := by
  replace hs := step_act hs
  cases e with
  | pipewrite q src n => exact enter_awake hs ht
  | piperead q n => exact enter_awake hs ht
  | acquire q =>
    simp only [act] at hs
    split at hs <;> cases hs
    by_cases hpq : p = q
    · simp [State.setPc, hpq, Pc.awake] at ht
    · simpa [State.setPc, hpq] using ht
  | turn q ok =>
    have hpq : p ≠ q := fun h => he ok (by rw [h])
    rwa [← turn_other hs hpq]
  | pipeclose writable =>
    simp only [act] at hs
    split_ifs at hs
    cases hs
    rwa [pipeclose_awake] at ht
  | kill q =>
    cases hs
    by_cases hpq : p = q
    · simpa [State.setPc, hpq, awake_awake] using ht
    · simpa [State.setPc, hpq] using ht

theorem Inv.turn_eof (h : Inv s) (hs : turn s p true = some t) (hr : Reads s p n)
    (hn : 0 < n.toInt) (ht : t.pc p = .out (some 0)) :
    t.pi.nread = t.pi.nwrite ∧ t.pi.writeopen = false := by
  rw [turn.eq_def] at hs
  split at hs <;> cases hs
  · next hp => rcases hr with hr | hr | ⟨i, hr⟩ <;> simp [hp, Pc.awake] at hr
  · rw [Ipc.pipereadWait] at ht
    split_ifs at ht <;> simp [State.setPc, State.leave, State.sleep] at ht
  · next m i hp =>
    obtain rfl : n = m := by
      rcases hr with hr | hr | ⟨i, hr⟩ <;> simp [hp, Pc.awake] at hr
      exact hr.1.symm
    have hfit := h.fits p
    rw [hp] at hfit
    rw [Ipc.pipereadCopy] at ht ⊢
    split_ifs at ht ⊢ with hi hempty hok
    · have hi0 : i = 0 := by simpa [State.setPc, State.leave] using ht
      exact ⟨hempty, hfit.2 hi0 hempty⟩
    · simp [State.setPc] at ht
    · exact absurd rfl hok
    · have hi0 : i = 0 := by simpa [State.setPc, State.leave] using ht
      omega

theorem Inv.eof (h : Inv s) (hc : e.Copies) (hs : step s e = some t) (hr : Reads s p n)
    (hn : 0 < n.toInt) (ht : t.pc p = .out (some 0)) :
    t.pi.nread = t.pi.nwrite ∧ t.pi.writeopen = false := by
  by_cases he : ∀ ok, e ≠ .turn p ok
  · exact absurd (step_awake hs he (by rw [ht]; rfl)) (hr.awake_ne _)
  · push Not at he
    obtain ⟨ok, rfl⟩ := he
    cases hc
    exact h.turn_eof (step_act hs) hr hn ht

/-- On every run in which the user copies succeed, the bytes read are the first of the bytes
written, the counters differ by the number of bytes in between, and end of file is reported only
for an empty pipe without a writer. -/
theorem pipe_fifo (data : Buf PIPESIZE) {es : List Event} (hc : ∀ e ∈ es, e.Copies)
    (hr : run step (pipealloc data) es = some s) :
    Fifo s ∧ ∀ e t p n, e.Copies → step s e = some t → Reads s p n → 0 < n.toInt →
      t.pc p = .out (some 0) → t.pi.nread = t.pi.nwrite ∧ t.pi.writeopen = false := by
  have h : Inv s := run_invariant (inv_pipealloc data) (fun _ _ _ hi hce hs => step_inv hi hce hs)
    (along_of_forall hc _) hr
  exact ⟨h.fifo, fun e t p n hce hs hrd hn ht => h.eof hce hs hrd hn ht⟩

/-- One byte goes from process 0 to process 1, which had come first; then the write end is closed
and process 1 reads again. -/
def closedRun : List Event :=
  [.piperead 1 4, .acquire 1, .turn 1 true, .pipewrite 0 (fun _ => 7) 1, .acquire 0, .turn 0 true,
    .turn 0 true, .acquire 1, .turn 1 true, .turn 1 true, .turn 1 true, .pipeclose true,
    .piperead 1 4, .acquire 1, .turn 1 true]

theorem pipe_fifo_closedRun : ∃ s t, run step (pipealloc 0) closedRun = some s ∧
    s.delivered = [(1, 7)] ∧ Fifo s ∧ step s (.turn 1 true) = some t ∧ t.pc 1 = .out (some 0) ∧
    t.pi.nread = t.pi.nwrite ∧ t.pi.writeopen = false := by
  have hc : ∀ e ∈ closedRun, e.Copies := by simp [closedRun, Event.Copies]
  have hr : run step (pipealloc 0) closedRun = some _ := rfl
  obtain ⟨hfifo, heof⟩ := pipe_fifo 0 hc hr
  exact ⟨_, _, hr, rfl, hfifo, rfl, rfl,
    heof (.turn 1 true) _ 1 4 rfl rfl (Or.inr (Or.inr ⟨0, rfl⟩)) (by decide) rfl⟩

end Xv6.Ipc
