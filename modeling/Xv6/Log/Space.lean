import Mathlib.Algebra.BigOperators.Group.Finset.Basic
import Mathlib.Algebra.Order.BigOperators.Group.Finset
import Mathlib.Data.List.Dedup
import Xv6.Log.Group

/-! The space that `begin_op` reserves: `log_write` runs out of log blocks exactly when it is
called after `LOGSIZE - 1` distinct blocks have been logged in one group. -/
namespace Xv6.Log.Group
open PartialRun Function List Finset

/-- The number of log blocks that `mkfs` writes into the super block, the header included. -/
def nlog : ℕ := LOGSIZE

variable {P : Type}

def blocksLogged (s : State P) : List ℕ := (s.wrote.map Prod.fst).dedup

section
variable [DecidableEq P]

def opBlocks (s : State P) (p : P) : List ℕ :=
  ((s.wrote.filter fun w => w.2 = (p, s.ended p)).map Prod.fst).dedup

def opBound (n : ℕ) (s : State P) : Event P → Bool
  | .logWrite p b _ => (opBlocks s p).length + (if b ∈ opBlocks s p then 0 else 1) ≤ n
  | _ => true

end

/-- A `log_write` finds less than `LOGSIZE - 1` blocks in the log. -/
def hasRoom (s : State P) : Event P → Bool
  | .logWrite _ _ _ => (blocksLogged s).length + 2 ≤ LOGSIZE
  | _ => true

/-- `log_write` has not run out of space, and `write_log` stays inside the log. -/
def Spacious (start : ℕ) (s : State P) : Prop :=
  s.panic ≠ some .tooBig ∧ ∀ p, s.pc p = .commits .log →
    ∀ w ∈ (writeLog start s.m).writes.drop s.m.writes.length, w.1 < start + nlog

theorem writeLogFrom_writes (start tail : ℕ) (bs : List ℕ) (m : Mach) :
    ∃ ws, (writeLogFrom start tail bs m).writes = m.writes ++ ws ∧
      ws.map Prod.fst = (List.range' tail bs.length).map fun i => start + i + 1 := by
  induction bs generalizing tail m with
  | nil => exact ⟨[], by simp [writeLogFrom], rfl⟩
  | cons b bs ih =>
    obtain ⟨ws, hw, hk⟩ :=
      ih (tail + 1) (bwrite (m.store (start + tail + 1) (m.buf b)) (start + tail + 1))
    refine ⟨(start + tail + 1, m.buf b) :: ws, ?_, ?_⟩
    · rw [writeLogFrom, hw]
      simp [bwrite, Mach.store]
    · rw [List.map_cons, hk, length_cons, range'_succ, List.map_cons]

section
variable [Fintype P] {s t : State P} {start : ℕ}

theorem Inv.length_lh (h : Inv nlog s) : s.m.lh.length = (blocksLogged s).length := by
  refine List.Perm.length_eq ?_
  refine (perm_ext_iff_of_nodup h.nodup (nodup_dedup _)).mpr fun b => ?_
  rw [mem_dedup, h.logged]

theorem Inv.writeLog_inside (h : Inv nlog s) :
    ∀ w ∈ (writeLog start s.m).writes.drop s.m.writes.length, w.1 < start + nlog := by
  obtain ⟨ws, hw, hk⟩ := writeLogFrom_writes start 0 s.m.lh s.m
  intro w hmem
  rw [writeLog, hw, drop_left] at hmem
  have hkey : w.1 ∈ ws.map Prod.fst := List.mem_map_of_mem hmem
  rw [hk] at hkey
  obtain ⟨i, hi, hkey⟩ := List.mem_map.mp hkey
  have hroom := h.room
  have hpos : 0 < nlog := by decide
  rw [mem_range'_1] at hi
  omega

variable [DecidableEq P]

theorem tooBig_iff (h : Inv nlog s) {e : Event P} (hs : step start nlog s e = some t) :
    t.panic = some .tooBig ↔ hasRoom s e = false := by
  obtain ⟨hp, hen, rfl⟩ := step_eq_some.mp hs
  cases e with
  | logWrite p b x =>
    have hin : s.pc p = .inOp := of_decide_eq_true hen
    rw [effect, logWrite_eq (h.outstanding_pos hin), hasRoom, decide_eq_false_iff_not,
      ← h.length_lh]
    have hn : nlog = LOGSIZE := rfl
    have hpos : 2 ≤ LOGSIZE := by decide
    split
    · simp only [true_iff]
      omega
    · simp only [hp, reduceCtorEq, false_iff, not_not]
      omega
  | beginOp p =>
    rw [effect, beginOp]
    split <;> simp [State.setPc, hp, hasRoom]
  | endOp p =>
    have hin : s.pc p = .inOp := of_decide_eq_true hen
    rw [effect, endOp_eq (h.not_committing hin)]
    split <;> simp [leaveOp, State.setPc, wakeup, hp, hasRoom]
  | _ => simp [effect, State.setPc, wakeup, hp, hasRoom]

/-- The log has room in every state of a run exactly when no `log_write` of the run came after
`LOGSIZE - 1` distinct blocks of the same group. -/
theorem spacious_iff {d : ℕ → Block} {es : List (Event P)}
    (hr : run (step start nlog) (boot d) es = some s) :
    Spacious start s ↔ Along (step start nlog) (fun s e => hasRoom s e) (boot d) es := by
  have hpanic : s.panic ≠ some .tooBig ↔
      Along (step start nlog) (fun s e => hasRoom s e) (boot d) es := by
    induction es using List.reverseRecOn generalizing s with
    | nil =>
      cases hr
      simp [boot, Along]
    | append_singleton es e ih =>
      obtain ⟨u, hu, he⟩ := run_concat_eq_some.mp hr
      have hup : u.panic ≠ some .tooBig := by
        rw [(step_eq_some.mp he).1]
        rintro ⟨⟩
      rw [along_concat, ← ih hu, ne_eq, tooBig_iff (run_inv hu) he, Bool.not_eq_false, hu]
      simp [hup]
  rw [← hpanic]
  exact ⟨fun h => h.1, fun h => ⟨h, fun _ _ => (run_inv hr).writeLog_inside⟩⟩

def Reserved (s : State P) : Prop :=
  (inOps s).Nonempty →
    s.m.lh.length + ∑ p ∈ inOps s, (MAXOPBLOCKS - 1 - (opBlocks s p).length) + 2 ≤ LOGSIZE

variable {p : P}

theorem opBlocks_fresh (h : Inv nlog s) (hp : s.pc p ≠ .inOp) : opBlocks s p = [] := by
  have hnil : s.wrote.filter (fun w => w.2 = (p, s.ended p)) = [] := by
    refine filter_eq_nil_iff.mpr fun w hw he => ?_
    have he : w.2 = (p, s.ended p) := of_decide_eq_true he
    rcases h.writers w hw with hlt | ⟨-, hin⟩
    · rw [he] at hlt
      exact lt_irrefl _ hlt
    · rw [he] at hin
      exact hp hin
  rw [opBlocks, hnil]
  rfl

omit [Fintype P] in
theorem opBlocks_congr (hw : t.wrote = s.wrote) (he : t.ended p = s.ended p) :
    opBlocks t p = opBlocks s p := by rw [opBlocks, opBlocks, hw, he]

omit [Fintype P] in
theorem mem_wrote_of_mem_opBlocks {b : ℕ} (h : b ∈ opBlocks s p) : b ∈ s.wrote.map Prod.fst := by
  rw [opBlocks, mem_dedup] at h
  exact map_subset _ (filter_subset_self _) h

omit [Fintype P] in
theorem opBlocks_append_of_ne {p q : P} {b k : ℕ} {m : Mach} (hq : p ≠ q) :
    opBlocks { s with m := m, wrote := s.wrote ++ [(b, p, k)] } q = opBlocks s q := by
  simp [opBlocks, filter_append, hq]

omit [Fintype P] in
theorem length_opBlocks_append {b : ℕ} {m : Mach} :
    (opBlocks { s with m := m, wrote := s.wrote ++ [(b, p, s.ended p)] } p).length =
      (opBlocks s p).length + (if b ∈ opBlocks s p then 0 else 1) := by
  have hperm (l : List ℕ) :
      (l ++ [b]).dedup.length = l.dedup.length + if b ∈ l.dedup then 0 else 1 := by
    rw [(perm_append_singleton b l).dedup.length_eq]
    split
    · rename_i hb
      rw [dedup_cons_of_mem (mem_dedup.mp hb), add_zero]
    · rename_i hb
      rw [dedup_cons_of_notMem (fun hm => hb (mem_dedup.mpr hm)), length_cons]
  have hnew : opBlocks { s with m := m, wrote := s.wrote ++ [(b, p, s.ended p)] } p =
      ((s.wrote.filter fun w => w.2 = (p, s.ended p)).map Prod.fst ++ [b]).dedup := by
    simp [opBlocks, filter_append]
  rw [hnew]
  exact hperm _

theorem Reserved.congr (hr : Reserved s) (hin : ∀ p, t.pc p = .inOp ↔ s.pc p = .inOp)
    (hlh : t.m.lh = s.m.lh) (hw : t.wrote = s.wrote) (he : t.ended = s.ended) : Reserved t := by
  intro hne
  rw [inOps_congr hin] at hne ⊢
  rw [hlh, sum_congr rfl fun p _ => by rw [opBlocks_congr hw (congrFun he p)]]
  exact hr hne

omit [Fintype P] [DecidableEq P] in
theorem wakeup_inOp (s : State P) (p : P) : (wakeup s).pc p = .inOp ↔ s.pc p = .inOp := by
  change (if s.pc p = .sleeping then Pc.woken else s.pc p) = .inOp ↔ _
  split <;> simp_all

omit [Fintype P] in
theorem setPc_inOp {c : Pc} (hp : s.pc p ≠ .inOp) (hc : c ≠ .inOp) (q : P) :
    (s.setPc p c).pc q = .inOp ↔ s.pc q = .inOp := by
  change update s.pc p c q = .inOp ↔ _
  rw [update_apply]
  split
  · rename_i he
    subst he
    simp [hp, hc]
  · rfl

theorem reserved_beginOp (h : Inv nlog s) (hr : Reserved s)
    (hp : s.pc p = .user ∨ s.pc p = .woken) : Reserved (beginOp s p) := by
  have hno : s.pc p ≠ .inOp := by rcases hp with hp | hp <;> simp [hp]
  rw [beginOp]
  split
  · exact hr.congr (setPc_inOp hno (by rintro ⟨⟩)) rfl rfl rfl
  rename_i hadm
  rw [not_or, Bool.not_eq_true, not_lt] at hadm
  intro _
  have hmem : p ∉ inOps s := by simpa [inOps] using hno
  rw [inOps_enter (s := s) (p := p) rfl, sum_insert hmem]
  have hle : ∑ q ∈ inOps s, (MAXOPBLOCKS - 1 - (opBlocks s q).length) ≤
      (inOps s).card * (MAXOPBLOCKS - 1) :=
    Finset.sum_le_card_nsmul _ _ _ fun q _ => Nat.sub_le _ _
  have hout := h.outstanding
  have hidle := h.idle hadm.1
  change s.m.lh.length + (MAXOPBLOCKS - 1 - (opBlocks s p).length +
    ∑ q ∈ inOps s, (MAXOPBLOCKS - 1 - (opBlocks s q).length)) + 2 ≤ LOGSIZE
  rw [opBlocks_fresh h hno]
  simp only [LOGSIZE, MAXOPBLOCKS, length_nil] at hadm hle ⊢
  rcases Nat.eq_zero_or_pos (inOps s).card with hcard | hcard
  · -- the first operation of a group finds the log empty
    rw [(hidle (by omega)).1, length_nil]
    omega
  · omega

theorem reserved_logWrite (h : Inv nlog s) (hr : Reserved s) (hp : s.pc p = .inOp)
    {b : ℕ} {x : Block} (hb : opBound (MAXOPBLOCKS - 1) s (.logWrite p b x)) :
    Reserved (logWrite nlog s p b x) := by
  rw [logWrite_eq (h.outstanding_pos hp)]
  split
  · exact hr.congr (fun _ => Iff.rfl) rfl rfl rfl
  have hmem : p ∈ inOps s := by simpa [inOps] using hp
  have hb : (opBlocks s p).length + (if b ∈ opBlocks s p then 0 else 1) ≤ MAXOPBLOCKS - 1 :=
    of_decide_eq_true hb
  have hold := hr ⟨p, hmem⟩
  intro _
  set t : State P := { s with
    m := { s.m.store b x with lh := if b ∈ s.m.lh then s.m.lh else s.m.lh ++ [b] }
    wrote := s.wrote ++ [(b, p, s.ended p)] } with ht
  have hq : ∀ q ∈ (inOps s).erase p, opBlocks t q = opBlocks s q := fun q hq =>
    opBlocks_append_of_ne (ne_of_mem_erase hq).symm
  have hlen : (opBlocks t p).length =
      (opBlocks s p).length + (if b ∈ opBlocks s p then 0 else 1) := length_opBlocks_append
  change t.m.lh.length + ∑ q ∈ inOps s, (MAXOPBLOCKS - 1 - (opBlocks t q).length) + 2 ≤ LOGSIZE
  rw [← add_sum_erase _ _ hmem] at hold ⊢
  rw [sum_congr rfl fun q hq' => by rw [hq q hq'], hlen]
  have hlh : t.m.lh.length ≤ s.m.lh.length + (if b ∈ opBlocks s p then 0 else 1) := by
    change (if b ∈ s.m.lh then s.m.lh else s.m.lh ++ [b]).length ≤ _
    split
    · exact Nat.le_add_right _ _
    · rename_i hnew
      rw [if_neg fun hop => hnew ((h.logged b).mpr (mem_wrote_of_mem_opBlocks hop))]
      simp
  omega

theorem reserved_leaveOp (hr : Reserved s) (hp : s.pc p = .inOp) {c : Pc}
    (hc : c ≠ .inOp) : Reserved (leaveOp s p c) := by
  intro _
  have hmem : p ∈ inOps s := by simpa [inOps] using hp
  have hold := hr ⟨p, hmem⟩
  have hsum : ∑ q ∈ (inOps s).erase p, (MAXOPBLOCKS - 1 - (opBlocks (leaveOp s p c) q).length) ≤
      ∑ q ∈ inOps s, (MAXOPBLOCKS - 1 - (opBlocks s q).length) := by
    rw [← add_sum_erase _ _ hmem]
    refine (sum_congr rfl fun q hq => ?_).trans_le (Nat.le_add_left _ _)
    have heq : opBlocks (leaveOp s p c) q = opBlocks s q :=
      opBlocks_congr rfl (update_of_ne (ne_of_mem_erase hq) _ _)
    rw [heq]
  rw [inOps_leave (leaveOp_pc hc)]
  change s.m.lh.length + _ + 2 ≤ _
  omega

theorem reserved_endOp (h : Inv nlog s) (hr : Reserved s) (hp : s.pc p = .inOp) :
    Reserved (endOp s p) := by
  rw [endOp_eq (h.not_committing hp)]
  split
  · have := reserved_leaveOp hr hp (c := .commits (if 0 < s.m.lh.length then .log else .done)) nofun
    exact this.congr (fun _ => Iff.rfl) rfl rfl rfl
  · have := reserved_leaveOp hr hp (c := .user) nofun
    exact this.congr (wakeup_inOp _) rfl rfl rfl

theorem reserved_of_alone (h : Inv nlog t) (hc : t.committing = true) : Reserved t := by
  rintro ⟨p, hp⟩
  exact absurd (by simpa [inOps] using hp) (h.alone hc p)

theorem Reserved.step (h : Inv nlog s) (hr : Reserved s) {e : Event P}
    (hb : opBound (MAXOPBLOCKS - 1) s e) (hs : Group.step start nlog s e = some t) :
    Reserved t := by
  have ht := h.step hs
  obtain ⟨-, hp, rfl⟩ := step_eq_some.mp hs
  cases e with
  | beginOp p => exact reserved_beginOp h hr (of_decide_eq_true hp)
  | kill p =>
    have hp : s.pc p = .sleeping := of_decide_eq_true hp
    exact hr.congr (setPc_inOp (by rw [hp]; nofun) nofun) rfl rfl rfl
  | logWrite p b x => exact reserved_logWrite h hr (of_decide_eq_true hp) hb
  | endOp p => exact reserved_endOp h hr (of_decide_eq_true hp)
  | finish p =>
    have hp : s.pc p = .commits .done := of_decide_eq_true hp
    have := reserved_of_alone h (h.committer p _ hp)
    exact this.congr
      (fun q => (wakeup_inOp _ q).trans (setPc_inOp (c := .user) (by rw [hp]; nofun) nofun q))
      rfl rfl rfl
  | writeLog p => exact reserved_of_alone ht (h.committer p _ (of_decide_eq_true hp))
  | writeHead p => exact reserved_of_alone ht (h.committer p _ (of_decide_eq_true hp))
  | installTrans p => exact reserved_of_alone ht (h.committer p _ (of_decide_eq_true hp))
  | eraseLog p => exact reserved_of_alone ht (h.committer p _ (of_decide_eq_true hp))

theorem hasRoom_of_opBound {d : ℕ → Block} {es : List (Event P)}
    (hr : run (step start nlog) (boot d) es = some s)
    (hb : Along (step start nlog) (fun s e => opBound (MAXOPBLOCKS - 1) s e) (boot d) es) :
    Along (step start nlog) (fun s e => hasRoom s e) (boot d) es := by
  suffices h : (Inv nlog s ∧ Reserved s) ∧
      Along (step start nlog) (fun s e => hasRoom s e) (boot d) es from h.2
  refine run_history (I := fun es s => (Inv nlog s ∧ Reserved s) ∧
    Along (step start nlog) (fun s e => hasRoom s e) (boot d) es) ?_ ?_ hb hr
  · refine ⟨⟨inv_boot nlog d, ?_⟩, trivial⟩
    rintro ⟨p, hp⟩
    simp [inOps, boot] at hp
  · rintro es t e u hrun ⟨⟨hi, hres⟩, hroom⟩ hbe hs
    refine ⟨⟨hi.step hs, hres.step hi hbe hs⟩, along_concat.mpr ⟨hroom, fun t' ht' => ?_⟩⟩
    obtain rfl : t = t' := Option.some.inj (hrun.symm.trans ht')
    cases e with
    | logWrite p b x =>
      have hp : t.pc p = .inOp := of_decide_eq_true (step_eq_some.mp hs).2.1
      have hle := hres ⟨p, by simpa [inOps] using hp⟩
      refine decide_eq_true ?_
      rw [← hi.length_lh]
      omega
    | _ => rfl

/-- So `log_write` does not run out of space, and `write_log` stays inside the log. -/
theorem spacious_of_opBound {d : ℕ → Block} {es : List (Event P)}
    (hr : run (step start nlog) (boot d) es = some s)
    (hb : Along (step start nlog) (fun s e => opBound (MAXOPBLOCKS - 1) s e) (boot d) es) :
    Spacious start s := by
  have hroom := hasRoom_of_opBound hr hb
  refine ⟨?_, fun _ _ => (run_inv hr).writeLog_inside⟩
  rcases es.eq_nil_or_concat' with rfl | ⟨es, e, rfl⟩
  · cases hr
    nofun
  · obtain ⟨u, hu, he⟩ := run_concat_eq_some.mp hr
    rw [ne_eq, tooBig_iff (run_inv hu) he, Bool.not_eq_false]
    exact (along_concat.mp hroom).2 u hu

structure Awaited (s : State P) : Prop where
  sleeps : ∀ p, s.pc p = .sleeping → s.committing = true ∨ 0 < s.outstanding
  commits : s.committing = true → ∃ p st, s.pc p = .commits st

omit [Fintype P] [DecidableEq P] in
theorem wakeup_ne_sleeping (s : State P) (p : P) : (wakeup s).pc p ≠ .sleeping := by
  change (if s.pc p = .sleeping then Pc.woken else s.pc p) ≠ .sleeping
  split
  · nofun
  · assumption

omit [Fintype P] in
theorem Awaited.setPc (h : Awaited s) {p : P} {c : Pc} (hp : ∀ st, s.pc p ≠ .commits st)
    (hc : c = .sleeping → s.committing = true ∨ 0 < s.outstanding) : Awaited (s.setPc p c) where
  sleeps q hq := by
    change update s.pc p c q = .sleeping at hq
    rw [update_apply] at hq
    split at hq
    · exact hc hq
    · exact h.sleeps q hq
  commits hcom := by
    obtain ⟨q, st, hq⟩ := h.commits hcom
    have hne : q ≠ p := fun he => hp st (he ▸ hq)
    exact ⟨q, st, (update_of_ne hne _ _).trans hq⟩

omit [Fintype P] in
theorem Awaited.stage (h : Awaited s) {p : P} {st : Stage}
    (hpc : t.pc = update s.pc p (.commits st)) (hc : t.committing = s.committing)
    (ho : t.outstanding = s.outstanding) : Awaited t where
  sleeps q hq := by
    rw [hc, ho]
    rw [hpc, update_apply] at hq
    split at hq
    · cases hq
    · exact h.sleeps q hq
  commits _ := ⟨p, st, by rw [hpc, update_self]⟩

theorem Awaited.beginOp (hi : Inv nlog s) (h : Awaited s) {p : P}
    (hp : s.pc p = .user ∨ s.pc p = .woken) : Awaited (beginOp s p) := by
  have hno : ∀ st, s.pc p ≠ .commits st := by rcases hp with hp | hp <;> simp [hp]
  rw [Group.beginOp]
  split
  · -- with no operation running the log is empty, and the first one is let in
    rename_i hwait
    refine h.setPc hno fun _ => ?_
    by_contra hfree
    rw [not_or, Bool.not_eq_true, not_lt] at hfree
    have hout := hi.outstanding
    have hlh := (hi.idle hfree.1 (by omega)).1
    rw [hlh, hfree.1, List.length_nil, show s.outstanding = 0 by omega] at hwait
    exact absurd hwait (by decide)
  · have hin := h.setPc hno (c := .inOp) (by rintro ⟨⟩)
    exact ⟨fun q hq => (hin.sleeps q hq).imp_right fun hpos => Int.lt_add_one_of_le hpos.le,
      hin.commits⟩

theorem Awaited.endOp (hi : Inv nlog s) {p : P} (hp : s.pc p = .inOp) : Awaited (endOp s p) := by
  have hcom := hi.not_committing hp
  rw [endOp_eq hcom]
  split
  · exact ⟨fun _ _ => .inl rfl, fun _ => ⟨p, _, update_self _ _ _⟩⟩
  · exact ⟨fun q hq => absurd hq (wakeup_ne_sleeping _ q), fun hc => absurd (hcom.symm.trans hc) nofun⟩

theorem Awaited.step (hi : Inv nlog s) (h : Awaited s) {e : Event P}
    (hs : Group.step start nlog s e = some t) : Awaited t := by
  obtain ⟨-, hp, rfl⟩ := step_eq_some.mp hs
  cases e with
  | beginOp p => exact h.beginOp hi (of_decide_eq_true hp)
  | kill p =>
    have hp : s.pc p = .sleeping := of_decide_eq_true hp
    exact h.setPc (by simp [hp]) (by rintro ⟨⟩)
  | logWrite p b x =>
    rw [effect, logWrite_eq (hi.outstanding_pos (of_decide_eq_true hp))]
    split <;> exact ⟨h.sleeps, h.commits⟩
  | endOp p => exact endOp hi (of_decide_eq_true hp)
  | finish p => exact ⟨fun q hq => absurd hq (wakeup_ne_sleeping _ q), by rintro ⟨⟩⟩
  | writeLog p | writeHead p | installTrans p | eraseLog p => exact h.stage rfl rfl rfl

/-- No process is left asleep in `begin_op`: there is always an operation or a commit whose end
wakes it. -/
theorem sleeper_awaits {d : ℕ → Block} {es : List (Event P)}
    (hr : run (step start nlog) (boot d) es = some s) {p : P} (hp : s.pc p = .sleeping) :
    ∃ q, s.pc q = .inOp ∨ ∃ st, s.pc q = .commits st := by
  have h : Inv nlog s ∧ Awaited s := by
    refine run_invariant (I := fun s => Inv nlog s ∧ Awaited s) ⟨inv_boot nlog d, nofun, nofun⟩
      (fun t e u ht _ hs => ⟨ht.1.step hs, ht.2.step ht.1 hs⟩) (along_true _ es) hr
  rcases h.2.sleeps p hp with hc | hpos
  · obtain ⟨q, st, hq⟩ := h.2.commits hc
    exact ⟨q, .inr ⟨st, hq⟩⟩
  · rw [h.1.outstanding] at hpos
    obtain ⟨q, hq⟩ := Finset.card_pos.mp (by exact_mod_cast hpos)
    exact ⟨q, .inl (by simpa [inOps] using hq)⟩

end

theorem spacious_of_opBound_someRun :
    ∃ s, run (step 2 nlog) (boot fun _ _ => 0) someRun = some s ∧ Spacious 2 s := by
  have hr : run (step 2 nlog) (boot fun _ _ => 0) someRun = some _ := rfl
  exact ⟨_, hr, spacious_of_opBound hr (by decide +kernel)⟩

theorem sleeper_awaits_commit :
    ∃ s : State Bool, run (step 2 nlog) (boot fun _ _ => 0)
      [.beginOp false, .endOp false, .beginOp true] = some s ∧ s.pc true = .sleeping ∧
      ∃ q, s.pc q = .inOp ∨ ∃ st, s.pc q = .commits st := by
  have hr : run (step 2 nlog) (boot fun _ _ => 0)
      [.beginOp false, .endOp false, .beginOp true] = some _ := rfl
  exact ⟨_, hr, rfl, sleeper_awaits hr (p := true) rfl⟩

theorem spacious_someRun :
    ∃ s, run (step 2 nlog) (boot fun _ _ => 0) someRun = some s ∧ Spacious 2 s := by
  have hr : run (step 2 nlog) (boot fun _ _ => 0) someRun = some _ := rfl
  exact ⟨_, hr, (spacious_iff hr).mpr (by decide +kernel)⟩

def threeOps : List (Event (Fin 3)) :=
  [.beginOp 0, .beginOp 1, .beginOp 2] ++
    (List.range 30).map fun i => .logWrite (Fin.ofNat 3 i) (100 + i) fun _ => 0

theorem not_spacious_threeOps :
    ∃ s, run (step 2 nlog) (boot fun _ _ => 0) threeOps = some s ∧
      Along (step 2 nlog) (fun s e => opBound MAXOPBLOCKS s e) (boot fun _ _ => 0) threeOps ∧
      ¬ Spacious 2 s := by
  have hrun : ((run (step 2 nlog) (boot fun _ _ => 0) threeOps).bind State.panic) =
      some .tooBig := by decide +kernel
  obtain ⟨s, hs, hp⟩ := Option.bind_eq_some_iff.mp hrun
  exact ⟨s, hs, by decide +kernel, fun h => h.1 hp⟩

end Xv6.Log.Group
