import Xv6.Log.Crash

/-! Runs of group transactions with a crash after any block write. -/
namespace Xv6.Log
open PartialRun List Option

section
variable {start size : ℕ}

theorem clean_take_logWrites {d s : ℕ → Block} (h : Clean start size d s) (f : ℕ → Block)
    {bs : List ℕ} (hroom : bs.length ≤ size - 1) (k : ℕ) :
    Clean start size (Writes.apply d ((logWrites start f 0 bs).take k)) s := by
  have hkeys : ∀ b, (∀ i < bs.length, b ≠ start + i + 1) →
      Writes.apply d ((logWrites start f 0 bs).take k) b = d b := by
    intro b hb
    refine Writes.apply_of_notMem d (Writes.notMem_take k ?_)
    rw [keys_logWrites]
    simp only [List.mem_map, mem_range'_1, zero_add, not_exists, not_and]
    exact fun i hi he => hb i hi.2 he.symm
  refine ⟨?_, fun b hb => ?_⟩
  · rw [hkeys start fun i _ => by omega]
    exact h.1
  · rw [hkeys b fun i hi => hb.ne_log (by omega)]
    exact h.2 b hb

variable {m : Mach} {s : ℕ → Block} {tx : Tx}

theorem pending_of_header (hs : 0 < size)
    (hq : Quiet start size m s) (hv : ValidTx start size tx) (hlen : tx.length ≤ LOGSIZE)
    (hb : Block) :
    Pending start size (Writes.apply m.disk
      (logWrites start (Writes.apply m.buf tx) 0 (tx.map Prod.fst) ++
        [(start, encodeHead hb (tx.map Prod.fst))])) (Writes.apply s tx) (tx.map Prod.fst) := by
  have hhome : ∀ b ∈ tx.map Prod.fst, Home start size b := by
    intro b hb
    obtain ⟨w, hw, rfl⟩ := List.mem_map.mp hb
    exact hv.home w hw
  have hroom : (tx.map Prod.fst).length ≤ size - 1 := by simpa using hv.room
  refine ⟨?_, hroom, hhome, ?_, ?_⟩
  · rw [Writes.apply_append, Writes.apply_cons, Writes.apply_nil, Function.update_self]
    exact decodeHead_encodeHead hb (by simpa using hlen) fun b hb => (hhome b hb).2
  · intro i b hi
    obtain ⟨hlt, -⟩ := List.getElem?_eq_some_iff.mp hi
    have hmem := mem_of_getElem? hi
    rw [Writes.apply_append, Writes.apply_cons, Writes.apply_nil,
      Function.update_of_ne (by omega)]
    have := Writes.apply_of_mem m.disk (nodup_keys_logWrites start (Writes.apply m.buf tx) 0 _)
      (mem_logWrites start (Writes.apply m.buf tx) 0 hi)
    rw [zero_add] at this
    rw [this]
    exact Writes.apply_congr fun hn => absurd hmem hn
  · intro b hh hn
    rw [Writes.apply_append, Writes.apply_cons, Writes.apply_nil,
      Function.update_of_ne (hh.ne_start hs), Writes.apply_of_notMem s hn]
    have := (clean_take_logWrites hq.clean (Writes.apply m.buf tx) hroom tx.length).2 b hh
    rwa [take_of_length_le] at this
    have := congrArg List.length (keys_logWrites start (Writes.apply m.buf tx) 0
      (tx.map Prod.fst))
    simp only [length_map, length_range'] at this
    omega

theorem length_le_of_logTx {m m' : Mach} (h : logTx size m tx = some m')
    (hn : (m.lh ++ tx.map Prod.fst).Nodup) : tx = [] ∨ m.lh.length + tx.length ≤ LOGSIZE := by
  induction tx generalizing m with
  | nil => exact Or.inl rfl
  | cons w tx ih =>
    right
    have hw : w.1 ∉ m.lh := by
      rw [map_cons, nodup_append] at hn
      exact fun hm => hn.2.2 w.1 hm w.1 mem_cons_self rfl
    rw [logTx, run_cons] at h
    obtain ⟨m₁, h₁, h₂⟩ := bind_eq_some_iff.mp h
    rw [logWrite] at h₁
    split at h₁
    · cases h₁
    · rename_i hfull
      change ¬ (LOGSIZE ≤ m.lh.length ∨ size - 1 ≤ m.lh.length) at hfull
      cases h₁
      have hlh : (if w.1 ∈ (m.store w.1 w.2).lh then m.store w.1 w.2 else
          { m.store w.1 w.2 with lh := (m.store w.1 w.2).lh ++ [w.1] }).lh = m.lh ++ [w.1] := by
        rw [if_neg (show w.1 ∉ (m.store w.1 w.2).lh from hw)]
        rfl
      have := ih h₂ (by rw [hlh]; simpa using hn)
      rw [hlh, length_append, length_singleton] at this
      rcases this with rfl | this
      · simp only [length_cons, length_nil]
        omega
      · simp only [length_cons]
        omega

/-- One transaction: it commits, and a crash on the way leaves the state before or after it. -/
theorem runTx_spec (hs : 0 < size)
    (hq : Quiet start size m s) (hv : ValidTx start size tx) (hlen : tx.length ≤ LOGSIZE) :
    ∃ m' ws, runTx start size m tx = some m' ∧ m'.writes = m.writes ++ ws ∧
      m'.disk = Writes.apply m.disk ws ∧ Quiet start size m' (Writes.apply s tx) ∧
      ∀ k, Recoverable start size (Writes.apply m.disk (ws.take k)) s ∨
        Recoverable start size (Writes.apply m.disk (ws.take k)) (Writes.apply s tx) := by
  have hlog : logTx size m tx =
      some { m with buf := Writes.apply m.buf tx, lh := m.lh ++ tx.map Prod.fst } :=
    logTx_eq (by simpa [hq.lh] using hv.nodup) (by simpa [hq.lh] using hv.room)
      (by simpa [hq.lh] using hlen)
  rw [hq.lh, nil_append] at hlog
  rcases eq_nil_or_concat tx with rfl | ⟨tx', w, htx⟩
  · refine ⟨m, [], ?_, by simp, rfl, hq, fun k => Or.inl (Or.inl ?_)⟩
    · rw [runTx, hlog]
      simp [commit, ← hq.lh]
    · simpa using hq.clean
  have hpos : 0 < (tx.map Prod.fst).length := by simp [htx]
  have hhome : ∀ b ∈ tx.map Prod.fst, Home start size b := by
    intro b hb
    obtain ⟨w, hw, rfl⟩ := List.mem_map.mp hb
    exact hv.home w hw
  obtain ⟨f, hb, hcommit, hf⟩ := commit_eq
    { m with buf := Writes.apply m.buf tx, lh := tx.map Prod.fst } hs hpos
    (by simpa using hv.room) hhome
  have hpend := pending_of_header hs hq hv hlen (Writes.apply m.buf tx start)
  -- what `install_trans` reads back from the log is the new state
  have hnew : ∀ i b, (tx.map Prod.fst)[i]? = some b → f (start + i + 1) = Writes.apply s tx b :=
    fun i b hi => (hf i b hi).trans
      (Writes.apply_congr fun hn => absurd (mem_of_getElem? hi) hn)
  set lw := logWrites start (Writes.apply m.buf tx) 0 (tx.map Prod.fst) with hlw
  set hd := (start, encodeHead (Writes.apply m.buf tx start) (tx.map Prod.fst)) with hhd
  have hdisk : ∀ ws, Writes.apply m.disk (lw ++ hd :: ws) =
      Writes.apply (Writes.apply m.disk (lw ++ [hd])) ws := fun ws => by
    rw [← Writes.apply_append, append_assoc, singleton_append]
  refine ⟨_, _, by rw [runTx, hlog, map_some, hcommit], rfl, rfl, ⟨rfl, ?_, ?_⟩, ?_⟩
  · refine funext fun b => Writes.apply_congr fun hn => ?_
    change Writes.apply m.buf tx b = m.disk b
    rw [Writes.apply_of_notMem, hq.buf]
    refine fun hm => hn ?_
    simp only [finishWrites, map_append, map_cons, keys_installWrites]
    simp [hm]
  · change Clean start size (Writes.apply m.disk (lw ++ hd :: finishWrites start f _ hb)) _
    rw [hdisk]
    exact hpend.finish hs hnew hb
  · intro k
    rcases le_or_gt k lw.length with hk | hk
    · left; left
      rw [take_append_of_le_length hk]
      exact clean_take_logWrites hq.clean _ (by simpa using hv.room) k
    · right
      obtain ⟨r, rfl⟩ : ∃ r, k = lw.length + (r + 1) := ⟨k - lw.length - 1, by omega⟩
      rw [take_length_add_append, take_succ_cons, hdisk]
      exact hpend.finish_take hs hnew hb r

variable {txs : List Tx}

theorem runTx_run (hs : 0 < size)
    (hq : Quiet start size m s) (hv : ∀ tx ∈ txs, ValidTx start size tx)
    (hlen : ∀ tx ∈ txs, tx.length ≤ LOGSIZE) :
    ∃ m', run (runTx start size) m txs = some m' ∧
      Quiet start size m' (Writes.apply s txs.flatten) := by
  induction txs generalizing m s with
  | nil => exact ⟨m, rfl, by simpa using hq⟩
  | cons tx txs ih =>
    rw [forall_mem_cons] at hv hlen
    obtain ⟨m₁, ws, h₁, -, -, hq₁, -⟩ := runTx_spec hs hq hv.1 hlen.1
    obtain ⟨m', h', hq'⟩ := ih hq₁ hv.2 hlen.2
    refine ⟨m', ?_, ?_⟩
    · rw [run_cons, h₁, bind_some, h']
    · rwa [flatten_cons, Writes.apply_append]

/-- A crash after `k` writes of the run `txs` leaves a disk of the state after `j` transactions,
and the transactions whose `commit` had returned by then are among these. -/
def LeavesPrefix (start size : ℕ) (d₀ : ℕ → Block) (txs : List Tx) (d : ℕ → Block) (k j : ℕ) :
    Prop :=
  j ≤ txs.length ∧ Recoverable start size d (Writes.apply d₀ (txs.take j).flatten) ∧
    ∀ i ≤ txs.length, ∀ m, run (runTx start size) (restart d₀) (txs.take i) = some m →
      m.writes.length ≤ k → i ≤ j

variable {d₀ d : ℕ → Block}

theorem LeavesPrefix.all {k : ℕ} (h : Recoverable start size d (Writes.apply d₀ txs.flatten)) :
    LeavesPrefix start size d₀ txs d k txs.length :=
  ⟨le_rfl, by rwa [take_length], fun _ hi _ _ _ => hi⟩

theorem LeavesPrefix.concat {k j : ℕ} (h : LeavesPrefix start size d₀ txs d k j)
    (hr : run (runTx start size) (restart d₀) (txs ++ [tx]) = some m) (hk : k < m.writes.length) :
    LeavesPrefix start size d₀ (txs ++ [tx]) d k j := by
  obtain ⟨hj, hd, hret⟩ := h
  refine ⟨?_, by rwa [take_append_of_le_length hj], fun i hi m' hm' hle => ?_⟩
  · simp only [length_append, length_singleton]
    omega
  · simp only [length_append, length_singleton] at hi
    rcases Nat.lt_or_eq_of_le hi with hi | rfl
    · rw [take_append_of_le_length (by omega)] at hm'
      exact hret i (by omega) m' hm' hle
    · rw [take_of_length_le (by simp), hr, Option.some.injEq] at hm'
      subst hm'
      omega

structure Survives (start size : ℕ) (d₀ : ℕ → Block) (txs : List Tx) (m : Mach) : Prop where
  quiet : Quiet start size m (Writes.apply d₀ txs.flatten)
  disk : m.disk = Writes.apply d₀ m.writes
  crash : ∀ k, ∃ j, LeavesPrefix start size d₀ txs (Writes.apply d₀ (m.writes.take k)) k j

theorem run_survives {d₀ : ℕ → Block} (hs : 0 < size) (h₀ : decodeHead (d₀ start) = [])
    (hr : run (runTx start size) (restart d₀) txs = some m)
    (hv : ∀ tx ∈ txs, ValidTx start size tx) : Survives start size d₀ txs m := by
  revert hv
  refine run_history (I := fun txs m => (∀ tx ∈ txs, ValidTx start size tx) → Survives start size d₀ txs m)
    (fun _ => ?_) (fun txs m tx m' hrun ih _ hstep hv => ?_) (along_true _ _) hr
  · have hc : Clean start size d₀ d₀ := ⟨h₀, fun _ _ => rfl⟩
    refine ⟨⟨rfl, rfl, hc⟩, rfl, fun k => ⟨0, LeavesPrefix.all (Or.inl ?_)⟩⟩
    simpa [restart] using hc
  simp only [mem_append, mem_singleton, or_imp, forall_and, forall_eq] at hv
  obtain ⟨hq, hdisk, hpre⟩ := ih hv.1
  have hlen : tx.length ≤ LOGSIZE := by
    obtain ⟨m₁, h₁, -⟩ := map_eq_some_iff.mp hstep
    have := length_le_of_logTx h₁ (by simpa [hq.lh] using hv.2.nodup)
    rcases this with rfl | h
    · exact Nat.zero_le _
    · omega
  obtain ⟨n, ws, hn, hw, hd, hqn, hmid⟩ := runTx_spec hs hq hv.2 hlen
  obtain rfl : n = m' := Option.some.inj (hn.symm.trans hstep)
  have hrun' := run_concat_eq_some.mpr ⟨m, hrun, hstep⟩
  have hflat : Writes.apply d₀ (txs ++ [tx]).flatten =
      Writes.apply (Writes.apply d₀ txs.flatten) tx := by
    rw [flatten_append, Writes.apply_append, flatten_singleton]
  have hdisk' : n.disk = Writes.apply d₀ n.writes := by rw [hd, hw, Writes.apply_append, hdisk]
  refine ⟨by rwa [hflat], hdisk', fun k => ?_⟩
  rcases le_or_gt n.writes.length k with hk | hk
  · -- the last commit had returned
    refine ⟨_, LeavesPrefix.all ?_⟩
    rw [take_of_length_le hk, ← hdisk', hflat]
    exact Or.inl hqn.clean
  rcases le_or_gt k m.writes.length with hkm | hkm
  · obtain ⟨j, hj⟩ := hpre k
    refine ⟨j, ?_⟩
    rw [hw, take_append_of_le_length hkm]
    exact hj.concat hrun' hk
  · -- the crash is inside the last transaction
    obtain ⟨r, rfl⟩ : ∃ r, k = m.writes.length + r := ⟨k - m.writes.length, by omega⟩
    rw [hw, take_length_add_append, Writes.apply_append, ← hdisk]
    rcases hmid r with h | h
    · exact ⟨_, (LeavesPrefix.all h).concat hrun' hk⟩
    · exact ⟨_, LeavesPrefix.all (by rwa [hflat])⟩

/-- Crash atomicity: whatever the crash left, and however often recovery was itself cut short,
the completed recovery restores the state after a whole prefix of the transactions, with every
transaction whose `commit` had returned in it. -/
theorem recover_atomic {d₀ : ℕ → Block} (hs : 0 < size) (h₀ : decodeHead (d₀ start) = [])
    {txs : List Tx} (hv : ∀ tx ∈ txs, ValidTx start size tx) :
    ((∀ tx ∈ txs, tx.length ≤ LOGSIZE) → (run (runTx start size) (restart d₀) txs).isSome) ∧
    ∀ m, run (runTx start size) (restart d₀) txs = some m → ∀ (k : ℕ) (crashes : List ℕ),
      let d := crashes.foldl (crashInRecovery start) (Writes.apply d₀ (m.writes.take k))
      let d' := (recoverFromLog start (restart d)).disk
      ∃ j ≤ txs.length, decodeHead (d' start) = [] ∧
        (∀ b, Home start size b → d' b = Writes.apply d₀ (txs.take j).flatten b) ∧
        ∀ i ≤ txs.length, ∀ m', run (runTx start size) (restart d₀) (txs.take i) = some m' →
          m'.writes.length ≤ k → i ≤ j := by
  refine ⟨fun hlen => ?_, fun m hr k crashes => ?_⟩
  · obtain ⟨m, hm, -⟩ := runTx_run (m := restart d₀) hs ⟨rfl, rfl, h₀, fun _ _ => rfl⟩ hv hlen
    rw [hm]
    rfl
  · obtain ⟨j, hj, hd, hret⟩ := (run_survives hs h₀ hr hv).crash k
    have hrec := (hd.crashes hs crashes).recover hs
    exact ⟨j, hj, hrec.1, hrec.2, hret⟩

def someTxs : List Tx := [[(40, fun _ => 1)], [(40, fun _ => 2), (41, fun _ => 3)]]

theorem recover_atomic_someTxs :
    ∃ m, run (runTx 2 30) (restart fun _ _ => 0) someTxs = some m ∧ ∀ (k : ℕ) (crashes : List ℕ),
      ∃ j ≤ 2, ∀ b, Home 2 30 b →
        (recoverFromLog 2 (restart (crashes.foldl (crashInRecovery 2)
          (Writes.apply (fun _ _ => 0) (m.writes.take k))))).disk b =
          Writes.apply (fun _ _ => 0) (someTxs.take j).flatten b := by
  have hv : ∀ tx ∈ someTxs, ValidTx 2 30 tx := by
    simp only [someTxs, forall_mem_cons, not_mem_nil, false_imp_iff, implies_true,
      and_true]
    exact ⟨⟨by decide, by simp [Home], by decide⟩, ⟨by decide, by simp [Home], by decide⟩⟩
  obtain ⟨hsome, hall⟩ :=
    @recover_atomic 2 30 (fun _ _ => 0) (by decide) (by decide +kernel) someTxs hv
  obtain ⟨m, hm⟩ := isSome_iff_exists.mp (hsome (by decide))
  refine ⟨m, hm, fun k crashes => ?_⟩
  obtain ⟨j, hj, -, hd, -⟩ := hall m hm k crashes
  exact ⟨j, hj, hd⟩

end
end Xv6.Log
