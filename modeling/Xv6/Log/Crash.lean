import Xv6.Log.Redo

/-! Crash atomicity of the redo log: every disk that a crash can leave is recovered to the
state after some whole number of transactions. -/
namespace Xv6.Log
open Bytes Function List

theorem getWord_putBlocks_of_lt (hb : Block) (i : ℕ) (bs : List ℕ) {off : ℕ}
    (h : off + 4 ≤ 4 + 4 * i) : getWord (putBlocks hb i bs) off = getWord hb off := by
  induction bs generalizing hb i with
  | nil => rfl
  | cons b bs ih => rw [putBlocks, ih _ _ (by omega), getWord_putWord_of_ne _ _ (by omega)]

theorem getWord_putBlocks (hb : Block) (i : ℕ) (bs : List ℕ) (hlen : i + bs.length ≤ LOGSIZE)
    {j b : ℕ} (hj : bs[j]? = some b) :
    getWord (putBlocks hb i bs) (4 + 4 * (i + j)) = BitVec.ofNat 32 b := by
  induction bs generalizing hb i j with
  | nil => cases hj
  | cons c bs ih =>
    simp only [length_cons] at hlen
    rw [putBlocks]
    cases j with
    | zero =>
      cases hj
      rw [add_zero, getWord_putBlocks_of_lt _ _ _ (by omega)]
      apply getWord_putWord
      simp only [LOGSIZE, MAXOPBLOCKS] at hlen
      simp only [BSIZE]
      omega
    | succ j =>
      rw [show i + (j + 1) = i + 1 + j by omega]
      exact ih _ _ (by omega) (by simpa using hj)

theorem decodeHead_encodeHead (hb : Block) {bs : List ℕ} (hlen : bs.length ≤ LOGSIZE)
    (hbs : ∀ b ∈ bs, b < 2 ^ 32) : decodeHead (encodeHead hb bs) = bs := by
  have hn : (getWord (encodeHead hb bs) 0).toInt.toNat = bs.length := by
    rw [encodeHead, getWord_putBlocks_of_lt _ _ _ (by omega), getWord_putWord _ _ (by decide)]
    simp only [LOGSIZE, MAXOPBLOCKS] at hlen
    rw [BitVec.toInt_eq_toNat_of_lt] <;> simp <;> omega
  refine ext_getElem? fun j => ?_
  rw [decodeHead, hn, getElem?_map]
  rcases lt_or_ge j bs.length with hj | hj
  · have hget := getElem?_eq_getElem hj
    rw [getElem?_range hj, hget, Option.map_some, encodeHead]
    have := getWord_putBlocks (putWord hb 0 (BitVec.ofNat 32 bs.length)) 0 bs (by omega) hget
    rw [zero_add] at this
    rw [this, BitVec.toNat_ofNat, Nat.mod_eq_of_lt (hbs _ (getElem_mem hj))]
  · rw [getElem?_eq_none (by simpa using hj), getElem?_eq_none hj]
    rfl

theorem decodeHead_cleared (hb : Block) : decodeHead (encodeHead hb []) = [] :=
  decodeHead_encodeHead hb (by decide) (by simp)

section
variable (start : ℕ)

def Mach.through (m : Mach) (ws : List (ℕ × Block)) : Mach :=
  { m with
    disk := Writes.apply m.disk ws, buf := Writes.apply m.buf ws, writes := m.writes ++ ws }

theorem through_nil (m : Mach) : m.through [] = m := by simp [Mach.through]

theorem through_append (m : Mach) (ws vs : List (ℕ × Block)) :
    (m.through ws).through vs = m.through (ws ++ vs) := by
  simp only [Mach.through, Writes.apply_append, append_assoc]

theorem bwrite_store (m : Mach) (b : ℕ) (x : Block) :
    bwrite (m.store b x) b = m.through [(b, x)] := by
  simp [bwrite, Mach.store, Mach.through, Writes.apply]

def logWrites (f : ℕ → Block) : ℕ → List ℕ → List (ℕ × Block)
  | _, [] => []
  | tail, b :: bs => (start + tail + 1, f b) :: logWrites f (tail + 1) bs

def installWrites (f : ℕ → Block) : ℕ → List ℕ → List (ℕ × Block)
  | _, [] => []
  | tail, b :: bs => (b, f (start + tail + 1)) :: installWrites f (tail + 1) bs

variable {bs : List ℕ}

theorem logWrites_congr {f g : ℕ → Block} (tail : ℕ) (h : ∀ b ∈ bs, f b = g b) :
    logWrites start f tail bs = logWrites start g tail bs := by
  induction bs generalizing tail with
  | nil => rfl
  | cons b bs ih =>
    rw [logWrites, logWrites, h b mem_cons_self, ih _ fun c hc => h c (mem_cons_of_mem _ hc)]

theorem installWrites_congr {f g : ℕ → Block} {tail : ℕ}
    (h : ∀ i < bs.length, f (start + (tail + i) + 1) = g (start + (tail + i) + 1)) :
    installWrites start f tail bs = installWrites start g tail bs := by
  induction bs generalizing tail with
  | nil => rfl
  | cons b bs ih =>
    have h0 := h 0 (by simp)
    rw [add_zero] at h0
    rw [installWrites, installWrites, h0, ih fun i hi => ?_]
    rw [show tail + 1 + i = tail + (i + 1) by omega]
    exact h (i + 1) (by simpa using hi)

theorem writeLogFrom_eq (tail : ℕ) (m : Mach)
    (h : ∀ b ∈ bs, b ≤ start + tail ∨ start + tail + bs.length < b) :
    writeLogFrom start tail bs m = m.through (logWrites start m.buf tail bs) := by
  induction bs generalizing tail m with
  | nil => exact (through_nil m).symm
  | cons b bs ih =>
    simp only [length_cons, forall_mem_cons] at h
    rw [writeLogFrom, bwrite_store, ih _ _ fun c hc => ?_]
    · rw [through_append, logWrites, singleton_append]
      congr 2
      refine logWrites_congr start _ fun c hc => ?_
      have := h.2 c hc
      exact update_of_ne (by omega) _ _
    · have := h.2 c hc
      omega

theorem installFrom_eq (tail : ℕ) (m : Mach)
    (h : ∀ b ∈ bs, b ≤ start + tail ∨ start + tail + bs.length < b) :
    installFrom start tail bs m = m.through (installWrites start m.buf tail bs) := by
  induction bs generalizing tail m with
  | nil => exact (through_nil m).symm
  | cons b bs ih =>
    simp only [length_cons, forall_mem_cons] at h
    rw [installFrom, bwrite_store, ih _ _ fun c hc => ?_]
    · rw [through_append, installWrites, singleton_append]
      congr 2
      refine installWrites_congr start fun i hi => ?_
      have := h.1
      exact update_of_ne (by omega) _ _
    · have := h.2 c hc
      omega

theorem writeLogFrom_lh (tail : ℕ) (bs : List ℕ) (m : Mach) :
    (writeLogFrom start tail bs m).lh = m.lh := by
  induction bs generalizing tail m with
  | nil => rfl
  | cons b bs ih => exact ih _ _

theorem installFrom_lh (tail : ℕ) (bs : List ℕ) (m : Mach) :
    (installFrom start tail bs m).lh = m.lh := by
  induction bs generalizing tail m with
  | nil => rfl
  | cons b bs ih => exact ih _ _

theorem writeHead_eq (m : Mach) :
    writeHead start m = m.through [(start, encodeHead (m.buf start) m.lh)] := bwrite_store _ _ _

end

section
variable {start size : ℕ}

/-- Nothing is pending and the home blocks are those of `s`. -/
def Clean (start size : ℕ) (d s : ℕ → Block) : Prop :=
  decodeHead (d start) = [] ∧ ∀ b, Home start size b → d b = s b

/-- The header names the blocks `bs`, whose contents in `s` are in the log; the other home
blocks are those of `s` already. -/
structure Pending (start size : ℕ) (d s : ℕ → Block) (bs : List ℕ) : Prop where
  head : decodeHead (d start) = bs
  room : bs.length ≤ size - 1
  home : ∀ b ∈ bs, Home start size b
  logged : ∀ i b, bs[i]? = some b → d (start + i + 1) = s b
  rest : ∀ b, Home start size b → b ∉ bs → d b = s b

def Recoverable (start size : ℕ) (d s : ℕ → Block) : Prop :=
  Clean start size d s ∨ ∃ bs, Pending start size d s bs

theorem Home.ne_log {b i : ℕ} (h : Home start size b) (hi : i + 1 < size) : b ≠ start + i + 1 := by
  have := h.1
  omega

theorem Home.ne_start {b : ℕ} (h : Home start size b) (hs : 0 < size) : b ≠ start := by
  have := h.1
  omega

theorem keys_installWrites (f : ℕ → Block) (tail : ℕ) (bs : List ℕ) :
    (installWrites start f tail bs).map Prod.fst = bs := by
  induction bs generalizing tail with
  | nil => rfl
  | cons b bs ih => rw [installWrites, map_cons, ih]

variable {bs : List ℕ}

theorem installWrites_agree {f s : ℕ → Block} {tail : ℕ}
    (h : ∀ i b, bs[i]? = some b → f (start + (tail + i) + 1) = s b) :
    ∀ w ∈ installWrites start f tail bs, w.2 = s w.1 := by
  induction bs generalizing tail with
  | nil => simp [installWrites]
  | cons b bs ih =>
    rw [installWrites, forall_mem_cons]
    refine ⟨by simpa using h 0 b rfl, ih fun i c hc => ?_⟩
    rw [show tail + 1 + i = tail + (i + 1) by omega]
    exact h (i + 1) c (by simpa using hc)

variable {d s : ℕ → Block}

/-- Whatever is written to the named blocks, the transaction stays pending. -/
theorem Pending.apply (h : Pending start size d s bs)
    (hs : 0 < size) {ws : List (ℕ × Block)} (hk : ∀ b ∈ ws.map Prod.fst, b ∈ bs) :
    Pending start size (Writes.apply d ws) s bs := by
  have hout : ∀ b, ¬ Home start size b → Writes.apply d ws b = d b := fun b hb =>
    Writes.apply_of_notMem d fun hm => hb (h.home b (hk b hm))
  refine ⟨?_, h.room, h.home, ?_, ?_⟩
  · rw [hout start fun hb => hb.ne_start hs rfl]
    exact h.head
  · intro i b hb
    obtain ⟨hi, -⟩ := List.getElem?_eq_some_iff.mp hb
    have hroom := h.room
    rw [hout _ fun hh => hh.ne_log (by omega : i + 1 < size) rfl]
    exact h.logged i b hb
  · intro b hb hn
    rw [Writes.apply_of_notMem d fun hm => hn (hk b hm)]
    exact h.rest b hb hn

def finishWrites (start : ℕ) (f : ℕ → Block) (bs : List ℕ) (hb : Block) : List (ℕ × Block) :=
  installWrites start f 0 bs ++ [(start, encodeHead hb [])]

theorem Pending.finish (h : Pending start size d s bs)
    (hs : 0 < size) {f : ℕ → Block} (hf : ∀ i b, bs[i]? = some b → f (start + i + 1) = s b)
    (hb : Block) : Clean start size (Writes.apply d (finishWrites start f bs hb)) s := by
  have hagree : ∀ w ∈ installWrites start f 0 bs, w.2 = s w.1 :=
    installWrites_agree (by simpa using hf)
  rw [finishWrites, Writes.apply_append, Writes.apply_cons, Writes.apply_nil]
  refine ⟨?_, fun b hh => ?_⟩
  · rw [update_self]
    exact decodeHead_cleared hb
  · rw [update_of_ne (hh.ne_start hs)]
    by_cases hm : b ∈ bs
    · exact Writes.apply_of_agree d hagree (by rwa [keys_installWrites])
    · rw [Writes.apply_of_notMem d (by rwa [keys_installWrites])]
      exact h.rest b hh hm

theorem Pending.finish_take (h : Pending start size d s bs)
    (hs : 0 < size) {f : ℕ → Block} (hf : ∀ i b, bs[i]? = some b → f (start + i + 1) = s b)
    (hb : Block) (k : ℕ) :
    Recoverable start size (Writes.apply d ((finishWrites start f bs hb).take k)) s := by
  rcases le_or_gt k (installWrites start f 0 bs).length with hk | hk
  · rw [finishWrites, take_append_of_le_length hk]
    refine Or.inr ⟨bs, h.apply hs fun b hm => ?_⟩
    rw [map_take, keys_installWrites] at hm
    exact mem_of_mem_take hm
  · rw [take_of_length_le (by simp [finishWrites]; omega)]
    exact Or.inl (h.finish hs hf hb)

theorem recoverFromLog_eq {d : ℕ → Block} (hs : 0 < size)
    (hroom : (decodeHead (d start)).length ≤ size - 1)
    (hhome : ∀ b ∈ decodeHead (d start), Home start size b) :
    (recoverFromLog start (restart d)).writes =
        finishWrites start d (decodeHead (d start)) (d start) ∧
      (recoverFromLog start (restart d)).disk =
        Writes.apply d (finishWrites start d (decodeHead (d start)) (d start)) := by
  have hi : installTrans start (readHead start (restart d)) =
      (readHead start (restart d)).through (installWrites start d 0 (decodeHead (d start))) :=
    installFrom_eq start 0 _ fun b hb => by
      have := (hhome b hb).1
      change b ≤ start + 0 ∨ start + 0 + (decodeHead (d start)).length < b
      omega
  have hstart : Writes.apply d (installWrites start d 0 (decodeHead (d start))) start = d start := by
    apply Writes.apply_of_notMem
    rw [keys_installWrites]
    exact fun hm => (hhome start hm).ne_start hs rfl
  rw [recoverFromLog, hi, writeHead_eq]
  simp only [Mach.through, readHead, restart, nil_append, hstart, finishWrites,
    Writes.apply_append, and_self]

theorem Clean.pending (h : Clean start size d s) :
    Pending start size d s [] := ⟨h.1, Nat.zero_le _, by simp, by simp, fun b hb _ => h.2 b hb⟩

theorem Recoverable.pending (h : Recoverable start size d s) :
    ∃ bs, Pending start size d s bs := h.elim (fun h => ⟨[], h.pending⟩) id

/-- A crash inside recovery leaves a recoverable disk of the same state. -/
theorem Recoverable.crash (h : Recoverable start size d s) (hs : 0 < size)
    (k : ℕ) : Recoverable start size (crashInRecovery start d k) s := by
  obtain ⟨bs, hp⟩ := h.pending
  obtain ⟨hw, -⟩ := recoverFromLog_eq (d := d) hs (by rw [hp.head]; exact hp.room)
    (by rw [hp.head]; exact hp.home)
  rw [crashInRecovery, hw, hp.head]
  exact hp.finish_take hs hp.logged _ k

theorem Recoverable.recover (h : Recoverable start size d s) (hs : 0 < size) :
    Clean start size (recoverFromLog start (restart d)).disk s := by
  obtain ⟨bs, hp⟩ := h.pending
  obtain ⟨-, hd⟩ := recoverFromLog_eq (d := d) hs (by rw [hp.head]; exact hp.room)
    (by rw [hp.head]; exact hp.home)
  rw [hd, hp.head]
  exact hp.finish hs hp.logged _

theorem Recoverable.crashes (h : Recoverable start size d s) (hs : 0 < size)
    (ks : List ℕ) : Recoverable start size (ks.foldl (crashInRecovery start) d) s := by
  induction ks generalizing d with
  | nil => exact h
  | cons k ks ih => exact ih (h.crash hs k)

/-- Distinct home blocks, no more than the log has data blocks. -/
structure ValidTx (start size : ℕ) (tx : Tx) : Prop where
  nodup : (tx.map Prod.fst).Nodup
  home : ∀ w ∈ tx, Home start size w.1
  room : tx.length ≤ size - 1

structure Quiet (start size : ℕ) (m : Mach) (s : ℕ → Block) : Prop where
  lh : m.lh = []
  buf : m.buf = m.disk
  clean : Clean start size m.disk s

theorem logTx_eq {m : Mach} {tx : Tx} (hn : (m.lh ++ tx.map Prod.fst).Nodup)
    (h₁ : m.lh.length + tx.length ≤ size - 1) (h₂ : m.lh.length + tx.length ≤ LOGSIZE) :
    logTx size m tx = some { m with
      buf := Writes.apply m.buf tx, lh := m.lh ++ tx.map Prod.fst } := by
  induction tx generalizing m with
  | nil => simp [logTx, PartialRun.run]
  | cons w tx ih =>
    simp only [length_cons] at h₁ h₂
    have hw : w.1 ∉ m.lh := by
      rw [map_cons, nodup_append] at hn
      exact fun hm => hn.2.2 w.1 hm w.1 mem_cons_self rfl
    have hstep : logWrite size (m.store w.1 w.2) w.1 =
        some { m.store w.1 w.2 with lh := m.lh ++ [w.1] } := by
      rw [logWrite, if_neg (by change ¬ (LOGSIZE ≤ m.lh.length ∨ size - 1 ≤ m.lh.length); omega)]
      exact congrArg some (if_neg hw)
    rw [logTx, PartialRun.run_cons, hstep, Option.bind_some]
    refine (ih ?_ ?_ ?_).trans ?_
    · simpa using hn
    · simp only [length_append, length_singleton]
      omega
    · simp only [length_append, length_singleton]
      omega
    · simp [Mach.store]

theorem keys_logWrites (start : ℕ) (f : ℕ → Block) (tail : ℕ) (bs : List ℕ) :
    (logWrites start f tail bs).map Prod.fst =
      (List.range' tail bs.length).map fun i => start + i + 1 := by
  induction bs generalizing tail with
  | nil => rfl
  | cons b bs ih => rw [logWrites, map_cons, ih, length_cons, range'_succ]; rfl

theorem mem_logWrites (start : ℕ) (f : ℕ → Block) (tail : ℕ) {i b : ℕ} (h : bs[i]? = some b) :
    (start + (tail + i) + 1, f b) ∈ logWrites start f tail bs := by
  induction bs generalizing tail i with
  | nil => cases h
  | cons c bs ih =>
    rw [logWrites, mem_cons]
    cases i with
    | zero => cases h; exact Or.inl rfl
    | succ i =>
      rw [show tail + (i + 1) = tail + 1 + i by omega]
      exact Or.inr (ih _ (by simpa using h))

theorem nodup_keys_logWrites (start : ℕ) (f : ℕ → Block) (tail : ℕ) (bs : List ℕ) :
    ((logWrites start f tail bs).map Prod.fst).Nodup := by
  rw [keys_logWrites]
  exact List.Nodup.map (fun i j (h : start + i + 1 = start + j + 1) => by omega)
    (nodup_range' 1)

theorem commit_eq (m : Mach) (hs : 0 < size) (hpos : 0 < m.lh.length)
    (hroom : m.lh.length ≤ size - 1) (hhome : ∀ b ∈ m.lh, Home start size b) :
    ∃ (f : ℕ → Block) (hb : Block),
      commit start m = { m.through (logWrites start m.buf 0 m.lh ++
        (start, encodeHead (m.buf start) m.lh) :: finishWrites start f m.lh hb) with lh := [] } ∧
      ∀ i b, m.lh[i]? = some b → f (start + i + 1) = m.buf b := by
  have hout : ∀ b ∈ m.lh, b ≤ start + 0 ∨ start + 0 + m.lh.length < b := fun b hb => by
    have := (hhome b hb).1
    omega
  have hw : writeLog start m = m.through (logWrites start m.buf 0 m.lh) := writeLogFrom_eq start 0 m hout
  have hstart : Writes.apply m.buf (logWrites start m.buf 0 m.lh) start = m.buf start := by
    apply Writes.apply_of_notMem
    rw [keys_logWrites]
    simp only [mem_map, not_exists, not_and]
    intros
    omega
  set m₁ := m.through (logWrites start m.buf 0 m.lh ++ [(start, encodeHead (m.buf start) m.lh)])
    with hm₁
  have hh : writeHead start (writeLog start m) = m₁ := by
    rw [hw, writeHead_eq, hm₁, ← through_append]
    simp only [Mach.through, hstart]
  have hi : installTrans start m₁ = m₁.through (installWrites start m₁.buf 0 m.lh) :=
    installFrom_eq start 0 m₁ hout
  refine ⟨m₁.buf, (m₁.through (installWrites start m₁.buf 0 m.lh)).buf start, ?_, ?_⟩
  · rw [commit, if_pos hpos, hh, hi, writeHead_eq, finishWrites]
    simp only [Mach.through, hm₁, Writes.apply_append, Writes.apply_cons, Writes.apply_nil,
      append_assoc, cons_append, nil_append]
  · intro i b hb
    obtain ⟨hlt, -⟩ := List.getElem?_eq_some_iff.mp hb
    rw [hm₁, Mach.through]
    simp only [Writes.apply_append, Writes.apply_cons, Writes.apply_nil]
    rw [update_of_ne (by omega)]
    have := Writes.apply_of_mem m.buf (nodup_keys_logWrites start m.buf 0 m.lh)
      (mem_logWrites start m.buf 0 hb)
    simpa using this

end
end Xv6.Log
