import Xv6.Bio.Coherent

/-! `write_log` and `install_trans` copy from one held buffer to another. The copies leave the blocks
of the file system as they are, when nothing else changes the blocks that are being committed. -/
namespace Xv6.Bio
open PartialRun Function List Option
variable {D : Type*} {c : Conf} {e : Event D} {l : List ℕ} {i n : ℕ} {r : Request}

/-- A call on the cache, or one of the copies of `commit`. What recovery installs is a modification as
any other. -/
inductive Move (D : Type*) where
  | call (e : Event D)
  | writeLog (tail pid src dst : ℕ)
  | writeHead (pid i : ℕ) (d : D)
  | installTrans (tail pid lbuf dbuf : ℕ)

def Move.event (s : State D) : Move D → Event D
  | .call e => e
  | .writeLog _ pid src dst => .modify pid dst (s.buf src).data
  | .writeHead pid i d => .modify pid i d
  | .installTrans _ pid lbuf dbuf => .modify pid dbuf (s.buf lbuf).data

structure Client (D : Type*) where
  sh : Shadow D
  user : ℕ → D
  wrote : ℕ

/-- The buffers that the loops of `commit` have at this point; `start` is `log.start`. -/
def Move.Enabled (start : ℕ) (x : Client D) : Move D → Prop
  | .call _ => True
  | .writeLog tail pid src dst => x.wrote = tail ∧ x.sh.st.phase = .committing 0 ∧
      (x.sh.st.buf src).lock = some pid ∧ x.sh.st.lh[tail]? = some (x.sh.st.buf src).blockno ∧
      (x.sh.st.buf dst).blockno = start + tail + 1
  | .writeHead _ i _ => x.sh.st.phase ≠ .running ∧ (x.sh.st.buf i).blockno = start
  | .installTrans tail pid lbuf dbuf => x.wrote = x.sh.st.lh.length ∧
      x.sh.st.phase = .committing tail ∧ (x.sh.st.buf lbuf).lock = some pid ∧
      x.sh.st.lh[tail]? = some (x.sh.st.buf dbuf).blockno ∧
      (x.sh.st.buf lbuf).blockno = start + tail + 1

instance (start : ℕ) (x : Client D) (m : Move D) : Decidable (m.Enabled start x) :=
  match m with
  | .call _ => isTrue trivial
  | .writeLog _ _ _ _ | .writeHead _ _ _ | .installTrans _ _ _ _ => instDecidableAnd

def Move.user (x : Client D) : Move D → ℕ → D
  | .call (.modify _ i d) => update x.user (x.sh.st.buf i).blockno d
  | _ => x.user

def Move.wrote (x : Client D) : Move D → ℕ
  | .writeLog _ _ _ _ => x.wrote + 1
  | .call .clearLog => 0
  | _ => x.wrote

def Client.step (c : Conf) (start : ℕ) (x : Client D) (m : Move D) : Option (Client D) :=
  if m.Enabled start x then
    (x.sh.step c (m.event x.sh.st)).map fun sh => ⟨sh, m.user x, m.wrote x⟩
  else none

def Client.boot (d : D) (disk : ℕ → D) (lh : List ℕ) : Client D := ⟨.boot d disk lh, disk, 0⟩

def InLog (c : Conf) (start n : ℕ) : Prop := n = start ∨ start < n ∧ n < start + c.size

/-- Nothing but `commit` changes the blocks of the log, or a block that is being committed. -/
def Apart (c : Conf) (start : ℕ) (x : Client D) : Move D → Prop
  | .call (.modify _ i _) => ¬ InLog c start (x.sh.st.buf i).blockno ∧
      (x.sh.st.phase ≠ .running → (x.sh.st.buf i).blockno ∉ x.sh.st.pins)
  | .call (.logWrite _ i) => ¬ InLog c start (x.sh.st.buf i).blockno
  | _ => True

structure Kept (c : Conf) (start : ℕ) (x : Client D) : Prop where
  home : ∀ {n}, ¬ InLog c start n → x.user n = x.sh.arr n
  idle : (∀ tail, x.sh.st.phase ≠ .committing tail) → x.wrote = 0
  le : x.wrote ≤ x.sh.st.lh.length
  copied : ∀ {tail k n}, x.sh.st.phase = .committing tail → tail ≤ k → k < x.wrote →
    x.sh.st.lh[k]? = some n → x.sh.arr (start + k + 1) = x.sh.arr n
  logged : x.sh.st.phase ≠ .recovering → ∀ n ∈ x.sh.st.lh, ¬ InLog c start n
  fits : x.sh.st.phase ≠ .recovering → x.sh.st.lh ≠ [] → x.sh.st.lh.length < c.size

variable {start tail k : ℕ} {x z : Client D} {m : Move D}

theorem Client.of_step (hs : x.step c start m = some z) : m.Enabled start x ∧
    x.sh.step c (m.event x.sh.st) = some z.sh ∧ z.user = m.user x ∧ z.wrote = m.wrote x := by
  rw [Client.step, ite_none_right_eq_some] at hs
  obtain ⟨y, hy, rfl⟩ := map_eq_some_iff.mp hs.2
  exact ⟨hs.1, hy, rfl, rfl⟩

theorem Kept.inLog (h : Kept c start x) (hph : x.sh.st.phase = .committing tail)
    (hn : x.sh.st.lh[k]? = some n) : InLog c start (start + k + 1) ∧ ¬ InLog c start n := by
  obtain ⟨hlt, rfl⟩ := List.getElem?_eq_some_iff.mp hn
  have hne : x.sh.st.phase ≠ .recovering := by
    rw [hph]
    exact nofun
  have hfits := h.fits hne (ne_nil_of_length_pos (Nat.zero_lt_of_lt hlt))
  exact ⟨.inr ⟨by omega, by omega⟩, h.logged hne _ (getElem_mem hlt)⟩

theorem Kept.frame {t : State D} {dirty : ℕ → Bool} (h : Kept c start x)
    (hph : t.phase = x.sh.st.phase) (hlh : t.lh = x.sh.st.lh) :
    Kept c start ⟨⟨t, x.sh.arr, dirty⟩, x.user, x.wrote⟩ := by
  refine ⟨h.home, ?_, ?_, ?_, ?_, ?_⟩ <;> dsimp only
  · rw [hph]
    exact h.idle
  · rw [hlh]
    exact h.le
  · rw [hph, hlh]
    exact h.copied
  · rw [hph, hlh]
    exact h.logged
  · rw [hph, hlh]
    exact h.fits

theorem Kept.modify {t : State D} {dirty : ℕ → Bool} {user : ℕ → D} {w : ℕ} {d : D}
    (h : Kept c start x) (hph : t.phase = x.sh.st.phase) (hlh : t.lh = x.sh.st.lh)
    (hhome : ¬ InLog c start n → user n = d) (huser : ∀ b ≠ n, user b = x.user b)
    (hidle : (∀ tail, x.sh.st.phase ≠ .committing tail) → w = 0) (hle : w ≤ x.sh.st.lh.length)
    (hcopied : ∀ {tail k b}, x.sh.st.phase = .committing tail → tail ≤ k → k < w →
      x.sh.st.lh[k]? = some b →
      update x.sh.arr n d (start + k + 1) = update x.sh.arr n d b) :
    Kept c start ⟨⟨t, update x.sh.arr n d, dirty⟩, user, w⟩ := by
  refine ⟨fun {b} hb => ?_, ?_, ?_, ?_, ?_, ?_⟩ <;> dsimp only
  · rcases eq_or_ne b n with rfl | hbn
    · rw [update_self]
      exact hhome hb
    · rw [update_of_ne hbn, huser b hbn]
      exact h.home hb
  · rw [hph]
    exact hidle
  · rw [hlh]
    exact hle
  · rw [hph, hlh]
    exact hcopied
  · rw [hph, hlh]
    exact h.logged
  · rw [hph, hlh]
    exact h.fits

theorem kept_call (h : Kept c start x) (hinv : Inv c x.sh.st l) (hap : Apart c start x (.call e))
    (hs : x.step c start (.call e) = some z) : Kept c start z := by
  obtain ⟨y, user, wrote⟩ := z
  obtain ⟨-, hy, rfl, rfl⟩ := Client.of_step hs
  obtain ⟨t, ht, rfl⟩ := map_eq_some_iff.mp hy
  cases e <;> simp only [Move.event, step, guard_iff] at ht
  case bget r =>
    unfold State.bget at ht
    split at ht
    · cases ht
      exact h.frame rfl rfl
    · obtain ⟨i, -, rfl⟩ := map_eq_some_iff.mp ht
      exact h.frame rfl rfl
  case acquire | bwrite | beginOp =>
    obtain ⟨-, rfl⟩ := ht
    exact h.frame rfl rfl
  case modify pid i d =>
    obtain ⟨-, rfl⟩ := ht
    refine h.modify rfl rfl (fun _ => update_self _ _ _)
      (fun b hb => update_of_ne hb _ _) h.idle h.le fun {tail k b} hph hk hkw hb => ?_
    -- the block is neither in the log nor being committed
    obtain ⟨hin, -⟩ := h.inLog hph hb
    have hpin : b ∈ x.sh.st.pins := by
      rw [State.pins, hph]
      obtain ⟨hlt, rfl⟩ := List.getElem?_eq_some_iff.mp hb
      exact mem_drop_iff_getElem.mpr ⟨k - tail, by omega, by simp only [Nat.add_sub_cancel' hk]⟩
    have hrun : x.sh.st.phase ≠ .running := by
      rw [hph]
      rintro ⟨⟩
    have hlogne : start + k + 1 ≠ (x.sh.st.buf i).blockno := fun heq => hap.1 (heq ▸ hin)
    have hpinne : b ≠ (x.sh.st.buf i).blockno := fun heq => hap.2 hrun (heq ▸ hpin)
    rw [update_of_ne hlogne, update_of_ne hpinne]
    exact h.copied hph hk hkw hb
  case logWrite pid i =>
    obtain ⟨⟨-, -, hsize, hout⟩, rfl⟩ := ht
    have hrun := hinv.running hout
    unfold State.logWrite
    split
    · exact h.frame rfl rfl
    · refine ⟨h.home, h.idle, Nat.le_trans h.le ?_, fun {tail k n} hph => ?_, fun hph n hn => ?_,
        fun _ _ => ?_⟩
      · rw [length_append]
        exact Nat.le_add_right _ _
      · have := hrun.symm.trans hph
        cases this
      · rcases mem_append.mp hn with hn | hn
        · exact h.logged hph n hn
        · rw [mem_singleton.mp hn]
          exact hap
      · rw [length_append, length_singleton]
        exact hsize
  case brelse pid i =>
    obtain ⟨-, rfl⟩ := ht
    unfold State.brelse
    dsimp only
    split <;> exact h.frame rfl rfl
  case endOp =>
    obtain ⟨hout, rfl⟩ := ht
    have hrun := hinv.running hout
    have hne : x.sh.st.phase ≠ .recovering := by
      rw [hrun]
      rintro ⟨⟩
    have hzero : x.wrote = 0 := h.idle fun tail htail => by
      rw [hrun] at htail
      cases htail
    refine ⟨h.home, fun _ => hzero, h.le, fun {tail k n} _ _ hk => ?_, fun _ => h.logged hne,
      fun _ => h.fits hne⟩
    dsimp only [Move.wrote] at hk
    omega
  case install pid i =>
    split at ht
    · rename_i tail hph
      simp only [guard_iff] at ht
      obtain ⟨-, rfl⟩ := ht
      have hne : x.sh.st.phase ≠ .recovering := by
        rw [hph]
        rintro ⟨⟩
      refine ⟨h.home, fun hidle => absurd rfl (hidle _), h.le, fun {tail' k n} htail hk => ?_,
        fun _ => h.logged hne, fun _ => h.fits hne⟩
      cases htail
      exact h.copied hph (Nat.le_of_succ_le hk)
    · cases ht
  case clearLog =>
    obtain ⟨-, rfl⟩ := ht
    exact ⟨h.home, fun _ => rfl, Nat.le_refl 0, fun _ _ hk => absurd hk (Nat.not_lt_zero _),
      fun _ _ hn => absurd hn not_mem_nil, fun _ hne => absurd rfl hne⟩
  case commitDone =>
    obtain ⟨⟨hph, hnil⟩, rfl⟩ := ht
    have hle := h.le
    rw [hnil] at hle
    refine ⟨h.home, fun _ => Nat.le_zero.mp hle, h.le, fun hph => (by cases hph), fun _ n hn => ?_, fun _ hne => ?_⟩
    · dsimp only at hn
      rw [hnil] at hn
      cases hn
    · exact absurd hnil hne
  case recoverDone =>
    obtain ⟨hph, rfl⟩ := ht
    have hzero : x.wrote = 0 := h.idle fun tail htail => by
      rw [hph] at htail
      cases htail
    exact ⟨h.home, fun _ => hzero, Nat.le_of_eq hzero, fun hph => (by cases hph), fun _ _ hn => absurd hn not_mem_nil,
      fun _ hne => absurd rfl hne⟩

theorem kept_step (h : Kept c start x) (hinv : Inv c x.sh.st l) (hco : Coherent c x.sh)
    (hap : Apart c start x m) (hs : x.step c start m = some z) : Kept c start z := by
  have hheld : ∀ {i pid}, (x.sh.st.buf i).lock = some pid →
      (x.sh.st.buf i).data = x.sh.arr (x.sh.st.buf i).blockno :=
    fun hl => hco.data (hinv.lt_of_lock hl) (hco.held hl)
  obtain ⟨y, user, wrote⟩ := z
  obtain ⟨hen, hy, rfl, rfl⟩ := Client.of_step hs
  obtain ⟨t, ht, rfl⟩ := map_eq_some_iff.mp hy
  cases m with
  | call e => exact kept_call h hinv hap hs
  | writeLog tail pid src dst =>
    obtain ⟨htail, hph, hl, hn, hdst⟩ := hen
    simp only [Move.event, step, guard_iff] at ht
    obtain ⟨-, rfl⟩ := ht
    obtain ⟨hin, hout⟩ := h.inLog hph hn
    obtain ⟨hlt, -⟩ := List.getElem?_eq_some_iff.mp hn
    refine h.modify rfl rfl (fun hno => absurd (hdst ▸ hin) hno) (fun _ _ => rfl)
      (fun hidle => absurd hph (hidle _)) ?_ fun {tail' k b} hph' hk hkw hb => ?_
    · dsimp only [Move.wrote]
      omega
    dsimp only [Move.wrote] at hkw
    have hbout : b ≠ start + tail + 1 := by
      rintro rfl
      exact (h.inLog hph hb).2 hin
    rw [hdst, update_of_ne hbout]
    rcases eq_or_ne k tail with rfl | hne
    · rw [update_self, hheld hl]
      rw [hn] at hb
      cases hb
      rfl
    · rw [update_of_ne (by omega)]
      exact h.copied hph' hk (by omega) hb
  | writeHead pid i d =>
    obtain ⟨-, hi⟩ := hen
    simp only [Move.event, step, guard_iff] at ht
    obtain ⟨-, rfl⟩ := ht
    refine h.modify rfl rfl (fun hno => absurd (.inl hi) hno) (fun _ _ => rfl) h.idle h.le
      fun {tail k b} hph' hk hkw hb => ?_
    have hbout : b ≠ start := fun heq => (h.inLog hph' hb).2 (.inl heq)
    rw [hi, update_of_ne hbout, update_of_ne (by omega)]
    exact h.copied hph' hk hkw hb
  | installTrans tail pid lbuf dbuf =>
    obtain ⟨hall, hph, hl, hn, hlog⟩ := hen
    simp only [Move.event, step, guard_iff] at ht
    obtain ⟨-, rfl⟩ := ht
    -- the block gets what it has
    obtain ⟨hlt, -⟩ := List.getElem?_eq_some_iff.mp hn
    have hsame : update x.sh.arr (x.sh.st.buf dbuf).blockno (x.sh.st.buf lbuf).data =
        x.sh.arr := by
      rw [hheld hl, hlog, h.copied hph (Nat.le_refl _) (hall ▸ hlt) hn]
      exact update_eq_self _ _
    simp only [Move.event, hsame]
    exact h.frame rfl rfl

structure Sound (c : Conf) (x : Client D) : Prop where
  repr : ∃ l, Inv c x.sh.st l
  coherent : Coherent c x.sh

theorem sound_boot (d : D) (disk : ℕ → D) (lh : List ℕ) : Sound c (.boot d disk lh) :=
  ⟨⟨_, inv_boot d disk lh⟩, coherent_boot d disk lh⟩

theorem sound_step (hlog : 1 ≤ c.logDev) (h : Sound c x)
    (hc : Careful c x.sh (m.event x.sh.st)) (hs : x.step c start m = some z) : Sound c z := by
  obtain ⟨⟨l, hinv⟩, hco⟩ := h
  obtain ⟨-, hy, -, -⟩ := Client.of_step hs
  have hserved := hc.served hco hlog hy
  refine ⟨?_, coherent_step hlog hinv hco hc hy⟩
  obtain ⟨t, ht, hyt⟩ := map_eq_some_iff.mp hy
  rw [← hyt]
  have hstep := inv_step hlog hinv hserved ht
  split at hstep
  · exact ⟨l, hstep⟩
  · obtain ⟨l₁, l₂, -, hinv'⟩ := hstep
    exact ⟨_, hinv'⟩

theorem kept_boot (d : D) (disk : ℕ → D) (lh : List ℕ) : Kept c start (.boot d disk lh) :=
  ⟨fun _ => rfl, fun _ => rfl, Nat.zero_le _, nofun, fun hne => absurd rfl hne,
    fun hne => absurd rfl hne⟩

theorem bread_coherent {d : D} {disk : ℕ → D} {lh : List ℕ} {ms : List (Move D)} {t : State D}
    (hlog : 1 ≤ c.logDev) (hr : run (Client.step c start) (.boot d disk lh) ms = some x)
    (hcareful : Along (Client.step c start) (fun x m => Careful c x.sh (m.event x.sh.st))
      (.boot d disk lh) ms)
    (hs : step c x.sh.st (.acquire i r) = some t) :
    ((t.buf i).valid ∧ (t.buf i).dev = r.dev ∧ (t.buf i).blockno = r.blockno) ∧
      (t.buf i).data = x.sh.arr r.blockno ∧
      (Along (Client.step c start) (Apart c start) (.boot d disk lh) ms →
        ¬ InLog c start r.blockno → (t.buf i).data = x.user r.blockno) := by
  have hsound := run_invariant (sound_boot d disk lh) (fun _ _ _ => sound_step hlog) hcareful hr
  obtain ⟨⟨l, hinv⟩, hco⟩ := hsound
  simp only [step, guard_iff] at hs
  obtain ⟨⟨hwait, -⟩, rfl⟩ := hs
  obtain ⟨hdev, hblock⟩ := hinv.asked hwait
  have hdata := (coherent_acquire hco hinv hlog hwait).2
  rw [← hblock] at hdata
  refine ⟨?_, hdata, fun hapart hhome => ?_⟩
  · rw [State.acquire, setBuf_self]
    exact ⟨rfl, hdev.symm, hblock.symm⟩
  · have hkept : Sound c x ∧ Kept c start x := by
      refine run_invariant (I := fun x => Sound c x ∧ Kept c start x)
        ⟨sound_boot d disk lh, kept_boot d disk lh⟩ ?_ (hcareful.and hapart) hr
      rintro y m z ⟨hy, hk⟩ ⟨hcare, hap⟩ hs
      obtain ⟨⟨l, hl⟩, hyc⟩ := hy
      exact ⟨sound_step hlog ⟨⟨l, hl⟩, hyc⟩ hcare hs, kept_step hk hl hyc hap hs⟩
    rw [hdata, hkept.2.home hhome]

instance (c : Conf) (x : Shadow D) (e : Event D) : Decidable (Careful c x e) :=
  match e with
  | .bget r => inferInstanceAs (Decidable (r.dev = c.logDev))
  | .brelse _ i => inferInstanceAs (Decidable (x.dirty i = false))
  | .acquire _ _ | .modify _ _ _ | .bwrite _ _ | .logWrite _ _ | .beginOp | .endOp | .install _ _
  | .clearLog | .commitDone | .recoverDone => isTrue trivial

instance (c : Conf) (start n : ℕ) : Decidable (InLog c start n) := instDecidableOr

instance (c : Conf) (start : ℕ) (x : Client D) (m : Move D) : Decidable (Apart c start x m) :=
  match m with
  | .call (.modify _ _ _) => instDecidableAnd
  | .call (.logWrite _ _) => instDecidableNot
  | .call (.bget _) | .call (.acquire _ _) | .call (.bwrite _ _) | .call (.brelse _ _)
  | .call .beginOp | .call .endOp | .call (.install _ _) | .call .clearLog | .call .commitDone
  | .call .recoverDone | .writeLog _ _ _ _ | .writeHead _ _ _ | .installTrans _ _ _ _ =>
    isTrue trivial

/-- Process 1 changes block 40 in a transaction and commits it to a log that starts at block 2;
then process 2 asks for the block. -/
def wholeRun : List (Move ℕ) :=
  [.call .recoverDone, .call .beginOp, .call (.bget ⟨1, 1, 40⟩), .call (.acquire 0 ⟨1, 1, 40⟩),
    .call (.modify 1 0 7), .call (.logWrite 1 0), .call (.brelse 1 0), .call .endOp,
    -- write_log
    .call (.bget ⟨1, 1, 3⟩), .call (.acquire 1 ⟨1, 1, 3⟩), .call (.bget ⟨1, 1, 40⟩),
    .call (.acquire 0 ⟨1, 1, 40⟩), .writeLog 0 1 0 1, .call (.bwrite 1 1), .call (.brelse 1 0),
    .call (.brelse 1 1),
    -- write_head
    .call (.bget ⟨1, 1, 2⟩), .call (.acquire 2 ⟨1, 1, 2⟩), .writeHead 1 2 1, .call (.bwrite 1 2),
    .call (.brelse 1 2),
    -- install_trans
    .call (.bget ⟨1, 1, 3⟩), .call (.acquire 1 ⟨1, 1, 3⟩), .call (.bget ⟨1, 1, 40⟩),
    .call (.acquire 0 ⟨1, 1, 40⟩), .installTrans 0 1 1 0, .call (.install 1 0), .call (.brelse 1 1),
    .call (.brelse 1 0), .call .clearLog, .call .commitDone, .call (.bget ⟨2, 1, 40⟩)]

theorem bread_coherent_wholeRun : ∃ x t,
    run (Client.step ⟨1, 30⟩ 2) (.boot 0 (fun n => n) []) wholeRun = some x ∧
      step ⟨1, 30⟩ x.sh.st (.acquire 0 ⟨2, 1, 40⟩) = some t ∧ (t.buf 0).data = x.user 40 ∧
      x.user 40 = 7 := by
  have hx : ((run (Client.step ⟨1, 30⟩ 2) (.boot 0 (fun n => n) []) wholeRun).bind fun x =>
      (step ⟨1, 30⟩ x.sh.st (.acquire 0 ⟨2, 1, 40⟩)).map fun t => (x, t)).map
        (fun p => p.1.user 40) = some 7 := by
    decide +kernel
  simp only [map_eq_some_iff, bind_eq_some_iff] at hx
  obtain ⟨-, ⟨x, hx, t, ht, rfl⟩, h7⟩ := hx
  have hread := bread_coherent (by decide) hx (by decide +kernel) ht
  exact ⟨x, t, hx, ht, hread.2.2 (by decide +kernel) (by decide), h7⟩

/-- Between `write_log` and `write_head` process 2 changes block 40 as well and passes it to `bwrite`.
`install_trans` then puts what was logged over it. -/
theorem not_bread_coherent :
    let ms := wholeRun.take 16 ++ [.call (.bget ⟨2, 1, 40⟩), .call (.acquire 0 ⟨2, 1, 40⟩),
      .call (.modify 2 0 8), .call (.bwrite 2 0), .call (.brelse 2 0)] ++ wholeRun.drop 16
    ∃ x t, run (Client.step ⟨1, 30⟩ 2) (.boot 0 (fun n => n) []) ms = some x ∧
      Along (Client.step ⟨1, 30⟩ 2) (fun x m => Careful ⟨1, 30⟩ x.sh (m.event x.sh.st))
        (.boot 0 (fun n => n) []) ms ∧
      step ⟨1, 30⟩ x.sh.st (.acquire 0 ⟨2, 1, 40⟩) = some t ∧ (t.buf 0).data = 7 ∧
      x.user 40 = 8 := by
  intro ms
  have hx : ((run (Client.step ⟨1, 30⟩ 2) (.boot 0 (fun n => n) []) ms).bind fun x =>
      (step ⟨1, 30⟩ x.sh.st (.acquire 0 ⟨2, 1, 40⟩)).map fun t => (x, t)).map
        (fun p => ((p.2.buf 0).data, p.1.user 40)) = some (7, 8) := by
    decide +kernel
  simp only [map_eq_some_iff, bind_eq_some_iff] at hx
  obtain ⟨-, ⟨x, hx, t, ht, rfl⟩, hfacts⟩ := hx
  obtain ⟨h7, h8⟩ := Prod.mk.inj hfacts
  exact ⟨x, t, hx, by decide +kernel, ht, h7, h8⟩

end Xv6.Bio
