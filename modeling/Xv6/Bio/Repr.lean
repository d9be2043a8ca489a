import Xv6.Bio.Cache

/-! The representation of the buffer cache: the list through all buffers, one buffer for a block,
and who holds the references that `refcnt` counts. -/
namespace Xv6.Bio
open Ring PartialRun Function List Option
variable {D : Type*} {c : Conf} {s t : State D} {e : Event D} {b : Buf D} {l : List ℕ}
  {i j dev blockno : ℕ} {r : Request}

def Buf.users (b : Buf D) : ℕ := (if b.lock.isSome then 1 else 0) + b.waiters.length

/-- The blocks that `log_write` has pinned and `install_trans` has not unpinned. -/
def State.pins (s : State D) : List ℕ :=
  match s.phase with
  | .recovering => []
  | .running => s.lh
  | .committing tail => s.lh.drop tail

def pinned (c : Conf) (s : State D) (b : Buf D) : ℕ :=
  if b.dev = c.logDev ∧ b.blockno ∈ s.pins then 1 else 0

theorem mem_pins_logWrite {n : ℕ} (hrun : s.phase = .running) :
    n ∈ (s.logWrite i).pins ↔ n = (s.buf i).blockno ∨ n ∈ s.pins := by
  unfold State.logWrite
  split
  · rename_i hold
    simp only [State.pins, hrun]
    exact ⟨.inr, fun h => h.elim (fun heq => heq ▸ hold) id⟩
  · simp only [State.pins, State.bpin, State.setBuf, hrun, mem_append, mem_singleton]
    exact or_comm

theorem pins_install {n tail : ℕ} (hph : s.phase = .committing tail) (hn : s.lh[tail]? = some n) :
    s.pins = n :: s.lh.drop (tail + 1) := by
  obtain ⟨hlt, hget⟩ := List.getElem?_eq_some_iff.mp hn
  simp only [State.pins, hph]
  rw [drop_eq_getElem_cons hlt, hget]

theorem pins_endOp {n : ℕ} (hrun : s.phase = .running) : State.pins { s with
      outstanding := n - 1
      phase := if n - 1 = 0 then .committing 0 else s.phase } = s.pins := by
  simp only [State.pins, hrun]
  split_ifs <;> rfl

theorem pins_clearLog (hph : s.phase = .committing s.lh.length) :
    State.pins { s with lh := [], phase := .committing 0 } = s.pins := by
  simp only [State.pins, hph, drop_length, drop_nil]

theorem pins_commitDone (hph : s.phase = .committing 0) (hnil : s.lh = []) :
    State.pins { s with phase := .running } = s.pins := by
  simp only [State.pins, hph, hnil, drop_nil]

theorem pins_recoverDone (hph : s.phase = .recovering) :
    State.pins { s with lh := [], phase := .running } = s.pins := by
  simp only [State.pins, hph]

@[simp] theorem setBuf_self : (s.setBuf i b).buf i = b := update_self _ _ _

theorem setBuf_of_ne (h : j ≠ i) : (s.setBuf i b).buf j = s.buf j := update_of_ne h _ _

theorem logWrite_buf (s : State D) (i : ℕ) : ∃ m,
    (s.logWrite i).buf = (s.setBuf i { s.buf i with refcnt := m }).buf ∧
      (s.logWrite i).disk = s.disk := by
  unfold State.logWrite
  split
  · exact ⟨(s.buf i).refcnt, (update_eq_self _ _).symm, rfl⟩
  · exact ⟨_, rfl, rfl⟩

/-- The buffers in the order of `next`. -/
structure Inv (c : Conf) (s : State D) (l : List ℕ) : Prop where
  ring : IsRing s.links head l
  perm : l.Perm (List.range NBUF)
  uniq : ∀ {i j}, i < NBUF → j < NBUF → 1 ≤ (s.buf i).dev → (s.buf i).dev = (s.buf j).dev →
    (s.buf i).blockno = (s.buf j).blockno → i = j
  refcnt : ∀ {i}, i < NBUF → (s.buf i).refcnt = (s.buf i).users + pinned c s (s.buf i)
  cached : ∀ {n}, n ∈ s.pins → ∃ i < NBUF, (s.buf i).dev = c.logDev ∧ (s.buf i).blockno = n
  asked : ∀ {i r}, r ∈ (s.buf i).waiters → r.dev = (s.buf i).dev ∧ r.blockno = (s.buf i).blockno
  outside : ∀ {i}, NBUF ≤ i → (s.buf i).users = 0
  nodup : s.phase ≠ .recovering → s.lh.Nodup
  running : 1 ≤ s.outstanding → s.phase = .running

namespace Inv

theorem mem_iff (h : Inv c s l) : i ∈ l ↔ i < NBUF := by
  rw [h.perm.mem_iff, mem_range]

theorem length (h : Inv c s l) : l.length = NBUF := by
  rw [h.perm.length_eq, length_range]

theorem lookup (h : Inv c s l) : s.lookup dev blockno =
    l.find? fun i => (s.buf i).dev = dev ∧ (s.buf i).blockno = blockno :=
  h.ring.search_next (by rw [h.length]; exact Nat.lt_succ_self _)

theorem victim (h : Inv c s l) : s.victim = l.reverse.find? fun i => (s.buf i).refcnt = 0 :=
  h.ring.search_prev (by rw [h.length]; exact Nat.lt_succ_self _)

theorem lt_of_users (h : Inv c s l) (hu : (s.buf i).users ≠ 0) : i < NBUF := by
  by_contra hge
  exact hu (h.outside (Nat.le_of_not_lt hge))

theorem lt_of_lock {pid : ℕ} (h : Inv c s l) (hl : (s.buf i).lock = some pid) : i < NBUF := by
  refine h.lt_of_users ?_
  rw [Buf.users, hl]
  simp

theorem lt_of_waiter (h : Inv c s l) (hr : r ∈ (s.buf i).waiters) : i < NBUF := by
  refine h.lt_of_users ?_
  have := length_pos_of_mem hr
  rw [Buf.users]
  omega

theorem setBuf (h : Inv c s l) (hi : i < NBUF) (hdev : b.dev = (s.buf i).dev)
    (hblock : b.blockno = (s.buf i).blockno)
    (href : b.refcnt = b.users + pinned c s b)
    (hask : ∀ r ∈ b.waiters, r.dev = b.dev ∧ r.blockno = b.blockno) : Inv c (s.setBuf i b) l := by
  have hkey : ∀ j, ((s.setBuf i b).buf j).dev = (s.buf j).dev ∧
      ((s.setBuf i b).buf j).blockno = (s.buf j).blockno := by
    intro j
    rcases eq_or_ne j i with rfl | hji
    · rw [setBuf_self]
      exact ⟨hdev, hblock⟩
    · rw [setBuf_of_ne hji]
      exact ⟨rfl, rfl⟩
  refine ⟨h.ring, h.perm, fun {j k} hj hk => ?_, fun {j} hj => ?_, fun {n} hn => ?_,
    fun {j r} hr => ?_, fun {j} hj => ?_, h.nodup, h.running⟩
  · rw [(hkey j).1, (hkey j).2, (hkey k).1, (hkey k).2]
    exact h.uniq hj hk
  · rcases eq_or_ne j i with rfl | hji
    · rw [setBuf_self]
      exact href
    · rw [setBuf_of_ne hji]
      exact h.refcnt hj
  · obtain ⟨j, hj, hd, hb⟩ := h.cached hn
    exact ⟨j, hj, (hkey j).1.trans hd, (hkey j).2.trans hb⟩
  · rcases eq_or_ne j i with rfl | hji
    · rw [setBuf_self] at hr ⊢
      exact hask r hr
    · rw [setBuf_of_ne hji] at hr ⊢
      exact h.asked hr
  · rw [setBuf_of_ne (by omega)]
    exact h.outside hj

theorem recycle (h : Inv c s l) (hi : i < NBUF) (hfree : (s.buf i).refcnt = 0)
    (hnew : ∀ j < NBUF, ¬ ((s.buf j).dev = b.dev ∧ (s.buf j).blockno = b.blockno))
    (href : b.refcnt = b.users) (hask : ∀ r ∈ b.waiters, r.dev = b.dev ∧ r.blockno = b.blockno) :
    Inv c (s.setBuf i b) l := by
  refine ⟨h.ring, h.perm, fun {j k} hj hk hd hdev hblock => ?_, fun {j} hj => ?_, fun {n} hn => ?_,
    fun {j r} hr => ?_, fun {j} hj => ?_, h.nodup, h.running⟩
  · rcases eq_or_ne j i with rfl | hji <;> rcases eq_or_ne k j with rfl | hkj
    · rfl
    · rw [setBuf_self, setBuf_of_ne hkj] at hdev hblock
      exact absurd ⟨hdev.symm, hblock.symm⟩ (hnew k hk)
    · rfl
    · rcases eq_or_ne k i with rfl | hki
      · rw [setBuf_self, setBuf_of_ne hji] at hdev hblock
        exact absurd ⟨hdev, hblock⟩ (hnew j hj)
      · rw [setBuf_of_ne hji] at hd hdev hblock
        rw [setBuf_of_ne hki] at hdev hblock
        exact h.uniq hj hk hd hdev hblock
  · rcases eq_or_ne j i with rfl | hji
    · have hpin : pinned c s b = 0 := by
        refine if_neg fun hp => ?_
        obtain ⟨k, hk, hkd, hkb⟩ := h.cached hp.2
        exact hnew k hk ⟨hkd.trans hp.1.symm, hkb⟩
      rw [setBuf_self, show pinned c (s.setBuf j b) b = 0 from hpin, href]
      rfl
    · rw [setBuf_of_ne hji]
      exact h.refcnt hj
  · -- a pinned buffer has a reference
    obtain ⟨j, hj, hd, hb⟩ := h.cached hn
    have hji : j ≠ i := by
      rintro rfl
      have hcount := h.refcnt hj
      rw [hfree, pinned, if_pos ⟨hd, hb ▸ hn⟩] at hcount
      omega
    exact ⟨j, hj, by rw [setBuf_of_ne hji]; exact ⟨hd, hb⟩⟩
  · rcases eq_or_ne j i with rfl | hji
    · rw [setBuf_self] at hr ⊢
      exact hask r hr
    · rw [setBuf_of_ne hji] at hr ⊢
      exact h.asked hr
  · rw [setBuf_of_ne (by omega)]
    exact h.outside hj

theorem log (h : Inv c s l) (hbuf : t.buf = s.buf) (hlinks : t.links = s.links)
    (hpins : t.pins = s.pins) (hnd : t.phase ≠ .recovering → t.lh.Nodup)
    (hrun : 1 ≤ t.outstanding → t.phase = .running) : Inv c t l := by
  refine ⟨hlinks ▸ h.ring, h.perm, hbuf ▸ h.uniq, fun {i} hi => ?_, ?_, hbuf ▸ h.asked,
    hbuf ▸ h.outside, hnd, hrun⟩
  · rw [hbuf, pinned, hpins]
    exact h.refcnt hi
  · rw [hpins, hbuf]
    exact h.cached

theorem repin (h : Inv c s l) (hlog : 1 ≤ c.logDev) (hi : i < NBUF)
    (hdev : (s.buf i).dev = c.logDev) {n : ℕ}
    (hbuf : t.buf = (s.setBuf i { s.buf i with refcnt := n }).buf) (hlinks : t.links = s.links)
    (hpins : ∀ m ≠ (s.buf i).blockno, m ∈ t.pins ↔ m ∈ s.pins)
    (hn : n = (s.buf i).users + if (s.buf i).blockno ∈ t.pins then 1 else 0)
    (hnd : t.phase ≠ .recovering → t.lh.Nodup) (hrun : 1 ≤ t.outstanding → t.phase = .running) :
    Inv c t l := by
  have hself : t.buf i = { s.buf i with refcnt := n } := by rw [hbuf, setBuf_self]
  have hother : ∀ {j}, j ≠ i → t.buf j = s.buf j := fun hji => by rw [hbuf, setBuf_of_ne hji]
  have hkey : ∀ j, (t.buf j).dev = (s.buf j).dev ∧ (t.buf j).blockno = (s.buf j).blockno ∧
      (t.buf j).waiters = (s.buf j).waiters ∧ (t.buf j).users = (s.buf j).users := by
    intro j
    rcases eq_or_ne j i with rfl | hji
    · rw [hself]
      exact ⟨rfl, rfl, rfl, rfl⟩
    · rw [hother hji]
      exact ⟨rfl, rfl, rfl, rfl⟩
  refine ⟨hlinks ▸ h.ring, h.perm, fun {j k} hj hk => ?_, fun {j} hj => ?_, fun {m} hm => ?_,
    fun {j r} hr => ?_, fun {j} hj => ?_, hnd, hrun⟩
  · rw [(hkey j).1, (hkey j).2.1, (hkey k).1, (hkey k).2.1]
    exact h.uniq hj hk
  · rcases eq_or_ne j i with rfl | hji
    · rw [hself]
      refine hn.trans (congrArg ((s.buf j).users + ·) ?_)
      simp only [pinned, hdev, true_and]
    · -- another buffer of the device has another block
      have hne : (s.buf j).dev = c.logDev → (s.buf j).blockno ≠ (s.buf i).blockno := by
        intro hd hb
        exact hji (h.uniq hj hi (hd ▸ hlog) (hd.trans hdev.symm) hb)
      rw [hother hji, h.refcnt hj]
      refine congrArg ((s.buf j).users + ·) (if_congr (and_congr_right fun hd => ?_) rfl rfl)
      exact (hpins _ (hne hd)).symm
  · by_cases hmi : m = (s.buf i).blockno
    · exact ⟨i, hi, (hkey i).1.trans hdev, (hkey i).2.1.trans hmi.symm⟩
    · obtain ⟨j, hj, hd, hb⟩ := h.cached ((hpins m hmi).mp hm)
      exact ⟨j, hj, (hkey j).1.trans hd, (hkey j).2.1.trans hb⟩
  · rw [(hkey j).2.2.1] at hr
    rw [(hkey j).1, (hkey j).2.1]
    exact h.asked hr
  · rw [(hkey j).2.2.2]
    exact h.outside hj

theorem release {pid : ℕ} (h : Inv c s l) (hl : (s.buf i).lock = some pid) :
    if (s.buf i).refcnt - 1 = 0 then
      ∃ l₁ l₂, l = l₁ ++ i :: l₂ ∧ Inv c (s.brelse i) (i :: (l₁ ++ l₂))
    else Inv c (s.brelse i) l := by
  have hi := h.lt_of_lock hl
  have hset : Inv c (s.setBuf i { s.buf i with lock := none, refcnt := (s.buf i).refcnt - 1 }) l := by
    refine h.setBuf hi rfl rfl ?_ fun r hr => h.asked hr
    have hcount := h.refcnt hi
    simp only [Buf.users, hl, isSome_some, if_true, pinned] at hcount ⊢
    simp only [isSome_none, Bool.false_eq_true, if_false]
    omega
  split
  · rename_i hzero
    obtain ⟨l₁, l₂, rfl⟩ := append_of_mem (h.mem_iff.mpr hi)
    refine ⟨l₁, l₂, rfl, ?_⟩
    rw [State.brelse, if_pos hzero]
    refine ⟨hset.ring.toFront, perm_middle.symm.trans h.perm, hset.uniq, hset.refcnt, hset.cached,
      hset.asked, hset.outside, hset.nodup, hset.running⟩
  · rename_i hne
    rw [State.brelse, if_neg hne]
    exact hset

end Inv

def frees (s : State D) : Event D → Option ℕ
  | .brelse _ i => if (s.buf i).refcnt - 1 = 0 then some i else none
  | _ => none

/-- The calls that the kernel makes: devices are at least 1, and `log_write` is for the device of
the log. -/
def Served (c : Conf) (s : State D) : Event D → Prop
  | .bget r => 1 ≤ r.dev
  | .logWrite _ i => (s.buf i).dev = c.logDev
  | _ => True

theorem Inv.bget (h : Inv c s l) (hs : s.bget r = some t) : ∃ i < NBUF,
    ((s.buf i).dev = r.dev ∧ (s.buf i).blockno = r.blockno ∧ t = s.setBuf i { s.buf i with
      refcnt := (s.buf i).refcnt + 1, waiters := (s.buf i).waiters ++ [r] }) ∨
    ((s.buf i).refcnt = 0 ∧ (s.buf i).users = 0 ∧
      (∀ j < NBUF, ¬ ((s.buf j).dev = r.dev ∧ (s.buf j).blockno = r.blockno)) ∧
      t = s.setBuf i { s.buf i with
        dev := r.dev, blockno := r.blockno, valid := false, refcnt := 1
        waiters := (s.buf i).waiters ++ [r] }) := by
  unfold State.bget at hs
  split at hs
  · rename_i i hi
    cases hs
    rw [h.lookup] at hi
    have hkey := find?_some hi
    simp only [decide_eq_true_eq] at hkey
    exact ⟨i, h.mem_iff.mp (mem_of_find?_eq_some hi), .inl ⟨hkey.1, hkey.2, rfl⟩⟩
  · rename_i hmiss
    obtain ⟨i, hi, rfl⟩ := map_eq_some_iff.mp hs
    rw [h.victim] at hi
    have hzero := find?_some hi
    simp only [decide_eq_true_eq] at hzero
    have hlt := h.mem_iff.mp (mem_reverse.mp (mem_of_find?_eq_some hi))
    have hcount := h.refcnt hlt
    refine ⟨i, hlt, .inr ⟨hzero, by omega, fun j hj hkey => ?_, rfl⟩⟩
    rw [h.lookup] at hmiss
    have := find?_eq_none.mp hmiss j (h.mem_iff.mpr hj)
    simp only [decide_eq_true_eq] at this
    exact this hkey

theorem inv_bget (h : Inv c s l) (hs : s.bget r = some t) : Inv c t l := by
  obtain ⟨i, hlt, ⟨hdev, hblock, rfl⟩ | ⟨hzero, hfree, hnew, rfl⟩⟩ := h.bget hs
  · refine h.setBuf hlt rfl rfl ?_ fun r' hr' => ?_
    · have hcount := h.refcnt hlt
      simp only [Buf.users, length_append, length_singleton, pinned] at hcount ⊢
      omega
    · rw [mem_append, mem_singleton] at hr'
      rcases hr' with hr' | rfl
      · exact h.asked hr'
      · exact ⟨hdev.symm, hblock.symm⟩
  · have hwait : (s.buf i).waiters = [] := by
      rw [Buf.users] at hfree
      exact length_eq_zero_iff.mp (by omega)
    refine h.recycle hlt hzero hnew ?_ fun r' hr' => ?_
    · simp only [Buf.users, hwait, nil_append, length_singleton] at hfree ⊢
      omega
    · rw [hwait, nil_append, mem_singleton] at hr'
      rw [hr']
      exact ⟨rfl, rfl⟩

theorem inv_acquire (h : Inv c s l) (hr : r ∈ (s.buf i).waiters) (hl : (s.buf i).lock = none) :
    Inv c (s.acquire i r) l := by
  have hlt := h.lt_of_waiter hr
  refine h.setBuf hlt rfl rfl ?_ fun r' hr' => h.asked (mem_of_mem_erase hr')
  have hcount := h.refcnt hlt
  have hpos := length_pos_of_mem hr
  simp only [Buf.users, hl, length_erase_of_mem hr, pinned] at hcount ⊢
  simp only [isSome_none, isSome_some, Bool.false_eq_true, if_false, if_true] at hcount ⊢
  omega

theorem inv_logWrite {pid : ℕ} (hlog : 1 ≤ c.logDev) (h : Inv c s l)
    (hl : (s.buf i).lock = some pid) (hout : 1 ≤ s.outstanding) (hdev : (s.buf i).dev = c.logDev) :
    Inv c (s.logWrite i) l := by
  have hi := h.lt_of_lock hl
  have hrun := h.running hout
  unfold State.logWrite
  split
  · exact h
  · rename_i hnew
    have hpins : s.pins = s.lh := by rw [State.pins, hrun]
    have hmem : ∀ m, m ∈ State.pins { s.bpin i with lh := s.lh ++ [(s.buf i).blockno] } ↔
        m = (s.buf i).blockno ∨ m ∈ s.pins := by
      intro m
      rw [← mem_pins_logWrite hrun, State.logWrite, if_neg hnew]
    have hcount := h.refcnt hi
    rw [pinned, hpins, if_neg fun hp => hnew hp.2] at hcount
    refine h.repin hlog hi hdev rfl rfl (fun m hm => ?_) ?_ (fun hph => ?_) h.running
    · rw [hmem, or_iff_right hm]
    · rw [if_pos ((hmem _).mpr (.inl rfl)), hcount]
    · dsimp only
      rw [← concat_eq_append]
      exact (h.nodup hph).concat hnew

theorem inv_install {pid tail : ℕ} (hlog : 1 ≤ c.logDev) (h : Inv c s l)
    (hph : s.phase = .committing tail) (hl : (s.buf i).lock = some pid)
    (hdev : (s.buf i).dev = c.logDev) (hn : s.lh[tail]? = some (s.buf i).blockno) :
    Inv c { (s.bwrite i).bunpin i with phase := .committing (tail + 1) } l := by
  have hi := h.lt_of_lock hl
  have hnd := h.nodup (by rw [hph]; exact nofun)
  have hpins := pins_install hph hn
  have hgone : (s.buf i).blockno ∉ s.lh.drop (tail + 1) := by
    have hnd' := hnd.sublist (drop_sublist tail s.lh)
    rw [show s.lh.drop tail = s.pins by rw [State.pins, hph], hpins] at hnd'
    exact (nodup_cons.mp hnd').1
  have hcount := h.refcnt hi
  rw [pinned, hpins, if_pos ⟨hdev, mem_cons_self⟩] at hcount
  have hpins' : State.pins { (s.bwrite i).bunpin i with phase := .committing (tail + 1) } =
      s.lh.drop (tail + 1) := rfl
  refine h.repin hlog hi hdev rfl rfl (fun m hm => ?_) ?_ (fun _ => hnd) fun hout => ?_
  · rw [hpins', hpins, mem_cons, or_iff_right hm]
  · rw [hpins', if_neg hgone]
    exact (congrArg (· - 1) hcount).trans (Nat.add_sub_cancel _ _)
  · have hrun := h.running hout
    rw [hph] at hrun
    cases hrun

theorem inv_step (hlog : 1 ≤ c.logDev) (h : Inv c s l) (hserved : Served c s e)
    (hs : step c s e = some t) : match frees s e with
      | none => Inv c t l
      | some i => ∃ l₁ l₂, l = l₁ ++ i :: l₂ ∧ Inv c t (i :: (l₁ ++ l₂)) := by
  cases e <;> simp only [step, guard_iff] at hs
  case bget r => exact inv_bget h hs
  case acquire i r =>
    obtain ⟨⟨hr, hl⟩, rfl⟩ := hs
    exact inv_acquire h hr hl
  case modify pid i d =>
    obtain ⟨hl, rfl⟩ := hs
    exact h.setBuf (h.lt_of_lock hl) rfl rfl (h.refcnt (h.lt_of_lock hl)) fun r hr => h.asked hr
  case bwrite pid i =>
    obtain ⟨hl, rfl⟩ := hs
    exact h.log rfl rfl rfl h.nodup h.running
  case logWrite pid i =>
    obtain ⟨⟨hl, -, -, hout⟩, rfl⟩ := hs
    exact inv_logWrite hlog h hl hout hserved
  case brelse pid i =>
    obtain ⟨hl, rfl⟩ := hs
    have hrel := h.release hl
    simp only [frees]
    split at hrel
    · rename_i hzero
      rw [if_pos hzero]
      exact hrel
    · rename_i hne
      rw [if_neg hne]
      exact hrel
  case beginOp =>
    obtain ⟨⟨hph, -⟩, rfl⟩ := hs
    exact h.log rfl rfl rfl h.nodup fun _ => hph
  case endOp =>
    obtain ⟨hout, rfl⟩ := hs
    have hrun := h.running hout
    have hnd := h.nodup (by rw [hrun]; exact nofun)
    refine h.log rfl rfl (pins_endOp hrun) (fun _ => hnd) fun hout' => ?_
    dsimp only at hout' ⊢
    rw [if_neg (by omega)]
    exact hrun
  case install pid i =>
    split at hs
    · rename_i tail hph
      simp only [guard_iff] at hs
      obtain ⟨⟨hl, hdev, hn⟩, rfl⟩ := hs
      exact inv_install hlog h hph hl hdev hn
    · cases hs
  case clearLog =>
    obtain ⟨hph, rfl⟩ := hs
    refine h.log rfl rfl (pins_clearLog hph) (fun _ => nodup_nil) fun hout => ?_
    have hrun := h.running hout
    rw [hph] at hrun
    cases hrun
  case commitDone =>
    obtain ⟨⟨hph, hnil⟩, rfl⟩ := hs
    refine h.log rfl rfl (pins_commitDone hph hnil) (fun _ => ?_) fun _ => rfl
    rw [hnil]
    exact nodup_nil
  case recoverDone =>
    obtain ⟨hph, rfl⟩ := hs
    exact h.log rfl rfl (pins_recoverDone hph) (fun _ => nodup_nil) fun _ => rfl

/-- The cache, with the time at which each buffer was last released to 0; 0 stands for never. -/
structure Traced (D : Type*) where
  st : State D
  freed : ℕ → ℕ
  clock : ℕ

def Traced.step (c : Conf) (x : Traced D) (e : Event D) : Option (Traced D) :=
  (Bio.step c x.st e).map fun t =>
    { st := t
      freed := match frees x.st e with
        | some i => update x.freed i x.clock
        | none => x.freed
      clock := x.clock + 1 }

def Traced.boot (d : D) (disk : ℕ → D) (lh : List ℕ) : Traced D := ⟨Bio.boot d disk lh, fun _ => 0, 1⟩

structure Aged (x : Traced D) (l : List ℕ) : Prop where
  sorted : l.Pairwise fun i j => x.freed j ≤ x.freed i
  past : ∀ i, x.freed i < x.clock

theorem inv_boot (d : D) (disk : ℕ → D) (lh : List ℕ) :
    Inv c (boot d disk lh) (List.range NBUF).reverse := by
  have hring : IsRing binit head ((List.range NBUF).reverse ++ []) :=
    (isRing_nil head).foldl_push nodup_range fun b hb hmem => by
      rw [mem_singleton] at hmem
      rw [hmem, mem_range] at hb
      exact Nat.lt_irrefl _ hb
  rw [append_nil] at hring
  exact ⟨hring, reverse_perm _, fun _ _ hd => absurd hd (Nat.not_succ_le_zero 0),
    fun _ => by simp [boot, Buf.users, pinned, State.pins], nofun, nofun, fun _ => rfl,
    fun hph => absurd rfl hph, fun hout => absurd hout (Nat.not_succ_le_zero 0)⟩

theorem aged_step {x y : Traced D} (hlog : 1 ≤ c.logDev) (h : Inv c x.st l) (ha : Aged x l)
    (hserved : Served c x.st e) (hs : x.step c e = some y) : ∃ l', Inv c y.st l' ∧ Aged y l' := by
  obtain ⟨t, ht, rfl⟩ := map_eq_some_iff.mp hs
  have hstep := inv_step hlog h hserved ht
  cases hf : frees x.st e with
  | none =>
    rw [hf] at hstep
    exact ⟨l, hstep, ha.sorted, fun i => Nat.lt_succ_of_lt (ha.past i)⟩
  | some i =>
    rw [hf] at hstep
    obtain ⟨l₁, l₂, rfl, hinv⟩ := hstep
    refine ⟨_, hinv, ?_, fun j => ?_⟩ <;> dsimp only
    · -- the buffer is moved to the front with the latest time
      have hnd : (i :: (l₁ ++ l₂)).Nodup := hinv.perm.nodup_iff.mpr nodup_range
      obtain ⟨hni, -⟩ := nodup_cons.mp hnd
      have hne : ∀ {j}, j ∈ l₁ ++ l₂ → j ≠ i := fun hj heq => hni (heq ▸ hj)
      refine pairwise_cons.mpr ⟨fun j hj => ?_, ?_⟩
      · rw [update_self, update_of_ne (hne hj)]
        exact Nat.le_of_lt (ha.past j)
      · refine (ha.sorted.sublist ?_).imp_of_mem fun {j k} hj hk hjk => ?_
        · exact List.Sublist.append_left (sublist_cons_self _ _) _
        · rwa [update_of_ne (hne hj), update_of_ne (hne hk)]
    · rcases eq_or_ne j i with rfl | hji
      · rw [update_self]
        exact Nat.lt_succ_self _
      · rw [update_of_ne hji]
        exact Nat.lt_succ_of_lt (ha.past j)

theorem run_inv {d : D} {disk : ℕ → D} {lh : List ℕ} {es : List (Event D)} {x : Traced D}
    (hlog : 1 ≤ c.logDev) (hr : run (Traced.step c) (.boot d disk lh) es = some x)
    (hserved : Along (Traced.step c) (fun x e => Served c x.st e) (.boot d disk lh) es) :
    ∃ l, Inv c x.st l ∧ Aged x l := by
  refine run_invariant (I := fun x => ∃ l, Inv c x.st l ∧ Aged x l) ?_ ?_ hserved hr
  · refine ⟨_, inv_boot d disk lh, ?_, fun _ => Nat.zero_lt_one⟩
    exact pairwise_of_forall fun _ _ => Nat.le_refl 0
  · rintro x e y ⟨l, h, ha⟩ hc hs
    exact aged_step hlog h ha hc hs

structure Represented (c : Conf) (x : Traced D) : Prop where
  list : ∃ l : List ℕ, l.Perm (List.range NBUF) ∧
    walk x.st.links.next (NBUF + 1) head = l ++ [head] ∧
    walk x.st.links.prev (NBUF + 1) head = l.reverse ++ [head]
  uniq : ∀ i j, i < NBUF → j < NBUF → 1 ≤ (x.st.buf i).dev →
    (x.st.buf i).dev = (x.st.buf j).dev → (x.st.buf i).blockno = (x.st.buf j).blockno → i = j
  refcnt : ∀ i < NBUF, (x.st.buf i).refcnt = (x.st.buf i).users + pinned c x.st (x.st.buf i)
  kept : ∀ e t i, step c x.st e = some t → 0 < (x.st.buf i).refcnt →
    (t.buf i).dev = (x.st.buf i).dev ∧ (t.buf i).blockno = (x.st.buf i).blockno
  lru : ∀ r t, step c x.st (.bget r) = some t → x.st.lookup r.dev r.blockno = none →
    ∃ i < NBUF, (x.st.buf i).refcnt = 0 ∧ (t.buf i).dev = r.dev ∧ (t.buf i).blockno = r.blockno ∧
      (∀ j ≠ i, t.buf j = x.st.buf j) ∧
      ∀ j < NBUF, (x.st.buf j).refcnt = 0 → x.freed i ≤ x.freed j

theorem Inv.kept (h : Inv c s l) (hs : step c s e = some t) (href : 0 < (s.buf i).refcnt) :
    (t.buf i).dev = (s.buf i).dev ∧ (t.buf i).blockno = (s.buf i).blockno := by
  have hset : ∀ {k : ℕ} {b : Buf D}, (b.dev = (s.buf k).dev ∧ b.blockno = (s.buf k).blockno) →
      ((s.setBuf k b).buf i).dev = (s.buf i).dev ∧
        ((s.setBuf k b).buf i).blockno = (s.buf i).blockno := by
    intro k b hb
    rcases eq_or_ne i k with rfl | hik
    · rw [setBuf_self]
      exact hb
    · rw [setBuf_of_ne hik]
      exact ⟨rfl, rfl⟩
  cases e <;> simp only [step, guard_iff] at hs
  case bget r =>
    obtain ⟨k, -, ⟨-, -, rfl⟩ | ⟨hzero, -, -, rfl⟩⟩ := h.bget hs
    · exact hset ⟨rfl, rfl⟩
    · have hik : i ≠ k := by
        rintro rfl
        omega
      rw [setBuf_of_ne hik]
      exact ⟨rfl, rfl⟩
  case acquire k r =>
    obtain ⟨-, rfl⟩ := hs
    exact hset ⟨rfl, rfl⟩
  case modify pid k d =>
    obtain ⟨-, rfl⟩ := hs
    exact hset ⟨rfl, rfl⟩
  case logWrite pid k =>
    obtain ⟨-, rfl⟩ := hs
    unfold State.logWrite
    split
    · exact ⟨rfl, rfl⟩
    · exact hset (b := { s.buf k with refcnt := (s.buf k).refcnt + 1 }) ⟨rfl, rfl⟩
  case brelse pid k =>
    obtain ⟨-, rfl⟩ := hs
    unfold State.brelse
    dsimp only
    split <;> exact hset ⟨rfl, rfl⟩
  case install pid k =>
    split at hs
    · simp only [guard_iff] at hs
      obtain ⟨-, rfl⟩ := hs
      exact hset (b := { s.buf k with refcnt := (s.buf k).refcnt - 1 }) ⟨rfl, rfl⟩
    · cases hs
  case bwrite | beginOp | endOp | clearLog | commitDone | recoverDone =>
    obtain ⟨-, rfl⟩ := hs
    exact ⟨rfl, rfl⟩

/-- A miss takes the buffer that was released first. -/
theorem Inv.lru {x : Traced D} (h : Inv c x.st l) (ha : Aged x l) (hs : x.st.bget r = some t)
    (hmiss : x.st.lookup r.dev r.blockno = none) :
    ∃ i < NBUF, (x.st.buf i).refcnt = 0 ∧ (t.buf i).dev = r.dev ∧ (t.buf i).blockno = r.blockno ∧
      (∀ j ≠ i, t.buf j = x.st.buf j) ∧
      ∀ j < NBUF, (x.st.buf j).refcnt = 0 → x.freed i ≤ x.freed j := by
  rw [State.bget, hmiss] at hs
  obtain ⟨i, hi, rfl⟩ := map_eq_some_iff.mp hs
  rw [h.victim] at hi
  obtain ⟨hzero, as, bs, hl, hbefore⟩ := find?_eq_some_iff_append.mp hi
  simp only [decide_eq_true_eq] at hzero
  have hlt := h.mem_iff.mp (mem_reverse.mp (mem_of_find?_eq_some hi))
  refine ⟨i, hlt, hzero, by rw [setBuf_self], by rw [setBuf_self], fun j hj => setBuf_of_ne hj, ?_⟩
  -- a free buffer behind `i` would have been found first
  intro j hj hjzero
  have hmem : j ∈ as ++ i :: bs := hl ▸ mem_reverse.mpr (h.mem_iff.mpr hj)
  have hsorted := pairwise_reverse.mpr ha.sorted
  rw [hl] at hsorted
  rcases mem_append.mp hmem with hj' | hj'
  · have := hbefore j hj'
    simp only [hjzero, decide_true, Bool.not_true, Bool.false_eq_true] at this
  · rcases mem_cons.mp hj' with rfl | hj'
    · exact Nat.le_refl _
    · exact (pairwise_cons.mp (pairwise_append.mp hsorted).2.1).1 j hj'

theorem represented {d : D} {disk : ℕ → D} {lh : List ℕ} {es : List (Event D)} {x : Traced D}
    (hlog : 1 ≤ c.logDev) (hr : run (Traced.step c) (.boot d disk lh) es = some x)
    (hserved : Along (Traced.step c) (fun x e => Served c x.st e) (.boot d disk lh) es) :
    Represented c x := by
  obtain ⟨l, h, ha⟩ := run_inv hlog hr hserved
  have hwalk := h.ring.walk
  rw [h.length] at hwalk
  exact ⟨⟨l, h.perm, hwalk.1, hwalk.2⟩, fun _ _ => h.uniq, fun _ => h.refcnt,
    fun _ _ _ => h.kept, fun _ _ => h.lru ha⟩

/-- A transaction on block 5 of device 1, and its installation by `commit`. -/
def commitRun : List (Event ℕ) :=
  [.recoverDone, .beginOp, .bget ⟨1, 1, 5⟩, .acquire 0 ⟨1, 1, 5⟩, .modify 1 0 7, .logWrite 1 0,
    .brelse 1 0, .endOp, .bget ⟨1, 1, 5⟩, .acquire 0 ⟨1, 1, 5⟩, .install 1 0]

instance (c : Conf) (s : State D) (e : Event D) : Decidable (Served c s e) :=
  match e with
  | .bget r => inferInstanceAs (Decidable (1 ≤ r.dev))
  | .logWrite _ i => inferInstanceAs (Decidable ((s.buf i).dev = c.logDev))
  | .acquire _ _ | .modify _ _ _ | .bwrite _ _ | .brelse _ _ | .beginOp | .endOp | .install _ _
  | .clearLog | .commitDone | .recoverDone => isTrue trivial

theorem represented_commitRun : ∃ x, run (Traced.step ⟨1, 30⟩) (.boot 0 (fun _ => 0) []) commitRun =
    some x ∧ Represented ⟨1, 30⟩ x := by
  have hx : (run (Traced.step ⟨1, 30⟩) (.boot 0 (fun _ => 0) []) commitRun).isSome := by
    decide +kernel
  obtain ⟨x, hx⟩ := isSome_iff_exists.mp hx
  exact ⟨x, hx, represented (by decide) hx (by decide +kernel)⟩

def CountsHeader (s : State D) : Prop :=
  ∀ i < NBUF, (s.buf i).refcnt = (s.buf i).users + if (s.buf i).blockno ∈ s.lh then 1 else 0

/-- `log_write` for a block of device 2, which `install_trans` looks for on device 1. -/
def otherDevRun : List (Event ℕ) :=
  [.recoverDone, .beginOp, .bget ⟨1, 2, 5⟩, .acquire 0 ⟨1, 2, 5⟩, .logWrite 1 0, .brelse 1 0, .endOp,
    .bget ⟨1, 1, 5⟩, .acquire 1 ⟨1, 1, 5⟩, .install 1 1]

/-- `install_trans` unpins a block that is still in the header, a block of another device is not
pinned by one with its number, and one that is logged is unpinned on the device of the log. -/
theorem not_countsHeader :
    (∃ s, run (step ⟨1, 30⟩) (boot 0 (fun _ => 0) []) commitRun = some s ∧ ¬ CountsHeader s) ∧
    (∃ s, run (step ⟨1, 30⟩) (boot 0 (fun _ => 0) [])
      (commitRun.take 7 ++ [.bget ⟨1, 2, 5⟩]) = some s ∧ ¬ CountsHeader s) ∧
    ∃ s, run (step ⟨1, 30⟩) (boot 0 (fun _ => 0) []) otherDevRun = some s ∧ ¬ CountsHeader s := by
  have hno : ∀ {i n : ℕ} {s : State ℕ}, i < NBUF → n < 2 →
      ((s.buf i).refcnt, (s.buf i).users, (s.buf i).blockno, s.lh) = (n, 1, 5, [5]) →
      ¬ CountsHeader s := by
    intro i n s hi hn h hc
    simp only [Prod.mk.injEq] at h
    obtain ⟨href, husers, hblock, hlh⟩ := h
    have hcount := hc i hi
    rw [href, husers, hblock, hlh, if_pos mem_cons_self] at hcount
    omega
  refine ⟨?_, ?_, ?_⟩
  · have hs : (run (step ⟨1, 30⟩) (boot 0 (fun _ => 0) []) commitRun).map (fun s =>
        ((s.buf 0).refcnt, (s.buf 0).users, (s.buf 0).blockno, s.lh)) = some (1, 1, 5, [5]) := by
      decide +kernel
    obtain ⟨s, hs, h⟩ := map_eq_some_iff.mp hs
    exact ⟨s, hs, hno (by decide) (by decide) h⟩
  · have hs : (run (step ⟨1, 30⟩) (boot 0 (fun _ => 0) [])
        (commitRun.take 7 ++ [.bget ⟨1, 2, 5⟩])).map (fun s =>
        ((s.buf 1).refcnt, (s.buf 1).users, (s.buf 1).blockno, s.lh)) = some (1, 1, 5, [5]) := by
      decide +kernel
    obtain ⟨s, hs, h⟩ := map_eq_some_iff.mp hs
    exact ⟨s, hs, hno (by decide) (by decide) h⟩
  · have hs : (run (step ⟨1, 30⟩) (boot 0 (fun _ => 0) []) otherDevRun).map (fun s =>
        ((s.buf 1).refcnt, (s.buf 1).users, (s.buf 1).blockno, s.lh)) = some (0, 1, 5, [5]) := by
      decide +kernel
    obtain ⟨s, hs, h⟩ := map_eq_some_iff.mp hs
    exact ⟨s, hs, hno (by decide) (by decide) h⟩

end Xv6.Bio
