import Xv6.Bio.Repr

/-! The cache over the disk behaves as one array of blocks, if every modified buffer is written or
logged before it is released. -/
namespace Xv6.Bio
open Ring PartialRun Function List Option
variable {D : Type*} {c : Conf} {e : Event D} {l : List ℕ} {i j n pid : ℕ} {r : Request}

structure Shadow (D : Type*) where
  st : State D
  arr : ℕ → D
  dirty : ℕ → Bool

def Shadow.step (c : Conf) (x : Shadow D) (e : Event D) : Option (Shadow D) :=
  (Bio.step c x.st e).map fun t =>
    { st := t
      arr := match e with
        | .modify _ i d => update x.arr (x.st.buf i).blockno d
        | _ => x.arr
      dirty := match e with
        | .modify _ i _ => update x.dirty i true
        | .bwrite _ i | .logWrite _ i | .install _ i => update x.dirty i false
        | _ => x.dirty }

def Shadow.boot (d : D) (disk : ℕ → D) (lh : List ℕ) : Shadow D :=
  ⟨Bio.boot d disk lh, disk, fun _ => false⟩

/-- All blocks are on the device of the log, and no modified buffer is released before `bwrite` or
`log_write`. -/
def Careful (c : Conf) (x : Shadow D) : Event D → Prop
  | .bget r => r.dev = c.logDev
  | .brelse _ i => x.dirty i = false
  | _ => True

/-- What is newer in the cache than on the disk is pinned, or held by the process that changed it. -/
structure Coherent (c : Conf) (x : Shadow D) : Prop where
  onDev : ∀ {i}, (x.st.buf i).users ≠ 0 ∨ (x.st.buf i).valid → (x.st.buf i).dev = c.logDev
  held : ∀ {i pid}, (x.st.buf i).lock = some pid → (x.st.buf i).valid
  logged : ∀ {i}, i < NBUF → (x.st.buf i).dev = c.logDev → (x.st.buf i).blockno ∈ x.st.pins →
    (x.st.buf i).valid
  dirty : ∀ {i}, x.dirty i → (x.st.buf i).lock ≠ none
  data : ∀ {i}, i < NBUF → (x.st.buf i).valid → (x.st.buf i).data = x.arr (x.st.buf i).blockno
  disk : ∀ n, x.st.disk n = x.arr n ∨ n ∈ x.st.pins ∨
    ∃ i < NBUF, x.dirty i ∧ (x.st.buf i).blockno = n

variable {x y : Shadow D}

theorem users_of_lock {b : Buf D} (hl : b.lock ≠ none) : b.users ≠ 0 := by
  obtain ⟨pid, hpid⟩ := ne_none_iff_exists'.mp hl
  rw [Buf.users, hpid]
  simp

theorem users_of_waiter {b : Buf D} (hr : r ∈ b.waiters) : b.users ≠ 0 := by
  have := length_pos_of_mem hr
  rw [Buf.users]
  omega

namespace Coherent

variable (h : Coherent c x)
include h

theorem newer (hinv : Inv c x.st l) (hlog : 1 ≤ c.logDev) (hi : i < NBUF)
    (hd : (x.st.buf i).dev = c.logDev) :
    x.st.disk (x.st.buf i).blockno = x.arr (x.st.buf i).blockno ∨
      (x.st.buf i).blockno ∈ x.st.pins ∨ x.dirty i := by
  refine (h.disk _).imp_right (Or.imp_right ?_)
  rintro ⟨j, hj, hdirty, hb⟩
  have hjd := h.onDev (.inl (users_of_lock (h.dirty hdirty)))
  rwa [hinv.uniq hj hi (hjd ▸ hlog) (hjd.trans hd.symm) hb] at hdirty

theorem fresh (hinv : Inv c x.st l) (hlog : 1 ≤ c.logDev)
    (hi : i < NBUF) (hd : (x.st.buf i).dev = c.logDev) (hv : (x.st.buf i).valid = false) :
    x.st.disk (x.st.buf i).blockno = x.arr (x.st.buf i).blockno := by
  rcases h.newer hinv hlog hi hd with hdisk | hpin | hdirty
  · exact hdisk
  · have hvalid := h.logged hi hd hpin
    rw [hv] at hvalid
    cases hvalid
  · obtain ⟨pid, hpid⟩ := ne_none_iff_exists'.mp (h.dirty hdirty)
    have hvalid := h.held hpid
    rw [hv] at hvalid
    cases hvalid

theorem touch (hinv : Inv c x.st l) (hlog : 1 ≤ c.logDev) (hi : i < NBUF)
    (hdev : (x.st.buf i).dev = c.logDev) (hdev' : (y.st.buf i).dev = (x.st.buf i).dev)
    (hblock : (y.st.buf i).blockno = (x.st.buf i).blockno)
    (hother : ∀ j ≠ i, y.st.buf j = x.st.buf j ∧ y.dirty j = x.dirty j)
    (hoff : ∀ n ≠ (x.st.buf i).blockno, y.arr n = x.arr n ∧ y.st.disk n = x.st.disk n ∧
      (n ∈ y.st.pins ↔ n ∈ x.st.pins))
    (hheld : ∀ pid, (y.st.buf i).lock = some pid → (y.st.buf i).valid)
    (hlogged : (x.st.buf i).blockno ∈ y.st.pins → (y.st.buf i).valid)
    (hdirty : y.dirty i → (y.st.buf i).lock ≠ none)
    (hdata : (y.st.buf i).valid → (y.st.buf i).data = y.arr (x.st.buf i).blockno)
    (hdisk : y.st.disk (x.st.buf i).blockno = y.arr (x.st.buf i).blockno ∨
      (x.st.buf i).blockno ∈ y.st.pins ∨ y.dirty i) : Coherent c y := by
  -- a buffer of another block
  have hne : ∀ {j}, j < NBUF → j ≠ i → (x.st.buf j).dev = c.logDev →
      (x.st.buf j).blockno ≠ (x.st.buf i).blockno := by
    intro j hj hji hd hb
    exact hji (hinv.uniq hj hi (hd ▸ hlog) (hd.trans hdev.symm) hb)
  refine ⟨fun {j} hj => ?_, fun {j pid} hj => ?_, fun {j} hj hd hp => ?_, fun {j} hj => ?_,
    fun {j} hj hv => ?_, fun n => ?_⟩
  · rcases eq_or_ne j i with rfl | hji
    · exact hdev'.trans hdev
    · rw [(hother j hji).1] at hj ⊢
      exact h.onDev hj
  · rcases eq_or_ne j i with rfl | hji
    · exact hheld pid hj
    · rw [(hother j hji).1] at hj ⊢
      exact h.held hj
  · rcases eq_or_ne j i with rfl | hji
    · exact hlogged (hblock ▸ hp)
    · rw [(hother j hji).1] at hd hp ⊢
      exact h.logged hj hd ((hoff _ (hne hj hji hd)).2.2.mp hp)
  · rcases eq_or_ne j i with rfl | hji
    · exact hdirty hj
    · rw [(hother j hji).2] at hj
      rw [(hother j hji).1]
      exact h.dirty hj
  · rcases eq_or_ne j i with rfl | hji
    · rw [hblock]
      exact hdata hv
    · rw [(hother j hji).1] at hv ⊢
      rw [(hoff _ (hne hj hji (h.onDev (.inr hv)))).1]
      exact h.data hj hv
  · by_cases hn : n = (x.st.buf i).blockno
    · subst hn
      exact hdisk.imp_right (Or.imp_right fun hd => ⟨i, hi, hd, hblock⟩)
    · obtain ⟨harr, hdsk, hpins⟩ := hoff n hn
      rw [harr, hdsk, hpins]
      refine (h.disk n).imp_right (Or.imp_right ?_)
      rintro ⟨j, hj, hd, hb⟩
      have hji : j ≠ i := by
        rintro rfl
        exact hn hb.symm
      exact ⟨j, hj, by rw [(hother j hji).2]; exact hd, by rw [(hother j hji).1]; exact hb⟩

theorem recycle {b : Buf D} (hinv : Inv c x.st l) (hi : i < NBUF)
    (hfree : (x.st.buf i).refcnt = 0) (hb : b.valid = false) (hlock : b.lock = none)
    (hdev : b.dev = c.logDev)
    (hnew : ∀ j < NBUF, ¬ ((x.st.buf j).dev = b.dev ∧ (x.st.buf j).blockno = b.blockno)) :
    Coherent c { x with st := x.st.setBuf i b } := by
  have hcount := hinv.refcnt hi
  have hunlocked : (x.st.buf i).lock = none := by
    by_contra hl
    have := users_of_lock hl
    omega
  have hclean : ∀ {j}, x.dirty j → j ≠ i := by
    rintro j hd rfl
    exact h.dirty hd hunlocked
  refine ⟨fun {j} hj => ?_, fun {j pid} hj => ?_, fun {j} hj hd hp => ?_, fun {j} hj => ?_,
    fun {j} hj hv => ?_, fun n => ?_⟩
  · dsimp only at hj ⊢
    rcases eq_or_ne j i with rfl | hji
    · rw [setBuf_self]
      exact hdev
    · rw [setBuf_of_ne hji] at hj ⊢
      exact h.onDev hj
  · dsimp only at hj ⊢
    rcases eq_or_ne j i with rfl | hji
    · rw [setBuf_self, hlock] at hj
      cases hj
    · rw [setBuf_of_ne hji] at hj ⊢
      exact h.held hj
  · dsimp only at hd hp ⊢
    rcases eq_or_ne j i with rfl | hji
    · rw [setBuf_self] at hp
      obtain ⟨k, hk, hkd, hkb⟩ := hinv.cached hp
      exact absurd ⟨hkd.trans hdev.symm, hkb⟩ (hnew k hk)
    · rw [setBuf_of_ne hji] at hd hp ⊢
      exact h.logged hj hd hp
  · dsimp only
    rw [setBuf_of_ne (hclean hj)]
    exact h.dirty hj
  · dsimp only at hv ⊢
    rcases eq_or_ne j i with rfl | hji
    · rw [setBuf_self, hb] at hv
      cases hv
    · rw [setBuf_of_ne hji] at hv ⊢
      exact h.data hj hv
  · refine (h.disk n).imp_right (Or.imp_right ?_)
    rintro ⟨j, hj, hd, hbn⟩
    exact ⟨j, hj, hd, by rw [setBuf_of_ne (hclean hd)]; exact hbn⟩

theorem log {t : State D} (hbuf : t.buf = x.st.buf) (hdisk : t.disk = x.st.disk)
    (hpins : t.pins = x.st.pins) : Coherent c { x with st := t } := by
  refine ⟨?_, ?_, ?_, ?_, ?_, ?_⟩ <;> dsimp only <;> rw [hbuf]
  · exact h.onDev
  · exact h.held
  · rw [hpins]
    exact h.logged
  · exact h.dirty
  · exact h.data
  · rw [hdisk, hpins]
    exact h.disk

end Coherent

variable (h : Coherent c x) (hinv : Inv c x.st l) (hlog : 1 ≤ c.logDev)
include h hinv hlog

theorem coherent_bget {t : State D}
    (hdev : r.dev = c.logDev) (hs : x.st.bget r = some t) : Coherent c { x with st := t } := by
  obtain ⟨i, hlt, ⟨hkey, -, rfl⟩ | ⟨hzero, hfree, hnew, rfl⟩⟩ := hinv.bget hs
  · have hid := hkey.trans hdev
    refine h.touch hinv hlog hlt hid (by rw [setBuf_self]) (by rw [setBuf_self])
      (fun j hj => ⟨setBuf_of_ne hj, rfl⟩) (fun _ _ => ⟨rfl, rfl, Iff.rfl⟩) ?_ ?_ ?_ ?_ ?_
    all_goals dsimp only
    · rw [setBuf_self]
      exact fun _ => h.held
    · rw [setBuf_self]
      exact h.logged hlt hid
    · rw [setBuf_self]
      exact h.dirty
    · rw [setBuf_self]
      exact h.data hlt
    · exact h.newer hinv hlog hlt hid
  · refine h.recycle hinv hlt hzero rfl ?_ hdev hnew
    by_contra hl
    have hne : (x.st.buf i).users ≠ 0 := users_of_lock hl
    exact hne hfree

/-- `bread` reads the disk only where the disk is up to date. -/
theorem coherent_acquire (hr : r ∈ (x.st.buf i).waiters) :
    Coherent c { x with st := x.st.acquire i r } ∧
      ((x.st.acquire i r).buf i).data = x.arr (x.st.buf i).blockno := by
  have hlt := hinv.lt_of_waiter hr
  have hdev := h.onDev (.inl (users_of_waiter hr))
  have hdata : ((x.st.acquire i r).buf i).data = x.arr (x.st.buf i).blockno := by
    rw [State.acquire, setBuf_self]
    cases hv : (x.st.buf i).valid with
    | true => exact h.data hlt hv
    | false => exact h.fresh hinv hlog hlt hdev hv
  refine ⟨h.touch hinv hlog hlt hdev ?_ ?_ (fun j hj => ⟨setBuf_of_ne hj, rfl⟩)
    (fun _ _ => ⟨rfl, rfl, Iff.rfl⟩) ?_ ?_ ?_ (fun _ => hdata) ?_, hdata⟩
  all_goals dsimp only
  any_goals rw [State.acquire, setBuf_self]
  · exact fun _ _ => rfl
  · exact fun _ => rfl
  · exact fun _ => nofun
  · exact h.newer hinv hlog hlt hdev

variable (hl : (x.st.buf i).lock = some pid)
include hl

theorem coherent_modify {d : D} : Coherent c ⟨x.st.setBuf i { x.st.buf i with data := d },
      update x.arr (x.st.buf i).blockno d, update x.dirty i true⟩ := by
  have hlt := hinv.lt_of_lock hl
  have hlock : (x.st.buf i).lock ≠ none := by
    rw [hl]
    exact nofun
  have hdev := h.onDev (.inl (users_of_lock hlock))
  refine h.touch hinv hlog hlt hdev ?_ ?_
    (fun j hj => ⟨setBuf_of_ne hj, update_of_ne hj _ _⟩)
    (fun n hn => ⟨update_of_ne hn _ _, rfl, Iff.rfl⟩) ?_ ?_ ?_ ?_ ?_
  all_goals dsimp only
  any_goals rw [setBuf_self]
  · exact fun _ _ => h.held hl
  · exact fun _ => h.held hl
  · exact fun _ => hlock
  · rw [update_self]
    exact fun _ => rfl
  · rw [update_self i]
    exact .inr (.inr rfl)

theorem coherent_write {t : State D}
    {m : ℕ} (hbuf : t.buf = (x.st.setBuf i { x.st.buf i with refcnt := m }).buf)
    (hoff : ∀ n ≠ (x.st.buf i).blockno, t.disk n = x.st.disk n ∧ (n ∈ t.pins ↔ n ∈ x.st.pins))
    (hwrite : t.disk (x.st.buf i).blockno = (x.st.buf i).data ∨ (x.st.buf i).blockno ∈ t.pins) :
    Coherent c ⟨t, x.arr, update x.dirty i false⟩ := by
  have hlt := hinv.lt_of_lock hl
  have hdev := h.onDev (.inl (users_of_lock (by rw [hl]; exact nofun)))
  have hself : t.buf i = { x.st.buf i with refcnt := m } := by rw [hbuf, setBuf_self]
  have hdata := h.data hlt (h.held hl)
  refine h.touch hinv hlog hlt hdev ?_ ?_
    (fun j hj => ⟨by rw [hbuf, setBuf_of_ne hj], update_of_ne hj _ _⟩)
    (fun n hn => ⟨rfl, hoff n hn⟩) ?_ ?_ ?_ ?_ ?_
  all_goals dsimp only
  any_goals rw [hself]
  · exact fun _ => h.held
  · exact fun _ => h.held hl
  · rw [update_self]
    exact nofun
  · exact fun _ => hdata
  · exact hwrite.imp (fun hw => hw.trans hdata) .inl

theorem coherent_brelse
    (hclean : x.dirty i = false) : Coherent c { x with st := x.st.brelse i } := by
  have hlt := hinv.lt_of_lock hl
  have hdev := h.onDev (.inl (users_of_lock (by rw [hl]; exact nofun)))
  have hbuf : (x.st.brelse i).buf = (x.st.setBuf i
      { x.st.buf i with lock := none, refcnt := (x.st.buf i).refcnt - 1 }).buf := by
    unfold State.brelse
    dsimp only
    split <;> rfl
  have hdisk : (x.st.brelse i).disk = x.st.disk ∧ (x.st.brelse i).pins = x.st.pins := by
    unfold State.brelse
    dsimp only
    split <;> exact ⟨rfl, rfl⟩
  have hself := congrFun hbuf i
  rw [setBuf_self] at hself
  refine h.touch hinv hlog hlt hdev ?_ ?_
    (fun j hj => ⟨by rw [hbuf, setBuf_of_ne hj], rfl⟩)
    (fun n hn => ⟨rfl, by rw [hdisk.1], by rw [hdisk.2]⟩) ?_ ?_ ?_ ?_ ?_
  all_goals dsimp only
  any_goals rw [hself]
  · exact fun _ _ => h.held hl
  · exact fun _ => h.held hl
  · rw [hclean]
    exact nofun
  · exact h.data hlt
  · rw [hdisk.1, hdisk.2]
    exact h.newer hinv hlog hlt hdev

omit hinv hlog hl

theorem Careful.served (hlog : 1 ≤ c.logDev) (hc : Careful c x e)
    (hs : x.step c e = some y) : Served c x.st e := by
  cases e with
  | bget r => exact Nat.le_trans hlog (Nat.le_of_eq hc.symm)
  | logWrite pid i =>
    obtain ⟨t, ht, -⟩ := map_eq_some_iff.mp hs
    simp only [step, guard_iff] at ht
    exact h.onDev (.inl (users_of_lock (by rw [ht.1.1]; rintro ⟨⟩)))
  | _ => trivial

omit h

theorem coherent_step (hlog : 1 ≤ c.logDev) (hinv : Inv c x.st l) (h : Coherent c x)
    (hc : Careful c x e) (hs : x.step c e = some y) : Coherent c y := by
  obtain ⟨t, ht, rfl⟩ := map_eq_some_iff.mp hs
  cases e <;> simp only [step, guard_iff] at ht
  case bget r => exact coherent_bget h hinv hlog hc ht
  case acquire i r =>
    obtain ⟨⟨hr, -⟩, rfl⟩ := ht
    exact (coherent_acquire h hinv hlog hr).1
  case modify pid i d =>
    obtain ⟨hl, rfl⟩ := ht
    exact coherent_modify h hinv hlog hl
  case bwrite pid i =>
    obtain ⟨hl, rfl⟩ := ht
    refine coherent_write h hinv hlog hl (m := (x.st.buf i).refcnt) ?_
      (fun n hn => ⟨update_of_ne hn _ _, Iff.rfl⟩) (.inl (update_self _ _ _))
    exact (update_eq_self _ _).symm
  case logWrite pid i =>
    obtain ⟨⟨hl, -, -, hout⟩, rfl⟩ := ht
    have hrun := hinv.running hout
    obtain ⟨m, hbuf, hdisk⟩ := logWrite_buf x.st i
    refine coherent_write h hinv hlog hl hbuf (fun n hn => ⟨by rw [hdisk], ?_⟩) (.inr ?_)
    · rw [mem_pins_logWrite hrun, or_iff_right hn]
    · exact (mem_pins_logWrite hrun).mpr (.inl rfl)
  case brelse pid i =>
    obtain ⟨hl, rfl⟩ := ht
    exact coherent_brelse h hinv hlog hl hc
  case install pid i =>
    split at ht
    · rename_i tail hph
      simp only [guard_iff] at ht
      obtain ⟨⟨hl, -, hn⟩, rfl⟩ := ht
      refine coherent_write h hinv hlog hl rfl (fun n hne => ⟨update_of_ne hne _ _, ?_⟩)
        (.inl (update_self _ _ _))
      rw [show x.st.pins = (x.st.buf i).blockno :: x.st.lh.drop (tail + 1) from pins_install hph hn,
        mem_cons, or_iff_right hne]
      rfl
    · cases ht
  case beginOp =>
    obtain ⟨-, rfl⟩ := ht
    exact h.log rfl rfl rfl
  case endOp =>
    obtain ⟨hout, rfl⟩ := ht
    exact h.log rfl rfl (pins_endOp (hinv.running hout))
  case clearLog =>
    obtain ⟨hph, rfl⟩ := ht
    exact h.log rfl rfl (pins_clearLog hph)
  case commitDone =>
    obtain ⟨⟨hph, hnil⟩, rfl⟩ := ht
    exact h.log rfl rfl (pins_commitDone hph hnil)
  case recoverDone =>
    obtain ⟨hph, rfl⟩ := ht
    exact h.log rfl rfl (pins_recoverDone hph)

theorem coherent_boot (d : D) (disk : ℕ → D) (lh : List ℕ) : Coherent c (.boot d disk lh) :=
  ⟨fun h => by simp [Shadow.boot, boot, Buf.users] at h, nofun, nofun, nofun, nofun, fun _ => .inl rfl⟩

end Xv6.Bio
