import Xv6.Dev.Virtio

/-! The invariant of the driver and the device, and the steps of the processes. -/
namespace Xv6.Virtio
open Circular PartialRun Function List

def Idx.list (x : Idx) : List ℕ := [x.i0, x.i1, x.i2]

namespace Phase

/-- The process holds `vdisk_lock`. -/
def locked : Phase → Bool
  | .alloc _ | .format _ _ | .publish _ | .bump _ | .check _ => true
  | .idle | .sleepFree _ | .sleepDone _ => false

def job : Phase → Option Job
  | .idle => none
  | .alloc j | .sleepFree j | .format j _ => some j
  | .publish r | .bump r | .check r | .sleepDone r => some r.j

def chain : Phase → List ℕ
  | .idle | .alloc _ | .sleepFree _ => []
  | .format _ x => x.list
  | .publish r | .bump r | .check r | .sleepDone r => r.x.list

def early : Phase → Option Req
  | .publish r | .bump r => some r
  | _ => none

def waits : Phase → Option Req
  | .check r | .sleepDone r => some r
  | _ => none

def post (ph : Phase) : Option Req := ph.early.or ph.waits

end Phase

structure Written (desc : ℕ → Desc) (ops : ℕ → BlkReq) (info : ℕ → Info) (serial : ℕ → ℕ)
    (r : Req) : Prop where
  d0 : desc r.x.i0 = ⟨.op r.x.i0, 16, VRING_DESC_F_NEXT, r.x.i1⟩
  d1 : desc r.x.i1 = ⟨.data r.j.b, BSIZE,
    (if r.j.write then 0 else VRING_DESC_F_WRITE) ||| VRING_DESC_F_NEXT, r.x.i2⟩
  d2 : desc r.x.i2 = ⟨.status r.x.i0, 1, VRING_DESC_F_WRITE, 0⟩
  op : ops r.x.i0 = ⟨if r.j.write then VIRTIO_BLK_T_OUT else VIRTIO_BLK_T_IN, 0, r.j.sector⟩
  buf : (info r.x.i0).b = some r.j.b
  serial : serial r.x.i0 = r.id

/-- A submitted request is on its way to the device or in it, or it is completed and not yet seen by
the driver, or its flag is cleared. -/
def Stage (s : State) (A U : List ℕ) (r : Req) : Prop :=
  (s.disk r.j.b = true ∧ r.x.i0 ∈ A ++ s.inflight ∧ r.id ∉ s.completed.map Req.id) ∨
  (s.disk r.j.b = true ∧ (s.info r.x.i0).status = 0 ∧ r ∈ s.completed.drop s.seen.length) ∨
  (s.disk r.j.b = false ∧ r.x.i0 ∉ A ++ s.inflight ++ U ∧ r ∈ s.completed.take s.seen.length)

/-- `A` and `U` are the heads in the two rings that are not yet consumed. -/
structure Inv (s : State) (A U : List ℕ) : Prop where
  panic : s.panic = none
  lock : ∀ p, (s.phase p).locked = true ↔ s.lock = some (.proc p)
  owner : ∀ p j, (s.phase p).job = some j → s.owner j.b = some p
  chain_lt : ∀ p, ∀ i ∈ (s.phase p).chain, i < NUM
  chain_nodup : ∀ p, (s.phase p).chain.Nodup
  chain_disjoint : ∀ p q i, i ∈ (s.phase p).chain → i ∈ (s.phase q).chain → p = q
  free : ∀ i < NUM, s.free i = false ↔ ∃ p, i ∈ (s.phase p).chain
  written : ∀ p r, (s.phase p).post = some r → Written s.desc s.ops s.info s.serial r
  early : ∀ p r, (s.phase p).early = some r →
    s.disk r.j.b = true ∧ r.x.i0 ∉ A ++ s.inflight ++ U ∧ r.id ∉ s.completed.map Req.id
  ring : ∀ p r, s.phase p = .bump r → s.availRing (cell NUM s.availIdx) = r.x.i0
  stage : ∀ p r, (s.phase p).waits = some r → Stage s A U r
  queue : ∀ h ∈ A ++ s.inflight ++ U, ∃ p r, (s.phase p).waits = some r ∧ r.x.i0 = h
  nodup : (A ++ s.inflight ++ U).Nodup
  avail : Holds s.availRing s.lastAvail s.availIdx A
  used : Holds s.usedRing s.usedIdx s.usedDev U
  submitted : s.submitted = s.taken ++ A
  completed : s.completed.map (fun r => r.x.i0) = s.seen ++ U
  once : (s.completed.map Req.id).Nodup
  id_lt : ∀ p r, (s.phase p).post = some r → r.id < s.count
  done_lt : ∀ r ∈ s.completed, r.id < s.count
  id_inj : ∀ p q r r', (s.phase p).post = some r → (s.phase q).post = some r' → r.id = r'.id → p = q
  cleared : s.cleared = (s.completed.take s.seen.length).map fun r => r.j.b
  returned : ∀ r ∈ s.returned, r ∈ s.completed.take s.seen.length

variable {s t : State} {A U : List ℕ} {p q b h i : ℕ} {r : Req} {j : Job} {x : Idx} {ph : Phase}

theorem inv_init : Inv init [] [] where
  panic := rfl
  lock := fun _ => ⟨nofun, nofun⟩
  owner := nofun
  chain_lt := nofun
  chain_nodup := fun _ => .nil
  chain_disjoint := nofun
  free := fun _ hi => ⟨fun h => absurd hi (of_decide_eq_false h), nofun⟩
  written := nofun
  early := nofun
  ring := nofun
  stage := nofun
  queue := nofun
  nodup := .nil
  avail := holds_nil _ _
  used := holds_nil _ _
  submitted := rfl
  completed := rfl
  once := .nil
  id_lt := nofun
  done_lt := nofun
  id_inj := nofun
  cleared := rfl
  returned := nofun

theorem Phase.post_of_early (h : ph.early = some r) : ph.post = some r := by
  rw [post, h]
  rfl

theorem Phase.post_of_waits (h : ph.waits = some r) : ph.post = some r := by
  cases ph <;> first | exact h | cases h

theorem Phase.waits_of_early (h : ph.early = some r) : ph.waits = none := by
  cases ph <;> first | rfl | cases h

theorem Phase.chain_of_post (h : ph.post = some r) : ph.chain = r.x.list ∧ ph.job = some r.j := by
  cases ph <;> first | (cases h; exact ⟨rfl, rfl⟩) | cases h

theorem Phase.mem_chain (h : ph.post = some r) : r.x.i0 ∈ ph.chain := by
  rw [(chain_of_post h).1]
  exact mem_cons_self

theorem Inv.eq_of_head {r' : Req} (hi : Inv s A U) (hp : (s.phase p).post = some r)
    (hq : (s.phase q).post = some r') (hh : r.x.i0 = r'.x.i0) : p = q :=
  hi.chain_disjoint p q r.x.i0 (Phase.mem_chain hp) (hh ▸ Phase.mem_chain hq)

theorem Inv.eq_of_buf {j' : Job} (hi : Inv s A U) (hp : (s.phase p).job = some j)
    (hq : (s.phase q).job = some j') (hb : j.b = j'.b) : p = q := by
  have h := hi.owner p j hp
  rw [hb, hi.owner q j' hq] at h
  exact (Option.some.inj h).symm

theorem Inv.eq_of_locked (hi : Inv s A U) (hp : (s.phase p).locked = true)
    (hq : (s.phase q).locked = true) : p = q := by
  have h := (hi.lock p).mp hp
  rw [(hi.lock q).mp hq] at h
  exact (Holder.proc.inj (Option.some.inj h)).symm

theorem Written.congr (hw : Written s.desc s.ops s.info s.serial r)
    (hd : ∀ i ∈ r.x.list, t.desc i = s.desc i) (ho : t.ops r.x.i0 = s.ops r.x.i0)
    (hb : (t.info r.x.i0).b = (s.info r.x.i0).b) (hs : t.serial r.x.i0 = s.serial r.x.i0) :
    Written t.desc t.ops t.info t.serial r where
  d0 := (hd _ (by simp [Idx.list])).trans hw.d0
  d1 := (hd _ (by simp [Idx.list])).trans hw.d1
  d2 := (hd _ (by simp [Idx.list])).trans hw.d2
  op := ho.trans hw.op
  buf := hb.trans hw.buf
  serial := hs.trans hw.serial

theorem Stage.imp {A' U' : List ℕ} (hst : Stage s A U r) (hd : t.disk r.j.b = s.disk r.j.b)
    (hi : (t.info r.x.i0).status = (s.info r.x.i0).status)
    (hA : r.x.i0 ∈ A ++ s.inflight → r.x.i0 ∈ A' ++ t.inflight)
    (hU : r.x.i0 ∉ A ++ s.inflight ++ U → r.x.i0 ∉ A' ++ t.inflight ++ U')
    (hid : r.id ∉ s.completed.map Req.id → r.id ∉ t.completed.map Req.id)
    (hdrop : r ∈ s.completed.drop s.seen.length → r ∈ t.completed.drop t.seen.length)
    (htake : r ∈ s.completed.take s.seen.length → r ∈ t.completed.take t.seen.length) :
    Stage t A' U' r := by
  rcases hst with ⟨h₁, h₂, h₃⟩ | ⟨h₁, h₂, h₃⟩ | ⟨h₁, h₂, h₃⟩
  · exact .inl ⟨hd.trans h₁, hA h₂, hid h₃⟩
  · exact .inr (.inl ⟨hd.trans h₁, hi.trans h₂, hdrop h₃⟩)
  · exact .inr (.inr ⟨hd.trans h₁, hU h₂, htake h₃⟩)

variable {l : List ℕ}

theorem length_le_num (hl : l.Nodup) (hlt : ∀ i ∈ l, i < NUM) : l.length ≤ NUM := by
  have hsub : l ⊆ List.range NUM := fun i hi => mem_range.mpr (hlt i hi)
  simpa using (hl.subperm hsub).length_le

theorem Inv.head_lt (hi : Inv s A U) (hh : h ∈ A ++ s.inflight ++ U) : h < NUM := by
  obtain ⟨p, r, hw, rfl⟩ := hi.queue h hh
  exact hi.chain_lt p _ (Phase.mem_chain (Phase.post_of_waits hw))

theorem Inv.lockBuf (hi : Inv s A U) (hb : s.owner b = none) :
    Inv { s with owner := update s.owner b (some p) } A U := by
  refine { hi with owner := fun q j hj => ?_ }
  have hq := hi.owner q j hj
  have hne : j.b ≠ b := by
    rintro rfl
    rw [hb] at hq
    cases hq
  exact (update_of_ne hne _ _).trans hq

theorem Inv.unlockBuf (hi : Inv s A U) (hb : s.owner b = some p) (hp : s.phase p = .idle) :
    Inv { s with owner := update s.owner b none } A U := by
  refine { hi with owner := fun q j hj => ?_ }
  have hq := hi.owner q j hj
  have hne : j.b ≠ b := by
    rintro rfl
    rw [hb] at hq
    cases hq
    rw [hp] at hj
    cases hj
  exact (update_of_ne hne _ _).trans hq

theorem phase_update {β : Type} (f : Phase → β) (hf : f ph = f (s.phase p)) (q : ℕ) :
    f (update s.phase p ph q) = f (s.phase q) := by
  rcases eq_or_ne q p with rfl | hq
  · rw [update_self, hf]
  · rw [update_of_ne hq]

variable {lock : Option Holder}

theorem Inv.move {free : ℕ → Bool} (hi : Inv s A U)
    (hearly : ph.early = (s.phase p).early) (hwaits : ph.waits = (s.phase p).waits)
    (hbump : ∀ r, ph ≠ .bump r) (hjob : ∀ j, ph.job = some j → s.owner j.b = some p)
    (hlock : ∀ q, (update s.phase p ph q).locked = true ↔ lock = some (.proc q))
    (hlt : ∀ i ∈ ph.chain, i < NUM) (hnodup : ph.chain.Nodup)
    (hdisjoint : ∀ i ∈ ph.chain, ∀ q ≠ p, i ∉ (s.phase q).chain)
    (hfree : ∀ i < NUM, free i = false ↔ i ∈ ph.chain ∨ ∃ q ≠ p, i ∈ (s.phase q).chain) :
    Inv ({ s with lock, free }.goto p ph) A U := by
  have hpost : ph.post = (s.phase p).post := by rw [Phase.post, Phase.post, hearly, hwaits]
  have hself : update s.phase p ph p = ph := update_self ..
  have hother : ∀ q ≠ p, update s.phase p ph q = s.phase q :=
    fun q hq => update_of_ne hq _ _
  refine
    { hi with
      lock := hlock, owner := ?_, chain_lt := ?_, chain_nodup := ?_, chain_disjoint := ?_, free := ?_,
      written := ?_, early := ?_, ring := ?_, stage := ?_, queue := ?_, id_lt := ?_, id_inj := ?_ }
  all_goals simp only [State.goto, phase_update Phase.early hearly, phase_update Phase.waits hwaits,
    phase_update Phase.post hpost]
  · intro q j hj
    rcases eq_or_ne q p with rfl | hq
    · rw [hself] at hj
      exact hjob j hj
    · rw [hother q hq] at hj
      exact hi.owner q j hj
  · intro q i hm
    rcases eq_or_ne q p with rfl | hq
    · rw [hself] at hm
      exact hlt i hm
    · rw [hother q hq] at hm
      exact hi.chain_lt q i hm
  · intro q
    rcases eq_or_ne q p with rfl | hq
    · rwa [hself]
    · rw [hother q hq]
      exact hi.chain_nodup q
  · intro q q' i hm hm'
    rcases eq_or_ne q p with rfl | hq <;> rcases eq_or_ne q' q with rfl | hq'
    · rfl
    · rw [hself] at hm
      rw [hother q' hq'] at hm'
      exact absurd hm' (hdisjoint i hm q' hq')
    · rfl
    · rw [hother q hq] at hm
      rcases eq_or_ne q' p with rfl | hq''
      · rw [hself] at hm'
        exact absurd hm (hdisjoint i hm' q hq)
      · rw [hother q' hq''] at hm'
        exact hi.chain_disjoint q q' i hm hm'
  · intro i hlt
    rw [hfree i hlt]
    constructor
    · rintro (hm | ⟨q, hq, hm⟩)
      · exact ⟨p, by rwa [hself]⟩
      · exact ⟨q, by rwa [hother q hq]⟩
    · rintro ⟨q, hm⟩
      rcases eq_or_ne q p with rfl | hq
      · exact .inl (by rwa [hself] at hm)
      · exact .inr ⟨q, hq, by rwa [hother q hq] at hm⟩
  · exact hi.written
  · exact hi.early
  · intro q r hr
    rcases eq_or_ne q p with rfl | hq
    · rw [hself] at hr
      exact absurd hr (hbump r)
    · rw [hother q hq] at hr
      exact hi.ring q r hr
  · exact hi.stage
  · exact hi.queue
  · exact hi.id_lt
  · exact hi.id_inj

theorem Inv.keep (hi : Inv s A U) (hchain : ph.chain = (s.phase p).chain)
    (hearly : ph.early = (s.phase p).early) (hwaits : ph.waits = (s.phase p).waits)
    (hbump : ∀ r, ph ≠ .bump r) (hjob : ∀ j, ph.job = some j → s.owner j.b = some p)
    (hlock : ∀ q, (update s.phase p ph q).locked = true ↔ lock = some (.proc q)) :
    Inv ({ s with lock }.goto p ph) A U := by
  refine hi.move hearly hwaits hbump hjob hlock ?_ ?_ ?_ ?_ <;> rw [hchain]
  · exact hi.chain_lt p
  · exact hi.chain_nodup p
  · exact fun i hm q hq hm' => hq (hi.chain_disjoint q p i hm' hm)
  · intro i hlt
    rw [hi.free i hlt]
    constructor
    · rintro ⟨q, hm⟩
      rcases eq_or_ne q p with rfl | hq
      · exact .inl hm
      · exact .inr ⟨q, hq, hm⟩
    · rintro (hm | ⟨q, -, hm⟩)
      · exact ⟨p, hm⟩
      · exact ⟨q, hm⟩

theorem Inv.locks (hi : Inv s A U) (hs : s.lock = none) (hph : ph.locked = true) (q : ℕ) :
    (update s.phase p ph q).locked = true ↔ some (Holder.proc p) = some (.proc q) := by
  by_cases hq : q = p
  · subst hq
    rw [update_self]
    exact ⟨fun _ => rfl, fun _ => hph⟩
  · rw [update_of_ne hq, hi.lock q, hs]
    exact ⟨nofun, fun h => absurd (Holder.proc.inj (Option.some.inj h)).symm hq⟩

theorem Inv.unlocks (hi : Inv s A U) (hs : (s.phase p).locked = true) (hph : ph.locked = false) (q : ℕ) :
    (update s.phase p ph q).locked = true ↔ (none : Option Holder) = some (.proc q) := by
  by_cases hq : q = p
  · subst hq
    rw [update_self, hph]
    exact ⟨nofun, nofun⟩
  · rw [update_of_ne hq]
    exact ⟨fun h => absurd (hi.eq_of_locked h hs) hq, nofun⟩

theorem Inv.stays (hi : Inv s A U) (hs : (s.phase p).locked = true) (hph : ph.locked = true) (q : ℕ) :
    (update s.phase p ph q).locked = true ↔ s.lock = some (.proc q) := by
  by_cases hq : q = p
  · subst hq
    rw [update_self, ← hi.lock q, hs, hph]
  · rw [update_of_ne hq, hi.lock q]

theorem Inv.rw (hi : Inv s A U) (hb : s.owner b = some p) (hp : s.phase p = .idle)
    (hl : s.lock = none) (hj : j.b = b) :
    Inv ({ s with lock := some (.proc p) }.goto p (.alloc j)) A U := by
  refine hi.keep (by rw [hp]; rfl) (by rw [hp]; rfl) (by rw [hp]; rfl) nofun ?_ (hi.locks hl rfl)
  rintro _ ⟨⟩
  rw [hj, hb]

theorem Inv.wake (hi : Inv s A U) (hl : s.lock = none) :
    (s.phase p = .sleepFree j → Inv ({ s with lock := some (.proc p) }.goto p (.alloc j)) A U) ∧
      (s.phase p = .sleepDone r → Inv ({ s with lock := some (.proc p) }.goto p (.check r)) A U) := by
  constructor
  · intro hp
    refine hi.keep (by rw [hp]; rfl) (by rw [hp]; rfl) (by rw [hp]; rfl) nofun ?_ (hi.locks hl rfl)
    rintro _ ⟨⟩
    exact hi.owner p j (by rw [hp]; rfl)
  · intro hp
    refine hi.keep (by rw [hp]; rfl) (by rw [hp]; rfl) (by rw [hp]; rfl) nofun ?_ (hi.locks hl rfl)
    rintro _ ⟨⟩
    exact hi.owner p r.j (by rw [hp]; rfl)

theorem Inv.sleepDone (hi : Inv s A U) (hp : s.phase p = .check r) :
    Inv ({ s with lock := none }.goto p (.sleepDone r)) A U := by
  refine hi.keep (by rw [hp]; rfl) (by rw [hp]; rfl) (by rw [hp]; rfl) nofun ?_
    (hi.unlocks (by rw [hp]; rfl) rfl)
  rintro _ ⟨⟩
  exact hi.owner p r.j (by rw [hp]; rfl)

theorem Inv.intrLock (hi : Inv s A U) (hl : ∀ q, s.lock ≠ some (.proc q))
    (hl' : ∀ q, lock ≠ some (.proc q)) : Inv { s with lock } A U := by
  refine { hi with lock := fun q => ⟨fun h => absurd ((hi.lock q).mp h) (hl q), fun h => absurd h (hl' q)⟩ }

def mark (f : ℕ → Bool) (l : List ℕ) : ℕ → Bool := fun i => if i ∈ l then false else f i

theorem allocDesc_mark (h : allocDesc { s with free := mark s.free l } = some (i, t)) :
    i < NUM ∧ s.free i = true ∧ i ∉ l ∧ t = { s with free := mark s.free (l ++ [i]) } := by
  obtain ⟨k, hk, heq⟩ := Option.map_eq_some_iff.mp h
  cases heq
  have hfree : mark s.free l i = true := find?_some (p := mark s.free l) hk
  rw [mark] at hfree
  split_ifs at hfree with hmem
  refine ⟨mem_range.mp (mem_of_find?_eq_some hk), hfree, hmem, ?_⟩
  congr 1
  funext m
  simp only [mark, update_apply, mem_append, mem_singleton]
  by_cases hm : m = i <;> simp [hm]

theorem freeDesc_eq (hi : i < NUM) (hf : s.free i = false) :
    freeDesc s i = .ok { s with
      desc := update s.desc i ⟨.null, 0, 0, 0⟩
      free := update s.free i true } := by
  rw [freeDesc, if_neg (Nat.not_le.mpr hi), if_neg (by rw [hf]; decide)]

variable {desc : ℕ → Desc}

theorem freeDesc_mark (hi : i < NUM) (hf : s.free i = true) (hl : i ∉ l) :
    freeDesc { s with desc, free := mark s.free (i :: l) } i =
      .ok { s with desc := update desc i ⟨.null, 0, 0, 0⟩, free := mark s.free l } := by
  rw [freeDesc_eq hi (if_pos mem_cons_self)]
  congr 2
  funext m
  simp only [mark, update_apply, mem_cons]
  by_cases hm : m = i
  · simp [hm, hl, hf]
  · simp [hm]

/-- `alloc3_desc` gives three free descriptors or leaves all as they are. -/
theorem alloc3Desc_cases (s : State) :
    (∃ desc, alloc3Desc s = .ok (none, { s with desc }) ∧
      ∀ i, s.free i = false → desc i = s.desc i) ∨
    ∃ x, alloc3Desc s = .ok (some x, { s with free := mark s.free x.list }) ∧
      x.list.Nodup ∧ ∀ i ∈ x.list, i < NUM ∧ s.free i = true := by
  have hnil : s = { s with free := mark s.free [] } := rfl
  have hdesc : ∀ (desc : ℕ → Desc) (i : ℕ), s.free i = true →
      (∀ k, s.free k = false → desc k = s.desc k) →
      ∀ k, s.free k = false → update desc i ⟨.null, 0, 0, 0⟩ k = s.desc k := by
    intro desc i hi hd k hk
    rw [update_of_ne (by rintro rfl; rw [hi] at hk; cases hk), hd k hk]
  rw [alloc3Desc]
  cases h0 : allocDesc s with
  | none => exact .inl ⟨s.desc, rfl, fun _ _ => rfl⟩
  | some p0 =>
    obtain ⟨i0, s0⟩ := p0
    rw [hnil] at h0
    obtain ⟨hlt0, hf0, -, rfl⟩ := allocDesc_mark h0
    dsimp only [nil_append]
    cases h1 : allocDesc { s with free := mark s.free [i0] } with
    | none =>
      refine .inl ⟨_, ?_, hdesc s.desc i0 hf0 fun _ _ => rfl⟩
      dsimp only
      rw [freeDesc_mark hlt0 hf0 (by simp)]
      rfl
    | some p1 =>
      obtain ⟨i1, s1⟩ := p1
      obtain ⟨hlt1, hf1, hne1, rfl⟩ := allocDesc_mark h1
      dsimp only [cons_append, nil_append]
      cases h2 : allocDesc { s with free := mark s.free [i0, i1] } with
      | none =>
        refine .inl ⟨_, ?_, hdesc _ i1 hf1 (hdesc s.desc i0 hf0 fun _ _ => rfl)⟩
        have hne : i0 ∉ [i1] := by simpa [eq_comm] using hne1
        dsimp only
        rw [freeDesc_mark hlt0 hf0 hne]
        change (freeDesc { s with desc := _, free := mark s.free [i1] } i1 >>= _) = _
        rw [freeDesc_mark hlt1 hf1 (by simp)]
        rfl
      | some p2 =>
        obtain ⟨i2, s2⟩ := p2
        obtain ⟨hlt2, hf2, hne2, rfl⟩ := allocDesc_mark h2
        refine .inr ⟨⟨i0, i1, i2⟩, rfl, ?_, ?_⟩
        · simp only [mem_cons, not_mem_nil, or_false, not_or] at hne1 hne2
          simp [Idx.list, Ne.symm hne1, Ne.symm hne2.1, Ne.symm hne2.2]
        · intro i hi
          simp only [Idx.list, mem_cons, not_mem_nil, or_false] at hi
          rcases hi with rfl | rfl | rfl
          · exact ⟨hlt0, hf0⟩
          · exact ⟨hlt1, hf1⟩
          · exact ⟨hlt2, hf2⟩

theorem Inv.not_free (hi : Inv s A U) (hm : i ∈ (s.phase p).chain) : s.free i = false :=
  (hi.free i (hi.chain_lt p i hm)).mpr ⟨p, hm⟩

theorem Inv.reset {info : ℕ → Info} (hi : Inv s A U)
    (hd : ∀ i, s.free i = false → desc i = s.desc i ∧ info i = s.info i) :
    Inv { s with desc, info } A U := by
  refine { hi with written := fun q r hr => ?_, stage := fun q r hr => ?_ }
  · have hused : ∀ i ∈ r.x.list, s.free i = false := fun i hm =>
      hi.not_free (by rwa [(Phase.chain_of_post hr).1])
    exact (hi.written q r hr).congr (t := { s with desc, info }) (fun i hm => (hd i (hused i hm)).1)
      rfl (congrArg Info.b (hd _ (hused _ mem_cons_self)).2) rfl
  · have hused := hi.not_free (Phase.mem_chain (Phase.post_of_waits hr))
    exact (hi.stage q r hr).imp rfl (congrArg Info.status (hd _ hused).2) id id id id id

theorem Inv.allocNone (hi : Inv s A U) (hp : s.phase p = .alloc j)
    (hd : ∀ i, s.free i = false → desc i = s.desc i) :
    Inv ({ s with desc, lock := none }.goto p (.sleepFree j)) A U := by
  have hi' : Inv { s with desc } A U := hi.reset fun i hf => ⟨hd i hf, rfl⟩
  refine hi'.keep (by rw [hp]; rfl) (by rw [hp]; rfl) (by rw [hp]; rfl) nofun ?_
    (hi'.unlocks (by rw [hp]; rfl) rfl)
  rintro _ ⟨⟩
  exact hi.owner p j (by rw [hp]; rfl)

theorem Inv.allocSome (hi : Inv s A U) (hp : s.phase p = .alloc j) (hx : x.list.Nodup)
    (hf : ∀ i ∈ x.list, i < NUM ∧ s.free i = true) :
    Inv ({ s with free := mark s.free x.list }.goto p (.format j x)) A U := by
  have hnot : ∀ i ∈ x.list, ∀ q, i ∉ (s.phase q).chain := by
    intro i hmem q hq
    have := hi.not_free hq
    rw [(hf i hmem).2] at this
    cases this
  refine hi.move (by rw [hp]; rfl) (by rw [hp]; rfl) nofun ?_ (hi.stays (by rw [hp]; rfl) rfl)
    (fun i hm => (hf i hm).1) hx (fun i hm q _ => hnot i hm q) ?_
  · rintro _ ⟨⟩
    exact hi.owner p j (by rw [hp]; rfl)
  · intro i hlt
    change (if i ∈ x.list then false else s.free i) = false ↔ i ∈ x.list ∨ _
    split_ifs with hm
    · exact ⟨fun _ => .inl hm, fun _ => rfl⟩
    · rw [hi.free i hlt]
      constructor
      · rintro ⟨q, hq⟩
        refine .inr ⟨q, ?_, hq⟩
        rintro rfl
        rw [hp] at hq
        cases hq
      · rintro (hm' | ⟨q, -, hq⟩)
        · exact absurd hm' hm
        · exact ⟨q, hq⟩

theorem Inv.not_queued (hi : Inv s A U) (hm : h ∈ (s.phase p).chain) (hp : (s.phase p).waits = none) :
    h ∉ A ++ s.inflight ++ U := by
  intro hq
  obtain ⟨q, r, hr, rfl⟩ := hi.queue h hq
  have := hi.chain_disjoint q p _ (Phase.mem_chain (Phase.post_of_waits hr)) hm
  subst this
  rw [hp] at hr
  cases hr

theorem written_format (hx : x.list.Nodup) :
    Written (format s j x).desc (format s j x).ops (format s j x).info (format s j x).serial
      ⟨s.count, x, j⟩ := by
  simp only [Idx.list, nodup_cons, mem_cons, not_mem_nil, or_false, not_or,
    not_false_eq_true, nodup_nil, and_true] at hx
  obtain ⟨⟨h01, h02⟩, h12⟩ := hx
  refine ⟨?_, ?_, ?_, ?_, ?_, ?_⟩
  · exact (update_of_ne h02 _ _).trans ((update_of_ne h01 _ _).trans
      (update_self ..))
  · exact (update_of_ne h12 _ _).trans (update_self ..)
  · exact update_self ..
  · exact update_self ..
  · simp only [Virtio.format, update_self]
  · exact update_self ..

theorem format_other (hr : ∀ i ∈ r.x.list, i ∉ x.list) :
    (∀ i ∈ r.x.list, (format s j x).desc i = s.desc i) ∧
      (format s j x).ops r.x.i0 = s.ops r.x.i0 ∧ (format s j x).info r.x.i0 = s.info r.x.i0 ∧
      (format s j x).serial r.x.i0 = s.serial r.x.i0 := by
  have hne : ∀ i ∈ r.x.list, i ≠ x.i0 ∧ i ≠ x.i1 ∧ i ≠ x.i2 := by
    intro i hi
    have := hr i hi
    simpa [Idx.list] using this
  have h0 := (hne r.x.i0 mem_cons_self).1
  refine ⟨fun i hi => ?_, update_of_ne h0 _ _, update_of_ne h0 _ _,
    update_of_ne h0 _ _⟩
  obtain ⟨h0, h1, h2⟩ := hne i hi
  exact (update_of_ne h2 _ _).trans ((update_of_ne h1 _ _).trans
    (update_of_ne h0 _ _))

@[simp] theorem format_phase : (format s j x).phase = s.phase := rfl

theorem Inv.format (hi : Inv s A U) (hp : s.phase p = .format j x) :
    Inv ((format s j x).goto p (.publish ⟨s.count, x, j⟩)) A U := by
  have hchain : (Phase.publish ⟨s.count, x, j⟩).chain = (s.phase p).chain := by rw [hp]; rfl
  have hwaits : (Phase.publish ⟨s.count, x, j⟩).waits = (s.phase p).waits := by rw [hp]; rfl
  have hjob : (Phase.publish ⟨s.count, x, j⟩).job = (s.phase p).job := by rw [hp]; rfl
  have hself : update s.phase p (.publish ⟨s.count, x, j⟩) p = .publish ⟨s.count, x, j⟩ :=
    update_self ..
  have hother : ∀ q ≠ p, update s.phase p (.publish ⟨s.count, x, j⟩) q = s.phase q :=
    fun q hq => update_of_ne hq _ _
  have hx : x.list.Nodup := by
    have := hi.chain_nodup p
    rwa [hp] at this
  have hapart : ∀ q ≠ p, ∀ r, (s.phase q).post = some r →
      (∀ i ∈ r.x.list, i ∉ x.list) ∧ r.j.b ≠ j.b := by
    intro q hq r hr
    obtain ⟨hc, hj⟩ := Phase.chain_of_post hr
    refine ⟨fun i hm hm' => hq (hi.chain_disjoint q p i (by rwa [hc]) (by rw [hp]; exact hm')), ?_⟩
    exact fun hb => hq (hi.eq_of_buf hj (by rw [hp]; rfl) hb)
  have hdisk : ∀ b ≠ j.b, (Virtio.format s j x).disk b = s.disk b := fun b hb => update_of_ne hb _ _
  refine
    { hi with
      lock := hi.stays (by rw [hp]; rfl) rfl, owner := ?_, chain_lt := ?_, chain_nodup := ?_,
      chain_disjoint := ?_, free := ?_, written := ?_, early := ?_, ring := ?_, stage := ?_, queue := ?_,
      id_lt := ?_, done_lt := ?_, id_inj := ?_ }
  all_goals simp only [State.goto, format_phase, phase_update Phase.chain hchain,
    phase_update Phase.waits hwaits, phase_update Phase.job hjob]
  · exact hi.owner
  · exact hi.chain_lt
  · exact hi.chain_nodup
  · exact hi.chain_disjoint
  · exact hi.free
  · intro q r hr
    rcases eq_or_ne q p with rfl | hq
    · rw [hself] at hr
      cases hr
      exact written_format hx
    · rw [hother q hq] at hr
      obtain ⟨hd, ho, hinfo, hs⟩ := format_other (s := s) (j := j) (hapart q hq r hr).1
      exact (hi.written q r hr).congr (t := Virtio.format s j x) hd ho (congrArg Info.b hinfo) hs
  · intro q r hr
    rcases eq_or_ne q p with rfl | hq
    · rw [hself] at hr
      cases hr
      refine ⟨update_self .., ?_, ?_⟩
      · exact hi.not_queued (by rw [hp]; exact mem_cons_self) (by rw [hp]; rfl)
      · intro hmem
        obtain ⟨r, hr, hid⟩ := mem_map.mp hmem
        exact absurd (hi.done_lt r hr) (by rw [hid]; exact lt_irrefl _)
    · rw [hother q hq] at hr
      have hb := (hapart q hq r (Phase.post_of_early hr)).2
      obtain ⟨hd, hrest⟩ := hi.early q r hr
      exact ⟨(hdisk _ hb).trans hd, hrest⟩
  · intro q r hr
    rcases eq_or_ne q p with rfl | hq
    · rw [hself] at hr
      cases hr
    · rw [hother q hq] at hr
      exact hi.ring q r hr
  · intro q r hr
    have hq : q ≠ p := by
      rintro rfl
      rw [hp] at hr
      cases hr
    obtain ⟨hx', hb⟩ := hapart q hq r (Phase.post_of_waits hr)
    have hinfo := (format_other (s := s) (j := j) hx').2.2.1
    exact (hi.stage q r hr).imp (hdisk _ hb) (congrArg Info.status hinfo) id id id id id
  · exact hi.queue
  · intro q r hr
    rcases eq_or_ne q p with rfl | hq
    · rw [hself] at hr
      cases hr
      exact Nat.lt_succ_self _
    · rw [hother q hq] at hr
      exact Nat.lt_succ_of_lt (hi.id_lt q r hr)
  · exact fun r hr => Nat.lt_succ_of_lt (hi.done_lt r hr)
  · intro q q' r r' hr hr' hid
    rcases eq_or_ne q p with rfl | hq <;> rcases eq_or_ne q' q with rfl | hq'
    · rfl
    · rw [hself] at hr
      cases hr
      rw [hother q' hq'] at hr'
      exact absurd (hi.id_lt q' r' hr') (by rw [← hid]; exact lt_irrefl _)
    · rfl
    · rw [hother q hq] at hr
      rcases eq_or_ne q' p with rfl | hq''
      · rw [hself] at hr'
        cases hr'
        exact absurd (hi.id_lt q r hr) (by rw [hid]; exact lt_irrefl _)
      · rw [hother q' hq''] at hr'
        exact hi.id_inj q q' r r' hr hr' hid

theorem num_dvd : NUM ∣ 2 ^ 16 := by decide

variable {data : Fin NUM → ℕ}

theorem holds_write {r w : BitVec 16} (hh : Holds data r w l)
    (hl : l.length < NUM) (y : ℕ) : Holds (update data (cell NUM w) y) r w l := by
  have hu := (hh.push num_dvd hl y).unpush.2
  rwa [add_sub_cancel_right] at hu

theorem holds_bump {r w : BitVec 16} (hh : Holds data r w l)
    (hl : l.length < NUM) {y : ℕ} (hy : data (cell NUM w) = y) : Holds data r (w + 1) (l ++ [y]) := by
  subst hy
  have hp := hh.push num_dvd hl (data (cell NUM w))
  rwa [update_eq_self] at hp

theorem Inv.room (hi : Inv s A U) (hr : (s.phase p).early = some r) : A.length < NUM := by
  have hlen := length_le_num (l := r.x.i0 :: (A ++ s.inflight ++ U))
    (nodup_cons.mpr ⟨(hi.early p r hr).2.1, hi.nodup⟩) (fun i hm => ?_)
  · simp only [length_cons, length_append] at hlen
    omega
  · rcases mem_cons.mp hm with rfl | hm
    · exact hi.chain_lt p _ (Phase.mem_chain (Phase.post_of_early hr))
    · exact hi.head_lt hm

theorem Inv.publish (hi : Inv s A U) (hp : s.phase p = .publish r) :
    Inv ({ s with availRing := update s.availRing (cell NUM s.availIdx) r.x.i0 }.goto p
      (.bump r)) A U := by
  have hroom := hi.room (p := p) (r := r) (by rw [hp]; rfl)
  have hchain : (Phase.bump r).chain = (s.phase p).chain := by rw [hp]; rfl
  have hearly : (Phase.bump r).early = (s.phase p).early := by rw [hp]; rfl
  have hwaits : (Phase.bump r).waits = (s.phase p).waits := by rw [hp]; rfl
  have hpost : (Phase.bump r).post = (s.phase p).post := by rw [hp]; rfl
  have hjob : (Phase.bump r).job = (s.phase p).job := by rw [hp]; rfl
  refine
    { hi with
      lock := hi.stays (by rw [hp]; rfl) rfl, owner := ?_, chain_lt := ?_, chain_nodup := ?_,
      chain_disjoint := ?_, free := ?_, written := ?_, early := ?_, ring := ?_, stage := ?_, queue := ?_,
      id_lt := ?_, id_inj := ?_, avail := holds_write hi.avail hroom _ }
  all_goals simp only [State.goto, phase_update Phase.chain hchain, phase_update Phase.waits hwaits,
    phase_update Phase.job hjob, phase_update Phase.early hearly, phase_update Phase.post hpost]
  · exact hi.owner
  · exact hi.chain_lt
  · exact hi.chain_nodup
  · exact hi.chain_disjoint
  · exact hi.free
  · exact hi.written
  · exact hi.early
  · intro q r' hr
    rcases eq_or_ne q p with rfl | hq
    · rw [update_self] at hr
      cases hr
      exact update_self ..
    · rw [update_of_ne hq] at hr
      exact absurd (hi.eq_of_locked (by rw [hr]; rfl) (by rw [hp]; rfl)) hq
  · exact hi.stage
  · exact hi.queue
  · exact hi.id_lt
  · exact hi.id_inj

theorem Inv.bump (hi : Inv s A U) (hp : s.phase p = .bump r) :
    Inv ({ s with availIdx := s.availIdx + 1, submitted := s.submitted ++ [r.x.i0] }.goto p (.check r))
      (A ++ [r.x.i0]) U := by
  have hroom := hi.room (p := p) (r := r) (by rw [hp]; rfl)
  obtain ⟨hdisk, hnot, hid⟩ := hi.early p r (by rw [hp]; rfl)
  have hchain : (Phase.check r).chain = (s.phase p).chain := by rw [hp]; rfl
  have hpost : (Phase.check r).post = (s.phase p).post := by rw [hp]; rfl
  have hjob : (Phase.check r).job = (s.phase p).job := by rw [hp]; rfl
  have hself : update s.phase p (.check r) p = .check r := update_self ..
  have hother : ∀ q ≠ p, update s.phase p (.check r) q = s.phase q :=
    fun q hq => update_of_ne hq _ _
  have hmem : ∀ h, h ∈ A ++ [r.x.i0] ++ s.inflight ++ U ↔ h = r.x.i0 ∨ h ∈ A ++ s.inflight ++ U := by
    intro h
    simp only [mem_append, mem_singleton]
    tauto
  have hhead : ∀ q ≠ p, ∀ r', (s.phase q).post = some r' → r'.x.i0 ≠ r.x.i0 :=
    fun q hq r' hr hh => hq (hi.eq_of_head hr (by rw [hp]; rfl) hh)
  refine
    { hi with
      lock := hi.stays (by rw [hp]; rfl) rfl, owner := ?_, chain_lt := ?_, chain_nodup := ?_,
      chain_disjoint := ?_, free := ?_, written := ?_, early := ?_, ring := ?_, stage := ?_, queue := ?_,
      id_lt := ?_, id_inj := ?_, nodup := ?_,
      avail := holds_bump hi.avail hroom (hi.ring p r hp), submitted := ?_ }
  all_goals simp only [State.goto, phase_update Phase.chain hchain, phase_update Phase.job hjob,
    phase_update Phase.post hpost]
  · exact hi.owner
  · exact hi.chain_lt
  · exact hi.chain_nodup
  · exact hi.chain_disjoint
  · exact hi.free
  · exact hi.written
  · intro q r' hr
    rcases eq_or_ne q p with rfl | hq
    · rw [hself] at hr
      cases hr
    · rw [hother q hq] at hr
      obtain ⟨hd, hnot', hid'⟩ := hi.early q r' hr
      refine ⟨hd, ?_, hid'⟩
      rw [hmem, not_or]
      exact ⟨hhead q hq r' (Phase.post_of_early hr), hnot'⟩
  · intro q r' hr
    rcases eq_or_ne q p with rfl | hq
    · rw [hself] at hr
      cases hr
    · rw [hother q hq] at hr
      exact absurd (hi.eq_of_locked (by rw [hr]; rfl) (by rw [hp]; rfl)) hq
  · intro q r' hr
    rcases eq_or_ne q p with rfl | hq
    · rw [hself] at hr
      cases hr
      exact .inl ⟨hdisk, by simp, hid⟩
    · rw [hother q hq] at hr
      refine (hi.stage q r' hr).imp rfl rfl (fun hm => ?_) (fun hm => ?_) id id id
      · simp only [mem_append, mem_singleton] at hm ⊢
        tauto
      · rw [hmem, not_or]
        exact ⟨hhead q hq r' (Phase.post_of_waits hr), hm⟩
  · intro h hm
    rcases (hmem h).mp hm with rfl | hm
    · exact ⟨p, r, by rw [hself]; rfl, rfl⟩
    · obtain ⟨q, r', hr, hh⟩ := hi.queue h hm
      have hq : q ≠ p := by
        rintro rfl
        rw [hp] at hr
        cases hr
      exact ⟨q, r', by rwa [hother q hq], hh⟩
  · rw [append_assoc, append_assoc, singleton_append]
    refine nodup_middle.mpr (nodup_cons.mpr ?_)
    rw [← append_assoc]
    exact ⟨hnot, hi.nodup⟩
  · rw [hi.submitted, append_assoc]
  · exact hi.id_lt
  · exact hi.id_inj

theorem freeChain_eq (hw : Written s.desc s.ops s.info s.serial r) (hx : r.x.list.Nodup)
    (hf : ∀ i ∈ r.x.list, i < NUM ∧ s.free i = false) {info : ℕ → Info} :
    ∃ desc, freeChain (NUM + 1) { s with info } r.x.i0 =
        .ok { s with info, desc, free := fun i => if i ∈ r.x.list then true else s.free i } ∧
      ∀ i ∉ r.x.list, desc i = s.desc i := by
  simp only [Idx.list, nodup_cons, mem_cons, not_mem_nil, or_false, not_or,
    not_false_eq_true, nodup_nil, and_true] at hx
  obtain ⟨⟨h01, h02⟩, h12⟩ := hx
  obtain ⟨hlt0, hf0⟩ := hf r.x.i0 (by simp [Idx.list])
  obtain ⟨hlt1, hf1⟩ := hf r.x.i1 (by simp [Idx.list])
  obtain ⟨hlt2, hf2⟩ := hf r.x.i2 (by simp [Idx.list])
  set z : Desc := ⟨.null, 0, 0, 0⟩
  set d1 := update s.desc r.x.i0 z with hd1
  set d2 := update d1 r.x.i1 z with hd2
  set f1 := update s.free r.x.i0 true with hf1'
  set f2 := update f1 r.x.i1 true with hf2'
  have hstep1 : freeDesc { s with info } r.x.i0 = .ok { s with info, desc := d1, free := f1 } :=
    freeDesc_eq hlt0 hf0
  have hstep2 : freeDesc { s with info, desc := d1, free := f1 } r.x.i1 =
      .ok { s with info, desc := d2, free := f2 } :=
    freeDesc_eq hlt1 ((update_of_ne (Ne.symm h01) _ _).trans hf1)
  have hstep3 : freeDesc { s with info, desc := d2, free := f2 } r.x.i2 =
      .ok { s with info, desc := update d2 r.x.i2 z, free := update f2 r.x.i2 true } :=
    freeDesc_eq hlt2 ((update_of_ne (Ne.symm h12) _ _).trans
      ((update_of_ne (Ne.symm h02) _ _).trans hf2))
  have hdesc1 : d1 r.x.i1 = _ := (update_of_ne (Ne.symm h01) _ _).trans hw.d1
  have hdesc2 : d2 r.x.i2 = _ :=
    (update_of_ne (Ne.symm h12) _ _).trans ((update_of_ne (Ne.symm h02) _ _).trans hw.d2)
  refine ⟨update d2 r.x.i2 z, ?_, ?_⟩
  · rw [freeChain, hstep1]
    change (if (s.desc r.x.i0).flags &&& VRING_DESC_F_NEXT ≠ 0 then
      freeChain NUM { s with info, desc := d1, free := f1 } (s.desc r.x.i0).next else _) = _
    rw [hw.d0, if_pos (by dsimp only; decide)]
    change freeChain (6 + 1 + 1) _ _ = _
    rw [freeChain, hstep2]
    change (if (d1 r.x.i1).flags &&& VRING_DESC_F_NEXT ≠ 0 then
      freeChain (6 + 1) { s with info, desc := d2, free := f2 } (d1 r.x.i1).next else _) = _
    rw [hdesc1, if_pos (by dsimp only; cases r.j.write <;> decide), freeChain, hstep3]
    change (if (d2 r.x.i2).flags &&& VRING_DESC_F_NEXT ≠ 0 then _ else _) = _
    rw [hdesc2, if_neg (by dsimp only; decide)]
    refine congrArg Except.ok ?_
    congr 1
    funext i
    simp only [hf2', hf1', update_apply, Idx.list, mem_cons, not_mem_nil, or_false]
    split_ifs <;> first | rfl | tauto
  · intro i hi
    simp only [Idx.list, mem_cons, not_mem_nil, or_false, not_or] at hi
    rw [update_of_ne hi.2.2, hd2, update_of_ne hi.2.1, hd1, update_of_ne hi.1]

theorem Inv.stage_clear (hi : Inv s A U) (hp : s.phase p = .check r) (hd : s.disk r.j.b = false) :
    r.x.i0 ∉ A ++ s.inflight ++ U ∧ r ∈ s.completed.take s.seen.length := by
  rcases hi.stage p r (by rw [hp]; rfl) with ⟨h, -, -⟩ | ⟨h, -, -⟩ | ⟨-, hrest⟩
  · rw [hd] at h
    cases h
  · rw [hd] at h
    cases h
  · exact hrest

theorem idle_iff {P : Phase → Prop} (h : ¬ P .idle) (q : ℕ) :
    P (update s.phase p .idle q) ↔ q ≠ p ∧ P (s.phase q) := by
  rcases eq_or_ne q p with rfl | hq
  · rw [update_self]
    exact ⟨fun h' => absurd h' h, fun h' => absurd rfl h'.1⟩
  · rw [update_of_ne hq]
    exact ⟨fun h' => ⟨hq, h'⟩, And.right⟩

/-- A process whose request is done goes, and its descriptors are free. -/
theorem Inv.retire (hi : Inv s A U) (hp : s.phase p = .check r)
    (hnot : r.x.i0 ∉ A ++ s.inflight ++ U) :
    Inv ({ s with free := fun i => if i ∈ r.x.list then true else s.free i, lock := none }.goto p
      .idle) A U := by
  have hchain : (s.phase p).chain = r.x.list := by rw [hp]; rfl
  have hmem : ∀ q i, i ∈ (update s.phase p .idle q).chain ↔ q ≠ p ∧ i ∈ (s.phase q).chain :=
    fun q i => idle_iff (P := fun ph => i ∈ ph.chain) (by rintro ⟨⟩) q
  have hpost : ∀ q r', (update s.phase p .idle q).post = some r' → (s.phase q).post = some r' :=
    fun q r' hr => ((idle_iff (P := fun ph => ph.post = some r') (by rintro ⟨⟩) q).mp hr).2
  have hwaits : ∀ q r', (update s.phase p .idle q).waits = some r' ↔
      q ≠ p ∧ (s.phase q).waits = some r' :=
    fun q r' => idle_iff (P := fun ph => ph.waits = some r') (by rintro ⟨⟩) q
  refine
    { hi with
      lock := hi.unlocks (by rw [hp]; rfl) rfl, owner := ?_, chain_lt := ?_, chain_nodup := ?_,
      chain_disjoint := ?_, free := ?_, written := ?_, early := ?_, ring := ?_, stage := ?_, queue := ?_,
      id_lt := ?_, id_inj := ?_ }
  all_goals simp only [State.goto]
  · exact fun q j hj =>
      hi.owner q j ((idle_iff (P := fun ph => ph.job = some j) (by rintro ⟨⟩) q).mp hj).2
  · exact fun q i hm => hi.chain_lt q i ((hmem q i).mp hm).2
  · intro q
    rcases eq_or_ne q p with rfl | hq
    · rw [update_self]
      exact .nil
    · rw [update_of_ne hq]
      exact hi.chain_nodup q
  · exact fun q q' i hm hm' => hi.chain_disjoint q q' i ((hmem q i).mp hm).2 ((hmem q' i).mp hm').2
  · intro i hlt
    split_ifs with hi'
    · refine ⟨by rintro ⟨⟩, ?_⟩
      rintro ⟨q, hm⟩
      obtain ⟨hq, hm⟩ := (hmem q i).mp hm
      exact absurd (hi.chain_disjoint q p i hm (by rwa [hchain])) hq
    · rw [hi.free i hlt]
      refine exists_congr fun q => (and_iff_right_of_imp fun hm => ?_).symm.trans (hmem q i).symm
      rintro rfl
      exact hi' (by rwa [hchain] at hm)
  · exact fun q r' hr => hi.written q r' (hpost q r' hr)
  · exact fun q r' hr =>
      hi.early q r' ((idle_iff (P := fun ph => ph.early = some r') (by rintro ⟨⟩) q).mp hr).2
  · exact fun q r' hr => hi.ring q r' ((idle_iff (P := fun ph => ph = .bump r') (by rintro ⟨⟩) q).mp hr).2
  · exact fun q r' hr => hi.stage q r' ((hwaits q r').mp hr).2
  · intro h hm
    obtain ⟨q, r', hr, hh⟩ := hi.queue h hm
    refine ⟨q, r', (hwaits q r').mpr ⟨?_, hr⟩, hh⟩
    rintro rfl
    rw [hp] at hr
    cases hr
    exact hnot (hh ▸ hm)
  · exact fun q r' hr => hi.id_lt q r' (hpost q r' hr)
  · exact fun q q' r₁ r₂ h₁ h₂ => hi.id_inj q q' r₁ r₂ (hpost q r₁ h₁) (hpost q' r₂ h₂)

theorem Inv.finish (hi : Inv s A U) (hp : s.phase p = .check r)
    (hd : s.disk r.j.b = false) (hdesc : ∀ i ∉ r.x.list, desc i = s.desc i) :
    Inv ({ s with
      info := update s.info r.x.i0 { s.info r.x.i0 with b := none }
      desc
      free := fun i => if i ∈ r.x.list then true else s.free i
      lock := none
      returned := s.returned ++ [r] }.goto p .idle) A U := by
  obtain ⟨hnot, hdone⟩ := hi.stage_clear hp hd
  have hreset : Inv { { s with
        free := fun i => if i ∈ r.x.list then true else s.free i, lock := none }.goto p .idle with
      desc, info := update s.info r.x.i0 { s.info r.x.i0 with b := none } } A U := by
    refine (hi.retire hp hnot).reset fun i hfree => ?_
    have hfree : (if i ∈ r.x.list then true else s.free i) = false := hfree
    have hi' : i ∉ r.x.list := fun hm => by
      rw [if_pos hm] at hfree
      cases hfree
    have hne : i ≠ r.x.i0 := fun he => hi' (by rw [he]; exact mem_cons_self)
    exact ⟨hdesc i hi', update_of_ne hne _ _⟩
  refine { hreset with returned := fun r' hr => ?_ }
  rcases mem_append.mp hr with hr | hr
  · exact hi.returned r' hr
  · rw [mem_singleton.mp hr]
    exact hdone

end Xv6.Virtio
