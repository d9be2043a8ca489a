import Xv6.Dev.VirtioInv

/-! The steps of the device and of the interrupt handler, and all interleavings. -/
namespace Xv6.Virtio
open Circular PartialRun Function List

variable {s t : State} {A U : List ℕ} {p h b : ℕ} {r : Req}

theorem Inv.take (hi : Inv s (h :: A) U) :
    Inv { s with
      lastAvail := s.lastAvail + 1
      inflight := s.inflight ++ [h]
      taken := s.taken ++ [h] } A U := by
  have hmem : ∀ k, k ∈ A ++ (s.inflight ++ [h]) ++ U ↔ k ∈ h :: A ++ s.inflight ++ U := by
    intro k
    simp only [mem_append, mem_cons, not_mem_nil, or_false]
    tauto
  have hperm : (A ++ (s.inflight ++ [h]) ++ U).Perm (h :: A ++ s.inflight ++ U) := by
    rw [← append_assoc A]
    refine List.Perm.append_right U ?_
    exact (perm_append_singleton h _)
  refine { hi with
    early := fun q r hr => ?_, stage := fun q r hr => ?_, queue := fun k hk => ?_,
    nodup := hperm.nodup_iff.mpr hi.nodup, avail := hi.avail.pop.2, submitted := ?_ }
  · rw [hmem]
    exact hi.early q r hr
  · refine (hi.stage q r hr).imp rfl rfl (fun hm => ?_) (fun hm => ?_) id id id
    · simp only [mem_append, mem_cons, not_mem_nil, or_false] at hm ⊢
      tauto
    · rwa [hmem]
  · exact hi.queue k ((hmem k).mp hk)
  · rw [hi.submitted, append_assoc]
    rfl

theorem Written.readChain (hw : Written s.desc s.ops s.info s.serial r) :
    readChain s r.x.i0 = some (r, r.x.i0) := by
  obtain ⟨id, ⟨i0, i1, i2⟩, ⟨b, sector, write⟩⟩ := r
  have hflags : ∀ write : Bool, VRING_DESC_F_NEXT &&& VRING_DESC_F_NEXT ≠ 0 ∧
      ((if write then 0 else VRING_DESC_F_WRITE) ||| VRING_DESC_F_NEXT) &&& VRING_DESC_F_NEXT ≠ 0 ∧
      VRING_DESC_F_WRITE &&& VRING_DESC_F_NEXT = 0 := by decide
  have hd0 := hw.d0
  have hd1 := hw.d1
  have hd2 := hw.d2
  have hop := hw.op
  have hserial := hw.serial
  dsimp only at hd0 hd1 hd2 hop hserial ⊢
  rw [Virtio.readChain, hd0]
  dsimp only
  rw [hd1]
  dsimp only
  rw [hd2]
  dsimp only
  rw [if_pos (hflags write), hop, hserial]
  cases write <;> rfl

theorem Inv.request (hi : Inv s A U) (hh : h ∈ A ++ s.inflight ++ U) :
    ∃ p r, (s.phase p).waits = some r ∧ r.x.i0 = h ∧ s.disk r.j.b = true ∧
      (h ∈ A ++ s.inflight → r.id ∉ s.completed.map Req.id) ∧
      (h ∈ U → (s.info h).status = 0 ∧ r ∈ s.completed.drop s.seen.length) := by
  obtain ⟨p, r, hr, rfl⟩ := hi.queue h hh
  have hdisjoint := (nodup_append.mp hi.nodup).2.2
  have hdrop : (s.completed.drop s.seen.length).map (fun r => r.x.i0) = U := by
    rw [map_drop, hi.completed, drop_left]
  refine ⟨p, r, hr, rfl, ?_⟩
  rcases hi.stage p r hr with ⟨hd, hm, hid⟩ | ⟨hd, hst, hm⟩ | ⟨-, hm, -⟩
  · exact ⟨hd, fun _ => hid, fun hu => absurd rfl (hdisjoint _ hm _ hu)⟩
  · refine ⟨hd, fun ha => ?_, fun _ => ⟨hst, hm⟩⟩
    have hu : r.x.i0 ∈ U := hdrop ▸ mem_map_of_mem hm
    exact absurd rfl (hdisjoint _ ha _ hu)
  · exact absurd hh hm

theorem Inv.seen_le (hi : Inv s A U) : s.seen.length ≤ s.completed.length := by
  have := congrArg List.length hi.completed
  rw [length_map, length_append] at this
  omega

theorem Inv.complete (hi : Inv s A U) (hh : h ∈ s.inflight) :
    ∃ t, complete s h = some t ∧ Inv t A (U ++ [h]) := by
  have hP : h ∈ A ++ s.inflight ++ U := by simp [hh]
  obtain ⟨p, r, hr, rfl, hdisk, hid, -⟩ := hi.request hP
  have hid := hid (mem_append_right _ hh)
  have hpost := Phase.post_of_waits hr
  have hle := hi.seen_le
  refine ⟨_, by rw [Virtio.complete, if_pos hh, (hi.written p r hpost).readChain], ?_⟩
  have herase : (s.inflight.erase r.x.i0 ++ [r.x.i0]).Perm s.inflight :=
    (perm_append_singleton _ _).trans (perm_cons_erase hh).symm
  have hperm : (A ++ s.inflight.erase r.x.i0 ++ (U ++ [r.x.i0])).Perm (A ++ s.inflight ++ U) := by
    rw [← append_assoc]
    refine (perm_append_singleton _ _).trans ?_
    rw [append_assoc, append_assoc]
    refine perm_middle.symm.trans (List.Perm.append_left A ?_)
    exact List.Perm.append_right U (perm_cons_erase hh).symm
  have hother : ∀ q r', (s.phase q).post = some r' → q ≠ p → r'.x.i0 ≠ r.x.i0 ∧ r'.id ≠ r.id :=
    fun q r' hr' hq => ⟨fun heq => hq (hi.eq_of_head hr' hpost heq),
      fun heq => hq (hi.id_inj q p r' r hr' hpost heq)⟩
  have hroom : U.length < NUM := by
    have hlen := length_le_num hi.nodup fun i => hi.head_lt
    have := length_pos_of_mem hh
    simp only [length_append] at hlen
    omega
  have hinfo : ∀ i, i ≠ r.x.i0 →
      update s.info r.x.i0 { s.info r.x.i0 with status := 0 } i = s.info i :=
    fun i hne => update_of_ne hne _ _
  refine { hi with
    written := fun q r' hr' => ?_, early := fun q r' hr' => ?_, stage := fun q r' hr' => ?_,
    queue := fun k hk => hi.queue k (hperm.mem_iff.mp hk), nodup := hperm.nodup_iff.mpr hi.nodup,
    used := hi.used.push num_dvd hroom _, completed := ?_, once := ?_, done_lt := ?_, cleared := ?_,
    returned := ?_ }
  · refine (hi.written q r' hr').congr
      (t := { s with info := update s.info r.x.i0 { s.info r.x.i0 with status := 0 } })
      (fun _ _ => rfl) rfl ?_ rfl
    dsimp only
    rw [update_apply]
    split_ifs with heq
    · rw [heq]
    · rfl
  · obtain ⟨hd, hnot, hid'⟩ := hi.early q r' hr'
    have hq : q ≠ p := by
      rintro rfl
      rw [Phase.waits_of_early hr'] at hr
      cases hr
    refine ⟨hd, fun hm => hnot (hperm.mem_iff.mp hm), ?_⟩
    rw [map_append, mem_append, not_or]
    refine ⟨hid', fun hm => ?_⟩
    exact (hother q r' (Phase.post_of_early hr') hq).2 (mem_singleton.mp hm)
  · rcases eq_or_ne q p with rfl | hq
    · cases hr.symm.trans hr'
      refine .inr (.inl ⟨hdisk, ?_, ?_⟩)
      · dsimp only
        rw [update_self]
      · dsimp only
        rw [drop_append_of_le_length hle]
        exact mem_append_right _ mem_cons_self
    · obtain ⟨hne, hidne⟩ := hother q r' (Phase.post_of_waits hr') hq
      refine (hi.stage q r' hr').imp rfl (congrArg Info.status (hinfo _ hne)) (fun hm => ?_)
        (fun hm hm' => hm (hperm.mem_iff.mp hm')) (fun hm => ?_) (fun hm => ?_) (fun hm => ?_)
      · rcases mem_append.mp hm with hm | hm
        · exact mem_append_left _ hm
        · exact mem_append_right _ ((mem_erase_of_ne hne).mpr hm)
      · dsimp only
        rw [map_append, mem_append, not_or]
        exact ⟨hm, fun hm' => hidne (mem_singleton.mp hm')⟩
      · dsimp only
        rw [drop_append_of_le_length hle]
        exact mem_append_left _ hm
      · dsimp only
        rwa [take_append_of_le_length hle]
  · dsimp only
    rw [map_append, hi.completed, append_assoc]
    rfl
  · dsimp only
    rw [map_append]
    refine nodup_append.mpr ⟨hi.once, nodup_singleton _, fun a ha b hb heq => ?_⟩
    rw [map_singleton, mem_singleton] at hb
    exact hid (hb ▸ heq ▸ ha)
  · intro r' hr'
    rcases mem_append.mp hr' with hr' | hr'
    · exact hi.done_lt r' hr'
    · rw [mem_singleton.mp hr']
      exact hi.id_lt p r hpost
  · dsimp only
    rw [take_append_of_le_length hle, hi.cleared]
  · dsimp only
    rw [take_append_of_le_length hle]
    exact hi.returned

theorem Inv.first_unseen (hi : Inv s A (h :: U)) :
    ∃ p r rest, (s.phase p).waits = some r ∧ r.x.i0 = h ∧ (s.info h).status = 0 ∧
      s.completed.drop s.seen.length = r :: rest ∧ rest.map (fun r => r.x.i0) = U := by
  obtain ⟨p, r, hr, rfl, -, -, hu⟩ := hi.request (h := h) (by simp)
  obtain ⟨hst, hmem⟩ := hu mem_cons_self
  have hdrop : (s.completed.drop s.seen.length).map (fun r => r.x.i0) = r.x.i0 :: U := by
    rw [map_drop, hi.completed, drop_left]
  obtain ⟨r₀, rest, hcons, hhead, hrest⟩ := map_eq_cons_iff.mp hdrop
  refine ⟨p, r, rest, hr, rfl, hst, ?_, hrest⟩
  rw [hcons] at hmem ⊢
  rcases mem_cons.mp hmem with rfl | hmem
  · rfl
  · -- its head would stand twice in the ring
    have hU := (nodup_cons.mp (nodup_append.mp hi.nodup).2.1).1
    exact absurd (hrest ▸ mem_map_of_mem hmem) hU

theorem Inv.see (hi : Inv s A (h :: U)) :
    ∃ b, (s.info h).status = 0 ∧ (s.info h).b = some b ∧
      Inv { s with
        disk := update s.disk b false
        usedIdx := s.usedIdx + 1
        seen := s.seen ++ [h]
        cleared := s.cleared ++ [b] } A U := by
  obtain ⟨p, r, rest, hr, rfl, hst, hdrop, hrest⟩ := hi.first_unseen
  have hpost := Phase.post_of_waits hr
  have hdisjoint := (nodup_append.mp hi.nodup).2.2
  have hU := (nodup_cons.mp (nodup_append.mp hi.nodup).2.1)
  have hnot : r.x.i0 ∉ A ++ s.inflight ++ U := by
    intro hm
    rcases mem_append.mp hm with hm | hm
    · exact hdisjoint _ hm _ mem_cons_self rfl
    · exact hU.1 hm
  have hsub : ∀ k, k ∈ A ++ s.inflight ++ U → k ∈ A ++ s.inflight ++ r.x.i0 :: U := by
    intro k hk
    simp only [mem_append, mem_cons] at hk ⊢
    tauto
  have htake : s.completed.take (s.seen.length + 1) = s.completed.take s.seen.length ++ [r] := by
    rw [take_add, hdrop]
    rfl
  have hdrop' : s.completed.drop (s.seen.length + 1) = rest := by
    rw [← drop_drop, hdrop]
    rfl
  have hother : ∀ q r', (s.phase q).post = some r' → q ≠ p → r'.x.i0 ≠ r.x.i0 ∧ r'.j.b ≠ r.j.b := by
    intro q r' hr' hq
    refine ⟨fun heq => hq (hi.eq_of_head hr' hpost heq), fun heq => hq ?_⟩
    exact hi.eq_of_buf (Phase.chain_of_post hr').2 (Phase.chain_of_post hpost).2 heq
  refine ⟨r.j.b, hst, (hi.written p r hpost).buf, ?_⟩
  refine { hi with
    early := fun q r' hr' => ?_, stage := fun q r' hr' => ?_,
    queue := fun k hk => hi.queue k (hsub k hk), nodup := ?_, used := hi.used.pop.2,
    completed := ?_, cleared := ?_, returned := ?_ }
  · obtain ⟨hd, hm, hid⟩ := hi.early q r' hr'
    have hq : q ≠ p := by
      rintro rfl
      rw [Phase.waits_of_early hr'] at hr
      cases hr
    refine ⟨?_, fun hm' => hm (hsub _ hm'), hid⟩
    exact (update_of_ne (hother q r' (Phase.post_of_early hr') hq).2 _ _).trans hd
  · rcases eq_or_ne q p with rfl | hq
    · cases hr.symm.trans hr'
      refine .inr (.inr ⟨update_self .., hnot, ?_⟩)
      dsimp only
      rw [length_append, length_singleton, htake]
      exact mem_append_right _ mem_cons_self
    · obtain ⟨hne, hb⟩ := hother q r' (Phase.post_of_waits hr') hq
      refine (hi.stage q r' hr').imp (update_of_ne hb _ _) rfl id
        (fun hm hm' => hm (hsub _ hm')) id (fun hm => ?_) (fun hm => ?_)
      · dsimp only
        rw [length_append, length_singleton, hdrop']
        rw [hdrop] at hm
        rcases mem_cons.mp hm with rfl | hm
        · exact absurd rfl hne
        · exact hm
      · dsimp only
        rw [length_append, length_singleton, htake]
        exact mem_append_left _ hm
  · refine nodup_append.mpr ⟨(nodup_append.mp hi.nodup).1, hU.2, fun a ha b hb => ?_⟩
    exact hdisjoint a ha b (mem_cons_of_mem _ hb)
  · dsimp only
    rw [hi.completed, append_assoc]
    rfl
  · dsimp only
    rw [length_append, length_singleton, htake, map_append, hi.cleared]
    rfl
  · intro r' hr'
    dsimp only
    rw [length_append, length_singleton, htake]
    exact mem_append_left _ (hi.returned r' hr')

theorem num_lt : NUM < 2 ^ 16 := by decide

theorem Inv.intr (hi : Inv s A U) (hs : intr s = some t) : ∃ U', Inv t A U' := by
  rw [Virtio.intr] at hs
  split at hs
  · rename_i hl
    cases hs
    exact ⟨U, hi.intrLock (by rw [hl]; nofun) nofun⟩
  · cases hs
  · rename_i hl
    by_cases hidx : s.usedIdx = s.usedDev
    · rw [if_pos hidx] at hs
      cases hs
      exact ⟨U, hi.intrLock (by rw [hl]; nofun) nofun⟩
    · cases U with
      | nil => exact absurd ((hi.used.empty_iff num_lt).mpr rfl) hidx
      | cons h U =>
        obtain ⟨b, hst, hb, hi'⟩ := hi.see
        rw [if_neg hidx] at hs
        dsimp only at hs
        rw [hi.used.pop.1, if_neg (not_not.mpr hst), hb] at hs
        cases hs
        exact ⟨U, hi'⟩

theorem Inv.proc (hi : Inv s A U) (hs : proc s p = some t) : ∃ A', Inv t A' U := by
  rw [Virtio.proc] at hs
  cases hp : s.phase p with
  | idle =>
    rw [hp] at hs
    cases hs
  | alloc j =>
    rw [hp] at hs
    rcases alloc3Desc_cases s with ⟨desc, heq, hdesc⟩ | ⟨x, heq, hx, hf⟩
    · rw [heq] at hs
      cases hs
      exact ⟨A, hi.allocNone hp hdesc⟩
    · rw [heq] at hs
      cases hs
      exact ⟨A, hi.allocSome hp hx hf⟩
  | sleepFree j =>
    rw [hp] at hs
    dsimp only at hs
    split_ifs at hs with hl
    cases hs
    exact ⟨A, (hi.wake (r := ⟨0, ⟨0, 0, 0⟩, j⟩) hl).1 hp⟩
  | format j x =>
    rw [hp] at hs
    cases hs
    exact ⟨A, hi.format hp⟩
  | publish r =>
    rw [hp] at hs
    cases hs
    exact ⟨A, hi.publish hp⟩
  | bump r =>
    rw [hp] at hs
    cases hs
    exact ⟨_, hi.bump hp⟩
  | check r =>
    rw [hp] at hs
    dsimp only at hs
    have hpost : (s.phase p).post = some r := by rw [hp]; rfl
    split_ifs at hs with hd
    · cases hs
      exact ⟨A, hi.sleepDone hp⟩
    · have hx : r.x.list.Nodup := by
        have := hi.chain_nodup p
        rwa [(Phase.chain_of_post hpost).1] at this
      have hf : ∀ i ∈ r.x.list, i < NUM ∧ s.free i = false := by
        intro i hm
        rw [← (Phase.chain_of_post hpost).1] at hm
        exact ⟨hi.chain_lt p i hm, hi.not_free hm⟩
      obtain ⟨desc, heq, hdesc⟩ := freeChain_eq (hi.written p r hpost) hx hf
      rw [heq] at hs
      cases hs
      exact ⟨A, hi.finish hp (Bool.eq_false_iff.mpr hd) hdesc⟩
  | sleepDone r =>
    rw [hp] at hs
    dsimp only at hs
    split_ifs at hs with hl
    cases hs
    exact ⟨A, (hi.wake (j := r.j) hl).2 hp⟩

theorem Inv.step {e : Event} (hi : Inv s A U) (hs : step s e = some t) : ∃ A' U', Inv t A' U' := by
  rw [Virtio.step, if_pos hi.panic] at hs
  cases e with
  | lockBuf p b =>
    rw [act] at hs
    split_ifs at hs with hb
    cases hs
    exact ⟨A, U, hi.lockBuf hb⟩
  | unlockBuf p b =>
    rw [act] at hs
    split_ifs at hs with hb
    cases hs
    exact ⟨A, U, hi.unlockBuf hb.1 hb.2⟩
  | rw p b blockno write =>
    rw [act] at hs
    split_ifs at hs with hb
    cases hs
    exact ⟨A, U, hi.rw hb.1 hb.2.1 hb.2.2 rfl⟩
  | proc p =>
    obtain ⟨A', hi'⟩ := hi.proc hs
    exact ⟨A', U, hi'⟩
  | intr =>
    obtain ⟨U', hi'⟩ := hi.intr hs
    exact ⟨A, U', hi'⟩
  | take =>
    rw [act, Virtio.take] at hs
    split_ifs at hs with hidx
    cases A with
    | nil => exact absurd ((hi.avail.empty_iff num_lt).mpr rfl) hidx
    | cons h A =>
      rw [hi.avail.pop.1] at hs
      cases hs
      exact ⟨A, U, hi.take⟩
  | complete h =>
    change Virtio.complete s h = some t at hs
    have hh : h ∈ s.inflight := by
      by_contra hh
      rw [Virtio.complete, if_neg hh] at hs
      cases hs
    obtain ⟨t', ht', hi'⟩ := hi.complete hh
    cases hs.symm.trans ht'
    exact ⟨A, U ++ [h], hi'⟩

/-- The descriptors are free or belong to one of the disjoint chains of three. -/
structure Partitioned (s : State) : Prop where
  chain : ∀ p, (s.phase p).chain.Nodup ∧ ∀ i ∈ (s.phase p).chain, i < NUM
  three : ∀ p, (s.phase p).chain = [] ∨ (s.phase p).chain.length = 3
  disjoint : ∀ p q i, i ∈ (s.phase p).chain → i ∈ (s.phase q).chain → p = q
  free : ∀ i < NUM, s.free i = false ↔ ∃ p, i ∈ (s.phase p).chain

/-- What holds at all times. The rings hold what was put into them and not yet consumed; the `n`-th
clearing of a flag is the one of the buffer of the `n`-th completed request; a call has returned only
for a completed request whose flag was cleared. -/
structure Safe (s : State) : Prop where
  panic : s.panic = none
  partitioned : Partitioned s
  avail : ∃ l, s.submitted = s.taken ++ l ∧ Holds s.availRing s.lastAvail s.availIdx l
  used : ∃ l, s.completed.map (fun r => r.x.i0) = s.seen ++ l ∧ Holds s.usedRing s.usedIdx s.usedDev l
  once : (s.completed.map Req.id).Nodup
  cleared : s.cleared = (s.completed.take s.seen.length).map fun r => r.j.b
  returned : ∀ r ∈ s.returned, r ∈ s.completed.take s.seen.length

theorem Phase.chain_length (ph : Phase) : ph.chain = [] ∨ ph.chain.length = 3 := by
  cases ph <;> first | exact .inl rfl | exact .inr rfl

theorem Inv.safe (hi : Inv s A U) : Safe s where
  panic := hi.panic
  partitioned := ⟨fun p => ⟨hi.chain_nodup p, hi.chain_lt p⟩, fun p => (s.phase p).chain_length,
    hi.chain_disjoint, hi.free⟩
  avail := ⟨A, hi.submitted, hi.avail⟩
  used := ⟨U, hi.completed, hi.used⟩
  once := hi.once
  cleared := hi.cleared
  returned := hi.returned

/-- In every interleaving of calls, completions and interrupts the driver is safe. -/
theorem virtio_safe {es : List Event} (hr : run step init es = some s) : Safe s := by
  obtain ⟨A, U, hi⟩ := run_invariant (I := fun s => ∃ A U, Inv s A U) ⟨[], [], inv_init⟩
    (fun t e u ⟨_, _, hi⟩ _ hs => hi.step hs) (along_true init es) hr
  exact hi.safe

def readEvents : List Event :=
  [.lockBuf 1 7, .rw 1 7 5 false, .proc 1, .proc 1, .proc 1, .proc 1, .proc 1, .take, .complete 0,
    .intr, .intr, .intr, .proc 1, .proc 1]

theorem virtio_safe_readEvents :
    ∃ s, run step init readEvents = some s ∧ s.returned = [⟨0, ⟨0, 1, 2⟩, ⟨7, 10, false⟩⟩] ∧
      Safe s := by
  have hrun : (run step init readEvents).map (fun s => s.returned) =
      some [⟨0, ⟨0, 1, 2⟩, ⟨7, 10, false⟩⟩] := by
    decide +kernel
  obtain ⟨s, hs, hret⟩ := Option.map_eq_some_iff.mp hrun
  exact ⟨s, hs, hret, virtio_safe hs⟩

end Xv6.Virtio
