import Xv6.Fs.FileBytes

/-! What a `writei` leaves behind whose source becomes unreadable part-way. `either_copyin` may fail
after it has filled a part of a cached block; that block is then neither logged nor restored. -/
namespace Xv6.Fs
open Bytes Function
open Xv6.Log (BSIZE Mach)

variable {sb : Superblock} {s t u : State} {ip : InodePtr} {i : ℕ} {src : ℕ → Option Byte}

/-- The blocks that `P` chooses have left the cache and were read again. A block in the log is
pinned. -/
def State.evict (s : State) (P : ℕ → Bool) : State :=
  { s with m := { s.m with buf := fun b => if P b = true ∧ b ∉ s.m.lh then s.m.disk b else s.m.buf b } }

/-- The blocks that `P` chooses are in the log or equal to those on the disk. -/
def Clean (P : ℕ → Bool) (s : State) : Prop :=
  ∀ b, P b = true → b ∉ s.m.lh → s.m.buf b = s.m.disk b

theorem evict_none (s : State) : s.evict (fun _ => false) = s := by
  have hbuf : (fun b => if false = true ∧ b ∉ s.m.lh then s.m.disk b else s.m.buf b) = s.m.buf :=
    funext fun b => if_neg fun h => Bool.false_ne_true h.1
  rw [State.evict, hbuf]

/-- From `s` to `t` every block that was changed is in the log, apart from those of `X`. -/
structure Logged (X : Set ℕ) (s t : State) : Prop where
  disk : t.m.disk = s.m.disk
  lh : ∀ b ∈ s.m.lh, b ∈ t.m.lh
  buf : ∀ b, b ∉ X → b ∉ t.m.lh → t.m.buf b = s.m.buf b

namespace Logged
variable {X : Set ℕ} {b : ℕ}

theorem of_eq (h : t.m = s.m) : Logged X s t :=
  ⟨by rw [h], fun _ hb => by rwa [h], fun _ _ _ => by rw [h]⟩

theorem trans (h : Logged X s t) (h' : Logged X t u) : Logged X s u where
  disk := h'.disk.trans h.disk
  lh b hb := h'.lh b (h.lh b hb)
  buf b hX hb := (h'.buf b hX hb).trans (h.buf b hX fun hmem => hb (h'.lh b hmem))

theorem mono {Y : Set ℕ} (h : Logged X s t) (hXY : X ⊆ Y) : Logged Y s t :=
  ⟨h.disk, h.lh, fun b hb => h.buf b fun hX => hb (hXY hX)⟩

theorem store (s : State) (b : ℕ) (x : Log.Block) : Logged {b} s { s with m := s.m.store b x } :=
  ⟨rfl, fun _ hb => hb, fun _ hc _ => update_of_ne hc _ _⟩

theorem pinned (h : Logged {b} s t) (hb : b ∈ t.m.lh) : Logged ∅ s t :=
  ⟨h.disk, h.lh, fun c _ hc => h.buf c (fun heq => hc (Set.mem_singleton_iff.mp heq ▸ hb)) hc⟩

end Logged

theorem logWrite_logged (sb : Superblock) (b : ℕ) (s : State) :
    Sat (logWrite sb b) s (fun _ t => Logged ∅ s t ∧ b ∈ t.m.lh) fun _ => True := by
  refine (logWrite_run sb b s).mono ?_ fun _ _ => trivial
  rintro _ t ⟨lh, rfl, ⟨rfl, hmem⟩ | ⟨rfl, -⟩⟩
  · exact ⟨Logged.of_eq rfl, hmem⟩
  · exact ⟨⟨rfl, fun _ hc => List.mem_append_left _ hc, fun _ _ _ => rfl⟩,
      List.mem_append_right _ (List.mem_singleton_self b)⟩

instance : IsPreorder State (Logged ∅) where
  refl _ := .of_eq rfl
  trans _ _ _ := .trans

theorem logged_parts (sb : Superblock) : Parts sb (Logged ∅) fun _ => True where
  dinode _ _ _ := Logged.of_eq rfl
  put b x s := by
    refine storeBlock_bind ((logWrite_logged sb b _).post ?_)
    rintro _ t ⟨ht, hb⟩
    exact ((Logged.store s b x).trans (ht.mono (Set.empty_subset _))).pinned hb
  full := trivial

theorem readable_add {a m : ℕ} (h : ∀ c < a, (src c).isSome) :
    readable src 0 (a + m) = a + readable src a m := by
  have hgen : ∀ a start, (∀ c < a, (src (start + c)).isSome) →
      readable src start (a + m) = a + readable src (start + a) m := by
    intro a
    induction a with
    | zero => exact fun start _ => by rw [Nat.zero_add, Nat.zero_add, Nat.add_zero]
    | succ a ih =>
      intro start hall
      have hrest := ih (start + 1) fun c hc => by
        have := hall (c + 1) (Nat.succ_lt_succ hc)
        rwa [show start + (c + 1) = start + 1 + c by omega] at this
      rw [Nat.add_right_comm a 1 m, readable, if_pos (by simpa using hall 0 (Nat.succ_pos a)), hrest,
        show start + 1 + a = start + (a + 1) by omega]
      omega
  simpa using hgen a 0 fun c hc => by simpa using h c hc

theorem readable_of_lt {start m n : ℕ} (h : readable src start m < m) (hmn : m ≤ n) :
    readable src start n = readable src start m := by
  induction m generalizing start n with
  | zero => exact absurd h (Nat.not_lt_zero _)
  | succ m ih =>
    obtain ⟨n, rfl⟩ : ∃ k, n = k + 1 := Nat.exists_eq_add_one.mpr (by omega)
    rw [readable] at h ⊢
    rw [readable]
    split
    · rename_i hsome
      rw [if_pos hsome] at h
      rw [ih (Nat.lt_of_succ_lt_succ h) (Nat.le_of_succ_le_succ hmn)]
    · rfl

structure Cut (sb : Superblock) (ip : InodePtr) (i : ℕ) (src : ℕ → Option Byte) (off n tot : ℕ)
    (s t : State) : Prop where
  le : tot ≤ readable src 0 n
  lt : readable src 0 n < n
  edge : tot = 0 ∨ (off + tot) % BSIZE = 0
  same : (off + readable src 0 n) / BSIZE = (off + tot) / BSIZE
  inside : (off + tot) / BSIZE < MAXFILE
  mapped : (view sb t).block i ((off + tot) / BSIZE) ≠ 0
  wrote : Wrote sb ip i src off (readable src 0 n) s t
  logged : Logged {(view sb t).block i ((off + tot) / BSIZE)} s t

theorem writeiLoop_cut {off n fuel tot : ℕ} (h : Wrote sb ip i src off tot s t)
    (hlog : Logged ∅ s t) (hedge : tot = 0 ∨ n ≤ tot ∨ (off + tot) % BSIZE = 0)
    (hfuel : n ≤ fuel + tot) :
    Sat (writeiLoop sb ip src n fuel tot (off + tot)) t
      (fun r u => r.2 = off + r.1 ∧ (r.1 < n → Cut sb ip i src off n r.1 s u)) Mild := by
  induction fuel generalizing tot t with
  | zero => exact Sat.pure ⟨rfl, fun hlt => absurd hlt (by dsimp only; omega)⟩
  | succ fuel ih =>
    rw [writeiLoop]
    refine Sat.ite (fun hlt => ?_) fun hle => Sat.pure ⟨rfl, fun hlt => absurd hlt hle⟩
    refine Sat.bind (((logged_parts sb).bmap ip (.inr trivial) t).beside (bmap_sat h.live ((off + tot) / BSIZE))) ?_
    rintro a u ⟨hlu, hj, hg, ha, rfl⟩
    have hu := h.grown hg
    have hsu := hlog.trans hlu
    refine bread_bind ?_
    set m := min (n - tot) (BSIZE - (off + tot) % BSIZE) with hm
    have hpos : 0 < m := by
      have : (off + tot) % BSIZE < BSIZE := Nat.mod_lt _ (by decide)
      omega
    have hk := readable_le src tot m
    have hall : ∀ c < tot, (src c).isSome := fun c hc => by
      have := (h.new (off + c) (by omega) (by omega)).2.2
      rw [Nat.add_sub_cancel_left] at this
      rw [this]
      rfl
    refine storeBlock_bind (Sat.ite (fun hshort => Sat.pure ⟨rfl, fun _ => ?_⟩) fun hfull => ?_)
    · have hcount : readable src 0 n = tot + readable src tot m := by
        rw [← readable_of_lt hshort (show m ≤ n - tot by omega), ← readable_add hall,
          Nat.add_sub_cancel' (le_of_lt hlt)]
      set k := readable src tot m with hkdef
      set x := patch (u.m.buf ((view sb u).block i ((off + tot) / BSIZE))) ((off + tot) % BSIZE) k
        fun c => (src (tot + c)).getD 0 with hx
      set w : State := { u with m := u.m.store ((view sb u).block i ((off + tot) / BSIZE)) x } with hw
      have hlw : LogOk sb w.m := ⟨hu.live.log.room, hu.live.log.home⟩
      have hsrc : ∀ c < k, (src (tot + c)).isSome := fun c hc => isSome_of_lt_readable hc
      have hwrote : Wrote sb ip i src off (tot + k) s w := hu.store hj ha (by omega) hsrc rfl hlw rfl
      have hone : Wrote sb ip i (fun c => src (tot + c)) (off + tot) (0 + k) u w :=
        (Wrote.refl hu.live _ (off + tot)).store hj ha (by rw [Nat.add_zero]; omega)
          (fun c hc => by rw [Nat.zero_add]; exact hsrc c hc) rfl hlw
          (by simp only [Nat.add_zero, Nat.zero_add]; rfl)
      have hblock := hone.block i h.live.lt _ hj ha
      refine ⟨by omega, by omega, by dsimp only; omega, ?_, hj, by rwa [hblock], hcount ▸ hwrote, ?_⟩
      · rw [hcount]
        simp only [BSIZE] at hm ⊢
        omega
      · rw [hblock]
        exact (hsu.mono (Set.empty_subset _)).trans (Logged.store u _ _)
    · have hkm : readable src tot m = m := by omega
      rw [hkm]
      set x := patch (u.m.buf ((view sb u).block i ((off + tot) / BSIZE))) ((off + tot) % BSIZE) m
        fun c => (src (tot + c)).getD 0 with hx
      refine Sat.bind ((logWrite_logged sb _ _).beside
        (logWrite_sat ⟨hu.live.log.room, hu.live.log.home⟩
          (IsData.range (hu.live.seen.isData hj ha)))) ?_
      rintro _ w ⟨⟨hlw, hmem⟩, lh, hw, hlogok⟩
      have hstore : Wrote sb ip i src off (tot + m) s w := by
        refine hu.store hj ha (by omega)
          (fun c hc => isSome_of_lt_readable (m := m) (by omega)) ?_ hlogok ?_
        · rw [hw]
        · rw [hw]
          rfl
      have hsw : Logged ∅ s w := hsu.trans
        (((Logged.store u _ x).trans (hlw.mono (Set.empty_subset _))).pinned hmem)
      have hrec := ih hstore hsw (by simp only [BSIZE] at hm hedge ⊢; omega) (by omega)
      rwa [← Nat.add_assoc] at hrec

def readByte (sb : Superblock) (ip : InodePtr) (s : State) (o : BitVec 32) : Option Byte :=
  match readi sb ip (fun _ => true) o 1 s with
  | .ok (some [b], _) => some b
  | _ => none

theorem readByte_eq (h : Live sb t ip i) (o : BitVec 32) :
    readByte sb ip t o = ((view sb t).file i).bytes[o.toNat]? := by
  have hlen : ((view sb t).file i).bytes.length ≤ MAXFILE * BSIZE := by
    rw [Vol.file_of_ne h.type]
    simpa using h.wf.small i h.lt h.type
  have hone : (1 : BitVec 32).toNat = 1 := rfl
  by_cases hwrap : o.toNat + (1 : BitVec 32).toNat < 2 ^ 32
  · rw [readByte, readi_bytes h (fun _ => rfl) hwrap]
    cases hb : ((view sb t).file i).bytes[o.toNat]? with
    | none =>
      rw [List.drop_eq_nil_of_le]
      exact (List.length_take_le' _ _).trans (List.getElem?_eq_none_iff.mp hb)
    | some b =>
      obtain ⟨hlt, rfl⟩ := List.getElem?_eq_some_iff.mp hb
      rw [hone, List.take_add_one, List.getElem?_eq_getElem hlt,
        List.drop_append_of_le_length (by rw [List.length_take]; omega),
        List.drop_eq_nil_of_le (List.length_take_le _ _)]
      rfl
  · -- the sum of the last offset and 1 wraps, and `readi` returns no byte
    have hlast : o.toNat = 2 ^ 32 - 1 := by
      have := o.isLt
      rw [hone] at hwrap
      omega
    have hsum : o + 1 < o := by
      rw [BitVec.lt_def, BitVec.toNat_add, hlast]
      decide
    have hsat : Sat (readi sb ip (fun _ => true) o 1) t (fun r _ => r = some []) fun _ => False := by
      unfold readi
      exact getInode_bind (Sat.ite (fun _ => Sat.pure rfl) fun hc => absurd (.inr hsum) hc)
    obtain ⟨r, u, hr, rfl⟩ := hsat.exists_ok
    rw [List.getElem?_eq_none (by rw [hlast]; exact hlen.trans (by decide)), readByte, hr]

/-- What `readi` returned outside of `[off, off + tot)` it returns still, and there the first `tot`
bytes of the source. -/
structure ShortKept (sb : Superblock) (ip : InodePtr) (src : ℕ → Option Byte) (off tot : ℕ)
    (s t : State) : Prop where
  outside : ∀ (o : BitVec 32) b, o.toNat < off ∨ off + tot ≤ o.toNat →
    readByte sb ip t o = some b → readByte sb ip s o = some b
  inside : ∀ (o : BitVec 32), off ≤ o.toNat → o.toNat < off + tot →
    ∃ b, src (o.toNat - off) = some b ∧ readByte sb ip t o = some b

/-- In the block of the first unreadable byte the readable bytes before it are those that the file
has there already. -/
def Harmless (src : ℕ → Option Byte) (off n : ℕ) (old : List Byte) : Prop :=
  ∀ k < readable src 0 n, (off + readable src 0 n) / BSIZE * BSIZE ≤ off + k → off + k < old.length →
    src k = old[off + k]?

structure Short (sb : Superblock) (ip : InodePtr) (i : ℕ) (src : ℕ → Option Byte) (off n tot : ℕ)
    (s t : State) : Prop where
  live : Live sb t ip i
  size : ((view sb t).node i).size.toNat = max ((view sb s).node i).size.toNat (off + tot)
  start : off ≤ ((view sb s).node i).size.toNat
  le : tot ≤ readable src 0 n
  edge : tot = 0 ∨ (off + tot) % BSIZE = 0
  same : (off + readable src 0 n) / BSIZE = (off + tot) / BSIZE
  inside : (off + tot) / BSIZE < MAXFILE
  mapped : (view sb t).block i ((off + tot) / BSIZE) ≠ 0
  block : ∀ j < MAXFILE, (view sb s).block i j ≠ 0 → (view sb t).block i j = (view sb s).block i j
  old : ∀ o < ((view sb s).node i).size.toNat, o < off ∨ off + readable src 0 n ≤ o →
    (view sb t).byte i o = (view sb s).byte i o
  new : ∀ o, off ≤ o → o < off + readable src 0 n → src (o - off) = some ((view sb t).byte i o)
  logged : Logged {(view sb t).block i ((off + tot) / BSIZE)} s t

theorem writei_short (h : Live sb s ip i) (src : ℕ → Option Byte) (off n : BitVec 32) :
    Sat (writei sb ip src off n) s (fun r t => ∀ tot : ℕ, r = (tot : ℤ) → tot < n.toNat →
      Short sb ip i src off.toNat n.toNat tot s t) Mild := by
  unfold writei
  refine getInode_bind ?_
  rw [h.d]
  refine Sat.ite (fun _ => Sat.pure fun tot hr => absurd hr (by omega)) fun hoff => Sat.ite
    (fun _ => Sat.pure fun tot hr => absurd hr (by omega)) fun hmax => ?_
  simp only [not_or, BitVec.not_lt, BitVec.le_def] at hoff hmax
  have hsum : off.toNat + n.toNat ≤ MAXFILE * BSIZE := by
    simp only [MAXFILE, NDIRECT, NINDIRECT, BSIZE] at hmax ⊢
    bv_omega
  have hloop : Sat (writeiLoop sb ip src n.toNat n.toNat 0 (off.toNat + 0)) s _ Mild :=
    (writeiLoop_sat (Wrote.refl h src off.toNat) (by omega) (by omega)).beside
      (writeiLoop_cut (Wrote.refl h src off.toNat) (Logged.of_eq rfl) (.inl rfl) (by omega))
  refine Sat.bind hloop ?_
  rintro ⟨tot, off'⟩ t ⟨⟨hoff', hn, x, hw, -⟩, -, hcut⟩
  dsimp only at hoff' hn hw hcut ⊢
  subst hoff'
  rw [← bind_assoc, ← bind_assoc]
  have hlogs : Relates (Logged ∅) (fun _ => True) (do
      let e ← getInode ip
      doIf (e.d.size.toNat < off.toNat + tot)
        (modifyDinode ip fun d => { d with size := BitVec.ofNat 32 (off.toNat + tot) })
      iupdate sb ip) :=
    .bind (Parts.getInode ip) fun _ => .bind (.ite (fun _ => (logged_parts sb).dinode ip _)
      fun _ => .pure _) fun _ => (logged_parts sb).iupdate ip
  have hmax' : off.toNat + tot ≤ MAXFILE * BSIZE := by omega
  refine Sat.bind ((hlogs t).beside ((writeiSize_sat hw.live hmax').beside
    (writeiEnd_sat h hw hoff.1 hmax'))) ?_
  rintro _ u ⟨hlu, ⟨d, hd, hdsize, -, -, hvu, -⟩, bs, hput, -⟩
  refine Sat.pure fun tot' htot hlt => ?_
  obtain rfl : tot = tot' := by omega
  have hc := hcut hlt
  have hdt : d.type ≠ 0 := by
    rw [hd]
    exact hw.live.type
  have hda : d.addrs = ((view sb t).node i).addrs := by
    rw [hd]
    rfl
  have hblock : ∀ j, (view sb u).block i j = (view sb t).block i j := fun j => by
    rw [hvu, Vol.block, Vol.place_setNode hw.live.type hdt hda]
    rfl
  have hbyte : ∀ o, (view sb u).byte i o = (view sb t).byte i o := fun o => by
    rw [hvu, Vol.byte_setNode hw.live.type hdt hda]
  obtain ⟨a, ha⟩ := hw.node
  refine ⟨hput.live, ?_, hoff.1, hc.le, hc.edge, hc.same, hc.inside, ?_, ?_, ?_, ?_, ?_⟩
  · rw [hvu, Vol.setNode_node_self, hdsize, ha, update_self]
  · rw [hblock]
    exact hc.mapped
  · intro j hj hne
    rw [hblock, hw.block i h.lt j hj hne]
  · intro o ho hout
    rw [hbyte, hc.wrote.old i h.lt o (h.wf.div_lt h.lt h.type ho) (h.wf.block_ne h.lt h.type ho)
      fun _ => hout]
  · intro o h1 h2
    rw [hbyte]
    exact (hc.wrote.new o h1 h2).2.2
  · rw [hblock]
    exact hc.logged.trans (hlu.mono (Set.empty_subset _))

theorem Live.readByte (h : Live sb t ip i) (o : BitVec 32) :
    readByte sb ip t o = if o.toNat < ((view sb t).node i).size.toNat then
      some ((view sb t).byte i o.toNat) else none := by
  rw [readByte_eq h, Vol.file_of_ne h.type]
  split
  · rename_i hlt
    exact Vol.bytes_get hlt
  · rename_i hge
    exact List.getElem?_eq_none (by simpa using hge)

theorem Live.getElem?_bytes (h : Live sb s ip i) {o : ℕ}
    (ho : o < ((view sb s).node i).size.toNat) :
    ((view sb s).file i).bytes[o]? = some ((view sb s).byte i o) := by
  rw [Vol.file_of_ne h.type]
  exact Vol.bytes_get ho

namespace Short
variable {off n tot : ℕ} {P : ℕ → Bool}

theorem kept_iff (hc : Short sb ip i src off n tot s t) (h : Live sb s ip i) :
    ShortKept sb ip src off tot s t ↔ Harmless src off n ((view sb s).file i).bytes := by
  have hlen : ((view sb s).file i).bytes.length = ((view sb s).node i).size.toNat := by
    rw [Vol.file_of_ne h.type]
    simp
  have hsmall := h.wf.small i h.lt h.type
  have hle := hc.le
  have hedge := hc.edge
  have hsame := hc.same
  constructor
  · intro hk k hlt hblock hold
    rw [hlen] at hold
    have hout : off + tot ≤ off + k := by
      rw [hsame] at hblock
      simp only [BSIZE] at hblock hedge
      omega
    have hval : (BitVec.ofNat 32 (off + k)).toNat = off + k := by
      rw [BitVec.toNat_ofNat, Nat.mod_eq_of_lt]
      simp only [MAXFILE, NDIRECT, NINDIRECT, BSIZE] at hsmall
      omega
    have hnew := hc.new (off + k) (by omega) (by omega)
    have hread := hk.outside (BitVec.ofNat 32 (off + k)) ((view sb t).byte i (off + k))
      (by rw [hval]; exact .inr hout)
      (by rw [hc.live.readByte, hval, if_pos (by rw [hc.size]; omega)])
    rw [h.readByte, hval, if_pos hold] at hread
    rw [h.getElem?_bytes hold, hread, ← hnew, Nat.add_sub_cancel_left]
  · refine fun hharm => ⟨fun o b hout hb => ?_, fun o h1 h2 => ?_⟩
    · rw [hc.live.readByte] at hb
      split at hb
      · rename_i hlt
        rw [hc.size] at hlt
        have hold : o.toNat < ((view sb s).node i).size.toNat := by
          have := hc.start
          omega
        rw [h.readByte, if_pos hold, ← hb]
        by_cases hin : o.toNat < off ∨ off + readable src 0 n ≤ o.toNat
        · rw [hc.old o.toNat hold hin]
        · have hnew := hc.new o.toNat (by omega) (by omega)
          have hsum : off + (o.toNat - off) = o.toNat := by omega
          have hsrc := hharm (o.toNat - off) (by omega)
            (by rw [hsame, hsum]; simp only [BSIZE]; omega) (by rw [hsum, hlen]; exact hold)
          rw [hsum, h.getElem?_bytes hold, hnew] at hsrc
          exact hsrc.symm
      · cases hb
    · refine ⟨_, hc.new o.toNat h1 (by omega), ?_⟩
      rw [hc.live.readByte, if_pos (by rw [hc.size]; omega)]

theorem evict_buf (hc : Short sb ip i src off n tot s t) (hP : Clean P s) (b : ℕ)
    (hb : b = (view sb t).block i ((off + tot) / BSIZE) → ¬ (P b = true ∧ b ∉ t.m.lh)) :
    (t.evict P).m.buf b = t.m.buf b := by
  change (if P b = true ∧ b ∉ t.m.lh then t.m.disk b else t.m.buf b) = _
  split
  · rename_i hev
    have hlh : b ∉ s.m.lh := fun hmem => hev.2 (hc.logged.lh b hmem)
    rw [hc.logged.disk, ← hP b hev.1 hlh, hc.logged.buf b (fun heq => hb heq hev) hev.2]
  · rfl

theorem kept_evicted (hc : Short sb ip i src off n tot s t) (h : Live sb s ip i) (hP : Clean P s)
    (hev : P ((view sb t).block i ((off + tot) / BSIZE)) = true ∧
      (view sb t).block i ((off + tot) / BSIZE) ∉ t.m.lh) :
    ShortKept sb ip src off tot s (t.evict P) := by
  set j := (off + tot) / BSIZE with hj
  set B := (view sb t).block i j with hB
  have hdata : sb.IsData B := hc.live.seen.isData hc.inside hc.mapped
  have hbuf : (t.evict P).m.buf = update t.m.buf B (s.m.buf B) := by
    funext b
    by_cases hb : b = B
    · rw [hb, update_self]
      change (if P B = true ∧ B ∉ t.m.lh then t.m.disk B else t.m.buf B) = _
      rw [if_pos hev, hc.logged.disk, hP B hev.1 fun hmem => hev.2 (hc.logged.lh B hmem)]
    · rw [update_of_ne hb]
      exact hc.evict_buf hP b fun heq => absurd heq hb
  have hm : Moves sb t (t.evict P)
      { disk sb t with data := update (disk sb t).data B (s.m.buf B) } := by
    refine ⟨rfl, ⟨hc.live.log.room, hc.live.log.home⟩, ?_⟩
    rw [disk, hbuf]
    exact diskVol_data t.m.buf hdata _
  have hv : view sb (t.evict P) =
      { view sb t with data := update (view sb t).data B (s.m.buf B) } := hm.view
  have hlive : Live sb (t.evict P) ip i := by
    refine ⟨hc.live.toHeld.moves hm, ?_, ?_⟩ <;> rw [hv]
    · exact hc.live.wf.putData hc.live.lt hc.inside hc.mapped _
    · exact hc.live.type
  have hsize : ((view sb (t.evict P)).node i).size = ((view sb t).node i).size := by rw [hv]
  have hbyte : ∀ o, o / BSIZE < MAXFILE → (view sb (t.evict P)).byte i o =
      if o / BSIZE = j then byteAt (s.m.buf B) (o % BSIZE) else (view sb t).byte i o := by
    intro o ho
    rw [hv, hB, Vol.byte_putData hc.live.wf.owned hc.live.lt hc.inside hc.mapped hc.live.lt ho]
    simp only [true_and]
    rfl
  have hle := hc.le
  have hedge := hc.edge
  have hsame := hc.same
  have hstart := hc.start
  refine ⟨fun o b hout hb => ?_, fun o h1 h2 => ?_⟩
  · rw [hlive.readByte, hsize] at hb
    split at hb
    · rename_i hlt
      rw [hc.size] at hlt
      have hold : o.toNat < ((view sb s).node i).size.toNat := by omega
      have hdiv := h.wf.div_lt h.lt h.type hold
      have hne := h.wf.block_ne h.lt h.type hold
      rw [h.readByte, if_pos hold, ← hb, hbyte _ hdiv]
      congr 1
      split
      · rename_i hoj
        -- the block was part of the file before, with these contents
        have hsB : (view sb s).block i (o.toNat / BSIZE) = B := by
          rw [← hc.block _ hdiv hne, hoj]
        rw [Vol.byte, hsB, ← buf_eq_data hdata]
      · rename_i hoj
        refine (hc.old o.toNat hold ?_).symm
        simp only [hj, BSIZE] at hoj hsame hedge
        omega
    · cases hb
  · have hne : o.toNat / BSIZE ≠ j := by
      simp only [hj, BSIZE] at hsame hedge ⊢
      omega
    have hdiv : o.toNat / BSIZE < MAXFILE := by
      have := hc.inside
      simp only [BSIZE] at this ⊢
      omega
    refine ⟨_, hc.new o.toNat h1 (by omega), ?_⟩
    rw [hlive.readByte, hsize, if_pos (by rw [hc.size]; omega), hbyte _ hdiv, if_neg hne]

end Short

/-- A `writei` that returns fewer than `n` bytes leaves the rest of the file as `readi` returns it,
whichever clean blocks are evicted afterwards, exactly when the bytes that the failing copy put into
its last block are there already. -/
theorem writei_short_kept_iff (h : Live sb s ip i) {off n : BitVec 32} {tot : ℕ}
    (hr : writei sb ip src off n s = .ok ((tot : ℤ), t)) (hlt : tot < n.toNat) :
    (∀ P, Clean P s → ShortKept sb ip src off.toNat tot s (t.evict P)) ↔
      Harmless src off.toNat n.toNat ((view sb s).file i).bytes := by
  have hc := (writei_short h src off n).ok hr tot rfl hlt
  constructor
  · intro hk
    have hcached := hk (fun _ => false) fun b hb => absurd hb Bool.false_ne_true
    rw [evict_none] at hcached
    exact (hc.kept_iff h).mp hcached
  · intro hharm P hP
    by_cases hev : P ((view sb t).block i ((off.toNat + tot) / BSIZE)) = true ∧
        (view sb t).block i ((off.toNat + tot) / BSIZE) ∉ t.m.lh
    · exact hc.kept_evicted h hP hev
    · have hsame : t.evict P = t := by
        have hbuf : (t.evict P).m.buf = t.m.buf :=
          funext fun b => hc.evict_buf hP b fun hb => hb ▸ hev
        change { t with m := { t.m with buf := (t.evict P).m.buf } } = t
        rw [hbuf]
      rw [hsame]
      exact (hc.kept_iff h).mpr hharm

def oneReadable (b : Byte) (k : ℕ) : Option Byte := if k = 0 then some b else none

/-- Two bytes behind the end of the file, of which one can be read. -/
theorem writei_short_kept_iff_append : ∃ t,
    writei smallDisk (twoBytesState.ftable secondFile).ip (oneReadable 9) 2 2
      (twoBytesState.inTransaction []) = .ok (0, t) ∧
    ∀ P, Clean P (twoBytesState.inTransaction []) →
      ShortKept smallDisk (twoBytesState.ftable secondFile).ip (oneReadable 9) 2 0
        (twoBytesState.inTransaction []) (t.evict P) := by
  have hinv := run_inv smallImage_consistent twoBytes_run
  have hlive := hinv.inTransaction twoBytes_writeFile [] (Nat.zero_le _) nofun
  have hold : ((view smallDisk (twoBytesState.inTransaction [])).file
      (fileInum secondFile twoBytesState)).bytes = [1, 2] := by decide +kernel
  have hret : (writei smallDisk (twoBytesState.ftable secondFile).ip (oneReadable 9) 2 2
      (twoBytesState.inTransaction [])).toOption.map Prod.fst = some 0 := by decide +kernel
  -- from here on the state is any one with these facts
  generalize twoBytesState.inTransaction [] = s at hlive hold hret ⊢
  generalize (twoBytesState.ftable secondFile).ip = ip at hlive hret ⊢
  generalize fileInum secondFile twoBytesState = i at hlive hold
  obtain ⟨z, t, hx, hz⟩ := Sat.of_toOption hret
  obtain rfl : z = ((0 : ℕ) : ℤ) := hz
  refine ⟨t, hx, (writei_short_kept_iff hlive hx (by decide)).mpr ?_⟩
  rw [hold]
  intro k hk _ hlt
  exact absurd hlt (Nat.not_lt.mpr (Nat.le_add_right 2 k))

/-- The first of two bytes is overwritten in the cache by a `writei` that returns 0. -/
theorem not_writei_short_kept : ∃ t,
    writei smallDisk (twoBytesState.ftable secondFile).ip (oneReadable 9) 0 2
      (twoBytesState.inTransaction []) = .ok (0, t) ∧
    readByte smallDisk (twoBytesState.ftable secondFile).ip (twoBytesState.inTransaction []) 0 =
      some 1 ∧
    readByte smallDisk (twoBytesState.ftable secondFile).ip t 0 = some 9 ∧
    ¬ ShortKept smallDisk (twoBytesState.ftable secondFile).ip (oneReadable 9) 0 0
      (twoBytesState.inTransaction []) t := by
  have hret : (writei smallDisk (twoBytesState.ftable secondFile).ip (oneReadable 9) 0 2
      (twoBytesState.inTransaction [])).toOption.map (fun r => (r.1,
        readByte smallDisk (twoBytesState.ftable secondFile).ip r.2 0)) = some (0, some 9) := by
    decide +kernel
  have hbefore : readByte smallDisk (twoBytesState.ftable secondFile).ip
      (twoBytesState.inTransaction []) 0 = some 1 := by decide +kernel
  generalize twoBytesState.inTransaction [] = s at hret hbefore ⊢
  generalize (twoBytesState.ftable secondFile).ip = ip at hret hbefore ⊢
  obtain ⟨z, t, hx, hz⟩ := Sat.of_toOption hret
  obtain ⟨rfl, hafter⟩ := Prod.mk.inj hz
  refine ⟨t, hx, hbefore, hafter, fun hk => ?_⟩
  have hsame := hk.outside 0 9 (.inr (Nat.zero_le _)) hafter
  rw [hbefore] at hsame
  cases hsame

end Xv6.Fs
