import Xv6.Fs.InodeSpec

/-! What `writei` does to the files. -/
namespace Xv6.Fs
open Bytes Function
open Xv6.Log (BSIZE Block)

variable {sb : Superblock} {s t u : State} {ip : InodePtr} {i : ℕ}

section
variable {v : Vol} {j k l o : ℕ} {x : Block}

theorem Vol.block_putData (h : Owned sb v.place v.bit) (hi : i < sb.ninodes) (hj : j < MAXFILE)
    (hne : v.block i j ≠ 0) (hk : k < sb.ninodes) (hl : l < MAXFILE) :
    Vol.block { v with data := update v.data (v.block i j) x } k l = v.block k l :=
  place_update (fun _ hm => h.block_ne_last hi hj hm hne) (mem_places hk (blockPlace_lt hl))

theorem Vol.byte_putData (h : Owned sb v.place v.bit) (hi : i < sb.ninodes) (hj : j < MAXFILE)
    (hne : v.block i j ≠ 0) (hk : k < sb.ninodes) (ho : o / BSIZE < MAXFILE) :
    Vol.byte { v with data := update v.data (v.block i j) x } k o =
      if k = i ∧ o / BSIZE = j then byteAt x (o % BSIZE) else v.byte k o := by
  rw [Vol.byte, Vol.block_putData h hi hj hne hk ho]
  dsimp only
  split
  · rename_i heq
    rw [heq.1, heq.2, update_self]
  · rename_i hneq
    rw [update_of_ne, Vol.byte]
    intro heq
    have := h.inj (mem_places hi (blockPlace_lt hj)) (mem_places hk (blockPlace_lt ho)) hne heq
    obtain ⟨rfl, hp⟩ := Prod.mk.inj this
    exact hneq ⟨rfl, blockPlace_inj hp⟩

end

structure Wrote (sb : Superblock) (ip : InodePtr) (i : ℕ) (src : ℕ → Option Byte) (off n : ℕ)
    (s t : State) : Prop where
  touched : Touched ip s t
  dnode : (disk sb t).node = (disk sb s).node
  live : Live sb t ip i
  node : ∃ a, (view sb t).node = update (view sb s).node i
    { (view sb s).node i with addrs := a }
  block : ∀ k < sb.ninodes, ∀ j < MAXFILE, (view sb s).block k j ≠ 0 →
    (view sb t).block k j = (view sb s).block k j
  old : ∀ k < sb.ninodes, ∀ o, o / BSIZE < MAXFILE → (view sb s).block k (o / BSIZE) ≠ 0 →
    (k = i → o < off ∨ off + n ≤ o) → (view sb t).byte k o = (view sb s).byte k o
  new : ∀ o, off ≤ o → o < off + n → o / BSIZE < MAXFILE ∧
    (view sb t).block i (o / BSIZE) ≠ 0 ∧ src (o - off) = some ((view sb t).byte i o)

theorem Wrote.refl (h : Live sb s ip i) (src : ℕ → Option Byte) (off : ℕ) :
    Wrote sb ip i src off 0 s s where
  touched := Touched.refl ip s
  dnode := rfl
  live := h
  node := (Grows.refl sb i (view sb s)).node
  block _ _ _ _ _ := rfl
  old _ _ _ _ _ _ := rfl
  new o h1 h2 := by omega

variable {src : ℕ → Option Byte}

theorem Wrote.grown {off n : ℕ} (h : Wrote sb ip i src off n s t)
    (hg : Grown sb ip i t u) : Wrote sb ip i src off n s u where
  touched := h.touched.trans hg.touched
  dnode := hg.dnode.trans h.dnode
  live := hg.live
  node := by
    obtain ⟨a, ha⟩ := h.node
    obtain ⟨b, hb⟩ := hg.grows.node
    refine ⟨b, ?_⟩
    rw [hb, ha, update_idem, update_self]
  block k hk j hj hne := by
    have h1 := h.block k hk j hj hne
    rw [(hg.grows.keep k hk j hj (by rwa [h1])).1, h1]
  old k hk o ho hne hout := by
    have h1 := h.block k hk _ ho hne
    rw [hg.grows.byte hk ho (by rwa [h1]), h.old k hk o ho hne hout]
  new o h1 h2 := by
    obtain ⟨ho, hne, hsrc⟩ := h.new o h1 h2
    refine ⟨ho, ?_, ?_⟩
    · rw [(hg.grows.keep i h.live.lt _ ho hne).1]
      exact hne
    · rw [hg.grows.byte h.live.lt ho hne]
      exact hsrc

theorem Wrote.store {off n k : ℕ} (h : Wrote sb ip i src off n s t)
    (hj : (off + n) / BSIZE < MAXFILE) (hne : (view sb t).block i ((off + n) / BSIZE) ≠ 0)
    (hk : k ≤ BSIZE - (off + n) % BSIZE) (hsrc : ∀ c < k, (src (n + c)).isSome)
    (hu : u = { t with m := u.m }) (hl : LogOk sb u.m)
    (hbuf : u.m.buf = update t.m.buf ((view sb t).block i ((off + n) / BSIZE))
      (patch (t.m.buf ((view sb t).block i ((off + n) / BSIZE))) ((off + n) % BSIZE) k
        fun c => (src (n + c)).getD 0)) : Wrote sb ip i src off (n + k) s u := by
  set j := (off + n) / BSIZE with hjdef
  have hdata := h.live.seen.isData hj hne
  rw [buf_eq_data (s := t) hdata] at hbuf
  set x := patch ((view sb t).data ((view sb t).block i j)) ((off + n) % BSIZE) k
    fun c => (src (n + c)).getD 0 with hx
  have hm : Moves sb t u { disk sb t with
      data := update (disk sb t).data ((view sb t).block i j) x } := by
    refine ⟨hu, hl, ?_⟩
    rw [disk, hbuf]
    exact diskVol_data t.m.buf hdata x
  have hv : view sb u =
      { view sb t with data := update (view sb t).data ((view sb t).block i j) x } :=
    hm.view
  have howned := h.live.wf.owned
  have hblock : ∀ k < sb.ninodes, ∀ l < MAXFILE, (view sb u).block k l = (view sb t).block k l := by
    intro k hk l hl
    rw [hv]
    exact Vol.block_putData howned h.live.lt hj hne hk hl
  have hbyte : ∀ c < sb.ninodes, ∀ o, o / BSIZE < MAXFILE →
      (c = i → o < off + n ∨ off + n + k ≤ o) → (view sb u).byte c o = (view sb t).byte c o := by
    intro c hc o ho hout
    rw [hv, Vol.byte_putData howned h.live.lt hj hne hc ho]
    by_cases hco : c = i ∧ o / BSIZE = j
    · obtain ⟨rfl, hoj⟩ := hco
      rw [if_pos ⟨rfl, hoj⟩, hx, byteAt_patch_out, Vol.byte, hoj]
      have := hout rfl
      simp only [hjdef, BSIZE] at hoj this hk ⊢
      omega
    · rw [if_neg hco]
  have hnew : ∀ o, off + n ≤ o → o < off + n + k →
      o / BSIZE = j ∧ src (o - off) = some ((view sb u).byte i o) := by
    intro o h1 h2
    have hoj : o / BSIZE = j := by
      simp only [hjdef, BSIZE] at hk ⊢
      omega
    refine ⟨hoj, ?_⟩
    have hmod : o % BSIZE = (off + n) % BSIZE + (o - (off + n)) := by
      simp only [BSIZE] at hk ⊢
      omega
    rw [hv, Vol.byte_putData howned h.live.lt hj hne h.live.lt (hoj ▸ hj), if_pos ⟨rfl, hoj⟩, hmod,
      hx, byteAt_patch_in _ _ (by omega) (by omega), show o - off = n + (o - (off + n)) by omega]
    obtain ⟨b, hb⟩ := Option.isSome_iff_exists.mp (hsrc (o - (off + n)) (by omega))
    rw [hb, Option.getD_some]
  refine ⟨h.touched.trans (hm.touched ip), ?_, ⟨h.live.toHeld.moves hm, ?_, ?_⟩, ?_, ?_, ?_, ?_⟩
  · rw [hm.vol, ← h.dnode]
  · rw [hv]
    exact h.live.wf.putData h.live.lt hj hne x
  · rw [hv]
    exact h.live.type
  · rw [hv]
    exact h.node
  · intro c hc l hl hcl
    rw [hblock c hc l hl, h.block c hc l hl hcl]
  · intro c hc o ho hco hout
    rw [hbyte c hc o ho fun he => by have := hout he; omega,
      h.old c hc o ho hco fun he => by have := hout he; omega]
  · intro o h1 h2
    rcases lt_or_ge o (off + n) with hlt | hge
    · obtain ⟨ho, hne', hsrc'⟩ := h.new o h1 hlt
      refine ⟨ho, ?_, ?_⟩
      · rwa [hblock i h.live.lt _ ho]
      · rwa [hbyte i h.live.lt o ho fun _ => .inl hlt]
    · obtain ⟨hoj, hs⟩ := hnew o hge (by omega)
      rw [hoj, hblock i h.live.lt j hj]
      exact ⟨hj, hne, hs⟩

theorem readable_le (src : ℕ → Option Byte) (start m : ℕ) : readable src start m ≤ m := by
  induction m generalizing start with
  | zero => exact le_refl 0
  | succ m ih =>
    rw [readable]
    split
    · exact Nat.succ_le_succ (ih _)
    · exact Nat.zero_le _

theorem isSome_of_lt_readable {start m c : ℕ}
    (h : c < readable src start m) : (src (start + c)).isSome := by
  induction m generalizing start c with
  | zero => exact absurd h (Nat.not_lt_zero c)
  | succ m ih =>
    rw [readable] at h
    split at h
    · cases c with
      | zero => assumption
      | succ c =>
        have := ih (Nat.lt_of_succ_lt_succ h)
        rwa [show start + 1 + c = start + (c + 1) by omega] at this
    · exact absurd h (Nat.not_lt_zero c)

theorem readable_eq {start m : ℕ}
    (h : ∀ c < m, (src (start + c)).isSome) : readable src start m = m := by
  induction m generalizing start with
  | zero => rfl
  | succ m ih =>
    have h0 : (src start).isSome := h 0 (Nat.succ_pos m)
    rw [readable, if_pos h0, ih fun c hc => ?_]
    have := h (c + 1) (Nat.succ_lt_succ hc)
    rwa [show start + (c + 1) = start + 1 + c by omega] at this

theorem writeiLoop_sat {off n fuel tot : ℕ}
    (h : Wrote sb ip i src off tot s t) (hfuel : n ≤ fuel + tot) (htot : tot ≤ n) :
    Sat (writeiLoop sb ip src n fuel tot (off + tot)) t
      (fun r u => r.2 = off + r.1 ∧ r.1 ≤ n ∧ ∃ x, Wrote sb ip i src off (r.1 + x) s u ∧
        ((∀ c < n, (src c).isSome) → r.1 = n ∧ x = 0)) Mild := by
  induction fuel generalizing tot t with
  | zero =>
    exact Sat.pure ⟨rfl, htot, 0, h, fun _ => ⟨by dsimp only; omega, rfl⟩⟩
  | succ fuel ih =>
    rw [writeiLoop]
    refine Sat.ite (fun hlt => ?_) fun hle =>
      Sat.pure ⟨rfl, htot, 0, h, fun _ => ⟨by dsimp only; omega, rfl⟩⟩
    refine Sat.bind (bmap_sat h.live ((off + tot) / BSIZE)) ?_
    rintro a u ⟨hj, hg, ha, rfl⟩
    have hu := h.grown hg
    refine bread_bind ?_
    set m := min (n - tot) (BSIZE - (off + tot) % BSIZE) with hm
    have hpos : 0 < m := by
      have : (off + tot) % BSIZE < BSIZE := Nat.mod_lt _ (by decide)
      omega
    have hk := readable_le src tot m
    refine storeBlock_bind (Sat.ite (fun hshort => Sat.pure ?_) fun hfull => ?_)
    · refine ⟨rfl, htot, readable src tot m, ?_, fun hall => ?_⟩
      · exact hu.store hj ha (by omega) (fun c hc => isSome_of_lt_readable hc) rfl
          ⟨hu.live.log.room, hu.live.log.home⟩ rfl
      · rw [readable_eq fun c hc => hall _ (by omega)] at hshort
        omega
    · have hkm : readable src tot m = m := by omega
      rw [hkm]
      refine Sat.bind (logWrite_sat ⟨hu.live.log.room, hu.live.log.home⟩
        (IsData.range (hu.live.seen.isData hj ha))) ?_
      rintro _ w ⟨lh, hw, hlog⟩
      have hstore : Wrote sb ip i src off (tot + m) s w := by
        refine hu.store hj ha (by omega)
          (fun c hc => isSome_of_lt_readable (m := m) (by omega)) ?_ hlog ?_
        · rw [hw]
        · rw [hw]
          rfl
      have hrec := ih hstore (by omega) (by omega)
      rwa [← Nat.add_assoc] at hrec

theorem iupdate_sat (hl : LogOk sb s.m) (hi : (s.itable ip).inum < sb.ninodes) :
    Sat (iupdate sb ip) s (fun _ t => Moves sb s t { disk sb s with
      node := update (disk sb s).node (s.itable ip).inum (s.itable ip).d }) Mild := by
  unfold iupdate
  exact getInode_bind (bread_bind (put_sat hl (IBLOCK_range hi) (diskVol_dinode _ hi _)))

variable {v : Vol} {d : Dinode}

theorem Vol.place_setNode (ht : (v.node i).type ≠ 0) (hd : d.type ≠ 0)
    (ha : d.addrs = (v.node i).addrs) (p : ℕ × ℕ) : (v.setNode i d).place p = v.place p := by
  obtain ⟨k, l⟩ := p
  rcases eq_or_ne k i with rfl | hk
  · simp only [Vol.place, Vol.setNode_node_self, ha, if_neg hd, if_neg ht]
    rfl
  · exact place_congr (v.setNode_node_of_ne d hk) (fun _ _ => rfl) l

theorem Wf.setNode (h : Wf sb v) (ht : (v.node i).type ≠ 0)
    (hd : d.type ≠ 0) (ha : d.addrs = (v.node i).addrs)
    (hfull : ∀ j, j * BSIZE < d.size.toNat → v.block i j ≠ 0)
    (hsmall : d.size.toNat ≤ MAXFILE * BSIZE) : Wf sb (v.setNode i d) where
  owned := h.owned.congr fun p _ => Vol.place_setNode ht hd ha p
  full k hk htk j hj := by
    rw [Vol.block, Vol.place_setNode ht hd ha]
    rcases eq_or_ne k i with rfl | hki
    · rw [Vol.setNode_node_self] at hj
      exact hfull j hj
    · rw [Vol.setNode_node_of_ne _ _ hki] at htk hj
      exact h.full k hk htk j hj
  small k hk htk := by
    rcases eq_or_ne k i with rfl | hki
    · rwa [Vol.setNode_node_self]
    · rw [Vol.setNode_node_of_ne _ _ hki] at htk ⊢
      exact h.small k hk htk
  metadata := h.metadata

structure Put (sb : Superblock) (ip : InodePtr) (i : ℕ) (f : Node) (s t : State) : Prop where
  touched : Touched ip s t
  live : Live sb t ip i
  dnode : (disk sb t).node = update (disk sb s).node i ((view sb t).node i)
  self : (view sb t).file i = f
  other : ∀ k < sb.ninodes, k ≠ i → (view sb t).file k = (view sb s).file k

theorem Held.put (h : Held sb s ip i) (d : Dinode) :
    Sat (iupdate sb ip) (s.setD ip d) (fun _ t => Touched ip s t ∧ Held sb t ip i ∧
      view sb t = (view sb s).setNode i d ∧
      (disk sb t).node = update (disk sb s).node i d) Mild := by
  have hs := h.setD d
  have hi : ((s.setD ip d).itable ip).inum = i := hs.cached.2.1
  refine (iupdate_sat hs.log (by rw [hi]; exact h.lt)).post ?_
  intro _ t ht
  rw [hi, setD_d] at ht
  refine ⟨(touched_setD s ip d).trans (ht.touched ip), hs.moves ht, ?_, ?_⟩
  · rw [← view_setD h.uniq h.cached]
    refine view_writeback hs.uniq hs.cached ?_
    rwa [setD_d]
  · rw [ht.vol]
    rfl

theorem Vol.byte_setNode (ht : (v.node i).type ≠ 0) (hd : d.type ≠ 0)
    (ha : d.addrs = (v.node i).addrs) (k o : ℕ) : (v.setNode i d).byte k o = v.byte k o := by
  rw [Vol.byte, Vol.block, Vol.place_setNode ht hd ha]
  rfl

theorem Vol.file_setNode (ht : (v.node i).type ≠ 0) (hd : d.type ≠ 0)
    (ha : d.addrs = (v.node i).addrs) {k : ℕ} (hk : k ≠ i) :
    (v.setNode i d).file k = v.file k :=
  Vol.file_congr (v.setNode_node_of_ne d hk) fun o _ => Vol.byte_setNode ht hd ha k o

theorem Wrote.file {off n k : ℕ} (h : Wrote sb ip i src off n s t)
    (hs : Wf sb (view sb s)) (hk : k < sb.ninodes) (hki : k ≠ i) :
    (view sb t).file k = (view sb s).file k := by
  obtain ⟨a, ha⟩ := h.node
  have hn : (view sb t).node k = (view sb s).node k := by rw [ha, update_of_ne hki]
  by_cases ht : ((view sb s).node k).type = 0
  · unfold Vol.file
    rw [hn]
    exact (if_pos ht).trans (if_pos ht).symm
  · exact Vol.file_congr hn fun o ho =>
      h.old k hk o (hs.div_lt hk ht ho) (hs.block_ne hk ht ho) fun he => absurd he hki

structure Patched (old : List Byte) (src : ℕ → Option Byte) (off n x : ℕ) (bs : List Byte) :
    Prop where
  length : bs.length = max old.length (off + n)
  old : ∀ o < old.length, o < off ∨ off + n + x ≤ o → bs[o]? = old[o]?
  new : ∀ o, off ≤ o → o < off + n → bs[o]? = src (o - off)

theorem Vol.bytes_get {m o : ℕ} (h : o < m) :
    ((List.range m).map (v.byte i))[o]? = some (v.byte i o) := by
  rw [List.getElem?_map, List.getElem?_range h]
  rfl

def Dinode.setSize (d : Dinode) (n : BitVec 32) : Dinode := { d with size := n }

theorem writeiSize_sat {last : ℕ} (h : Live sb t ip i) (hmax : last ≤ MAXFILE * BSIZE) :
    Sat (do
      let e ← getInode ip
      doIf (e.d.size.toNat < last)
        (modifyDinode ip fun d => { d with size := BitVec.ofNat 32 last })
      iupdate sb ip) t (fun _ u => ∃ d : Dinode, d = ((view sb t).node i).setSize d.size ∧
        d.size.toNat = max ((view sb t).node i).size.toNat last ∧ Touched ip t u ∧
        Held sb u ip i ∧ view sb u = (view sb t).setNode i d ∧
        (disk sb u).node = update (disk sb t).node i d) Mild := by
  have htd : (t.itable ip).d = (view sb t).node i := h.d
  set size := ((view sb t).node i).size.toNat with hsize
  set d := ((view sb t).node i).setSize (BitVec.ofNat 32 (max size last)) with hd
  have hold : size ≤ MAXFILE * BSIZE := h.wf.small i h.lt h.type
  have hdsize : d.size.toNat = max size last := by
    rw [hd, Dinode.setSize, BitVec.toNat_ofNat, Nat.mod_eq_of_lt]
    simp only [MAXFILE, NDIRECT, NINDIRECT, BSIZE] at hmax hold
    omega
  refine getInode_bind (Sat.bind (R := fun _ w => w = t.setD ip d) (doIf_sat (fun hlt => ?_)
    fun hge => ?_) ?_)
  · change t.setD ip _ = t.setD ip _
    rw [htd] at hlt
    rw [htd, hd, max_eq_right (le_of_lt hlt)]
    rfl
  · rw [htd] at hge
    have hdt : d = (t.itable ip).d := by
      rw [hd, max_eq_left (Nat.not_lt.mp hge), BitVec.ofNat_toNat, BitVec.setWidth_eq, htd]
      rfl
    rw [hdt, State.setD, State.setInode, update_eq_self]
  rintro _ w rfl
  exact (h.put d).post fun _ u hu => ⟨d, rfl, hdsize, hu⟩

theorem writeiEnd_sat {off tot x : ℕ} (h : Live sb s ip i)
    (hw : Wrote sb ip i src off (tot + x) s t) (hoff : off ≤ ((view sb s).node i).size.toNat)
    (hmax : off + tot ≤ MAXFILE * BSIZE) :
    Sat (do
      let e ← getInode ip
      doIf (e.d.size.toNat < off + tot)
        (modifyDinode ip fun d => { d with size := BitVec.ofNat 32 (off + tot) })
      iupdate sb ip) t (fun _ u => ∃ bs, Put sb ip i { (view sb s).file i with bytes := bs } s u ∧
        Patched ((view sb s).file i).bytes src off tot x bs) Mild := by
  obtain ⟨a, ha⟩ := hw.node
  have hnode : (view sb t).node i = { (view sb s).node i with addrs := a } := by
    rw [ha, update_self]
  set size := ((view sb s).node i).size.toNat with hsize
  have hold : size ≤ MAXFILE * BSIZE := h.wf.small i h.lt h.type
  refine (writeiSize_sat hw.live hmax).post ?_
  rintro _ u ⟨d, hd, hdsize, htu, hhu, hvu, hdu⟩
  have hda : d.addrs = ((view sb t).node i).addrs := by
    rw [hd]
    rfl
  have hdt : d.type ≠ 0 := by
    rw [hd]
    exact hw.live.type
  replace hdsize : d.size.toNat = max size (off + tot) := by rw [hdsize, hnode]
  have hfull : ∀ j, j * BSIZE < d.size.toNat → (view sb t).block i j ≠ 0 := by
    intro j hj
    rw [hdsize] at hj
    have hjm : j < MAXFILE := by
      simp only [BSIZE] at hj hmax hold ⊢
      omega
    rcases lt_or_ge (j * BSIZE) size with hlt | hge
    · have hne := h.wf.full i h.lt h.type j hlt
      rwa [hw.block i h.lt j hjm hne]
    · have := (hw.new (j * BSIZE) (by omega) (by omega)).2.1
      rwa [Nat.mul_div_cancel j (by decide)] at this
  have hwf : Wf sb ((view sb t).setNode i d) :=
    hw.live.wf.setNode hw.live.type hdt hda hfull (by rw [hdsize]; omega)
  have hlu : Live sb u ip i := ⟨hhu, hvu ▸ hwf, by rwa [hvu, Vol.setNode_node_self]⟩
  have hbyte : ∀ k o, (view sb u).byte k o = (view sb t).byte k o := fun k o => by
    rw [hvu, Vol.byte_setNode hw.live.type hdt hda]
  have hun : (view sb u).node i = d := by rw [hvu, Vol.setNode_node_self]
  have hfile : (view sb s).file i = _ := Vol.file_of_ne h.type
  refine ⟨(List.range (max size (off + tot))).map ((view sb t).byte i), ⟨?_, hlu, ?_, ?_, ?_⟩, ?_⟩
  · exact hw.touched.trans htu
  · rw [hdu, hw.dnode, hun]
  · rw [Vol.file_of_ne hlu.type, hfile, hun, hdsize, hd, hnode]
    refine congrArg (Node.mk _ _ _ _) ?_
    exact List.map_congr_left fun o _ => hbyte i o
  · intro k hk hki
    rw [hvu, Vol.file_setNode hw.live.type hdt hda hki, hw.file h.wf hk hki]
  · rw [hfile]
    refine ⟨by simp [hsize], fun o ho hout => ?_, fun o h1 h2 => ?_⟩
    · simp only [List.length_map, List.length_range] at ho
      rw [Vol.bytes_get (by omega), Vol.bytes_get ho, hw.old i h.lt o (h.wf.div_lt h.lt h.type ho)
        (h.wf.block_ne h.lt h.type ho) fun _ => by omega]
    · rw [Vol.bytes_get (by omega), (hw.new o h1 (by omega)).2.2]

theorem writei_sat (h : Live sb s ip i) (src : ℕ → Option Byte) (off n : BitVec 32) :
    Sat (writei sb ip src off n) s (fun r t => (r = -1 ∧ t = s) ∨
      ∃ (tot x : ℕ) (bs : List Byte), r = (tot : ℤ) ∧ tot ≤ n.toNat ∧
        off.toNat ≤ ((view sb s).file i).bytes.length ∧
        ((∀ c < n.toNat, (src c).isSome) → tot = n.toNat ∧ x = 0) ∧
        Put sb ip i { (view sb s).file i with bytes := bs } s t ∧
        Patched ((view sb s).file i).bytes src off.toNat tot x bs) Mild := by
  unfold writei
  refine getInode_bind ?_
  rw [h.d]
  refine Sat.ite (fun _ => Sat.pure (.inl ⟨rfl, rfl⟩)) fun hoff => Sat.ite
    (fun _ => Sat.pure (.inl ⟨rfl, rfl⟩)) fun hmax => ?_
  simp only [not_or, BitVec.not_lt, BitVec.le_def] at hoff hmax
  have hsum : off.toNat + n.toNat ≤ MAXFILE * BSIZE := by
    simp only [MAXFILE, NDIRECT, NINDIRECT, BSIZE] at hmax ⊢
    bv_omega
  have hloop : Sat (writeiLoop sb ip src n.toNat n.toNat 0 (off.toNat + 0)) s _ Mild :=
    writeiLoop_sat (Wrote.refl h src off.toNat) (by omega) (by omega)
  refine Sat.bind hloop ?_
  rintro ⟨tot, off'⟩ t ⟨hoff', hn, x, hw, hall⟩
  dsimp only at hoff' hn hw hall ⊢
  subst hoff'
  rw [← bind_assoc, ← bind_assoc]
  refine Sat.bind (R := fun _ u => ∃ bs, Put sb ip i { (view sb s).file i with bytes := bs } s u ∧
    Patched ((view sb s).file i).bytes src off.toNat tot x bs)
    (writeiEnd_sat h hw hoff.1 (by omega)) ?_
  rintro _ u ⟨bs, hput, hbs⟩
  refine Sat.pure (.inr ⟨tot, x, bs, rfl, hn, ?_, hall, hput, hbs⟩)
  rw [Vol.file_of_ne h.type]
  simpa using hoff.1

end Xv6.Fs
