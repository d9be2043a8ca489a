import Xv6.Fs.WriteSpec

/-! What `itrunc` does to the files: the blocks of an inode go back to the bitmap one by one. -/
namespace Xv6.Fs
open Bytes Function BitVec
open Xv6.Log (BSIZE Block)

/-- Inode `i` is losing its blocks: `f` tells which places still own theirs. -/
structure Freeing (sb : Superblock) (i : ℕ) (f : ℕ × ℕ → ℕ) (v : Vol) : Prop where
  owned : Owned sb f v.bit
  other : ∀ p ∈ places sb, p.1 ≠ i → f p = v.place p
  full : ∀ k < sb.ninodes, k ≠ i → (v.node k).type ≠ 0 →
    ∀ j, j * BSIZE < (v.node k).size.toNat → v.block k j ≠ 0
  small : ∀ k < sb.ninodes, k ≠ i → (v.node k).type ≠ 0 →
    (v.node k).size.toNat ≤ MAXFILE * BSIZE
  metadata : ∀ b < sb.datastart, v.bit b = true

variable {sb : Superblock} {s t u : State} {ip : InodePtr} {i : ℕ} {f : ℕ × ℕ → ℕ} {v : Vol}

theorem Wf.freeing (h : Wf sb v) (i : ℕ) : Freeing sb i v.place v where
  owned := h.owned
  other _ _ _ := rfl
  full k hk _ := h.full k hk
  small k hk _ := h.small k hk
  metadata := h.metadata

variable {p : ℕ × ℕ}

theorem Freeing.free (h : Freeing sb i f v) (hp : p ∈ places sb) (hpi : p.1 = i) (hne : f p ≠ 0) :
    Freeing sb i (update f p 0) { v with bit := update v.bit (f p) false } where
  owned := h.owned.free hp hne
  other q hq hqi := by
    rw [update_of_ne fun he : q = p => hqi (he ▸ hpi)]
    exact h.other q hq hqi
  full := h.full
  small := h.small
  metadata b hb := by
    have hdata := (h.owned.data p hp hne).1
    exact (update_of_ne (by omega) _ _).trans (h.metadata b hb)

variable {d : Dinode}

theorem Vol.place_setNode_of_ne (hp : p.1 ≠ i) : (v.setNode i d).place p = v.place p :=
  place_congr (v.setNode_node_of_ne d hp) (fun _ _ => rfl) p.2

theorem Freeing.setNode (h : Freeing sb i f v) (d : Dinode) :
    Freeing sb i f (v.setNode i d) where
  owned := h.owned
  other p hp hpi := by
    rw [Vol.place_setNode_of_ne hpi]
    exact h.other p hp hpi
  full k hk hki ht j hj := by
    rw [Vol.setNode_node_of_ne _ _ hki] at ht hj
    rw [Vol.block, Vol.place_setNode_of_ne hki]
    exact h.full k hk hki ht j hj
  small k hk hki ht := by
    rw [Vol.setNode_node_of_ne _ _ hki] at ht ⊢
    exact h.small k hk hki ht
  metadata := h.metadata

theorem Freeing.congr {g : ℕ × ℕ → ℕ} (h : Freeing sb i f v) (hg : ∀ p ∈ places sb, g p = f p) :
    Freeing sb i g v where
  owned := h.owned.congr hg
  other p hp hpi := (hg p hp).trans (h.other p hp hpi)
  full := h.full
  small := h.small
  metadata := h.metadata

/-- In the end the inode has no block and is empty or free. -/
theorem Freeing.wf (h : Freeing sb i f v) (hz : ∀ j, (i, j) ∈ places sb → f (i, j) = 0)
    (hp : ∀ j, v.place (i, j) = 0) (hs : (v.node i).type ≠ 0 → (v.node i).size = 0) : Wf sb v where
  owned := by
    refine h.owned.congr fun p hmem => ?_
    obtain ⟨k, j⟩ := p
    rcases eq_or_ne k i with rfl | hki
    · rw [hp, hz j hmem]
    · exact (h.other _ hmem hki).symm
  full k hk ht j hj := by
    rcases eq_or_ne k i with rfl | hki
    · rw [hs ht] at hj
      exact absurd hj (Nat.not_lt_zero _)
    · exact h.full k hk hki ht j hj
  small k hk ht := by
    rcases eq_or_ne k i with rfl | hki
    · rw [hs ht]
      exact Nat.zero_le _
    · exact h.small k hk hki ht
  metadata := h.metadata

theorem bfree_place_sat (h : Held sb s ip i) (hf : Freeing sb i f (view sb s))
    (hp : p ∈ places sb) (hpi : p.1 = i) (hne : f p ≠ 0) :
    Sat (bfree sb (f p)) s (fun _ t => Held sb t ip i ∧ Touched ip s t ∧
      t.itable = s.itable ∧ (disk sb t).node = (disk sb s).node ∧
      view sb t = { view sb s with bit := update (view sb s).bit (f p) false } ∧
      Freeing sb i (update f p 0) (view sb t)) Mild := by
  have hdata := hf.owned.data p hp hne
  refine (bfree_sat h.log hdata.2 (hf.owned.bit_set hp hne)).post ?_
  intro _ t hm
  have hv : view sb t =
      { view sb s with bit := update (view sb s).bit (f p) false } := hm.view
  refine ⟨h.moves hm, hm.touched ip, by rw [hm.eq], by rw [hm.vol], hv, ?_⟩
  rw [hv]
  exact hf.free hp hpi hne

theorem Vol.place_clearAddr (ht : (v.node i).type ≠ 0) {j : Fin (NDIRECT + 1)}
    (hj : j ≠ Fin.last NDIRECT) (p : ℕ × ℕ) :
    (v.setNode i ((v.node i).setAddr j 0)).place p = update v.place (i, j.val) 0 p := by
  obtain ⟨k, l⟩ := p
  rcases eq_or_ne k i with rfl | hk
  · have hlast : ((v.node k).setAddr j 0).addrs (Fin.last NDIRECT) =
        (v.node k).addrs (Fin.last NDIRECT) := update_of_ne hj.symm _ _
    have ht' : ((v.node k).setAddr j 0).type ≠ 0 := ht
    by_cases hl : l ≤ NDIRECT
    · rw [place_direct _ (by rwa [Vol.setNode_node_self]) hl, Vol.setNode_node_self]
      rcases eq_or_ne (Fin.ofNat (NDIRECT + 1) l) j with rfl | hlj
      · have hval : (Fin.ofNat (NDIRECT + 1) l).val = l := by
          rw [Fin.val_ofNat, Nat.mod_eq_of_lt (by omega)]
        rw [hval, update_self]
        simp only [Dinode.setAddr, update_self]
        rfl
      · have hne : (k, l) ≠ (k, j.val) := by
          intro he
          refine hlj (Fin.ext ?_)
          rw [Fin.val_ofNat, Nat.mod_eq_of_lt (by omega)]
          exact (Prod.mk.inj he).2
        rw [update_of_ne hne, place_direct v ht hl]
        simp only [Dinode.setAddr, update_of_ne hlj]
    · have hne : (k, l) ≠ (k, j.val) := by
        intro he
        have := (Prod.mk.inj he).2
        have := j.isLt
        omega
      rw [update_of_ne hne]
      simp only [Vol.place, Vol.setNode_node_self, hlast, if_neg ht, if_neg ht', if_neg hl]
      rfl
  · rw [update_of_ne fun he => hk (Prod.mk.inj he).1, Vol.place_setNode_of_ne hk]

structure Cleared (sb : Superblock) (ip : InodePtr) (i : ℕ) (js : List (Fin (NDIRECT + 1)))
    (s t : State) : Prop where
  held : Held sb t ip i
  touched : Touched ip s t
  dnode : (disk sb t).node = (disk sb s).node
  data : (view sb t).data = (view sb s).data
  node : ∃ a, (view sb t).node = update (view sb s).node i
    { (view sb s).node i with addrs := a } ∧
    ∀ j, a j = if j ∈ js then 0 else ((view sb s).node i).addrs j
  freeing : Freeing sb i (view sb t).place (view sb t)

theorem freeDirect_sat {js : List (Fin (NDIRECT + 1))} (h : Held sb s ip i)
    (ht : ((view sb s).node i).type ≠ 0) (hf : Freeing sb i (view sb s).place (view sb s))
    (hjs : Fin.last NDIRECT ∉ js) :
    Sat (freeDirect sb ip js) s (fun _ t => Cleared sb ip i js s t) Mild := by
  induction js generalizing s with
  | nil =>
    exact Sat.pure ⟨h, Touched.refl ip s, rfl, rfl,
      ⟨((view sb s).node i).addrs, (update_eq_self _ _).symm, fun j => by simp⟩, hf⟩
  | cons j js ih =>
    have hj : j ≠ Fin.last NDIRECT := fun he => hjs (he ▸ List.mem_cons_self)
    have hmem : (i, j.val) ∈ places sb := mem_places h.lt (by have := j.isLt; omega)
    refine getInode_bind (Sat.bind (R := fun _ t => Cleared sb ip i [j] s t) ?_ ?_)
    · rw [h.d]
      refine doIf_sat (fun hne => ?_) fun hz => ?_
      · have hpl : (view sb s).place (i, j.val) = (((view sb s).node i).addrs j).toNat :=
          place_of_addr ht
        have hpne : (view sb s).place (i, j.val) ≠ 0 := by
          rw [hpl]
          exact fun h0 => hne (eq_of_toNat_eq h0)
        rw [← hpl]
        refine Sat.bind (bfree_place_sat h hf hmem rfl hpne) ?_
        rintro _ t ⟨hh, htt, hit, hdn, hv, hft⟩
        change Cleared sb ip i [j] s (t.setD ip ((t.itable ip).d.setAddr j 0))
        have hnode : (view sb t).node = (view sb s).node := by rw [hv]
        have hview : view sb _ = _ := view_setD hh.uniq hh.cached ((t.itable ip).d.setAddr j 0)
        rw [hh.d] at hview ⊢
        have htt' : ((view sb t).node i).type ≠ 0 := by rwa [hnode]
        refine ⟨hh.setD _, htt.trans (touched_setD t ip _), hdn, ?_, ?_, ?_⟩
        · rw [hview, hv]
          rfl
        · refine ⟨update ((view sb s).node i).addrs j 0, ?_, fun l => ?_⟩
          · rw [hview, Vol.setNode, hnode]
            rfl
          · rw [update_apply]
            simp
        · rw [hview]
          refine (hft.setNode _).congr fun p _ => ?_
          rw [Vol.place_clearAddr htt' hj]
          have hplace : (view sb t).place = (view sb s).place := by rw [hv]; rfl
          rw [hplace]
      · refine ⟨h, Touched.refl ip s, rfl, rfl,
          ⟨((view sb s).node i).addrs, (update_eq_self _ _).symm, fun l => ?_⟩, hf⟩
        split
        · rename_i hl
          rw [List.mem_singleton.mp hl]
          exact not_not.mp hz
        · rfl
    · intro _ t ht1
      obtain ⟨a, ha, haj⟩ := ht1.node
      have hti : (view sb t).node i = { (view sb s).node i with addrs := a } := by
        rw [ha, update_self]
      have httype : ((view sb t).node i).type ≠ 0 := by rwa [hti]
      refine (ih ht1.held httype ht1.freeing fun hl => hjs (List.mem_cons_of_mem _ hl)).post ?_
      intro _ u hu
      obtain ⟨b, hb, hbj⟩ := hu.node
      refine ⟨hu.held, ht1.touched.trans hu.touched, hu.dnode.trans ht1.dnode,
        hu.data.trans ht1.data, ⟨b, ?_, fun l => ?_⟩, hu.freeing⟩
      · rw [hb, ha, update_idem, update_self]
      · rw [hbj l, hti]
        dsimp only
        rw [haj l]
        by_cases h1 : l ∈ js <;> by_cases h2 : l = j <;> simp [h1, h2]

def dropEntries (i : ℕ) (js : List ℕ) (f : ℕ × ℕ → ℕ) (p : ℕ × ℕ) : ℕ :=
  if p.1 = i ∧ NDIRECT + 1 ≤ p.2 ∧ p.2 - (NDIRECT + 1) ∈ js then 0 else f p

theorem freeIndirect_sat {bp : Block} {js : List ℕ} (h : Held sb s ip i)
    (hf : Freeing sb i f (view sb s)) (hjs : ∀ j ∈ js, j < NINDIRECT)
    (hbp : ∀ j ∈ js, f (i, NDIRECT + 1 + j) = (getWord bp (4 * j)).toNat) (hnd : js.Nodup) :
    Sat (freeIndirect sb bp js) s (fun _ t => Held sb t ip i ∧ Touched ip s t ∧
      (disk sb t).node = (disk sb s).node ∧ (view sb t).node = (view sb s).node ∧
      (view sb t).data = (view sb s).data ∧ Freeing sb i (dropEntries i js f) (view sb t)) Mild := by
  induction js generalizing s f with
  | nil =>
    refine Sat.pure ⟨h, Touched.refl ip s, rfl, rfl, rfl, hf.congr fun p _ => if_neg ?_⟩
    exact fun hp => List.not_mem_nil hp.2.2
  | cons j js ih =>
    obtain ⟨hj, hnd⟩ := List.nodup_cons.mp hnd
    have hmem : (i, NDIRECT + 1 + j) ∈ places sb :=
      mem_places h.lt (by have := hjs j List.mem_cons_self; omega)
    rw [freeIndirect, ← hbp j List.mem_cons_self]
    refine Sat.bind (R := fun _ t => Held sb t ip i ∧ Touched ip s t ∧
      (disk sb t).node = (disk sb s).node ∧ (view sb t).node = (view sb s).node ∧
      (view sb t).data = (view sb s).data ∧ Freeing sb i (update f (i, NDIRECT + 1 + j) 0) (view sb t))
      (doIf_sat (fun hne => ?_) fun hz => ?_) ?_
    · have hpne : f (i, NDIRECT + 1 + j) ≠ 0 := by
        rw [hbp j List.mem_cons_self]
        exact fun h0 => hne (eq_of_toNat_eq h0)
      refine (bfree_place_sat h hf hmem rfl hpne).post ?_
      rintro _ t ⟨hh, htt, -, hdn, hv, hft⟩
      exact ⟨hh, htt, hdn, by rw [hv], by rw [hv], hft⟩
    · have hp0 : f (i, NDIRECT + 1 + j) = 0 := by
        rw [hbp j List.mem_cons_self, not_not.mp hz]
        rfl
      refine ⟨h, Touched.refl ip s, rfl, rfl, rfl, hf.congr fun p _ => ?_⟩
      rw [update_apply]
      split
      · rename_i hp
        rw [hp, hp0]
      · rfl
    rintro _ t ⟨hh, htt, hdn, hvn, hvd, hft⟩
    have hrest : ∀ l ∈ js, update f (i, NDIRECT + 1 + j) 0 (i, NDIRECT + 1 + l) =
        (getWord bp (4 * l)).toNat := by
      intro l hl
      rw [update_of_ne, hbp l (List.mem_cons_of_mem _ hl)]
      intro he
      have := (Prod.mk.inj he).2
      exact hj ((show l = j by omega) ▸ hl)
    refine (ih hh hft (fun l hl => hjs l (List.mem_cons_of_mem _ hl)) hrest hnd).post ?_
    rintro _ u ⟨hhu, htu, hdu, hvu, hvud, hfu⟩
    refine ⟨hhu, htt.trans htu, hdu.trans hdn, hvu.trans hvn, hvud.trans hvd, hfu.congr fun p _ => ?_⟩
    simp only [dropEntries, update_apply, List.mem_cons]
    by_cases h1 : p.1 = i ∧ NDIRECT + 1 ≤ p.2 ∧ p.2 - (NDIRECT + 1) ∈ js
    · rw [if_pos ⟨h1.1, h1.2.1, .inr h1.2.2⟩, if_pos h1]
    · by_cases h2 : p = (i, NDIRECT + 1 + j)
      · rw [if_pos ⟨by rw [h2], by rw [h2]; omega, .inl (by rw [h2]; dsimp only; omega)⟩,
          if_neg h1, if_pos h2]
      · rw [if_neg, if_neg h1, if_neg h2]
        rintro ⟨ha, hb, hc | hc⟩
        · exact h2 (Prod.ext ha (by dsimp only; omega))
        · exact h1 ⟨ha, hb, hc⟩

theorem last_notMem_directs : Fin.last NDIRECT ∉ directs := by decide

theorem mem_directs {j : Fin (NDIRECT + 1)} (h : j ≠ Fin.last NDIRECT) : j ∈ directs := by
  revert h
  revert j
  decide

theorem Vol.place_of_addrs_zero (h : ∀ j, (v.node i).addrs j = 0) (j : ℕ) :
    v.place (i, j) = 0 := by
  simp only [Vol.place, h]
  split
  · rfl
  · split <;> rfl

theorem Wf.blank (h : Wf sb v) (hz : ∀ j, v.place (i, j) = 0)
    (ha : ∀ j, d.addrs j = 0) (hs : d.size = 0) : Wf sb (v.setNode i d) := by
  refine ((h.freeing i).setNode d).wf (fun j _ => hz j) (fun j => ?_) fun _ => ?_
  · exact Vol.place_of_addrs_zero (fun j => by rw [Vol.setNode_node_self, ha]) j
  · rw [Vol.setNode_node_self, hs]

theorem Vol.file_setNode_of_ne {k : ℕ} (hk : k ≠ i) : (v.setNode i d).file k = v.file k := by
  refine Vol.file_congr (v.setNode_node_of_ne d hk) fun o _ => ?_
  rw [Vol.byte, Vol.block, Vol.place_setNode_of_ne hk]
  rfl

def freeBlocks (sb : Superblock) (ip : InodePtr) : M Unit := do
  freeDirect sb ip directs
  let e ← getInode ip
  doIf (e.d.addrs (Fin.last NDIRECT) ≠ 0) do
    let bp ← bread (e.d.addrs (Fin.last NDIRECT)).toNat
    freeIndirect sb bp (List.range NINDIRECT)
    bfree sb (e.d.addrs (Fin.last NDIRECT)).toNat
    setAddr ip (Fin.last NDIRECT) 0

theorem itrunc_eq (sb : Superblock) (ip : InodePtr) : itrunc sb ip = (do
    freeBlocks sb ip
    modifyDinode ip fun d => { d with size := 0 }
    iupdate sb ip) := by
  simp only [itrunc, freeBlocks, bind_assoc]

structure Emptied (sb : Superblock) (ip : InodePtr) (i : ℕ) (s t : State) : Prop where
  held : Held sb t ip i
  touched : Touched ip s t
  dnode : (disk sb t).node = (disk sb s).node
  data : (view sb t).data = (view sb s).data
  node : (view sb t).node = update (view sb s).node i
    { (view sb s).node i with addrs := fun _ => 0 }
  freeing : ∃ f, Freeing sb i f (view sb t) ∧ ∀ j, (i, j) ∈ places sb → f (i, j) = 0

theorem Dinode.setAddr_last_zero (h : ∀ j, j ≠ Fin.last NDIRECT → d.addrs j = 0) :
    d.setAddr (Fin.last NDIRECT) 0 = { d with addrs := fun _ => 0 } := by
  have ha : update d.addrs (Fin.last NDIRECT) 0 = fun _ => 0 := by
    funext j
    rw [update_apply]
    split
    · rfl
    · exact h j (by assumption)
  rw [Dinode.setAddr, ha]

theorem freeLast_sat (h : Held sb s ip i) (ht : ((view sb s).node i).type ≠ 0)
    (hf : Freeing sb i (view sb s).place (view sb s))
    (hz : ∀ j, j ≠ Fin.last NDIRECT → ((view sb s).node i).addrs j = 0)
    (hne : ((view sb s).node i).addrs (Fin.last NDIRECT) ≠ 0) :
    Sat (do
      let bp ← bread (((view sb s).node i).addrs (Fin.last NDIRECT)).toNat
      freeIndirect sb bp (List.range NINDIRECT)
      bfree sb (((view sb s).node i).addrs (Fin.last NDIRECT)).toNat
      setAddr ip (Fin.last NDIRECT) 0) s (fun _ t => Emptied sb ip i s t) Mild := by
  have hmem : (i, NDIRECT) ∈ places sb := mem_places h.lt (by decide)
  have hlast := place_last (view sb s) ht
  have hlne : (view sb s).place (i, NDIRECT) ≠ 0 := by
    rw [hlast]
    exact fun h0 => hne (eq_of_toNat_eq h0)
  have hdata : sb.IsData (((view sb s).node i).addrs (Fin.last NDIRECT)).toNat := by
    rw [← hlast]
    exact hf.owned.data _ hmem hlne
  refine bread_bind ?_
  rw [buf_eq_data hdata]
  refine Sat.bind (freeIndirect_sat h hf (fun j hj => List.mem_range.mp hj)
    (fun j _ => Vol.place_entry ht hne j) List.nodup_range) ?_
  rintro _ t ⟨hht, htt, hdt, hvt, hvtd, hft⟩
  have hdrop : dropEntries i (List.range NINDIRECT) (view sb s).place (i, NDIRECT) =
      (((view sb s).node i).addrs (Fin.last NDIRECT)).toNat := by
    rw [dropEntries, if_neg fun hc => absurd hc.2.1 (by dsimp only; omega), hlast]
  rw [← hdrop]
  refine Sat.bind (bfree_place_sat hht hft hmem rfl (by rwa [hdrop, ← hlast])) ?_
  rintro _ u ⟨hhu, htu, -, hdu, hvu, hfu⟩
  change Emptied sb ip i s (u.setD ip ((u.itable ip).d.setAddr (Fin.last NDIRECT) 0))
  have hview : view sb _ = _ := view_setD hhu.uniq hhu.cached
    ((u.itable ip).d.setAddr (Fin.last NDIRECT) 0)
  rw [hhu.d] at hview ⊢
  have hun : (view sb u).node = (view sb s).node := by rw [hvu]; exact hvt
  refine ⟨hhu.setD _, (htt.trans htu).trans (touched_setD u ip _), hdu.trans hdt, ?_, ?_, ?_⟩
  · rw [hview, ← hvtd, hvu]
    rfl
  · rw [hview, Vol.setNode, hun, Dinode.setAddr_last_zero hz]
  · refine ⟨_, by rw [hview]; exact hfu.setNode _, fun j hj => ?_⟩
    rw [update_apply]
    split
    · rfl
    · rename_i hjn
      rw [dropEntries]
      split
      · rfl
      · rename_i hnot
        obtain ⟨-, hjlt⟩ := mem_places_iff.mp hj
        have hjd : j < NDIRECT := by
          by_contra hge
          have hne' : j ≠ NDIRECT := fun he => hjn (by rw [he])
          exact hnot ⟨rfl, by dsimp only; omega, List.mem_range.mpr (by dsimp only; omega)⟩
        rw [place_direct _ ht (by omega), hz]
        · rfl
        · intro he
          have := congrArg Fin.val he
          rw [Fin.val_ofNat, Nat.mod_eq_of_lt (by omega), Fin.val_last] at this
          omega

theorem freeBlocks_sat (h : Live sb s ip i) :
    Sat (freeBlocks sb ip) s (fun _ t => Emptied sb ip i s t) Mild := by
  refine Sat.bind (freeDirect_sat h.toHeld h.type (h.wf.freeing i) last_notMem_directs) ?_
  intro _ t ht
  obtain ⟨a, ha, haj⟩ := ht.node
  have hti : (view sb t).node i = { (view sb s).node i with addrs := a } := by
    rw [ha, update_self]
  have htype : ((view sb t).node i).type ≠ 0 := by
    rw [hti]
    exact h.type
  have hz : ∀ j, j ≠ Fin.last NDIRECT → ((view sb t).node i).addrs j = 0 := by
    intro j hj
    rw [hti]
    exact (haj j).trans (if_pos (mem_directs hj))
  have hself : ∀ b : Fin (NDIRECT + 1) → BitVec 32,
      update (view sb t).node i { (view sb t).node i with addrs := b } =
        update (view sb s).node i { (view sb s).node i with addrs := b } := by
    intro b
    rw [hti, ha, update_idem]
  refine getInode_bind ?_
  rw [ht.held.d]
  refine doIf_sat (fun hne => ?_) fun hl => ?_
  · refine (freeLast_sat ht.held htype ht.freeing hz hne).post ?_
    intro _ u hu
    exact ⟨hu.held, ht.touched.trans hu.touched, hu.dnode.trans ht.dnode, hu.data.trans ht.data,
      hu.node.trans (hself _), hu.freeing⟩
  · have hzero : ∀ j, ((view sb t).node i).addrs j = 0 := by
      intro j
      rcases eq_or_ne j (Fin.last NDIRECT) with rfl | hj
      · exact not_not.mp hl
      · exact hz j hj
    refine ⟨ht.held, ht.touched, ht.dnode, ht.data, ?_, _, ht.freeing,
      fun j _ => Vol.place_of_addrs_zero hzero j⟩
    have hnz : { (view sb t).node i with addrs := fun _ => 0 } = (view sb t).node i := by
      rw [← show ((view sb t).node i).addrs = fun _ => 0 from funext hzero]
    rw [← hself, hnz, update_eq_self]

theorem itrunc_sat (h : Live sb s ip i) :
    Sat (itrunc sb ip) s (fun _ t => Put sb ip i { (view sb s).file i with bytes := [] } s t ∧
      ((view sb t).node i).size = 0 ∧ ∀ j, ((view sb t).node i).addrs j = 0) Mild := by
  rw [itrunc_eq]
  refine Sat.bind (freeBlocks_sat h) ?_
  intro _ t ht
  obtain ⟨f, hf, hfz⟩ := ht.freeing
  have hti : (view sb t).node i = { (view sb s).node i with addrs := fun _ => 0 } := by
    rw [ht.node, update_self]
  refine modifyDinode_bind ?_
  rw [ht.held.d, hti]
  refine (ht.held.put _).post ?_
  rintro _ u ⟨htu, hhu, hvu, hdu⟩
  have hun : (view sb u).node i =
      { (view sb s).node i with addrs := fun _ => 0, size := 0 } := by
    rw [hvu, Vol.setNode_node_self]
  have htype : ((view sb u).node i).type ≠ 0 := by
    rw [hun]
    exact h.type
  have hwf : Wf sb (view sb u) := by
    refine (show Freeing sb i f (view sb u) from hvu ▸ hf.setNode _).wf hfz
      (fun j => Vol.place_of_addrs_zero (fun j => by rw [hun]) j) fun _ => by rw [hun]
  refine ⟨⟨ht.touched.trans htu, ⟨hhu, hwf, htype⟩, ?_, ?_, ?_⟩, by rw [hun], fun j => by rw [hun]⟩
  · rw [hdu, ht.dnode, hun]
  · rw [Vol.file_of_ne htype, Vol.file_of_ne h.type, hun]
    rfl
  · intro k hk hki
    have hnk : (view sb u).node k = (view sb s).node k := by
      rw [hvu, Vol.setNode_node_of_ne _ _ hki, ht.node, update_of_ne hki]
    have hdata : (view sb u).data = (view sb s).data := by
      rw [hvu]
      exact ht.data
    refine Vol.file_congr hnk fun o _ => ?_
    rw [Vol.byte, Vol.byte, Vol.block, Vol.block, place_congr hnk fun _ _ => by rw [hdata], hdata]

end Xv6.Fs
