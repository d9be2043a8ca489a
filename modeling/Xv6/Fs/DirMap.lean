import Xv6.Lib.Slots
import Xv6.Fs.FileBytes
import Xv6.Fs.FailSpec

/-! A directory is a finite map from names, cut to `DIRSIZ` bytes, to inode numbers. -/
namespace Xv6.Fs
open Bytes Function
open Xv6.Log (BSIZE)

variable {sb : Superblock} {s t u : State} {ip dp : InodePtr} {i d k : ℕ} {H : Multiset InodePtr}
  {name a b : List Byte} {f f' : Node} {de : Dirent}

def Dirent.slot (de : Dirent) : Option (List Byte × ℕ) :=
  if de.inum = 0 then none else some (cutName de.name, de.inum.toNat)

def Node.slots (f : Node) (k : ℕ) : Option (List Byte × ℕ) := (f.ent k).slot

def Node.Distinct (f : Node) : Prop := Slots.Distinct f.nents f.slots

def Node.map (f : Node) : List Byte → Option ℕ := Slots.get f.nents f.slots

theorem Dirent.key_slot : de.slot.map Prod.fst = some a ↔ de.inum ≠ 0 ∧ cutName de.name = a := by
  unfold Dirent.slot
  split
  · rename_i h0
    exact iff_of_false nofun fun h => h.1 h0
  · rename_i h0
    rw [Option.map_some, Option.some.injEq]
    exact ⟨fun h => ⟨h0, h⟩, fun h => h.2⟩

theorem Node.lookup_eq_find (f : Node) (name : List Byte) :
    f.lookup name = Slots.find f.nents f.slots (cutName name) := by
  refine List.find?_congr fun k _ => decide_eq_decide.mpr ?_
  rw [namecmp_eq_zero_iff, Slots.key, Node.slots, Dirent.key_slot, eq_comm (a := cutName name)]

theorem Node.Distinct.eq (h : f.Distinct) {j k : ℕ} (hj : j < f.nents) (hk : k < f.nents)
    (hj0 : (f.ent j).inum ≠ 0) (hk0 : (f.ent k).inum ≠ 0)
    (hn : namecmp (f.ent j).name (f.ent k).name = 0) : j = k := by
  refine h j hj k hk (cutName (f.ent j).name) (Dirent.key_slot.mpr ⟨hj0, rfl⟩)
    (Dirent.key_slot.mpr ⟨hk0, ?_⟩)
  exact (namecmp_eq_zero_iff.mp hn).symm

theorem Node.lookup_congr (h : f'.bytes = f.bytes) : f'.lookup = f.lookup ∧ f'.map = f.map ∧
    (f.Distinct → f'.Distinct) := by
  have hents : f'.nents = f.nents := by rw [Node.nents, h, Node.nents]
  have hent : f'.ent = f.ent := by
    funext k
    rw [Node.ent, h, Node.ent]
  have hslots : f'.slots = f.slots := by
    funext k
    rw [Node.slots, hent, Node.slots]
  refine ⟨?_, by rw [Node.map, hents, hslots, Node.map], fun hd => ?_⟩
  · funext name
    rw [Node.lookup_eq_find, hents, hslots, Node.lookup_eq_find]
  · rw [Node.Distinct, hents, hslots]
    exact hd

theorem Node.map_cutName (f : Node) (name : List Byte) :
    f.map (cutName name) = (f.lookup name).map fun k => (f.ent k).inum.toNat := by
  rw [Node.map, Slots.get, ← Node.lookup_eq_find]
  cases hl : f.lookup name with
  | none => rfl
  | some k =>
    obtain ⟨-, h0, -⟩ := Node.of_lookup_some hl
    rw [Option.bind_some, Option.map_some, Node.slots, Dirent.slot, if_neg h0, Option.map_some]

theorem Node.lookup_eq_none_iff : f.lookup name = none ↔ f.map (cutName name) = none := by
  rw [Node.map_cutName, Option.map_eq_none_iff]

theorem SetEnt.slots (h : SetEnt f k de f') {j : ℕ} (hj : j < f'.nents) (hk : k ≤ f.nents) :
    f'.slots j = update f.slots k de.slot j := by
  rw [h.nents] at hj
  rcases eq_or_ne j k with rfl | hne
  · rw [update_self, Node.slots, h.self]
  · rw [update_of_ne hne, Node.slots, h.other j (by omega) hne, Node.slots]

theorem SetEnt.link (h : SetEnt f k de f') (hd : f.Distinct) (hk : k ≤ f.nents)
    (hfree : k < f.nents → (f.ent k).inum = 0) (hname : f.lookup name = none)
    (hslot : de.slot = some (cutName name, i)) : f'.Distinct ∧
      (∀ b, f'.lookup b = if cutName b = cutName name then some k else f.lookup b) ∧
      f'.map = update f.map (cutName name) (some i) := by
  have hslots : ∀ j < max f.nents (k + 1), f'.slots j =
      update f.slots k (some (cutName name, i)) j := fun j hj => by
    rw [h.slots (by rwa [h.nents]) hk, hslot]
  have hnone : Slots.find f.nents f.slots (cutName name) = none := by
    rw [← Node.lookup_eq_find, hname]
  have hk0 : k < f.nents → f.slots k = none := fun hlt => if_pos (hfree hlt)
  refine ⟨?_, fun b => ?_, funext fun c => ?_⟩
  · rw [Node.Distinct, h.nents]
    exact (hd.set hk hnone).congr hslots
  · rw [Node.lookup_eq_find, h.nents, Slots.find_congr hslots, hd.find_set hk hk0 hnone,
      Node.lookup_eq_find]
  · rw [Node.map, h.nents, Slots.get_congr hslots, hd.get_set hk hk0 hnone, update_apply]
    rfl

theorem SetEnt.unlink (h : SetEnt f k de f') (hd : f.Distinct) (hk : f.lookup name = some k)
    (hzero : de.inum = 0) : f'.Distinct ∧
      (∀ b, f'.lookup b = if cutName b = cutName name then none else f.lookup b) ∧
      f'.map = update f.map (cutName name) none := by
  obtain ⟨hkn, -, -⟩ := Node.of_lookup_some hk
  have hn : f'.nents = f.nents := by
    rw [h.nents]
    omega
  have hslots : ∀ j < f.nents, f'.slots j = update f.slots k none j := fun j hj => by
    rw [h.slots (by rwa [hn]) hkn.le, Dirent.slot, if_pos hzero]
  rw [Node.lookup_eq_find] at hk
  refine ⟨?_, fun b => ?_, funext fun c => ?_⟩
  · rw [Node.Distinct, hn]
    exact hd.clear.congr hslots
  · rw [Node.lookup_eq_find, hn, Slots.find_congr hslots, hd.find_clear hk, Node.lookup_eq_find]
  · rw [Node.map, hn, Slots.get_congr hslots, hd.get_clear hk, update_apply]
    rfl

theorem view_of_cached (hm : t.m = s.m)
    (hc : ∀ jp i, Cached (t.itable jp) i ↔ Cached (s.itable jp) i)
    (hd : ∀ jp i, Cached (s.itable jp) i → (t.itable jp).d = (s.itable jp).d) :
    view sb t = view sb s := by
  have hnode : tableNode t.itable = tableNode s.itable := by
    funext i
    have hfind : ((List.finRange NINODE).find? fun jp => Cached (t.itable jp) i) =
        (List.finRange NINODE).find? fun jp => Cached (s.itable jp) i :=
      List.find?_congr fun jp _ => decide_eq_decide.mpr (hc jp i)
    unfold tableNode
    rw [hfind]
    refine Option.map_congr fun jp hjp => ?_
    exact hd jp i (by simpa using List.find?_some hjp)
  simp only [view, disk, hm, hnode]

structure Took (inum : ℕ) (ip : InodePtr) (s t : State) : Prop where
  names : (t.itable ip).inum = inum
  eq : t = s.setInode ip (t.itable ip)
  entry : (0 < (s.itable ip).ref ∧
      t.itable ip = { s.itable ip with ref := (s.itable ip).ref + 1 }) ∨
    (s.itable ip).ref = 0 ∧ (t.itable ip).ref = 1 ∧ (t.itable ip).valid = false ∧
      ∀ jp, 0 < (s.itable jp).ref → (s.itable jp).inum ≠ inum

def TableFull (s : State) (e : Panic) : Prop :=
  e = .igetNoInodes ∧ ∀ jp, (s.itable jp).ref ≠ 0

theorem iget_took (inum : ℕ) :
    Sat (iget inum) s (fun ip t => Took inum ip s t) (TableFull s) := by
  unfold iget
  refine Sat.get_bind ?_
  split
  · rename_i ip hip
    refine getInode_bind ?_
    rcases findInode_some hip with ⟨hr, hi⟩ | ⟨hr, hnone⟩
    · rw [if_pos hr]
      refine setInode_bind (Sat.pure ⟨?_, ?_, .inl ⟨hr, ?_⟩⟩)
      · rw [setInode_self]
        exact hi
      · rw [setInode_self]
      · rw [setInode_self]
    · rw [if_neg (by omega)]
      refine setInode_bind (Sat.pure ⟨?_, ?_, .inr ⟨hr, ?_, ?_, hnone⟩⟩) <;> rw [setInode_self]
  · rename_i hnone
    refine Sat.throw ⟨rfl, fun jp h0 => ?_⟩
    unfold findInode at hnone
    split at hnone
    · cases hnone
    · have := List.find?_eq_none.mp hnone jp (List.mem_finRange jp)
      simp [h0] at this

namespace Took
variable {inum : ℕ}

theorem of_ne (h : Took inum ip s t) {jp : InodePtr} (hne : jp ≠ ip) :
    t.itable jp = s.itable jp := by
  rw [h.eq, setInode_of_ne _ _ hne]

theorem cached (h : Took inum ip s t) (jp : InodePtr) (i : ℕ) :
    Cached (t.itable jp) i ↔ Cached (s.itable jp) i := by
  rcases eq_or_ne jp ip with rfl | hne
  · rcases h.entry with ⟨hr, he⟩ | ⟨h0, -, hv, -⟩
    · rw [he]
      exact ⟨fun hc => ⟨hr, hc.2⟩, fun hc => ⟨Nat.succ_pos _, hc.2⟩⟩
    · refine iff_of_false (fun hc => ?_) fun hc => ?_
      · exact absurd (hv.symm.trans hc.2.2) Bool.false_ne_true
      · exact absurd hc.1 (by omega)
  · rw [h.of_ne hne]

theorem copy (h : Took inum ip s t) {jp : InodePtr} {i : ℕ} (hc : Cached (s.itable jp) i) :
    (t.itable jp).d = (s.itable jp).d := by
  rcases eq_or_ne jp ip with rfl | hne
  · rcases h.entry with ⟨-, he⟩ | ⟨h0, -⟩
    · rw [he]
    · exact absurd hc.1 (by omega)
  · rw [h.of_ne hne]

theorem m (h : Took inum ip s t) : t.m = s.m := by
  rw [h.eq]
  rfl

theorem view (h : Took inum ip s t) : view sb t = Fs.view sb s :=
  view_of_cached h.m h.cached fun _ _ hc => h.copy hc

end Took

structure Restored (s t : State) : Prop where
  rest : t = { s with itable := t.itable }
  used : ∀ jp, 0 < (s.itable jp).ref → t.itable jp = s.itable jp
  unused : ∀ jp, (s.itable jp).ref = 0 → (t.itable jp).ref = 0

namespace Restored

theorem cached (h : Restored s t) (jp : InodePtr) (i : ℕ) :
    Cached (t.itable jp) i ↔ Cached (s.itable jp) i := by
  rcases Nat.eq_zero_or_pos (s.itable jp).ref with h0 | hr
  · have := h.unused jp h0
    exact iff_of_false (fun hc => absurd hc.1 (by omega)) fun hc => absurd hc.1 (by omega)
  · rw [h.used jp hr]

theorem view (h : Restored s t) : view sb t = Fs.view sb s :=
  view_of_cached (by rw [h.rest]) h.cached fun jp _ hc => by rw [h.used jp hc.1]

end Restored

theorem iput_took {inum : ℕ} {E : Panic → Prop} (h : Took inum ip s t) :
    Sat (iput sb ip) t (fun _ u => Restored s u) E := by
  have hlast : ¬ Last (t.itable ip) := by
    rintro ⟨h1, h2, -⟩
    rcases h.entry with ⟨hr, he⟩ | ⟨-, -, hv, -⟩
    · rw [he] at h1
      dsimp only at h1
      omega
    · rw [hv] at h2
      cases h2
  unfold iput
  refine getInode_bind (Sat.bind (R := fun _ u => u = t) (doIf_sat (fun hl => absurd hl hlast)
    fun _ => rfl) ?_)
  rintro _ u rfl
  refine getInode_bind (setInode_sat ⟨?_, fun jp hj => ?_, fun jp h0 => ?_⟩)
  · rw [h.eq]
    rfl
  · rcases eq_or_ne jp ip with rfl | hne
    · rw [setInode_self]
      rcases h.entry with ⟨-, he⟩ | ⟨h0, -⟩
      · rw [he]
        rfl
      · omega
    · rw [setInode_of_ne _ _ hne, h.of_ne hne]
  · rcases eq_or_ne jp ip with rfl | hne
    · rw [setInode_self]
      rcases h.entry with ⟨hr, -⟩ | ⟨-, h1, -⟩
      · omega
      · dsimp only
        omega
    · rwa [setInode_of_ne _ _ hne, h.of_ne hne]

/-- A directory: its file consists of whole entries. -/
structure IsDir (f : Node) : Prop where
  type : f.type = T_DIR
  aligned : direntSize ∣ f.bytes.length

theorem IsDir.nents_mul (h : IsDir f) : f.nents * direntSize = f.bytes.length :=
  Nat.div_mul_cancel h.aligned

theorem dirlookup_live (h : Live sb s dp d) (hd : IsDir ((view sb s).file d)) (name : List Byte) :
    Sat (dirlookup sb dp name) s (fun r t => match r with
      | none => t = s ∧ ((view sb s).file d).lookup name = none
      | some (ip, off) => ∃ k, ((view sb s).file d).lookup name = some k ∧ off = k * direntSize ∧
          Took (((view sb s).file d).ent k).inum.toNat ip s t) (TableFull s) := by
  refine dirlookup_rule h (fun hne => absurd hd.type hne) (fun hne => absurd hd.aligned hne)
    (fun _ hnone => ⟨rfl, hnone⟩) fun _ k hk => ?_
  exact (iget_took _).post fun ip u hu => ⟨k, hk, rfl, hu⟩

theorem findSlot_live {E : Panic → Prop} (h : Live sb s dp d) (hd : IsDir ((view sb s).file d)) :
    Sat (findSlot sb dp (((view sb s).file d).nents + 1) 0) s (fun off t => t = s ∧
      ∃ k, off = k * direntSize ∧ FreeSlot ((view sb s).file d) k) E := by
  have hslot := findSlot_rule (E := E) (k := 0) (n := ((view sb s).file d).nents + 1) h
    (fun hne => absurd hd.aligned hne) (Nat.zero_le _) (by omega) nofun
  rw [Nat.zero_mul] at hslot
  refine hslot.post ?_
  rintro off t ⟨ht, k, hk, hfree, -⟩
  exact ⟨ht, k, hk, hfree⟩

theorem writeDe_room (h : Live sb s dp d) {de : Dirent}
    (hk : k * direntSize ≤ ((view sb s).file d).bytes.length) :
    Sat (writeDe sb dp (k * direntSize) de) s (fun r _ =>
      r = -1 → MAXFILE * BSIZE < k * direntSize + direntSize) OutOfRoom := by
  have hmax := h.length_le
  have hoff := ofNat_offset (k := k) (by omega)
  have hn : (BitVec.ofNat 32 direntSize).toNat = 16 := rfl
  have hsize : (s.itable dp).d.size.toNat ≤ MAXFILE * BSIZE := by rwa [← h.length_bytes]
  by_cases hbig : MAXFILE * BSIZE < k * direntSize + direntSize
  · exact (Roomy.writei sb dp _ _ _ s).post fun _ _ _ _ => hbig
  · refine ((writei_accepts _ _ _ ?_).beside (Roomy.writei sb dp _ _ _ s)).post fun _ _ hr hneg => absurd hneg hr.1
    rw [refuses_iff hsize, hoff, hn, ← h.length_bytes]
    simp only [MAXFILE, NDIRECT, NINDIRECT, BSIZE, direntSize, DIRSIZ] at hbig hmax hk ⊢
    omega

def LinkErr (s : State) (f : Node) (e : Panic) : Prop :=
  OutOfRoom e ∨ TableFull s e ∨ e = .dirlink ∧ FreeSlot f f.nents ∧
    MAXFILE * BSIZE < f.bytes.length + direntSize

theorem newEnt_slot (hi : 0 < i) (hlt : i < 2 ^ 16) :
    (newEnt name i).slot = some (cutName name, i) := by
  have hinum : (BitVec.ofNat 16 i).toNat = i := by
    rw [BitVec.toNat_ofNat, Nat.mod_eq_of_lt hlt]
  have hne : BitVec.ofNat 16 i ≠ 0 := by
    intro h0
    rw [h0] at hinum
    exact absurd hinum (by simp; omega)
  rw [Dirent.slot, newEnt, if_neg hne, hinum]
  exact congrArg (fun c => some (c, i)) (cutTo_strncpy DIRSIZ name)

theorem dirlink_live (h : Live sb s dp d) (hd : IsDir ((view sb s).file d)) (name : List Byte)
    (i : ℕ) :
    Sat (dirlink sb dp name i) s (fun r t =>
      (((view sb s).file d).lookup name ≠ none ∧ r = false ∧ Restored s t) ∨
      ((view sb s).file d).lookup name = none ∧ r = true ∧ ∃ k f,
        FreeSlot ((view sb s).file d) k ∧ SetEnt ((view sb s).file d) k (newEnt name i) f ∧
        f.bytes.length = max ((view sb s).file d).bytes.length (k * direntSize + direntSize) ∧
        Put sb dp d f s t) (LinkErr s ((view sb s).file d)) := by
  unfold dirlink
  refine Sat.bind ((dirlookup_live h hd name).weaken fun _ he => .inr (.inl he)) ?_
  intro r t hr
  split
  · rename_i ip off
    obtain ⟨k, hk, -, ht⟩ := hr
    refine Sat.bind (iput_took ht) fun _ u hu => Sat.pure (.inl ⟨?_, rfl, hu⟩)
    rw [hk]
    exact nofun
  · obtain ⟨rfl, hnone⟩ := hr
    refine getInode_bind ?_
    rw [← h.length_bytes]
    refine Sat.bind (findSlot_live h hd) ?_
    rintro off u ⟨rfl, k, rfl, hslot⟩
    have hle : k * direntSize ≤ ((view sb u).file d).bytes.length := by
      rw [← hd.nents_mul]
      exact Nat.mul_le_mul_right _ hslot.le
    have hat : k < ((view sb u).file d).nents ∨
        k * direntSize = ((view sb u).file d).bytes.length := by
      rcases hslot.le.lt_or_eq with hlt | rfl
      · exact .inl hlt
      · exact .inr hd.nents_mul
    refine Sat.bind (((writeDe_live h (length_strncpy _ _) hat).beside
      (writeDe_room h hle)).weaken fun _ he => .inl he) ?_
    rintro r v ⟨⟨rfl, rfl⟩ | ⟨rfl, f, hset, hlen, hput⟩, hroom⟩
    · refine Sat.ite (fun _ => Sat.throw (.inr (.inr ?_))) fun hne => absurd (by decide) hne
      have hbig := hroom rfl
      have hmax := h.length_le
      obtain rfl : k = ((view sb v).file d).nents := by
        rcases hat with hlt | hend
        · have := lt_nents.mp hlt
          omega
        · exact hslot.le.antisymm (by rw [Node.nents, ← hend, Nat.mul_div_cancel _ (by decide)])
      exact ⟨rfl, hslot, by rwa [hd.nents_mul] at hbig⟩
    · exact Sat.ite (fun hne => absurd rfl hne) fun _ => Sat.pure (.inr ⟨hnone, rfl, k, f, hslot,
        hset, hlen, hput⟩)

def KeepsDir (d : ℕ) (F G : ℕ → Node) : Prop :=
  (G d).type = T_DIR → (F d).type = T_DIR ∧ (G d).bytes = (F d).bytes

theorem KeepsDir.trans {F G K : ℕ → Node} (h : KeepsDir d F G) (h' : KeepsDir d G K) :
    KeepsDir d F K := fun hk =>
  have hg := h' hk
  have hf := h hg.1
  ⟨hf.1, hg.2.trans hf.2⟩

theorem keepsDir_nlink (F : ℕ → Node) (n : BitVec 16) :
    KeepsDir d F (update F i { F i with nlink := n }) := by
  intro hd
  rcases eq_or_ne d i with rfl | hne
  · rw [update_self] at hd ⊢
    exact ⟨hd, rfl⟩
  · rw [update_of_ne hne] at hd ⊢
    exact ⟨hd, rfl⟩

theorem keepsDir_dropped (F : ℕ → Node) (e : Inode) : KeepsDir d F (dropped F e) := by
  intro hd
  unfold dropped at hd ⊢
  split at hd
  · rename_i hlast
    rw [if_pos hlast]
    rcases eq_or_ne d e.inum with rfl | hne
    · rw [update_self] at hd
      exact absurd hd (by decide)
    · rw [update_of_ne hne] at hd ⊢
      exact ⟨hd, rfl⟩
  · rename_i hlast
    rw [if_neg hlast]
    exact ⟨hd, rfl⟩

/-- The entry of `name` in the directory `d` was removed. -/
def Removed (F G : ℕ → Node) (d : ℕ) (name : List Byte) : Prop :=
  (G d).type = T_DIR → ∃ k f, (F d).lookup name = some k ∧ SetEnt (F d) k emptyEnt f ∧
    f.bytes.length = (F d).bytes.length ∧ (G d).bytes = f.bytes

theorem unlinkTx_entry {p : Fin NPROC} {x : Proc} {path : List Byte} (h : Inv sb H s)
    (hst : Steady sb H s) (hx : s.procs p = some x) (hcwd : x.cwd ∈ H)
    (hres : resolve (files sb s) (s.itable x.cwd).inum path true = some (d, name)) :
    Sat (unlinkTx sb p path) s (fun r t => r = 0 → Inv sb H t ∧
      Removed (files sb s) (files sb t) d name) fun _ => True := by
  unfold unlinkTx nameiparent
  refine myproc_bind hx (Sat.bind (namex_idle h hst (h.ref_of_mem hcwd)) ?_)
  rintro r u ⟨hu, hwalk⟩
  rw [hres] at hwalk
  have hbad : ∀ {v : State} {dp : InodePtr}, Sat (unlinkBad sb dp) v (fun r t => r = 0 →
      Inv sb H t ∧ Removed (files sb s) (files sb t) d name) fun _ => True := fun {_ _} =>
    Sat.skip fun _ _ => Sat.pure nofun
  cases r with
  | none => cases hwalk
  | some y =>
    obtain ⟨dp, nm⟩ := y
    obtain ⟨hnum, rfl⟩ := Prod.mk.inj (Option.some.inj hwalk)
    have hu' : Idle sb H (dp ::ₘ H) s u := hu
    have hmem := Multiset.mem_cons_self dp H
    have hle := Multiset.le_cons_self H dp
    refine Sat.bind (ilock_idle hu'.inv hu'.inv.ref_pos) ?_
    rintro _ v ⟨hv, hcv⟩
    have hcd : Cached (v.itable dp) d := hnum ▸ hcv
    have hsv : Idle sb H (dp ::ₘ H) s v := hu'.trans (hv.mono hle)
    refine Sat.ite (fun _ => hbad) fun _ => ?_
    refine Sat.bind (dirlookup_idle nm hv.inv hcd) ?_
    rintro r w ⟨⟨-, hw⟩, hm⟩
    split
    · exact hbad
    · rename_i ip off
      obtain ⟨k, hk, rfl, hw, -, -⟩ := hw
      rw [hsv.files] at hk
      have hlei := Multiset.le_cons_self (dp ::ₘ H) ip
      have hdmem : dp ∈ ip ::ₘ dp ::ₘ H := Multiset.mem_cons_of_mem hmem
      have himem := Multiset.mem_cons_self ip (dp ::ₘ H)
      refine Sat.bind (ilock_idle hw.inv hw.inv.ref_pos) ?_
      rintro _ y ⟨hy, hcy⟩
      have hvw : Idle sb (dp ::ₘ H) (ip ::ₘ dp ::ₘ H) v w := .of_step hw hm
      have hsy : Idle sb H (ip ::ₘ dp ::ₘ H) s y :=
        hsv.trans ((hvw.trans (hy.mono hlei)).mono hle)
      have hcdy := hy.cached hdmem hdmem (hvw.cached hmem hdmem hcd)
      refine getInode_bind (Sat.ite (fun _ => Sat.throw trivial) fun _ => ?_)
      refine Sat.bind ((inUse_sat hy.inv hcy).weaken fun _ _ => trivial) ?_
      rintro used z ⟨rfl, -⟩
      refine Sat.ite (fun _ => Sat.skip fun _ _ => hbad) fun _ => ?_
      have hkn : k < (files sb z d).nents := by
        rw [hsy.files]
        exact (Node.of_lookup_some hk).1
      refine removeEntry_sat hy.inv hdmem hcdy hkn (fun _ _ => trivial) fun a f hset hlen ha => ?_
      rw [hsy.files] at hset hlen ha
      have hinv : Inv sb (dp ::ₘ ip ::ₘ H) a := by
        rw [Multiset.cons_swap]
        exact ha.inv
      -- the rest of the call works on link counts
      refine Sat.bind ((iunlockput_sat hinv).weaken fun _ _ => trivial) ?_
      intro _ b hb
      have hcb := hb.cached (Multiset.mem_cons_self ip H) (Multiset.mem_cons_self ip H)
        (ha.cached himem himem hcy)
      rw [← bind_assoc]
      refine Sat.bind ((setNlink_sat (g := fun n => n - 1) hb.inv hcb).weaken fun _ _ => trivial) ?_
      intro _ c hc
      refine Sat.bind ((iunlockput_sat hc.inv).weaken fun _ _ => trivial) ?_
      intro _ e he
      refine Sat.pure fun _ => ⟨he.inv, fun hdir => ⟨k, f, hk, hset, hlen, ?_⟩⟩
      have hkeep : KeepsDir d (files sb a) (files sb e) := by
        rw [he.files]
        refine KeepsDir.trans ?_ (keepsDir_dropped _ _)
        rw [hc.files]
        refine KeepsDir.trans ?_ (keepsDir_nlink _ _)
        rw [hb.files]
        exact keepsDir_dropped _ _
      rw [(hkeep hdir).2, ha.files, update_self]
      split <;> rfl

theorem sysUnlink_entry {p : Fin NPROC} {x : Proc} {path : List Byte} (h : Inv sb H s)
    (hst : Steady sb H s) (hx : s.procs p = some x) (hcwd : x.cwd ∈ H)
    (hres : resolve (files sb s) (s.itable x.cwd).inum path true = some (d, name)) :
    Sat (sysUnlink sb p (some path)) s (fun r t => r = 0 → Inv sb H t ∧
      Removed (files sb s) (files sb t) d name) fun _ => True := by
  unfold sysUnlink transaction
  refine Sat.bind (beginOp_idle h) ?_
  rintro _ t ⟨ht, hit⟩
  refine Sat.bind (unlinkTx_entry ht.inv (ht.steady hst) (by rw [ht.frame.procs]; exact hx) hcwd
    (by rw [ht.files, hit]; exact hres)) fun r u hu => ?_
  rw [ht.files] at hu
  by_cases hr : r = 0
  · refine Sat.bind ((endOp_sat (hu hr).1).weaken fun _ _ => trivial) ?_
    rintro _ v ⟨-, hv⟩
    exact Sat.pure fun _ => ⟨hv.inv, by rw [hv.files]; exact (hu hr).2⟩
  · exact Sat.skip fun _ _ => Sat.pure fun h0 => absurd h0 hr

/-- The inode `d` is a directory that was reached by `dirlink` and `sys_unlink` from one with distinct
names, such as an empty one; `m` says which names were linked and not removed, and to which inode
numbers. Between these calls anything may happen that leaves its contents alone. The step `unlink` is
what `sys_unlink` does to the directory: it looks up the name, and writes zeros over its entry. -/
inductive Built (sb : Superblock) (d : ℕ) : State → (List Byte → Option ℕ) → Prop
  | start {s : State} (hdir : IsDir ((view sb s).file d)) (hn : ((view sb s).file d).Distinct) :
    Built sb d s ((view sb s).file d).map
  | link {s t : State} {m : List Byte → Option ℕ} {dp : InodePtr} {name : List Byte} {i : ℕ}
    {r : Bool} (h : Built sb d s m) (hl : Live sb s dp d) (hi : 0 < i) (hlt : i < 2 ^ 16)
    (hrun : dirlink sb dp name i s = .ok (r, t)) :
    Built sb d t (if r then update m (cutName name) (some i) else m)
  | unlink {s t t' u : State} {m : List Byte → Option ℕ} {dp ip : InodePtr} {name : List Byte}
    {off : ℕ} (h : Built sb d s m) (hl : Live sb s dp d)
    (hfound : dirlookup sb dp name s = .ok (some (ip, off), t)) (hl' : Live sb t' dp d)
    (htype : ((view sb t').file d).type = ((view sb t).file d).type)
    (hbytes : ((view sb t').file d).bytes = ((view sb t).file d).bytes)
    (hrun : writeDe sb dp off { inum := 0, name := List.replicate DIRSIZ 0 } t' =
      .ok (direntSize, u)) :
    Built sb d u (update m (cutName name) none)
  | sysUnlink {s t : State} {m : List Byte → Option ℕ} {H : Multiset InodePtr} {p : Fin NPROC}
    {x : Proc} {path name : List Byte} (h : Built sb d s m) (hinv : Inv sb H s)
    (hst : Steady sb H s) (hx : s.procs p = some x) (hcwd : x.cwd ∈ H)
    (hres : resolve (files sb s) (s.itable x.cwd).inum path true = some (d, name))
    (hrun : sysUnlink sb p (some path) s = .ok (0, t)) (htype : (files sb t d).type = T_DIR) :
    Built sb d t (update m (cutName name) none)
  | other {s t : State} {m : List Byte → Option ℕ} (h : Built sb d s m)
    (htype : ((view sb t).file d).type = ((view sb s).file d).type)
    (hbytes : ((view sb t).file d).bytes = ((view sb s).file d).bytes) : Built sb d t m

structure StandsFor (f : Node) (m : List Byte → Option ℕ) : Prop extends IsDir f where
  distinct : f.Distinct
  map : f.map = m

variable {m : List Byte → Option ℕ}

theorem StandsFor.congr (h : StandsFor f m) (htype : f'.type = f.type)
    (hbytes : f'.bytes = f.bytes) : StandsFor f' m := by
  obtain ⟨-, hmap, hdist⟩ := Node.lookup_congr hbytes
  exact ⟨⟨htype.trans h.type, by rw [hbytes]; exact h.aligned⟩, hdist h.distinct, hmap.trans h.map⟩

theorem StandsFor.link (h : StandsFor f m) (hslot : FreeSlot f k)
    (hset : SetEnt f k (newEnt name i) f') (hi : 0 < i) (hlt : i < 2 ^ 16)
    (hlen : f'.bytes.length = max f.bytes.length (k * direntSize + direntSize))
    (hname : f.lookup name = none) :
    StandsFor f' (update m (cutName name) (some i)) := by
  obtain ⟨hdist, -, hmap⟩ := hset.link h.distinct hslot.le hslot.free hname (newEnt_slot hi hlt)
  refine ⟨⟨?_, ?_⟩, hdist, by rw [hmap, h.map]⟩
  · obtain ⟨bs, rfl⟩ := hset.fields
    exact h.type
  · rw [hlen]
    rcases Nat.le_total f.bytes.length (k * direntSize + direntSize) with hle | hle
    · rw [max_eq_right hle]
      exact Nat.dvd_add (Nat.dvd_mul_left _ _) (Nat.dvd_refl _)
    · rw [max_eq_left hle]
      exact h.aligned

theorem StandsFor.unlink (h : StandsFor f m)
    (hset : SetEnt f k emptyEnt f') (hlen : f'.bytes.length = f.bytes.length)
    (hname : f.lookup name = some k) :
    StandsFor f' (update m (cutName name) none) := by
  obtain ⟨hdist, -, hmap⟩ := hset.unlink h.distinct hname rfl
  refine ⟨⟨?_, by rw [hlen]; exact h.aligned⟩, hdist, by rw [hmap, h.map]⟩
  obtain ⟨bs, rfl⟩ := hset.fields
  exact h.type

/-- The invariant of the directories that are reached, by induction on the steps. -/
theorem Built.standsFor (h : Built sb d s m) : StandsFor ((view sb s).file d) m := by
  induction h with
  | start hdir hn => exact ⟨hdir, hn, rfl⟩
  | @link s t m dp name i r _ hl hi hlt hrun ih =>
    rcases (dirlink_live hl ih.toIsDir name i).ok hrun with
      ⟨-, rfl, ht⟩ | ⟨hnone, rfl, k, f, hslot, hset, hlen, hput⟩
    · rw [ht.view]
      exact ih
    · rw [hput.self]
      exact ih.link hslot hset hi hlt hlen hnone
  | @unlink s t t' u m dp ip name off _ hl hfound hl' htype hbytes hrun ih =>
    obtain ⟨k, hk, rfl, ht⟩ := (dirlookup_live hl ih.toIsDir name).ok hfound
    rw [ht.view] at htype hbytes
    have ih' := ih.congr htype hbytes
    rw [← (Node.lookup_congr hbytes).1] at hk
    have hkn := (Node.of_lookup_some hk).1
    rcases (writeDe_live hl' List.length_replicate (.inl hkn)).ok hrun with
      ⟨hneg, -⟩ | ⟨-, f, hset, hlen, hput⟩
    · exact absurd hneg (by decide)
    · rw [max_eq_left (lt_nents.mp hkn)] at hlen
      rw [hput.self]
      exact ih'.unlink hset hlen hk
  | @sysUnlink s t m H p x path name _ hinv hst hx hcwd hres hrun htype ih =>
    obtain ⟨hinv', hentry⟩ := (sysUnlink_entry hinv hst hx hcwd hres).ok hrun rfl
    obtain ⟨k, f, hk, hset, hlen, hbytes⟩ := hentry htype
    rw [hinv.view_file] at ih
    rw [hinv'.view_file]
    have hf := ih.unlink hset hlen hk
    exact hf.congr (htype.trans hf.type.symm) hbytes
  | other _ htype hbytes ih => exact ih.congr htype hbytes

/-- A directory as a finite map from names to inode numbers. `lookup`: `dirlookup` finds what the map
has under a name, and where. `link`: `dirlink` refuses a name that is there, and otherwise adds it and
changes nothing else, in the first free entry or in a new one at the end. -/
structure FiniteMap (sb : Superblock) (d : ℕ) (s : State) (m : List Byte → Option ℕ) : Prop where
  distinct : ∀ j < ((view sb s).file d).nents, ∀ k < ((view sb s).file d).nents,
    (((view sb s).file d).ent j).inum ≠ 0 → (((view sb s).file d).ent k).inum ≠ 0 →
    namecmp (((view sb s).file d).ent j).name (((view sb s).file d).ent k).name = 0 → j = k
  lookup : ∀ dp name, Live sb s dp d → Sat (dirlookup sb dp name) s (fun r t =>
    view sb t = view sb s ∧ match r with
      | none => m (cutName name) = none
      | some (ip, off) => m (cutName name) = some (t.itable ip).inum ∧
          ∃ k < ((view sb s).file d).nents, off = k * direntSize ∧
            (((view sb s).file d).ent k).inum.toNat = (t.itable ip).inum ∧
            namecmp name (((view sb s).file d).ent k).name = 0) (TableFull s)
  link : ∀ dp name i, Live sb s dp d → 0 < i → i < 2 ^ 16 → Sat (dirlink sb dp name i) s (fun r t =>
    if m (cutName name) ≠ none then r = false ∧ Restored s t
    else r = true ∧ Live sb t dp d ∧ ∃ k, FreeSlot ((view sb s).file d) k ∧
      ((view sb t).file d).map = update m (cutName name) (some i) ∧
      (∀ b, ((view sb t).file d).lookup b = if cutName b = cutName name then some k
        else ((view sb s).file d).lookup b) ∧
      (∀ j < ((view sb s).file d).nents, j ≠ k →
        ((view sb t).file d).ent j = ((view sb s).file d).ent j) ∧
      ((view sb t).file d).bytes.length = ((view sb s).file d).bytes.length +
        if k < ((view sb s).file d).nents then 0 else direntSize)
    (LinkErr s ((view sb s).file d))

theorem smallFile_distinct : (smallFile 2).Distinct := by
  have hkeys : ∀ j < (smallFile 2).nents, ∀ k < (smallFile 2).nents,
      Slots.key (smallFile 2).slots j = Slots.key (smallFile 2).slots k → j = k := by decide
  exact fun j hj k hk a hja hka => hkeys j hj k hk (hja.trans hka.symm)

end Xv6.Fs
