import Xv6.Fs.Ownership
import Xv6.Fs.Tree

/-! Link counts and dangling entries over whole runs of calls. -/
namespace Xv6.Fs
open Bytes Count PartialRun Function Option BitVec
open Xv6.Log (Block)

variable {sb : Superblock} {strict : Prop} {F : ℕ → Node} {s t : State} {disk₀ : ℕ → Block}
  {d i k : ℕ} {c : Fin NPROC × Call} {cs : List (Fin NPROC × Call)}

/-- A consistent image: the blocks are accounted for, the directories are a tree with the right link
counts, and every inode is linked. -/
structure ConsistentTree (sb : Superblock) (disk₀ : ℕ → Block) : Prop
    extends Consistent sb disk₀ where
  tree : Tree sb False (diskVol sb disk₀).file
  linked : ∀ i, ((diskVol sb disk₀).file i).type ≠ 0 → ((diskVol sb disk₀).file i).nlink ≠ 0

theorem Tree.of_linked (h : Tree sb False F) (hl : ∀ i, (F i).type ≠ 0 → (F i).nlink ≠ 0) :
    Tree sb strict F := by
  have hlive : ∀ {e}, (F e).type = T_DIR → (F e).nlink ≠ 0 := fun he => hl _ (by rw [he]; decide)
  exact ⟨h.toShape, h.bounded, h.blank, h.dots, h.small, h.le, fun i hi _ => h.ge i hi (.inl id),
    fun c hc _ => h.above c hc (.inr (hlive hc)), fun _ e he hn => absurd hn (hlive he),
    fun _ e he hn => absurd hn (hlive he)⟩

theorem Tree.noSelf (h : Tree sb strict F) : NoSelf F := by
  intro e nm k he hdot hdotdot hk heq
  obtain ⟨-, hslot⟩ := Tree.slot_lookup (h.dots e he) he hk hdot hdotdot
  rw [heq] at hslot
  exact h.ne_of_slot (d := e) (k := k) (by rw [hslot]; exact he) hslot

structure Good (sb : Superblock) (strict : Prop) (s : State) : Prop where
  inv : Inv sb (cwds s) s
  steady : Steady sb (cwds s) s
  tree : Tree sb strict (files sb s)
  cwd : ∀ jp ∈ cwds s, (s.itable jp).valid = true ∨ (s.itable jp).inum = ROOTINO

/-- The condition on a call, in the state before it. -/
def Mindful (sb : Superblock) (strict : Prop) (s : State) (c : Fin NPROC × Call) : Prop :=
  ∀ x, s.procs c.1 = some x → Allowed strict (files sb s) (s.itable x.cwd).inum c.2

theorem good_boot (h : ConsistentTree sb disk₀) : Good sb strict (boot disk₀) := by
  have hfiles : files sb (boot disk₀) = (diskVol sb disk₀).file := rfl
  refine ⟨boot_inv h.toConsistent, fun i ht hn => absurd hn (h.linked i ht), ?_, ?_⟩
  · rw [hfiles]
    exact h.tree.of_linked h.linked
  · rw [cwds_boot]
    intro jp hj
    rw [Multiset.mem_singleton.mp hj]
    exact .inr rfl

theorem good_step (h : Good sb strict s) (hc : Mindful sb strict s c)
    (hs : step sb s c = some t) : Good sb strict t := by
  obtain ⟨x, hx, hret⟩ := step_returns strict h.inv hs
  obtain ⟨hst, hch⟩ := hret.steady h.steady ⟨h.tree.noSelf, hc x hx⟩
  refine ⟨hret.inv, hst, h.tree.changes hch, fun jp hj => ?_⟩
  rcases hret.entered jp hj with hv | ⟨hjs, hnum, hkeep⟩
  · exact .inl hv
  · exact (h.cwd jp hjs).imp hkeep hnum.trans

theorem run_good (h : ConsistentTree sb disk₀) (hr : run (step sb) (boot disk₀) cs = some s)
    (hc : Along (step sb) (Mindful sb strict) (boot disk₀) cs) : Good sb strict s :=
  run_invariant (good_boot h) (fun _ _ _ => good_step) hc hr

inductive InTree (F : ℕ → Node) : ℕ → Prop
  | root : InTree F ROOTINO
  | entry {d k : ℕ} (hd : InTree F d) (ht : (F d).type = T_DIR) (hk : k < (F d).nents)
    (hne : ((F d).ent k).inum ≠ 0) (hdot : namecmp dot ((F d).ent k).name ≠ 0)
    (hdotdot : namecmp dotdot ((F d).ent k).name ≠ 0) : InTree F ((F d).ent k).inum.toNat

def named (F : ℕ → Node) (i : ℕ) : Set (ℕ × ℕ) :=
  {p | InTree F p.1 ∧ (F p.1).type = T_DIR ∧ p.2 < (F p.1).nents ∧
    ((F p.1).ent p.2).inum.toNat = i ∧ namecmp dot ((F p.1).ent p.2).name ≠ 0}

/-- Link counts are right, and an inode that no entry names is in use or free. -/
structure LinkCounts (sb : Superblock) (s : State) : Prop where
  finite : ∀ i, (files sb s i).type ≠ 0 → (named (files sb s) i).Finite
  count : ∀ i, (files sb s i).type ≠ 0 → 0 ≤ (files sb s i).nlink.toInt ∧
    (files sb s i).nlink.toInt = (named (files sb s) i).ncard
  freed : ∀ i, (files sb s i).type ≠ 0 → named (files sb s) i = ∅ → HeldBy (cwds s) s i

theorem Dots.two_le_of_name {n : Node} (h : Dots d n) (hdot : namecmp Fs.dot (n.ent k).name ≠ 0)
    (hdotdot : namecmp Fs.dotdot (n.ent k).name ≠ 0) : 2 ≤ k := by
  by_contra hlt
  obtain rfl | rfl : k = 0 ∨ k = 1 := by omega
  · exact hdot h.dot
  · exact hdotdot h.dotdot

namespace Tree

theorem nlink_of_inTree (h : Tree sb strict F) (ht : InTree F d) (hd : (F d).type = T_DIR) :
    (F d).nlink ≠ 0 := by
  have hup : up F d ≠ 0 := by
    cases ht with
    | root =>
      rw [h.root]
      decide
    | @entry e k _ he hk hne hdot hdotdot =>
      have htwo := (h.dots e he).two_le_of_name hdot hdotdot
      have hslot : slot F (e, k) = ((F e).ent k).inum.toNat := if_pos ⟨he, htwo, hk⟩
      rw [← hslot] at hd ⊢
      rw [(h.owner (e, k) hd).1]
      exact Nat.ne_of_gt (h.pos_of_dir he)
  exact (Node.up_ne_zero hup).2.1

/-- A directory with links is below the root, by induction on its depth. -/
theorem inTree_of_nlink (h : Tree sb strict F) (hd : (F d).type = T_DIR) (hn : (F d).nlink ≠ 0) :
    InTree F d := by
  obtain ⟨rank, hrank⟩ := h.rank
  induction hr : rank d using Nat.strong_induction_on generalizing d with
  | _ r ih =>
    by_cases hroot : d = ROOTINO
    · rw [hroot]
      exact .root
    have hup : up F d ≠ 0 := by
      have hud : up F d = (F d).parent := if_pos ⟨hd, hn⟩
      rw [hud]
      exact Nat.ne_of_gt (h.pos_of_dir (h.above d hd (.inr hn)))
    obtain ⟨k, hk⟩ := h.entry d hup hroot
    obtain ⟨hpd, hpn⟩ := h.linked_of_slot (d := up F d) (k := k) (by rw [hk]; exact hd)
    have hin := ih (rank (up F d)) (hr ▸ hrank d hup hroot) hpd hpn rfl
    have hne : (F (up F d)).slot k ≠ 0 := by
      rw [show (F (up F d)).slot k = d from hk]
      exact Nat.ne_of_gt (h.pos_of_dir hd)
    obtain ⟨-, htwo, hlt, hslot⟩ := Node.slot_ne_zero hne
    have hinum : ((F (up F d)).ent k).inum ≠ 0 := by
      intro h0
      rw [h0] at hslot
      exact hne hslot
    obtain ⟨hdot, hdotdot⟩ := (h.dots _ hpd).rest k htwo hlt hinum
    have hentry := InTree.entry hin hpd hlt hinum hdot hdotdot
    rwa [← hslot, show (F (up F d)).slot k = d from hk] at hentry

theorem named_eq (h : Tree sb False F) (hi : 0 < i) :
    named F i = fiber (slot F) i ∪ (fun e => (e, 1)) '' fiber (up F) i := by
  ext ⟨e, k⟩
  constructor
  · rintro ⟨hin, he, hk, hnum, hdot⟩
    have hdots := h.dots e he
    rcases Nat.lt_or_ge k 2 with hlt | hge
    · obtain rfl | rfl : k = 0 ∨ k = 1 := by omega
      · exact absurd hdots.dot hdot
      · exact .inr ⟨e, (if_pos ⟨he, h.nlink_of_inTree hin he⟩ : up F e = _).trans hnum, rfl⟩
    · exact .inl ((if_pos ⟨he, hge, hk⟩ : slot F (e, k) = _).trans hnum)
  · rintro (hp | ⟨e', he', heq⟩)
    · have hp' : slot F (e, k) = i := hp
      have hne : (F e).slot k ≠ 0 := by
        rw [show (F e).slot k = i from hp']
        exact Nat.ne_of_gt hi
      obtain ⟨he, htwo, hlt, hslot⟩ := Node.slot_ne_zero hne
      have hlive : (F e).nlink ≠ 0 := fun hn => hne (h.empty id e he hn k)
      have hinum : ((F e).ent k).inum ≠ 0 := by
        intro h0
        rw [h0] at hslot
        exact hne hslot
      exact ⟨h.inTree_of_nlink he hlive, he, hlt, hslot.symm.trans hp',
        ((h.dots e he).rest k htwo hlt hinum).1⟩
    · obtain ⟨rfl, rfl⟩ := Prod.mk.inj heq
      have hne : (F e').up ≠ 0 := by
        rw [show (F e').up = i from he']
        exact Nat.ne_of_gt hi
      obtain ⟨he, hlive, hup⟩ := Node.up_ne_zero hne
      have hdots := h.dots e' he
      refine ⟨h.inTree_of_nlink he hlive, he, hdots.two, hup.symm.trans he', fun hz => ?_⟩
      exact absurd (namecmp_trans hz (namecmp_symm.mp hdots.dotdot)) (by decide)

theorem ncard_named (h : Tree sb False F) (hi : 0 < i) :
    (named F i).Finite ∧ (named F i).ncard = (F i).nlink.toNat := by
  have hnames := h.finite_names hi
  have hkids := (h.finite_kids hi).image fun e => (e, 1)
  have hdisj : Disjoint (fiber (slot F) i) ((fun e => (e, 1)) '' fiber (up F) i) := by
    refine Set.disjoint_left.mpr ?_
    rintro _ hp ⟨e, -, rfl⟩
    have hne : (F e).slot 1 ≠ 0 := by
      rw [show (F e).slot 1 = i from hp]
      exact Nat.ne_of_gt hi
    have := (Node.slot_ne_zero hne).2.1
    omega
  rw [h.named_eq hi]
  refine ⟨hnames.union hkids, ?_⟩
  rw [Set.ncard_union_eq hdisj hnames hkids, Set.ncard_image_of_injective _ (Prod.mk_left_injective 1)]
  exact Nat.le_antisymm (h.le i hi) (h.ge i hi (.inl id))

end Tree

theorem link_counts (h : ConsistentTree sb disk₀) (hr : run (step sb) (boot disk₀) cs = some s)
    (hc : Along (step sb) (Mindful sb False) (boot disk₀) cs) : LinkCounts sb s := by
  have hgood := run_good h hr hc
  have htree := hgood.tree
  refine ⟨fun i ht => (htree.ncard_named (htree.bounded i ht).1).1, fun i ht => ?_,
    fun i ht hempty => hgood.steady i ht ?_⟩
  · have hsmall := htree.small i
    have hmax : maxLink.toNat = 32767 := rfl
    rw [(htree.ncard_named (htree.bounded i ht).1).2,
      toInt_eq_toNat_of_lt (by rw [hmax] at hsmall; omega)]
    exact ⟨Int.natCast_nonneg _, rfl⟩
  · have hcount := (htree.ncard_named (htree.bounded i ht).1).2
    rw [hempty, Set.ncard_empty] at hcount
    exact eq_of_toNat_eq hcount.symm

theorem Tree.noDangling (h : Tree sb True F) : NoDangling F := by
  intro e he k hk hne
  have hdots := h.dots e he
  rcases Nat.lt_or_ge k 2 with hlt | hge
  · obtain rfl | rfl : k = 0 ∨ k = 1 := by omega
    · rw [hdots.self, he]
      decide
    · have hup := h.above e he (.inl trivial)
      rw [Node.parent] at hup
      rw [hup]
      decide
  · intro h0
    have hslot : slot F (e, k) = ((F e).ent k).inum.toNat := if_pos ⟨he, hge, hk⟩
    have hpos : 0 < ((F e).ent k).inum.toNat :=
      Nat.pos_of_ne_zero fun hz => hne (eq_of_toNat_eq hz)
    exact h.not_named hpos (h.blank _ h0) _ hslot

theorem no_dangling (h : ConsistentTree sb disk₀) (hr : run (step sb) (boot disk₀) cs = some s)
    (hc : Along (step sb) (Mindful sb True) (boot disk₀) cs) :
    NoDangling (files sb s) ∧
      ∀ p c, callable s p c = true → call sb p c s ≠ .error .ilockNoType := by
  have hgood := run_good h hr hc
  refine ⟨hgood.tree.noDangling, fun p c hcall he => ?_⟩
  obtain ⟨x, hx⟩ := callable_proc hcall
  have hroot : (files sb s ROOTINO).type ≠ 0 := by
    rw [Shape.dir_of_up (F := files sb s) (by rw [hgood.tree.root]; decide)]
    decide
  refine ((call_sat True c hgood.inv hx hcall).error he).2
    ⟨hgood.steady, hgood.tree.noDangling, hroot, ?_⟩ rfl
  rcases hgood.cwd x.cwd (mem_cwds hx) with hv | hnum
  · rw [files_type]
    exact hgood.inv.live x.cwd _ ⟨hgood.inv.ref_of_mem (mem_cwds hx), rfl, hv⟩
  · rw [hnum]
    exact hroot

def smallFile (i : ℕ) : Node :=
  if i = 1 then smallDir 2 [(1, dot), (1, dotdot), (2, nameA)]
  else if i = 2 then smallDir 2 [(2, dot), (1, dotdot), (3, nameB)]
  else if i = 3 then smallDir 1 [(3, dot), (2, dotdot)]
  else {}
where
  smallDir (nlink : BitVec 16) (es : List (ℕ × List Byte)) : Node :=
    { type := T_DIR, nlink := nlink, bytes := es.flatMap fun e => (newEnt e.2 e.1).bytes }

theorem smallFile_free (hi : 8 ≤ i) : smallFile i = {} := by
  rw [smallFile, if_neg (by omega), if_neg (by omega), if_neg (by omega)]

-- the image is evaluated here, and its files are looked at below
theorem smallImage_file : (diskVol smallDisk smallImage).file = smallFile := by
  have hsmall : ∀ i < 8, (diskVol smallDisk smallImage).file i = smallFile i := by decide +kernel
  funext i
  by_cases hi : i < 8
  · exact hsmall i hi
  · rw [smallFile_free (Nat.le_of_not_lt hi)]
    exact if_pos (congrArg Dinode.type (if_neg hi))

theorem smallFile_slot : slot smallFile =
    update (update (fun _ => 0) (1, 2) 2) (2, 2) 3 := by
  have hsmall : ∀ d < 8, (smallFile d).nents ≤ 3 ∧
      ∀ k < 3, slot smallFile (d, k) =
        update (update (fun _ => 0) (1, 2) 2) (2, 2) 3 (d, k) := by
    decide
  funext ⟨d, k⟩
  by_cases hd : d < 8
  · by_cases hk : k < 3
    · exact (hsmall d hd).2 k hk
    · have hnents := (hsmall d hd).1
      rw [update_of_ne fun he => hk (by rw [(Prod.mk.inj he).2]; decide),
        update_of_ne fun he => hk (by rw [(Prod.mk.inj he).2]; decide)]
      exact if_neg fun h => absurd (Nat.lt_of_lt_of_le h.2.2 hnents) hk
  · rw [update_of_ne fun he => hd (by rw [(Prod.mk.inj he).1]; decide),
      update_of_ne fun he => hd (by rw [(Prod.mk.inj he).1]; decide)]
    rw [slot, smallFile_free (Nat.le_of_not_lt hd), Tree.slot_file (by decide)]

theorem smallFile_up : up smallFile =
    update (update (update (fun _ => 0) 1 1) 2 1) 3 2 := by
  have hsmall : ∀ c < 8, up smallFile c =
      update (update (update (fun _ => 0) 1 1) 2 1) 3 2 c := by
    decide
  funext c
  by_cases hc : c < 8
  · exact hsmall c hc
  · rw [update_of_ne (by omega), update_of_ne (by omega),
      update_of_ne (by omega), up, smallFile_free (Nat.le_of_not_lt hc),
      Tree.up_file (by decide)]

theorem smallFile_slot_ne {p : ℕ × ℕ} (h : slot smallFile p ≠ 0) :
    (p = (1, 2) ∧ slot smallFile p = 2) ∨
      (p = (2, 2) ∧ slot smallFile p = 3) := by
  rw [smallFile_slot] at h ⊢
  simp only [update_apply] at h ⊢
  split_ifs at h ⊢ with h1 h2
  · exact .inr ⟨h1, rfl⟩
  · exact .inl ⟨h2, rfl⟩
  · exact absurd rfl h

theorem smallFile_up_ne {c : ℕ} (h : up smallFile c ≠ 0) :
    (c = 1 ∧ up smallFile c = 1) ∨
      (c = 2 ∧ up smallFile c = 1) ∨
      (c = 3 ∧ up smallFile c = 2) := by
  rw [smallFile_up] at h ⊢
  simp only [update_apply] at h ⊢
  split_ifs at h ⊢ with h1 h2 h3
  · exact .inr (.inr ⟨h1, rfl⟩)
  · exact .inr (.inl ⟨h2, rfl⟩)
  · exact .inl ⟨h3, rfl⟩
  · exact absurd rfl h

theorem smallFile_shape : Shape smallFile := by
  have hzero : (smallFile 0).type ≠ T_DIR := by decide
  have hne : ∀ {p}, (smallFile
      (slot smallFile p)).type = T_DIR →
      slot smallFile p ≠ 0 := by
    intro p hp h0
    rw [h0] at hp
    exact hzero hp
  refine ⟨hzero, by rw [smallFile_up]; rfl, fun p hp => ?_, fun p q hpq hp => ?_,
    fun c hc hroot => ?_, fun c => c, fun c hc hroot => ?_⟩
  · rcases smallFile_slot_ne (hne hp) with ⟨rfl, h⟩ | ⟨rfl, h⟩ <;> rw [h, smallFile_up] <;>
      exact ⟨rfl, by decide⟩
  · have hp' := smallFile_slot_ne (hne hp)
    have hq' := smallFile_slot_ne (hpq ▸ hne hp)
    rcases hp' with ⟨rfl, h⟩ | ⟨rfl, h⟩ <;> rcases hq' with ⟨rfl, h'⟩ | ⟨rfl, h'⟩
    · rfl
    · rw [h, h'] at hpq
      cases hpq
    · rw [h, h'] at hpq
      cases hpq
    · rfl
  · refine ⟨2, ?_⟩
    rcases smallFile_up_ne hc with ⟨rfl, h⟩ | ⟨rfl, h⟩ | ⟨rfl, h⟩
    · exact absurd rfl hroot
    · rw [h, smallFile_slot]
      rfl
    · rw [h, smallFile_slot]
      rfl
  · rcases smallFile_up_ne hc with ⟨rfl, h⟩ | ⟨rfl, h⟩ | ⟨rfl, h⟩ <;> rw [h]
    · exact absurd rfl hroot
    · decide
    · decide

theorem smallFile_names (hi : 0 < i) : fiber (slot smallFile) i =
    {p | (p = (1, 2) ∧ i = 2) ∨ (p = (2, 2) ∧ i = 3)} := by
  ext p
  constructor
  · intro hp
    have hp' : slot smallFile p = i := hp
    have hcases := smallFile_slot_ne (p := p) (by rw [hp']; exact Nat.ne_of_gt hi)
    rw [hp'] at hcases
    exact hcases
  · rintro (⟨rfl, rfl⟩ | ⟨rfl, rfl⟩) <;>
      exact (congrFun smallFile_slot _).trans rfl

theorem smallFile_kids (hi : 0 < i) : fiber (up smallFile) i =
    {c | (c = 1 ∧ i = 1) ∨ (c = 2 ∧ i = 1) ∨ (c = 3 ∧ i = 2)} := by
  ext c
  constructor
  · intro hc
    have hc' : up smallFile c = i := hc
    have hcases := smallFile_up_ne (c := c) (by rw [hc']; exact Nat.ne_of_gt hi)
    rw [hc'] at hcases
    exact hcases
  · rintro (⟨rfl, rfl⟩ | ⟨rfl, rfl⟩ | ⟨rfl, rfl⟩) <;>
      exact (congrFun smallFile_up _).trans rfl

theorem smallFile_count (hi : 0 < i) :
    (fiber (slot smallFile) i).ncard +
      (fiber (up smallFile) i).ncard =
      (smallFile i).nlink.toNat := by
  have hlink : ∀ i < 8, (smallFile i).nlink.toNat =
      if i = 1 ∨ i = 2 then 2 else if i = 3 then 1 else 0 := by
    decide
  have hlink' : (smallFile i).nlink.toNat =
      if i = 1 ∨ i = 2 then 2 else if i = 3 then 1 else 0 := by
    by_cases h8 : i < 8
    · exact hlink i h8
    · rw [smallFile_free (Nat.le_of_not_lt h8), if_neg (by omega), if_neg (by omega)]
      rfl
  rw [hlink', smallFile_names hi, smallFile_kids hi]
  by_cases h1 : i = 1
  · have hpair : {c : ℕ | c = 1 ∨ c = 2} = {1, 2} := rfl
    simp [h1, hpair]
  by_cases h2 : i = 2
  · simp [h2]
  by_cases h3 : i = 3
  · simp [h3]
  · simp [h1, h2, h3]

theorem smallImage_tree : ConsistentTree smallDisk smallImage := by
  have hsmall : ∀ i < 8, ((smallFile i).type ≠ 0 → 0 < i) ∧
      ((smallFile i).type = 0 ↔ (smallFile i).nlink = 0) ∧
      (smallFile i).nlink.toNat ≤ maxLink.toNat ∧
      ((smallFile i).type = T_DIR → (smallFile (smallFile i).parent).type = T_DIR) ∧
      ((smallFile i).type = T_DIR → Dots i (smallFile i)) := by
    decide
  have hlt : ∀ {i}, (smallFile i).type ≠ 0 → i < 8 := by
    intro i ht
    by_contra hge
    rw [smallFile_free (Nat.le_of_not_lt hge)] at ht
    exact ht rfl
  have hlive : ∀ {e}, (smallFile e).type = T_DIR → (smallFile e).type ≠ 0 := by
    intro e he
    rw [he]
    decide
  have hlinked : ∀ i, (smallFile i).type ≠ 0 → (smallFile i).nlink ≠ 0 := fun i ht h0 =>
    ht ((hsmall i (hlt ht)).2.1.mpr h0)
  refine ⟨smallImage_consistent, ?_, by rwa [smallImage_file]⟩
  rw [smallImage_file]
  refine ⟨smallFile_shape, fun i ht => ⟨(hsmall i (hlt ht)).1 ht, hlt ht⟩,
    fun i ht => ?_, fun d hd => (hsmall d (hlt (hlive hd))).2.2.2.2 hd, fun i => ?_,
    fun i hi => (smallFile_count hi).le, fun i hi _ => (smallFile_count hi).ge,
    fun c hc _ => (hsmall c (hlt (hlive hc))).2.2.2.1 hc,
    fun _ d hd hn => absurd hn (hlinked d (hlive hd)), nofun⟩
  · by_cases h8 : i < 8
    · exact (hsmall i h8).2.1.mp ht
    · rw [smallFile_free (Nat.le_of_not_lt h8)]
  · by_cases h8 : i < 8
    · exact (hsmall i h8).2.2.1
    · rw [smallFile_free (Nat.le_of_not_lt h8)]
      exact Nat.zero_le _

def nameX : List Byte := [120]
def pathX : List Byte := [slash] ++ nameX

def linkRun : List (Fin NPROC × Call) :=
  [(initproc, .open (some pathX) (O_CREATE ||| O_RDWR)), (initproc, .unlink (some pathAB))]

/-- A process goes to `/a/b`, removes it, and makes a file there. -/
def deadDirRun : List (Fin NPROC × Call) :=
  [(initproc, .chdir (some pathAB)), (initproc, .unlink (some pathAB)),
    (initproc, .open (some nameX) (O_CREATE ||| O_RDWR))]

def Stray (s : State) : Prop :=
  ((files smallDisk s 4).type ≠ 0 ∧ (files smallDisk s 4).nlink = 1) ∧
    ∀ d < 8, ∀ k < (files smallDisk s d).nents,
      (((files smallDisk s d).ent k).inum.toNat = 4 → d = 3) ∧
      (((files smallDisk s d).ent k).inum.toNat = 3 →
        namecmp dot ((files smallDisk s d).ent k).name = 0)

instance (s : State) : Decidable (Stray s) := instDecidableAnd

def removeRun : List (Fin NPROC × Call) :=
  [(initproc, .unlink (some pathAB)), (initproc, .open (some pathX) (O_CREATE ||| O_RDWR))]

def orphanRun : List (Fin NPROC × Call) :=
  [(initproc, .chdir (some pathAB)), (initproc, .unlink (some pathAB)),
    (initproc, .unlink (some pathA))]

def Orphan (s : State) : Prop :=
  (s.procs initproc).map (fun x => (s.itable x.cwd).inum) = some 3 ∧
    (files smallDisk s 3).type = T_DIR ∧ 1 < (files smallDisk s 3).nents ∧
    ((files smallDisk s 3).ent 1).inum = 2 ∧ (files smallDisk s 2).type = 0 ∧
    callable s initproc (.chdir (some dotdot)) = true ∧
    panicOf (call smallDisk initproc (.chdir (some dotdot)) s) = some .ilockNoType

instance (s : State) : Decidable (Orphan s) := instDecidableAnd

-- one evaluation for all four runs
theorem smallRuns_end :
    (run (step smallDisk) (boot smallImage) linkRun).isSome = true ∧
    (run (step smallDisk) (boot smallImage) removeRun).isSome = true ∧
    (run (step smallDisk) (boot smallImage) deadDirRun).map (fun s => decide (Stray s)) =
      some true ∧
    (run (step smallDisk) (boot smallImage) orphanRun).map (fun s => decide (Orphan s)) =
      some true := by
  decide +kernel

theorem link_counts_linkRun : ∃ s, run (step smallDisk) (boot smallImage) linkRun = some s ∧
    LinkCounts smallDisk s := by
  obtain ⟨s, hs⟩ := isSome_iff_exists.mp smallRuns_end.1
  refine ⟨s, hs, link_counts smallImage_tree hs ⟨fun x _ _ d nm hres _ => ?_, fun t _ =>
    ⟨fun x _ h => absurd h id, fun u _ => trivial⟩⟩⟩
  have hroot : resolve (diskVol smallDisk smallImage).file 0 pathX true = some (1, nameX) := by
    rw [smallImage_file]
    decide
  have hres' : some (1, nameX) = some (d, nm) := hroot.symm.trans hres
  obtain rfl : 1 = d := congrArg Prod.fst (Option.some.inj hres')
  refine ⟨fun _ => ?_, fun h => absurd h (by decide)⟩
  have hlink : 0 < ((diskVol smallDisk smallImage).file 1).nlink.toInt := by
    rw [smallImage_file]
    decide
  exact hlink

theorem Stray.not_linkCounts (h : Stray s) : ¬ LinkCounts smallDisk s := by
  intro hc
  obtain ⟨⟨ht, hn⟩, hents⟩ := h
  have hcard := (hc.count 4 ht).2
  rw [hn] at hcard
  have hlt : ∀ {e}, (files smallDisk s e).type = T_DIR → e < 8 := by
    intro e he
    have hne : (files smallDisk s e).type ≠ 0 := by
      rw [he]
      decide
    exact lt_of_type hne
  have hnone : named (files smallDisk s) 4 = ∅ := by
    refine Set.eq_empty_of_forall_notMem ?_
    rintro ⟨e, k⟩ ⟨hin, he, hk, hnum, -⟩
    dsimp only at hin he hk hnum
    obtain rfl := (hents e (hlt he) k hk).1 hnum
    generalize hj : 3 = j at hin
    cases hin with
    | root => exact absurd hj (by decide)
    | @entry d k' hd ht' hk' hne hdot hdotdot =>
      exact hdot ((hents d (hlt ht') k' hk').2 hj.symm)
  rw [hnone, Set.ncard_empty] at hcard
  exact absurd hcard (by decide)

theorem not_linkCounts_deadDirRun : ∃ s,
    run (step smallDisk) (boot smallImage) deadDirRun = some s ∧ ¬ LinkCounts smallDisk s := by
  obtain ⟨s, hs, hstray⟩ := map_eq_some_iff.mp smallRuns_end.2.2.1
  exact ⟨s, hs, (of_decide_eq_true hstray).not_linkCounts⟩

theorem smallFile_childless : Childless smallFile 3 := by
  have hsmall : ∀ c < 8, (smallFile c).type = T_DIR → c ≠ 3 → (smallFile c).parent ≠ 3 := by
    decide
  intro c hc
  by_cases h8 : c < 8
  · exact hsmall c h8 hc
  · rw [smallFile_free (Nat.le_of_not_lt h8)] at hc
    exact absurd hc (by decide)

theorem no_dangling_removeRun : ∃ s, run (step smallDisk) (boot smallImage) removeRun = some s ∧
    NoDangling (files smallDisk s) ∧
      ∀ p c, callable s p c = true → call smallDisk p c s ≠ .error .ilockNoType := by
  obtain ⟨s, hs⟩ := isSome_iff_exists.mp smallRuns_end.2.1
  have hfile : ¬ (¬ True ∨ T_FILE = T_DIR) := by decide
  refine ⟨s, hs, no_dangling smallImage_tree hs ⟨fun x _ _ d nm k hres hk _ => ?_, fun t _ =>
    ⟨fun x _ _ d nm _ _ => ⟨fun h => absurd h hfile, fun h => absurd (.inr h) hfile⟩,
      fun u _ => trivial⟩⟩⟩
  have hparent : resolve (diskVol smallDisk smallImage).file 0 pathAB true = some (2, nameB) := by
    rw [smallImage_file]
    decide
  have hlookup : ((diskVol smallDisk smallImage).file 2).lookup nameB = some 2 ∧
      (((diskVol smallDisk smallImage).file 2).ent 2).inum = 3 := by
    rw [smallImage_file]
    decide
  have hres' : some (2, nameB) = some (d, nm) := hparent.symm.trans hres
  obtain ⟨rfl, rfl⟩ := Prod.mk.inj (Option.some.inj hres')
  have hk' : some 2 = some k := hlookup.1.symm.trans hk
  obtain rfl := Option.some.inj hk'
  have hthree : (((diskVol smallDisk smallImage).file 2).ent 2).inum.toNat = 3 := by
    rw [hlookup.2]
    rfl
  have hchildless : Childless (diskVol smallDisk smallImage).file 3 := by
    rw [smallImage_file]
    exact smallFile_childless
  exact hthree.symm ▸ hchildless

theorem not_noDangling_orphanRun : ∃ s,
    run (step smallDisk) (boot smallImage) orphanRun = some s ∧
      (s.procs initproc).map (fun x => (s.itable x.cwd).inum) = some 3 ∧
      ¬ NoDangling (files smallDisk s) ∧ callable s initproc (.chdir (some dotdot)) = true ∧
      call smallDisk initproc (.chdir (some dotdot)) s = .error .ilockNoType := by
  obtain ⟨s, hs, horphan⟩ := map_eq_some_iff.mp smallRuns_end.2.2.2
  obtain ⟨hcwd, hd, hk, hnum, hfree, hcall, hpanic⟩ := of_decide_eq_true horphan
  refine ⟨s, hs, hcwd, fun hdang => ?_, hcall, eq_of_panicOf hpanic⟩
  have htype := hdang 3 hd 1 hk (by rw [hnum]; decide)
  rw [hnum] at htype
  exact htype hfree

end Xv6.Fs
