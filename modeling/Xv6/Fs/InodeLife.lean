import Xv6.Fs.Layout
import Xv6.Fs.State
import Xv6.Lib.Count
import Xv6.Lib.Run
import Mathlib.Data.Fintype.Pi

/-! One inode number under `iget`, `ilock`, `iput` and `ialloc` by several processes. The sections
of these calls are what a process does under `itable.lock`, or under the lock of the inode's block,
while it may hold the sleep-lock of the inode. -/
namespace Xv6.Fs.Recycle
open Count Function Finset

deriving instance DecidableEq for Dinode

/-- Where a process is in a call on the inode. A reference that `ialloc` returned is `born` with its
type until its first `ilock` is done. -/
inductive Stage where
  | away
  /-- In `ialloc`, with the number taken, before `iget`. -/
  | alloced (type : BitVec 16)
  /-- In `ilock`, before `acquiresleep`. -/
  | ilock (born : Option (BitVec 16))
  /-- In `ilock`, with the sleep-lock, before `bread`. -/
  | load (born : Option (BitVec 16))
  | holds
  /-- In `iput`, at address `i` of `itrunc`. -/
  | itrunc (i : ℕ)
  /-- In `iput`, before the `iupdate` that clears the type. -/
  | clear
  /-- In `iput`, before `ip->valid = 0` and `releasesleep`. -/
  | cleared
  /-- In `iput`, before `ip->ref--`. -/
  | dropping
  deriving DecidableEq

/-- The inode on the disk, its entry of `itable`, and the references that no call is about to drop
or has just obtained from `ialloc`: those of open files, current directories and path walks. -/
structure Cell where
  disk : Dinode
  ip : Inode := {}
  plain : ℕ := 0

/-- The sections of `ilock`, of the work under the lock, of `iunlock` and of `iput`. -/
inductive Move where
  | acquiresleep
  | load
  | change (d : Dinode)
  | iupdate
  | iunlock
  | itrunc
  | clear
  | releasesleep
  | drop

/-- The reference of a new inode is an ordinary one once the inode is locked. -/
def Cell.settle (c : Cell) (born : Option (BitVec 16)) : Cell :=
  if born.isSome then { c with plain := c.plain + 1 } else c

/-- What a process at a stage does next; no result where it has to wait. The bitmap is not part of
this model, so a turn of the loops of `itrunc` clears one address. -/
def move (c : Cell) : Stage → Move → Option (Except Panic (Cell × Stage))
  | .ilock born, .acquiresleep =>
    if c.ip.locked then none
    else if c.ip.valid then
      some (.ok ({ c with ip := { c.ip with locked := true } }.settle born, .holds))
    else some (.ok ({ c with ip := { c.ip with locked := true } }, .load born))
  | .load born, .load =>
    if c.disk.type = 0 then some (.error .ilockNoType)
    else some (.ok ({ c with ip := { c.ip with d := c.disk, valid := true } }.settle born, .holds))
  | .holds, .change d =>
    -- no caller changes the type of an inode
    if d.type = c.ip.d.type then some (.ok ({ c with ip := { c.ip with d := d } }, .holds)) else none
  | .holds, .iupdate => some (.ok ({ c with disk := c.ip.d }, .holds))
  | .holds, .iunlock =>
    -- every change was followed by an `iupdate`
    if c.ip.d = c.disk then
      if c.ip.ref < 1 then some (.error .iunlock)
      else some (.ok ({ c with ip := { c.ip with locked := false } }, .away))
    else none
  | .itrunc i, .itrunc =>
    if h : i < NDIRECT + 1 then
      let d := { c.ip.d with addrs := update c.ip.d.addrs ⟨i, h⟩ 0 }
      some (.ok ({ c with ip := { c.ip with d := d } }, .itrunc (i + 1)))
    else
      let d := { c.ip.d with size := 0 }
      some (.ok ({ c with ip := { c.ip with d := d }, disk := d }, .clear))
  | .clear, .clear =>
    let d := { c.ip.d with type := 0 }
    some (.ok ({ c with ip := { c.ip with d := d }, disk := d }, .cleared))
  | .cleared, .releasesleep =>
    some (.ok ({ c with ip := { c.ip with valid := false, locked := false } }, .dropping))
  | .dropping, .drop => some (.ok ({ c with ip := { c.ip with ref := c.ip.ref - 1 } }, .away))
  | _, _ => none

def iput (c : Cell) : Except Panic (Cell × Stage) :=
  let c := { c with plain := c.plain - 1 }
  if c.ip.ref = 1 ∧ c.ip.valid ∧ c.ip.d.nlink = 0 then
    if c.ip.locked then .error .sleepsForever
    else .ok ({ c with ip := { c.ip with locked := true } }, .itrunc 0)
  else .ok ({ c with ip := { c.ip with ref := c.ip.ref - 1 } }, .away)

def Cell.iget (c : Cell) (e : Inode) : Cell :=
  if 0 < c.ip.ref then { c with ip := { c.ip with ref := c.ip.ref + 1 } }
  else { c with ip := { e with ref := 1, valid := false } }

/-- What happens to the inode on the disk: allocation, an `iput` that finds the last reference to
an inode without links, and the truncation and the clearing of the type by that `iput`. -/
inductive Act (n : ℕ) where
  | ialloc (t : Fin n)
  | last (t : Fin n)
  | itrunc (t : Fin n)
  | free (t : Fin n)
  deriving DecidableEq

inductive Phase (n : ℕ) where
  | free
  | used
  | dying (t : Fin n)
  | truncated (t : Fin n)

variable {n : ℕ}

def Phase.next : Phase n → Act n → Option (Phase n)
  | .free, .ialloc _ => some .used
  | .used, .last t => some (.dying t)
  | .dying t, .itrunc u => if t = u then some (.truncated t) else none
  | .truncated t, .free u => if t = u then some .free else none
  | _, _ => none

/-- The inode with the processes that are in calls on it. -/
@[ext] structure One (n : ℕ) where
  cell : Cell
  stage : Fin n → Stage := fun _ => .away
  acts : List (Act n) := []

namespace Stage

def counts : Stage → Bool
  | ilock (some _) | load (some _) | itrunc _ | clear | cleared | dropping => true
  | _ => false

def locks : Stage → Bool
  | load _ | holds | itrunc _ | clear | cleared => true
  | _ => false

def uses : Stage → Bool
  | ilock none | load none | holds => true
  | _ => false

def born : Stage → Option (BitVec 16)
  | alloced type => some type
  | ilock b | load b => b
  | _ => none

end Stage

def acts (t : Fin n) : Stage → Move → List (Act n)
  | .itrunc i, .itrunc => if i < NDIRECT + 1 then [] else [.itrunc t]
  | .clear, .clear => [.free t]
  | _, _ => []

def startsFreeing (t : Fin n) : Stage → List (Act n)
  | .itrunc _ => [.last t]
  | _ => []

def Cell.norm (c : Cell) : Cell := if c.ip.ref = 0 then { disk := c.disk } else c

def One.set (x : One n) (t : Fin n) (c : Cell) (g : Stage) (as : List (Act n)) : One n :=
  { cell := c, stage := update x.stage t g, acts := x.acts ++ as }

def One.setCell (x : One n) (c : Cell) : One n := { x with cell := c }

def One.norm (x : One n) : One n := x.setCell x.cell.norm

structure Leftover (x : One n) (new : Option (Fin n)) : Prop where
  plain : x.cell.plain = 0
  stage : ∀ t, some t ≠ new → x.stage t = .away ∨ x.stage t = .cleared ∨ x.stage t = .dropping
  valid : x.cell.ip.valid → ∃ t, x.stage t = .cleared

structure Settled (x : One n) : Prop where
  stage : ∀ t, (x.stage t).uses ∨ x.stage t = .away ∨ x.stage t = .dropping
  type : x.cell.disk.type ≠ 0
  copy : x.cell.ip.valid → x.cell.ip.d.type ≠ 0
  clean : x.cell.ip.valid → x.cell.ip.locked = false → x.cell.ip.d = x.cell.disk
  /-- A reference to an inode that was not read yet was found through a directory entry. -/
  linked : 0 < x.cell.ip.ref → x.cell.ip.valid = false → x.cell.disk.nlink ≠ 0

structure Newborn (x : One n) (t : Fin n) (ty : BitVec 16) : Prop where
  born : (x.stage t).born = some ty
  type : ty ≠ 0
  disk : x.cell.disk = { type := ty }
  left : Leftover x (some t)

structure Alone (x : One n) (t : Fin n) : Prop where
  plain : x.cell.plain = 0
  stage : ∀ u, u ≠ t → x.stage u = .away
  valid : x.cell.ip.valid = true
  type : x.cell.ip.d.type ≠ 0
  nlink : x.cell.ip.d.nlink = 0
  disk : x.cell.disk.type ≠ 0 ∧ x.cell.disk.nlink = 0

def InPhase (x : One n) : Phase n → Prop
  | .free => x.cell.disk.type = 0 ∧ Leftover x none
  | .used => Settled x ∨ ∃ t type, Newborn x t type
  | .dying t => Alone x t ∧ ∃ i, x.stage t = .itrunc i ∧ ∀ j, j.val < i → x.cell.ip.d.addrs j = 0
  | .truncated t => Alone x t ∧ x.stage t = .clear ∧ x.cell.disk = x.cell.ip.d ∧
      x.cell.ip.d.size = 0 ∧ ∀ j, x.cell.ip.d.addrs j = 0

def Fits (c : Cell) : Stage → Prop
  | .ilock none => 0 < c.plain
  | .load b => c.ip.valid = false ∧ (b = none → 0 < c.plain)
  | .holds => c.ip.valid = true ∧ 0 < c.plain
  | _ => True

structure Counted (x : One n) : Prop where
  ref : x.cell.ip.ref = x.cell.plain + occ Finset.univ (fun t => (x.stage t).counts) true
  lock : occ Finset.univ (fun t => (x.stage t).locks) true = if x.cell.ip.locked then 1 else 0
  fits : ∀ t, Fits x.cell (x.stage t)

variable {x y : One n} {t u : Fin n} {c : Cell} {g : Stage} {a : List (Act n)} {p q : Phase n}

@[simp] theorem set_stage_self : (x.set t c g a).stage t = g := update_self ..
theorem set_stage_of_ne (h : u ≠ t) : (x.set t c g a).stage u = x.stage u := update_of_ne h ..

theorem forall_set {P : Fin n → Stage → Prop} (ht : P t g) (hu : ∀ u, u ≠ t → P u (x.stage u))
    (u : Fin n) : P u ((x.set t c g a).stage u) := by
  by_cases h : u = t
  · subst h
    rwa [set_stage_self]
  · rw [set_stage_of_ne h]
    exact hu u h

theorem occ_set (x : One n) (t : Fin n) (c : Cell) (g : Stage) (a : List (Act n))
    (f : Stage → Bool) :
    occ Finset.univ (fun u => f ((x.set t c g a).stage u)) true + (f (x.stage t)).toNat =
      occ Finset.univ (fun u => f (x.stage u)) true + (f g).toNat := by
  have hcomp : (fun u => f ((x.set t c g a).stage u)) =
      update (fun u => f (x.stage u)) t (f g) := comp_update f x.stage t g
  have h := occ_update (f := fun u => f (x.stage u)) (b := true) (mem_univ t) (f g)
  rw [hcomp]
  cases hg : f g <;> cases ht : f (x.stage t) <;> simp only [hg, ht] at h ⊢ <;> simpa using h

theorem Fits.mono {c' : Cell} (h : Fits c g) (hp : g.uses → 0 < c.plain → 0 < c'.plain)
    (hv : g.locks → c'.ip.valid = c.ip.valid) : Fits c' g := by
  cases g with
  | ilock b => cases b with
    | none => exact hp rfl h
    | some ty => trivial
  | load b => exact ⟨(hv rfl).trans h.1, fun hb => hp (by rw [hb]; rfl) (h.2 hb)⟩
  | holds => exact ⟨(hv rfl).trans h.1, hp rfl h.2⟩
  | _ => trivial

theorem Fits.plain_pos (h : Fits c g) (hg : g.uses) : 0 < c.plain := by
  cases g with
  | ilock b => cases b with
    | none => exact h
    | some ty => cases hg
  | load b => cases b with
    | none => exact h.2 rfl
    | some ty => cases hg
  | holds => exact h.2
  | _ => cases hg

theorem Counted.set (h : Counted x)
    (href : c.ip.ref + x.cell.plain + (x.stage t).counts.toNat =
      x.cell.ip.ref + c.plain + g.counts.toNat)
    (hlock : c.ip.locked.toNat + (x.stage t).locks.toNat = x.cell.ip.locked.toNat + g.locks.toNat)
    (ht : Fits c g) (hu : ∀ u, u ≠ t → Fits c (x.stage u)) : Counted (x.set t c g a) := by
  have h₁ := h.ref
  have h₂ := h.lock
  have h₃ := occ_set x t c g a Stage.counts
  have h₄ := occ_set x t c g a Stage.locks
  refine ⟨?_, ?_, forall_set (P := fun _ => Fits c) ht hu⟩
  · change c.ip.ref = c.plain + _
    omega
  · change _ = if c.ip.locked then 1 else 0
    cases hl : c.ip.locked <;> cases hl' : x.cell.ip.locked <;>
      simp only [hl, hl', Bool.toNat_true, Bool.toNat_false, if_true, Bool.false_eq_true,
        if_false] at hlock h₂ ⊢ <;> omega

theorem Counted.setCell (h : Counted x)
    (href : c.ip.ref + x.cell.plain = x.cell.ip.ref + c.plain)
    (hlock : c.ip.locked = x.cell.ip.locked) (hfit : ∀ u, Fits c (x.stage u)) :
    Counted (x.setCell c) := by
  have h₁ := h.ref
  refine ⟨?_, ?_, hfit⟩
  · change c.ip.ref = c.plain + occ Finset.univ (fun t => (x.stage t).counts) true
    omega
  · change _ = if c.ip.locked then 1 else 0
    rw [hlock]
    exact h.lock

theorem Counted.locked (h : Counted x) (ht : (x.stage t).locks) : x.cell.ip.locked = true := by
  by_contra hn
  have h₂ := h.lock
  rw [if_neg hn, occ_eq_zero] at h₂
  exact h₂ t (mem_univ t) ht

theorem Counted.lock_unique (h : Counted x) (ht : (x.stage t).locks) (hu : (x.stage u).locks) :
    t = u := by
  have h₂ := h.lock
  rw [if_pos (h.locked ht)] at h₂
  exact occ_le_one.mp h₂.le t (mem_univ t) u (mem_univ u) ht hu

theorem Counted.exists_locks (h : Counted x) (hl : x.cell.ip.locked = true) :
    ∃ t, (x.stage t).locks := by
  have h₂ := h.lock
  rw [if_pos hl] at h₂
  have hpos : 0 < occ Finset.univ (fun t => (x.stage t).locks) true := by omega
  obtain ⟨t, -, ht⟩ := occ_pos.mp hpos
  exact ⟨t, ht⟩

theorem Counted.ref_pos (h : Counted x) (ht : (x.stage t).counts ∨ (x.stage t).uses) :
    0 < x.cell.ip.ref := by
  have h₁ := h.ref
  rcases ht with ht | ht
  · have hpos : 0 < occ Finset.univ (fun t => (x.stage t).counts) true :=
      occ_pos.mpr ⟨t, mem_univ t, ht⟩
    omega
  · have := (h.fits t).plain_pos ht
    omega

theorem locks_counts (hg : g.locks) : g.counts ∨ g.uses := by
  cases g with
  | load b => cases b with
    | none => exact Or.inr rfl
    | some ty => exact Or.inl rfl
  | holds => exact Or.inr rfl
  | itrunc i | clear | cleared => exact Or.inl rfl
  | _ => cases hg

structure Ok (x : One n) (p : Phase n) : Prop where
  counted : Counted x
  phase : InPhase x p

theorem Counted.idle (h : Counted x) (hr : x.cell.ip.ref = 0) :
    x.cell.plain = 0 ∧ x.cell.ip.locked = false ∧
      ∀ t, (x.stage t).counts = false ∧ (x.stage t).uses = false := by
  have hnone : ∀ t, ¬ ((x.stage t).counts ∨ (x.stage t).uses) := fun t ht => by
    have := h.ref_pos ht
    omega
  have href := h.ref
  refine ⟨by omega, Bool.eq_false_iff.mpr fun hl => ?_, fun t => ?_⟩
  · obtain ⟨t, ht⟩ := h.exists_locks hl
    exact hnone t (locks_counts ht)
  · exact ⟨Bool.eq_false_iff.mpr fun hc => hnone t (Or.inl hc),
      Bool.eq_false_iff.mpr fun hu => hnone t (Or.inr hu)⟩

theorem Ok.norm (h : Ok x p) : Ok x.norm p := by
  by_cases hr : x.cell.ip.ref = 0
  · obtain ⟨hplain, hlock, hnone⟩ := h.counted.idle hr
    have heq : x.norm = x.setCell { disk := x.cell.disk } := by
      rw [One.norm, Cell.norm, if_pos hr]
    rw [heq]
    refine ⟨h.counted.setCell (by rw [hr, hplain]) hlock.symm fun t => ?_, ?_⟩
    · refine (h.counted.fits t).mono (fun _ hp => by omega) fun hl => ?_
      rw [h.counted.locked hl] at hlock
      cases hlock
    · cases p with
      | free => exact ⟨h.phase.1, rfl, h.phase.2.stage, nofun⟩
      | used =>
        rcases h.phase with hs | ⟨t, ty, hb⟩
        · exact Or.inl ⟨hs.stage, hs.type, nofun, nofun, nofun⟩
        · exact Or.inr ⟨t, ty, hb.born, hb.type, hb.disk, rfl, hb.left.stage, nofun⟩
      | dying t =>
        obtain ⟨-, i, hi, -⟩ := h.phase
        have hn := (hnone t).1
        rw [hi] at hn
        cases hn
      | truncated t =>
        have hn := (hnone t).1
        rw [h.phase.2.1] at hn
        cases hn
  · rwa [show x.norm = x by rw [One.norm, Cell.norm, if_neg hr, One.setCell]]

theorem Ok.settled (h : Ok x p) (hp : 0 < x.cell.plain) : p = .used ∧ Settled x := by
  cases p with
  | free =>
    have := h.phase.2.plain
    omega
  | used =>
    rcases h.phase with hs | ⟨t, ty, hb⟩
    · exact ⟨rfl, hs⟩
    · have := hb.left.plain
      omega
  | dying t =>
    have := h.phase.1.plain
    omega
  | truncated t =>
    have := h.phase.1.plain
    omega

theorem Ok.settled_of_linked (h : Ok x p) (ht : x.cell.disk.type ≠ 0)
    (hl : x.cell.disk.nlink ≠ 0) : p = .used ∧ Settled x := by
  cases p with
  | free => exact absurd h.phase.1 ht
  | used =>
    rcases h.phase with hs | ⟨t, ty, hb⟩
    · exact ⟨rfl, hs⟩
    · exact absurd (by rw [hb.disk]) hl
  | dying t => exact absurd h.phase.1.disk.2 hl
  | truncated t => exact absurd h.phase.1.disk.2 hl

theorem Counted.iget (h : Counted x) {e : Inode} (he : e.locked = false) :
    (x.cell.iget e).ip.ref = x.cell.ip.ref + 1 ∧
      (x.cell.iget e).ip.locked = x.cell.ip.locked ∧ (x.cell.iget e).plain = x.cell.plain ∧
      ((x.cell.iget e).ip.valid → x.cell.ip.valid ∧ (x.cell.iget e).ip.d = x.cell.ip.d) ∧
      ∀ t, (x.stage t).locks → (x.cell.iget e).ip.valid = x.cell.ip.valid := by
  by_cases hr : 0 < x.cell.ip.ref
  · rw [Cell.iget, if_pos hr]
    exact ⟨rfl, rfl, rfl, fun hv => ⟨hv, rfl⟩, fun _ _ => rfl⟩
  · have hr0 : x.cell.ip.ref = 0 := by omega
    obtain ⟨-, hlock, -⟩ := h.idle hr0
    rw [Cell.iget, if_neg hr]
    refine ⟨by rw [hr0], he.trans hlock.symm, rfl, nofun, fun t ht => ?_⟩
    rw [h.locked ht] at hlock
    cases hlock

theorem iget_disk (c : Cell) (e : Inode) : (c.iget e).disk = c.disk := by
  rw [Cell.iget]
  split_ifs <;> rfl

theorem Ok.lookup (h : Ok x p) {e : Inode} (he : e.locked = false) (ht : x.cell.disk.type ≠ 0)
    (hl : x.cell.disk.nlink ≠ 0) :
    Ok (x.setCell { x.cell.iget e with plain := x.cell.plain + 1 }) p := by
  obtain ⟨rfl, hs⟩ := h.settled_of_linked ht hl
  obtain ⟨href, hlock, -, hcopy, hvalid⟩ := h.counted.iget he
  refine ⟨h.counted.setCell ?_ hlock fun t => ?_,
    Or.inl ⟨hs.stage, ?_, fun hv => ?_, fun hv hn => ?_, fun _ _ => ?_⟩⟩
  · change (x.cell.iget e).ip.ref + x.cell.plain = x.cell.ip.ref + (x.cell.plain + 1)
    omega
  · exact (h.counted.fits t).mono (fun _ _ => Nat.succ_pos _) (hvalid t)
  · exact (iget_disk x.cell e).symm ▸ hs.type
  · obtain ⟨hv, hd⟩ := hcopy hv
    exact hd.symm ▸ hs.copy hv
  · obtain ⟨hv, hd⟩ := hcopy hv
    change (x.cell.iget e).ip.d = (x.cell.iget e).disk
    rw [hd, iget_disk]
    exact hs.clean hv (hlock.symm.trans hn)
  · exact (iget_disk x.cell e).symm ▸ hl

theorem Ok.idup (h : Ok x p) (hp : 0 < x.cell.plain) :
    Ok (x.setCell { x.cell with
      ip := { x.cell.ip with ref := x.cell.ip.ref + 1 }, plain := x.cell.plain + 1 }) p := by
  obtain ⟨rfl, hs⟩ := h.settled hp
  have href := h.counted.ref
  refine ⟨h.counted.setCell ?_ rfl fun t =>
      (h.counted.fits t).mono (fun _ _ => Nat.succ_pos _) fun _ => rfl,
    Or.inl ⟨hs.stage, hs.type, hs.copy, hs.clean, fun _ => hs.linked (by omega)⟩⟩
  change x.cell.ip.ref + 1 + x.cell.plain = x.cell.ip.ref + (x.cell.plain + 1)
  omega

variable {v : Cell}

theorem Settled.set (h : Settled x) (hg : g.uses ∨ g = .away ∨ g = .dropping)
    (ht : v.disk.type ≠ 0) (hc : v.ip.valid → v.ip.d.type ≠ 0)
    (hd : v.ip.valid → v.ip.locked = false → v.ip.d = v.disk)
    (hl : 0 < v.ip.ref → v.ip.valid = false → v.disk.nlink ≠ 0) : Settled (x.set t v g a) :=
  ⟨forall_set (P := fun _ g => g.uses ∨ g = .away ∨ g = .dropping) hg fun u _ => h.stage u,
    ht, hc, hd, hl⟩

theorem Leftover.set (h : Leftover x (some t)) (hg : x.stage t ≠ .cleared)
    (hp : v.plain = x.cell.plain) (hv : v.ip.valid → x.cell.ip.valid) :
    Leftover (x.set t v g a) (some t) := by
  refine ⟨hp.trans h.plain, fun u hu => ?_, fun hv' => ?_⟩
  · rw [set_stage_of_ne fun h => hu (by rw [h])]
    exact h.stage u hu
  · obtain ⟨u, hu⟩ := h.valid (hv hv')
    refine ⟨u, ?_⟩
    rwa [set_stage_of_ne]
    rintro rfl
    exact hg hu

theorem Ok.free_iff (h : Ok x p) : p = .free ↔ x.cell.disk.type = 0 := by
  cases p with
  | free => exact ⟨fun _ => h.phase.1, fun _ => rfl⟩
  | used =>
    refine ⟨nofun, fun ht => ?_⟩
    rcases h.phase with hs | ⟨t, ty, hb⟩
    · exact absurd ht hs.type
    · rw [hb.disk] at ht
      exact absurd ht hb.type
  | dying t => exact ⟨nofun, fun ht => absurd ht h.phase.1.disk.1⟩
  | truncated t => exact ⟨nofun, fun ht => absurd ht h.phase.1.disk.1⟩

variable {ty : BitVec 16}

theorem Ok.ialloc (h : Ok x p) (hg : x.stage t = .away) (ht : x.cell.disk.type = 0) (hn : ty ≠ 0) :
    p = .free ∧ Ok (x.set t { x.cell with disk := { type := ty } } (.alloced ty) a) .used := by
  obtain rfl := h.free_iff.mpr ht
  obtain ⟨-, hleft⟩ := h.phase
  refine ⟨rfl, h.counted.set (by rw [hg]; rfl) (by rw [hg]; rfl) trivial fun u _ =>
      (h.counted.fits u).mono (fun _ => id) fun _ => rfl, Or.inr ⟨t, ty, ?_⟩⟩
  have hleft' : Leftover x (some t) := ⟨hleft.plain, fun u _ => hleft.stage u nofun, hleft.valid⟩
  exact ⟨by rw [set_stage_self]; rfl, hn, rfl, hleft'.set (by rw [hg]; nofun) rfl id⟩

theorem Ok.settled_of_uses (h : Ok x p) (hu : (x.stage t).uses) : p = .used ∧ Settled x :=
  h.settled ((h.counted.fits t).plain_pos hu)

theorem Leftover.born {new : Option (Fin n)} (h : Leftover x new) (hn : some t ≠ new) :
    (x.stage t).born = none := by
  rcases h.stage t hn with hg | hg | hg <;> rw [hg] <;> rfl

theorem Settled.born (h : Settled x) (t : Fin n) : (x.stage t).born = none := by
  rcases h.stage t with hg | hg | hg
  · cases hs : x.stage t with
    | ilock b => cases b with
      | none => rfl
      | some ty => simp [hs, Stage.uses] at hg
    | load b => cases b with
      | none => rfl
      | some ty => simp [hs, Stage.uses] at hg
    | alloced ty => simp [hs, Stage.uses] at hg
    | _ => rfl
  · rw [hg]
    rfl
  · rw [hg]
    rfl

theorem Ok.freeing (h : Ok x p) (hg : x.stage t ≠ .away) :
    p = .free ∨ p = .used ∨ (p = .dying t ∧ ∃ i, x.stage t = .itrunc i) ∨
      p = .truncated t ∧ x.stage t = .clear := by
  cases p with
  | free => exact Or.inl rfl
  | used => exact Or.inr (Or.inl rfl)
  | dying u =>
    obtain ⟨ha, i, hi, -⟩ := h.phase
    obtain rfl : t = u := by_contra fun htu => hg (ha.stage t htu)
    exact Or.inr (Or.inr (Or.inl ⟨rfl, i, hi⟩))
  | truncated u =>
    obtain ⟨ha, hi, -⟩ := h.phase
    obtain rfl : t = u := by_contra fun htu => hg (ha.stage t htu)
    exact Or.inr (Or.inr (Or.inr ⟨rfl, hi⟩))

theorem Ok.newborn (h : Ok x p) (hb : (x.stage t).born = some ty) : p = .used ∧ Newborn x t ty := by
  have hg : x.stage t ≠ .away := fun hg => by simp [hg, Stage.born] at hb
  obtain rfl | rfl | ⟨rfl, i, hi⟩ | ⟨rfl, hi⟩ := h.freeing hg
  · simp [h.phase.2.born (t := t) nofun] at hb
  · rcases h.phase with hs | ⟨u, ty', hn⟩
    · simp [hs.born t] at hb
    · by_cases htu : t = u
      · subst htu
        have := hn.born.symm.trans hb
        cases this
        exact ⟨rfl, hn⟩
      · simp [hn.left.born (t := t) (by simpa using htu)] at hb
  · simp [hi, Stage.born] at hb
  · simp [hi, Stage.born] at hb

theorem Ok.iget (h : Ok x p) {e : Inode} (hg : x.stage t = .alloced ty)
    (he : e.locked = false) : Ok (x.set t (x.cell.iget e) (.ilock (some ty)) a) p := by
  obtain ⟨rfl, hb⟩ := h.newborn (t := t) (by rw [hg]; rfl)
  obtain ⟨href, hlock, hplain, hcopy, hvalid⟩ := h.counted.iget he
  have hcounts : (x.stage t).counts.toNat = 0 := by rw [hg]; rfl
  have hlocks : (x.stage t).locks.toNat = 0 := by rw [hg]; rfl
  refine ⟨h.counted.set ?_ ?_ ?_ fun u _ => ?_, Or.inr ⟨t, ty, ?_⟩⟩
  · rw [hcounts, href, hplain, show (Stage.ilock (some ty)).counts.toNat = 1 from rfl]
    omega
  · rw [hlocks, hlock]
    rfl
  · exact trivial
  · exact (h.counted.fits u).mono (by rw [hplain]; exact fun _ => id) (hvalid u)
  · refine ⟨by rw [set_stage_self]; rfl, hb.type, (iget_disk x.cell e).trans hb.disk, ?_⟩
    exact hb.left.set (by rw [hg]; nofun) hplain fun hv => (hcopy hv).1

theorem Ok.ilock (h : Ok x p) (hg : x.stage t = .away) (hp : 0 < x.cell.plain) :
    Ok (x.set t x.cell (.ilock none) a) p := by
  obtain ⟨rfl, hs⟩ := h.settled hp
  refine ⟨h.counted.set (by rw [hg]; rfl) (by rw [hg]; rfl) hp fun u _ => h.counted.fits u,
    Or.inl (hs.set (Or.inl rfl) hs.type hs.copy hs.clean hs.linked)⟩

theorem Ok.alone (h : Ok x p) (hp : 0 < x.cell.plain)
    (hu : x.cell.plain = 1 → ∀ u, (x.stage u).uses = false) (hr : x.cell.ip.ref = 1) :
    x.cell.plain = 1 ∧ x.cell.ip.locked = false ∧ ∀ u, x.stage u = .away := by
  obtain ⟨rfl, hs⟩ := h.settled hp
  have href := h.counted.ref
  have hone : x.cell.plain = 1 := by omega
  have hcount : occ Finset.univ (fun t => (x.stage t).counts) true = 0 := by omega
  have haway : ∀ u, x.stage u = .away := by
    intro u
    rcases hs.stage u with hg | hg | hg
    · rw [hu hone u] at hg
      cases hg
    · exact hg
    · exact absurd (by rw [hg]; rfl) (occ_eq_zero.mp hcount u (mem_univ u))
  refine ⟨hone, Bool.eq_false_iff.mpr fun hl => ?_, haway⟩
  obtain ⟨u, hl⟩ := h.counted.exists_locks hl
  rw [haway u] at hl
  cases hl

theorem Ok.iput (h : Ok x p) (hg : x.stage t = .away) (hp : 0 < x.cell.plain)
    (hu : x.cell.plain = 1 → ∀ u, (x.stage u).uses = false) (hi : iput x.cell = .ok (c, g)) :
    ∃ q, PartialRun.run Phase.next p (startsFreeing t g) = some q ∧ Ok (x.set t c g a) q := by
  obtain ⟨rfl, hs⟩ := h.settled hp
  rw [Recycle.iput] at hi
  split_ifs at hi with hlast hl
  · obtain ⟨rfl, rfl⟩ := Prod.mk.inj (Except.ok.inj hi).symm
    obtain ⟨hone, hfree, haway⟩ := h.alone hp hu hlast.1
    have hclean := hs.clean hlast.2.1 hfree
    refine ⟨.dying t, rfl, h.counted.set ?_ ?_ trivial fun u _ => ?_, ?_, 0, ?_, nofun⟩
    · rw [hg, hone]
      rfl
    · rw [hg, hfree]
      rfl
    · rw [haway u]
      trivial
    · refine ⟨?_, fun u hu => ?_, hlast.2.1, hs.copy hlast.2.1, hlast.2.2, hs.type, ?_⟩
      · change x.cell.plain - 1 = 0
        omega
      · rw [set_stage_of_ne hu, haway u]
      · change x.cell.disk.nlink = 0
        rw [← hclean]
        exact hlast.2.2
    · rw [set_stage_self]
  · obtain ⟨rfl, rfl⟩ := Prod.mk.inj (Except.ok.inj hi).symm
    have href := h.counted.ref
    refine ⟨.used, rfl, h.counted.set ?_ ?_ trivial fun u _ => ?_,
      Or.inl (hs.set (Or.inr (Or.inl rfl)) hs.type hs.copy hs.clean fun hr => hs.linked ?_)⟩
    · rw [hg]
      change x.cell.ip.ref - 1 + x.cell.plain + 0 = x.cell.ip.ref + (x.cell.plain - 1) + 0
      omega
    · rw [hg]
    · refine (h.counted.fits u).mono (fun hus _ => ?_) fun _ => rfl
      change 0 < x.cell.plain - 1
      -- somebody relies on a plain reference, so there is another one
      have : x.cell.plain ≠ 1 := fun hone => by
        rw [hu hone u] at hus
        cases hus
      omega
    · change 0 < x.cell.ip.ref - 1 at hr
      omega

theorem ok_inj {g' : Stage}
    (h : (some (.ok (v, g')) : Option (Except Panic (Cell × Stage))) = some (.ok (c, g))) :
    c = v ∧ g = g' := by
  cases h
  exact ⟨rfl, rfl⟩

variable {b : Option (BitVec 16)}

theorem Ok.acquiresleep (h : Ok x p) (hg : x.stage t = .ilock b)
    (hm : Recycle.move x.cell (.ilock b) .acquiresleep = some (.ok (c, g))) :
    Ok (x.set t c g a) p ∧ (b.isSome → g = .load b) := by
  rw [Recycle.move] at hm
  split_ifs at hm with hl hv <;> obtain ⟨rfl, rfl⟩ := ok_inj hm <;> rw [Bool.not_eq_true] at hl
  · -- a valid copy means that the inode is not a new one
    cases b with
    | some ty =>
      obtain ⟨-, hb⟩ := h.newborn (t := t) (by rw [hg]; rfl)
      obtain ⟨u, hu⟩ := hb.left.valid hv
      rw [h.counted.locked (t := u) (by rw [hu]; rfl)] at hl
      cases hl
    | none =>
      obtain ⟨rfl, hs⟩ := h.settled_of_uses (t := t) (by rw [hg]; rfl)
      have hp := (h.counted.fits t).plain_pos (by rw [hg]; rfl)
      refine ⟨⟨h.counted.set ?_ ?_ ⟨hv, hp⟩ fun u _ => ?_, Or.inl (hs.set (Or.inl rfl) hs.type hs.copy nofun hs.linked)⟩, nofun⟩
      · rw [hg]
        rfl
      · rw [hg, hl]
        rfl
      · exact (h.counted.fits u).mono (fun _ => id) fun _ => rfl
  · rw [Bool.not_eq_true] at hv
    refine ⟨⟨h.counted.set ?_ ?_ ⟨hv, fun hb => ?_⟩ fun u _ => ?_, ?_⟩, fun _ => rfl⟩
    · rw [hg]
      cases b <;> rfl
    · rw [hg, hl]
      rfl
    · subst hb
      exact (h.counted.fits t).plain_pos (by rw [hg]; rfl)
    · exact (h.counted.fits u).mono (fun _ => id) fun _ => rfl
    · cases b with
      | none =>
        obtain ⟨rfl, hs⟩ := h.settled_of_uses (t := t) (by rw [hg]; rfl)
        exact Or.inl (hs.set (Or.inl rfl) hs.type hs.copy nofun hs.linked)
      | some ty =>
        obtain ⟨rfl, hb⟩ := h.newborn (t := t) (by rw [hg]; rfl)
        exact Or.inr ⟨t, ty, by rw [set_stage_self]; rfl, hb.type, hb.disk, hb.left.set (by rw [hg]; nofun) rfl id⟩

theorem Ok.load (h : Ok x p) (hg : x.stage t = .load b)
    (hm : Recycle.move x.cell (.load b) .load = some (.ok (c, g))) :
    Ok (x.set t c g a) p ∧ ∀ ty, b = some ty → c.ip.d = { type := ty } := by
  rw [Recycle.move] at hm
  split_ifs at hm with ht
  · cases hm
  obtain ⟨rfl, rfl⟩ := ok_inj hm
  have hothers : ∀ u, u ≠ t → (x.stage u).locks = false := fun u hu =>
    Bool.eq_false_iff.mpr fun hl => hu (h.counted.lock_unique hl (by rw [hg]; rfl))
  have hfits : ∀ v : Cell, x.cell.plain ≤ v.plain → ∀ u, u ≠ t → Fits v (x.stage u) := by
    intro v hv u hu
    refine (h.counted.fits u).mono (fun _ hp => by omega) fun hl => ?_
    rw [hothers u hu] at hl
    cases hl
  cases b with
  | none =>
    obtain ⟨rfl, hs⟩ := h.settled_of_uses (t := t) (by rw [hg]; rfl)
    have hp := (h.counted.fits t).plain_pos (by rw [hg]; rfl)
    refine ⟨⟨h.counted.set ?_ ?_ ⟨rfl, hp⟩ (hfits _ le_rfl),
      Or.inl (hs.set (Or.inl rfl) ht (fun _ => ht) (fun _ _ => rfl) nofun)⟩, nofun⟩
    · rw [hg]
      rfl
    · rw [hg]
      rfl
  | some ty =>
    obtain ⟨rfl, hb⟩ := h.newborn (t := t) (by rw [hg]; rfl)
    refine ⟨⟨h.counted.set ?_ ?_ ⟨rfl, Nat.succ_pos _⟩ (hfits _ (Nat.le_succ _)), Or.inl ?_⟩, ?_⟩
    · rw [hg]
      change x.cell.ip.ref + x.cell.plain + 1 = x.cell.ip.ref + (x.cell.plain + 1) + 0
      omega
    · rw [hg]
      rfl
    · refine ⟨forall_set (P := fun _ g => g.uses ∨ g = .away ∨ g = .dropping) (Or.inl rfl) fun u hu => ?_,
        ht, fun _ => ht, fun _ _ => rfl, nofun⟩
      rcases hb.left.stage u (by simpa using hu) with hs | hs | hs
      · exact Or.inr (Or.inl hs)
      · have hl := hothers u hu
        rw [hs] at hl
        cases hl
      · exact Or.inr (Or.inr hs)
    · intro ty' hty
      cases hty
      exact hb.disk

theorem Ok.locked (h : Ok x p) (hg : x.stage t = .holds) (hv : v.ip.valid = x.cell.ip.valid)
    (hp : v.plain = x.cell.plain) (hr : v.ip.ref = x.cell.ip.ref) (hn : g = .holds ∨ g = .away)
    (hl : v.ip.locked = g.locks) (ht : v.disk.type ≠ 0) (hc : v.ip.d.type ≠ 0)
    (hd : v.ip.locked = false → v.ip.d = v.disk) : Ok (x.set t v g a) p := by
  obtain ⟨rfl, hs⟩ := h.settled_of_uses (t := t) (by rw [hg]; rfl)
  have hfit := h.counted.fits t
  rw [hg] at hfit
  have hlocked := h.counted.locked (t := t) (by rw [hg]; rfl)
  refine ⟨h.counted.set ?_ ?_ ?_ fun u _ => ?_, Or.inl (hs.set ?_ ht (fun _ => hc) (fun _ => hd) fun _ hn => ?_)⟩
  · rw [hg, hr, hp]
    rcases hn with rfl | rfl <;> rfl
  · rw [hg, hl, hlocked]
    rcases hn with rfl | rfl <;> rfl
  · rcases hn with rfl | rfl
    · exact ⟨hv.trans hfit.1, hp ▸ hfit.2⟩
    · trivial
  · exact (h.counted.fits u).mono (by rw [hp]; exact fun _ => id) fun _ => hv
  · rcases hn with rfl | rfl
    · exact Or.inl rfl
    · exact Or.inr (Or.inl rfl)
  · rw [hv, hfit.1] at hn
    cases hn

theorem Ok.used_stage (h : Ok x p) (hp : p = .free ∨ p = .used) (t : Fin n) :
    (x.stage t).uses ∨ (x.stage t).born ≠ none ∨ x.stage t = .away ∨ x.stage t = .cleared ∨
      x.stage t = .dropping := by
  rcases hp with rfl | rfl
  · rcases h.phase.2.stage t nofun with hg | hg | hg <;> simp [hg]
  · rcases h.phase with hs | ⟨u, ty, hb⟩
    · rcases hs.stage t with hg | hg | hg <;> simp [hg]
    · by_cases htu : t = u
      · simp [htu, hb.born]
      · rcases hb.left.stage t (by simpa using htu) with hg | hg | hg <;> simp [hg]

theorem Ok.dying (h : Ok x p) {i : ℕ} (hg : x.stage t = .itrunc i) :
    p = .dying t ∧ Alone x t ∧ ∀ j, j.val < i → x.cell.ip.d.addrs j = 0 := by
  obtain hp | hp | ⟨rfl, -⟩ | ⟨-, hc⟩ := h.freeing (t := t) (by rw [hg]; nofun)
  · simpa [hg, Stage.uses, Stage.born] using h.used_stage (Or.inl hp) t
  · simpa [hg, Stage.uses, Stage.born] using h.used_stage (Or.inr hp) t
  · obtain ⟨ha, k, hk, hz⟩ := h.phase
    cases hg.symm.trans hk
    exact ⟨rfl, ha, hz⟩
  · cases hg.symm.trans hc

theorem Ok.truncated (h : Ok x p) (hg : x.stage t = .clear) : p = .truncated t ∧ Alone x t := by
  obtain hp | hp | ⟨-, i, hi⟩ | ⟨rfl, -⟩ := h.freeing (t := t) (by rw [hg]; nofun)
  · simpa [hg, Stage.uses, Stage.born] using h.used_stage (Or.inl hp) t
  · simpa [hg, Stage.uses, Stage.born] using h.used_stage (Or.inr hp) t
  · cases hg.symm.trans hi
  · exact ⟨rfl, h.phase.1⟩

theorem Counted.alone (h : Counted x) (ha : Alone x t) (hp : v.plain = 0)
    (hr : v.ip.ref = x.cell.ip.ref) (hl : v.ip.locked = x.cell.ip.locked)
    (hcounts : g.counts = (x.stage t).counts) (hlocks : g.locks = (x.stage t).locks)
    (hf : Fits v g) : Counted (x.set t v g a) := by
  refine h.set (by rw [hp, ha.plain, hr, hcounts]) (by rw [hl, hlocks]) hf fun u hu => ?_
  rw [ha.stage u hu]
  trivial

theorem Ok.itrunc (h : Ok x p) {i : ℕ} (hg : x.stage t = .itrunc i)
    (hm : Recycle.move x.cell (.itrunc i) .itrunc = some (.ok (c, g))) :
    ∃ q, PartialRun.run Phase.next p (acts t (.itrunc i) .itrunc) = some q ∧ Ok (x.set t c g a) q := by
  obtain ⟨rfl, ha, hz⟩ := h.dying hg
  have hothers : ∀ v g', ∀ u, u ≠ t → (x.set t v g' a).stage u = .away := fun v g' u hu => by
    rw [set_stage_of_ne hu, ha.stage u hu]
  rw [Recycle.move] at hm
  rw [acts]
  split_ifs at hm ⊢ with hi
  · obtain ⟨rfl, rfl⟩ := ok_inj hm
    refine ⟨.dying t, rfl, h.counted.alone ha ha.plain rfl rfl (by rw [hg]; rfl) (by rw [hg]; rfl) trivial,
      ⟨ha.plain, hothers _ _, ha.valid, ha.type, ha.nlink, ha.disk⟩, i + 1, set_stage_self, fun j hj => ?_⟩
    change update x.cell.ip.d.addrs ⟨i, hi⟩ 0 j = 0
    by_cases hji : j = ⟨i, hi⟩
    · rw [hji, update_self]
    · rw [update_of_ne hji]
      have : j.val ≠ i := fun he => hji (Fin.ext he)
      exact hz j (by omega)
  · obtain ⟨rfl, rfl⟩ := ok_inj hm
    refine ⟨.truncated t, by simp [PartialRun.run, Phase.next],
      h.counted.alone ha ha.plain rfl rfl (by rw [hg]; rfl) (by rw [hg]; rfl) trivial,
      ⟨ha.plain, hothers _ _, ha.valid, ha.type, ha.nlink, ha.type, ha.nlink⟩, set_stage_self, rfl, rfl,
      fun j => hz j (by have := j.isLt; omega)⟩

theorem Ok.clear (h : Ok x p) (hg : x.stage t = .clear)
    (hm : Recycle.move x.cell .clear .clear = some (.ok (c, g))) :
    PartialRun.run Phase.next p (acts t .clear .clear) = some .free ∧ Ok (x.set t c g a) .free := by
  obtain ⟨rfl, ha⟩ := h.truncated hg
  obtain ⟨rfl, rfl⟩ := ok_inj hm
  refine ⟨by simp [PartialRun.run, Phase.next, acts],
    h.counted.alone ha ha.plain rfl rfl (by rw [hg]; rfl) (by rw [hg]; rfl) trivial, rfl, ha.plain, fun u _ => ?_,
    fun _ => ⟨t, set_stage_self⟩⟩
  by_cases hut : u = t
  · subst hut
    exact Or.inr (Or.inl set_stage_self)
  · rw [set_stage_of_ne hut]
    exact Or.inl (ha.stage u hut)

theorem Leftover.retire {new : Option (Fin n)} (h : Leftover x new)
    (hg : g = .away ∨ g = .dropping) (hp : v.plain = x.cell.plain)
    (hv : v.ip.valid → x.cell.ip.valid ∧ x.stage t ≠ .cleared) : Leftover (x.set t v g a) new := by
  refine ⟨hp.trans h.plain, fun u hu => ?_, fun hv' => ?_⟩
  · by_cases hut : u = t
    · subst hut
      rw [set_stage_self]
      rcases hg with hg | hg
      · exact Or.inl hg
      · exact Or.inr (Or.inr hg)
    · rw [set_stage_of_ne hut]
      exact h.stage u hu
  · obtain ⟨hv, hne⟩ := hv hv'
    obtain ⟨u, hu⟩ := h.valid hv
    refine ⟨u, ?_⟩
    rwa [set_stage_of_ne]
    rintro rfl
    exact hne hu

theorem Newborn.retire (h : Newborn x u ty) (hb : (x.stage t).born = none)
    (hg : g = .away ∨ g = .dropping) (hp : v.plain = x.cell.plain) (hd : v.disk = x.cell.disk)
    (hv : v.ip.valid → x.cell.ip.valid ∧ x.stage t ≠ .cleared) : Newborn (x.set t v g a) u ty := by
  have htu : u ≠ t := by
    rintro rfl
    cases hb.symm.trans h.born
  exact ⟨by rw [set_stage_of_ne htu]; exact h.born, h.type, hd.trans h.disk, h.left.retire hg hp hv⟩

theorem Ok.releasesleep (h : Ok x p) (hg : x.stage t = .cleared)
    (hm : Recycle.move x.cell .cleared .releasesleep = some (.ok (c, g))) : Ok (x.set t c g a) p := by
  obtain ⟨rfl, rfl⟩ := ok_inj hm
  have hl := h.counted.locked (t := t) (by rw [hg]; rfl)
  refine ⟨h.counted.set (by rw [hg]; rfl) (by rw [hg, hl]; rfl) trivial fun u hu => ?_, ?_⟩
  · refine (h.counted.fits u).mono (fun _ => id) fun hlu => ?_
    exact absurd (h.counted.lock_unique hlu (by rw [hg]; rfl)) hu
  obtain rfl | rfl | ⟨-, i, hi⟩ | ⟨-, hi⟩ := h.freeing (t := t) (by rw [hg]; nofun)
  · exact ⟨h.phase.1, h.phase.2.retire (Or.inr rfl) rfl nofun⟩
  · rcases h.phase with hs | ⟨u, ty, hb⟩
    · simpa [hg, Stage.uses] using hs.stage t
    · exact Or.inr ⟨u, ty, hb.retire (by rw [hg]; rfl) (Or.inr rfl) rfl rfl nofun⟩
  · cases hg.symm.trans hi
  · cases hg.symm.trans hi

theorem Ok.drop (h : Ok x p) (hg : x.stage t = .dropping)
    (hm : Recycle.move x.cell .dropping .drop = some (.ok (c, g))) : Ok (x.set t c g a) p := by
  obtain ⟨rfl, rfl⟩ := ok_inj hm
  have hr := h.counted.ref_pos (t := t) (by rw [hg]; exact Or.inl rfl)
  have hkeep : x.cell.ip.valid → x.cell.ip.valid ∧ x.stage t ≠ .cleared :=
    fun hv => ⟨hv, by rw [hg]; nofun⟩
  refine ⟨h.counted.set ?_ (by rw [hg]; rfl) trivial fun u _ => ?_, ?_⟩
  · rw [hg]
    change x.cell.ip.ref - 1 + x.cell.plain + 1 = x.cell.ip.ref + x.cell.plain + 0
    omega
  · exact (h.counted.fits u).mono (fun _ => id) fun _ => rfl
  obtain rfl | rfl | ⟨-, i, hi⟩ | ⟨-, hi⟩ := h.freeing (t := t) (by rw [hg]; nofun)
  · exact ⟨h.phase.1, h.phase.2.retire (Or.inl rfl) rfl hkeep⟩
  · rcases h.phase with hs | ⟨u, ty, hb⟩
    · exact Or.inl (hs.set (Or.inr (Or.inl rfl)) hs.type hs.copy hs.clean fun _ => hs.linked hr)
    · exact Or.inr ⟨u, ty, hb.retire (by rw [hg]; rfl) (Or.inl rfl) rfl rfl hkeep⟩
  · cases hg.symm.trans hi
  · cases hg.symm.trans hi

theorem Ok.move (h : Ok x p) {m : Move} (hm : Recycle.move x.cell (x.stage t) m = some (.ok (c, g))) :
    ∃ q, PartialRun.run Phase.next p (acts t (x.stage t) m) = some q ∧ Ok (x.set t c g a) q := by
  cases hg : x.stage t with
  | away => cases m <;> simp [hg, Recycle.move] at hm
  | alloced ty => cases m <;> simp [hg, Recycle.move] at hm
  | ilock b =>
    rw [hg] at hm
    cases m with
    | acquiresleep => exact ⟨p, rfl, (h.acquiresleep hg hm).1⟩
    | _ => cases hm
  | load b =>
    rw [hg] at hm
    cases m with
    | load => exact ⟨p, rfl, (h.load hg hm).1⟩
    | _ => cases hm
  | holds =>
    rw [hg] at hm
    obtain ⟨-, hs⟩ := h.settled_of_uses (t := t) (by rw [hg]; rfl)
    have hfit := h.counted.fits t
    rw [hg] at hfit
    have hl := h.counted.locked (t := t) (by rw [hg]; rfl)
    cases m with
    | change d =>
      rw [Recycle.move] at hm
      split_ifs at hm with ht
      obtain ⟨rfl, rfl⟩ := ok_inj hm
      refine ⟨p, rfl, h.locked hg rfl rfl rfl (Or.inl rfl) hl hs.type ?_ fun hn => ?_⟩
      · change d.type ≠ 0
        rw [ht]
        exact hs.copy hfit.1
      · cases hl.symm.trans hn
    | iupdate =>
      obtain ⟨rfl, rfl⟩ := ok_inj hm
      refine ⟨p, rfl, h.locked hg rfl rfl rfl (Or.inl rfl) hl ?_ (hs.copy hfit.1) fun _ => rfl⟩
      exact hs.copy hfit.1
    | iunlock =>
      rw [Recycle.move] at hm
      split_ifs at hm with hd hr
      · cases hm
      obtain ⟨rfl, rfl⟩ := ok_inj hm
      refine ⟨p, rfl, h.locked hg rfl rfl rfl (Or.inr rfl) rfl hs.type (hs.copy hfit.1) fun _ => ?_⟩
      exact hd
    | _ => cases hm
  | itrunc i =>
    rw [hg] at hm
    cases m with
    | itrunc => exact h.itrunc hg hm
    | _ => cases hm
  | clear =>
    rw [hg] at hm
    cases m with
    | clear => exact ⟨.free, h.clear hg hm⟩
    | _ => cases hm
  | cleared =>
    rw [hg] at hm
    cases m with
    | releasesleep => exact ⟨p, rfl, h.releasesleep hg hm⟩
    | _ => cases hm
  | dropping =>
    rw [hg] at hm
    cases m with
    | drop => exact ⟨p, rfl, h.drop hg hm⟩
    | _ => cases hm

theorem Ok.in_call (h : Ok x p) (hp : p = .dying t ∨ p = .truncated t) : x.stage t ≠ .away := by
  rcases hp with rfl | rfl
  · obtain ⟨-, i, hi, -⟩ := h.phase
    rw [hi]
    nofun
  · rw [h.phase.2.1]
    nofun

theorem move_error {m : Move} {e : Panic} (hm : move c g m = some (.error e)) :
    (∃ b, g = .load b ∧ c.disk.type = 0) ∨ g = .holds ∧ c.ip.ref < 1 := by
  revert hm
  fun_cases move c g m <;> simp_all

theorem Ok.move_ne_error (h : Ok x p) (t : Fin n) (m : Move) (e : Panic) :
    Recycle.move x.cell (x.stage t) m ≠ some (.error e) := by
  intro hm
  obtain ⟨b, hg, ht⟩ | ⟨hg, hr⟩ := move_error hm
  · cases b with
    | none => exact (h.settled_of_uses (t := t) (by rw [hg]; rfl)).2.type ht
    | some ty =>
      obtain ⟨-, hb⟩ := h.newborn (t := t) (by rw [hg]; rfl)
      rw [hb.disk] at ht
      exact hb.type ht
  · have := h.counted.ref_pos (t := t) (by rw [hg]; exact Or.inr rfl)
    omega

theorem Ok.iput_ne_error (h : Ok x p) (hp : 0 < x.cell.plain)
    (hu : x.cell.plain = 1 → ∀ u, (x.stage u).uses = false) (e : Panic) :
    Recycle.iput x.cell ≠ .error e := by
  intro hi
  rw [Recycle.iput] at hi
  split_ifs at hi with hlast hl
  have := (h.alone hp hu hlast.1).2.1
  rw [this] at hl
  cases hl

theorem Ok.iput_last (h : Ok x p) (hp : 0 < x.cell.plain)
    (hu : x.cell.plain = 1 → ∀ u, (x.stage u).uses = false) (hr : x.cell.ip.ref = 1)
    (hn : x.cell.disk.nlink = 0) : ∃ c, Recycle.iput x.cell = .ok (c, .itrunc 0) := by
  obtain ⟨rfl, hs⟩ := h.settled hp
  obtain ⟨-, hfree, -⟩ := h.alone hp hu hr
  have hv : x.cell.ip.valid = true := by
    by_contra hv
    exact hs.linked (by omega) (by simpa using hv) hn
  have hd : x.cell.ip.d.nlink = 0 := by rw [hs.clean hv hfree, hn]
  rw [Recycle.iput, if_pos ⟨hr, hv, hd⟩, if_neg (by rw [hfree]; nofun)]
  exact ⟨_, rfl⟩

end Xv6.Fs.Recycle
