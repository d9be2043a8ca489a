import Xv6.Fs.InodeLife
import Xv6.Fs.Table

/-! The inode table with its numbers shared by several processes: `ialloc` scans the inodes on the
disk, `iget` finds or recycles an entry of `itable`. Seen from one inode number, every section is
a section of the single inode, so the life of each number is as it should be. -/
namespace Xv6.Fs.Recycle
open PartialRun List Option
open Function (update update_self update_of_ne update_eq_self update_idem)

inductive Pc where
  | idle
  /-- In the loop of `ialloc`, before the inode `inum`. -/
  | ialloc (type : BitVec 16) (inum : ℕ)
  /-- In `ialloc`, before `iget(dev, inum)`. -/
  | alloced (type : BitVec 16) (inum : ℕ)
  /-- In a call on the entry `k`. -/
  | on (k : InodePtr) (g : Stage)
  deriving DecidableEq

structure Table (n : ℕ) where
  disk : ℕ → Dinode
  itable : InodePtr → Inode := fun _ => {}
  plain : InodePtr → ℕ := fun _ => 0
  pc : Fin n → Pc := fun _ => .idle
  acts : List (ℕ × Act n) := []
  panicked : Option Panic := none

/-- `lookup` is the `iget` of `dirlookup`, for a number in a directory entry. -/
inductive Event (n : ℕ) where
  | lookup (t : Fin n) (inum : ℕ)
  | idup (t : Fin n) (k : InodePtr)
  | ialloc (t : Fin n) (type : BitVec 16)
  | scan (t : Fin n)
  | iget (t : Fin n)
  | ilock (t : Fin n) (k : InodePtr)
  | iput (t : Fin n) (k : InodePtr)
  | move (t : Fin n) (m : Move)

def entry (itable : InodePtr → Inode) (inum : ℕ) : Option InodePtr :=
  (List.finRange NINODE).find? fun k => 0 < (itable k).ref ∧ (itable k).inum = inum

def empty (itable : InodePtr → Inode) : Option InodePtr :=
  (List.finRange NINODE).find? fun k => (itable k).ref = 0

def Pc.uses (k : InodePtr) : Pc → Bool
  | .on k' g => k' = k ∧ g.uses
  | _ => false

namespace Table
variable {n : ℕ}

def cell (s : Table n) (k : InodePtr) : Cell :=
  { disk := s.disk (s.itable k).inum, ip := s.itable k, plain := s.plain k }

def setPc (s : Table n) (t : Fin n) (pc : Pc) : Table n := { s with pc := update s.pc t pc }

def panic (s : Table n) (e : Panic) : Table n := { s with panicked := some e }

def write (s : Table n) (k : InodePtr) (c : Cell) : Table n :=
  { s with
    disk := update s.disk (s.itable k).inum c.disk
    itable := update s.itable k c.ip
    plain := update s.plain k c.plain }

def put (s : Table n) (t : Fin n) (k : InodePtr) (c : Cell) (g : Stage) (as : List (Act n)) :
    Table n :=
  { (s.write k c).setPc t (if g = .away then .idle else .on k g) with
    acts := s.acts ++ as.map ((s.itable k).inum, ·) }

def setEntry (s : Table n) (k : InodePtr) (e : Inode) : Table n :=
  { s with itable := update s.itable k e }

def iget (s : Table n) (inum : ℕ) : Option (Table n × InodePtr) :=
  match entry s.itable inum with
  | some k => some (s.setEntry k { s.itable k with ref := (s.itable k).ref + 1 }, k)
  | none => (empty s.itable).map fun k =>
    (s.setEntry k { s.itable k with inum := inum, ref := 1, valid := false }, k)

end Table

variable {n : ℕ} (ninodes : ℕ)

def act (s : Table n) : Event n → Option (Table n)
  | .lookup t inum => match s.pc t with
    | .idle => match s.iget inum with
      | some (u, k) => some { u with plain := update u.plain k (u.plain k + 1) }
      | none => some (s.panic .igetNoInodes)
    | _ => none
  | .idup t k => match s.pc t with
    | .idle =>
      if 0 < s.plain k then
        let c := s.cell k
        some (s.write k { c with ip := { c.ip with ref := c.ip.ref + 1 }, plain := c.plain + 1 })
      else none
    | _ => none
  | .ialloc t type => match s.pc t with
    | .idle => if type ≠ 0 then some (s.setPc t (.ialloc type 1)) else none
    | _ => none
  | .scan t => match s.pc t with
    | .ialloc type inum =>
      if inum < ninodes then
        if (s.disk inum).type = 0 then
          some { s.setPc t (.alloced type inum) with
            disk := update s.disk inum { type := type }
            acts := s.acts ++ [(inum, .ialloc t)] }
        else some (s.setPc t (.ialloc type (inum + 1)))
      else some (s.panic .iallocNoInodes)
    | _ => none
  | .iget t => match s.pc t with
    | .alloced type inum => match s.iget inum with
      | some (u, k) => some (u.setPc t (.on k (.ilock (some type))))
      | none => some (s.panic .igetNoInodes)
    | _ => none
  | .ilock t k => match s.pc t with
    | .idle =>
      if 0 < s.plain k then
        if (s.itable k).ref < 1 then some (s.panic .ilock) else some (s.setPc t (.on k (.ilock none)))
      else none
    | _ => none
  | .iput t k => match s.pc t with
    | .idle =>
      -- the reference is the caller's own, and nobody else works with it
      if 0 < s.plain k ∧ (s.plain k = 1 → ∀ u, (s.pc u).uses k = false) then
        match iput (s.cell k) with
        | .ok (c, g) => some (s.put t k c g (startsFreeing t g))
        | .error e => some (s.panic e)
      else none
    | _ => none
  | .move t m => match s.pc t with
    | .on k g => match move (s.cell k) g m with
      | some (.ok (c, g')) => some (s.put t k c g' (acts t g m))
      | some (.error e) => some (s.panic e)
      | none => none
    | _ => none

def step (s : Table n) (e : Event n) : Option (Table n) :=
  if s.panicked = none then act ninodes s e else none

/-- A directory entry is followed only to an inode that has links. -/
def Linked (s : Table n) : Event n → Prop
  | .lookup _ inum => (s.disk inum).type ≠ 0 ∧ (s.disk inum).nlink ≠ 0
  | _ => True

instance (s : Table n) (e : Event n) : Decidable (Linked s e) :=
  match e with
  | .lookup _ _ => instDecidableAnd
  | .idup _ _ | .ialloc _ _ | .scan _ | .iget _ | .ilock _ _ | .iput _ _ | .move _ _ => isTrue trivial

/-- Where `pc` is with respect to the inode `i`. -/
def Pc.stage (itable : InodePtr → Inode) (i : ℕ) : Pc → Stage
  | .alloced type inum => if inum = i then .alloced type else .away
  | .on k g => if (itable k).inum = i then g else .away
  | _ => .away

def actsOf (s : Table n) (i : ℕ) : List (Act n) := (s.acts.filter (·.1 = i)).map (·.2)

def one (s : Table n) (i : ℕ) : One n where
  cell := match entry s.itable i with
    | some k => s.cell k
    | none => { disk := s.disk i }
  stage t := (s.pc t).stage s.itable i
  acts := actsOf s i

structure Good (s : Table n) (disk : ℕ → Dinode) : Prop where
  uniq : Uniq s.itable
  empty : ∀ k, (s.itable k).ref = 0 → (s.itable k).locked = false ∧ s.plain k = 0
  on : ∀ t k g, s.pc t = .on k g → 0 < (s.itable k).ref ∧ (g.counts ∨ g.uses)
  scan : ∀ t ty i, s.pc t = .ialloc ty i → ty ≠ 0
  life : ∀ i, ∃ p, run Phase.next (if (disk i).type = 0 then .free else .used) (actsOf s i) = some p ∧
    Ok (one s i) p

variable {s u : Table n} {disk : ℕ → Dinode} {t : Fin n} {k : InodePtr} {i j : ℕ} {c : Cell} {g : Stage}
  {as : List (Act n)}

theorem entry_eq_some (hu : Uniq s.itable) :
    entry s.itable i = some k ↔ 0 < (s.itable k).ref ∧ (s.itable k).inum = i := by
  constructor
  · intro h
    simpa using find?_some h
  · intro h
    cases hf : entry s.itable i with
    | none => exact absurd h (by simpa using find?_eq_none.mp hf k (mem_finRange k))
    | some k' =>
      have hk' : 0 < (s.itable k').ref ∧ (s.itable k').inum = i := by simpa using find?_some hf
      rw [hu k' k hk'.1 h.1 (hk'.2.trans h.2.symm)]

theorem entry_eq_none :
    entry s.itable i = none ↔ ∀ k, 0 < (s.itable k).ref → (s.itable k).inum ≠ i := by
  rw [entry, find?_eq_none]
  simp

theorem entry_congr {f : InodePtr → Inode} (hs : Uniq s.itable) (hu : Uniq f)
    (h : ∀ k, (0 < (f k).ref ∧ (f k).inum = i) ↔ 0 < (s.itable k).ref ∧ (s.itable k).inum = i) :
    entry f i = entry s.itable i := by
  have hf : ∀ k, entry f i = some k ↔ 0 < (f k).ref ∧ (f k).inum = i :=
    fun k => entry_eq_some (s := { s with itable := f }) hu
  refine Option.ext fun k => ?_
  rw [hf, h, entry_eq_some hs]

theorem cell_one (hu : Uniq s.itable) (hr : 0 < (s.itable k).ref) :
    (one s (s.itable k).inum).cell = s.cell k := by
  rw [one, (entry_eq_some hu).mpr ⟨hr, rfl⟩]

theorem cell_one_none (h : entry s.itable i = none) : (one s i).cell = { disk := s.disk i } := by
  rw [one, h]

theorem actsOf_append (s : Table n) (j : ℕ) (as : List (Act n)) (i : ℕ) :
    ((s.acts ++ as.map (j, ·)).filter (·.1 = i)).map (·.2) =
      actsOf s i ++ if j = i then as else [] := by
  rw [filter_append, map_append, actsOf]
  congr 1
  split_ifs with h
  · simp [List.filter_map, Function.comp_def, h]
  · simp [List.filter_map, Function.comp_def, h]

theorem disk_one (hu : Uniq s.itable) (i : ℕ) : (one s i).cell.disk = s.disk i := by
  rw [one]
  cases he : entry s.itable i with
  | none => rfl
  | some k =>
    have hk := (entry_eq_some hu).mp he
    exact congrArg s.disk hk.2

theorem cell_one_congr (hs : Uniq s.itable) (hu : Uniq u.itable) (hdisk : u.disk i = s.disk i)
    (hold : ∀ k, 0 < (s.itable k).ref → (s.itable k).inum = i →
      u.itable k = s.itable k ∧ u.plain k = s.plain k)
    (hnew : ∀ k, 0 < (u.itable k).ref → (u.itable k).inum = i →
      0 < (s.itable k).ref ∧ (s.itable k).inum = i) : (one u i).cell = (one s i).cell := by
  have hentry : entry u.itable i = entry s.itable i := by
    refine entry_congr hs hu fun k => ⟨fun h => hnew k h.1 h.2, fun h => ?_⟩
    rwa [(hold k h.1 h.2).1]
  rw [one, one, hentry]
  cases he : entry s.itable i with
  | none => simp only [hdisk]
  | some k =>
    have hk := (entry_eq_some hs).mp he
    obtain ⟨h₁, h₂⟩ := hold k hk.1 hk.2
    simp only [Table.cell, h₁, h₂, hk.2, hdisk]

section
variable {pc : Pc} (hpc : u.pc = update s.pc t pc)
include hpc

theorem stage_next (hst : ∀ v, (s.pc v).stage u.itable i = (s.pc v).stage s.itable i) :
    (one u i).stage = update (one s i).stage t (pc.stage u.itable i) := by
  funext v
  change (u.pc v).stage u.itable i = _
  rw [hpc]
  by_cases hv : v = t
  · rw [hv, update_self, update_self]
  · rw [update_of_ne hv, update_of_ne hv]
    exact hst v

theorem stage_next_away (hst : ∀ v, (s.pc v).stage u.itable i = (s.pc v).stage s.itable i)
    (ht : (s.pc t).stage s.itable i = .away) (hi : pc.stage u.itable i = .away) :
    (one u i).stage = (one s i).stage := by
  rw [stage_next hpc hst, hi, ← ht]
  exact update_eq_self ..

end

theorem Good.next {pc : Pc} (h : Good s disk) (hpc : u.pc = update s.pc t pc)
    (huniq : Uniq u.itable)
    (hempty : ∀ k, (u.itable k).ref = 0 → (u.itable k).locked = false ∧ u.plain k = 0)
    (hkeep : ∀ v k g, v ≠ t → s.pc v = .on k g → 0 < (u.itable k).ref)
    (hon : ∀ k g, pc = .on k g → 0 < (u.itable k).ref ∧ (g.counts ∨ g.uses))
    (hscan : ∀ ty i, pc = .ialloc ty i → ty ≠ 0)
    (hlife : ∀ i, ∃ p, run Phase.next (if (disk i).type = 0 then .free else .used) (actsOf u i) =
      some p ∧ Ok (one u i) p) : Good u disk := by
  refine ⟨huniq, hempty, fun v k g hv => ?_, fun v ty i hv => ?_, hlife⟩ <;> rw [hpc] at hv <;>
    by_cases hvt : v = t
  · rw [hvt, update_self] at hv
    exact hon k g hv
  · rw [update_of_ne hvt] at hv
    exact ⟨hkeep v k g hvt hv, (h.on v k g hv).2⟩
  · rw [hvt, update_self] at hv
    exact hscan ty i hv
  · rw [update_of_ne hvt] at hv
    exact h.scan v ty i hv

theorem inum_put (hi : c.ip.inum = (s.itable k).inum) (k' : InodePtr) :
    ((s.put t k c g as).itable k').inum = (s.itable k').inum := by
  change (update s.itable k c.ip k').inum = _
  by_cases h : k' = k
  · rw [h, update_self, hi]
  · rw [update_of_ne h]

theorem stage_put (hi : c.ip.inum = (s.itable k).inum) (pc : Pc) :
    pc.stage (s.put t k c g as).itable i = pc.stage s.itable i := by
  cases pc with
  | on k' g' => simp only [Pc.stage, inum_put hi k']
  | idle => rfl
  | ialloc ty i' => rfl
  | alloced ty i' => rfl

section
variable (hu : Uniq s.itable) (hr : 0 < (s.itable k).ref) (hi : c.ip.inum = (s.itable k).inum)
include hu hr hi

theorem uniq_put : Uniq (s.put t k c g as).itable := hu.same (fun _ => hr) hi

theorem one_put_of_ne (ht : (s.pc t).stage s.itable i = .away) (hne : i ≠ (s.itable k).inum) :
    one (s.put t k c g as) i = one s i := by
  have hkk : ∀ k', (s.itable k').inum = i → k' ≠ k := by
    rintro k' hk' rfl
    exact hne hk'.symm
  refine One.ext (cell_one_congr hu (uniq_put hu hr hi) (update_of_ne hne ..)
    (fun k' _ hk' => ?_) fun k' hr' hk' => ?_) ?_ ?_
  · exact ⟨update_of_ne (hkk k' hk') .., update_of_ne (hkk k' hk') ..⟩
  · rw [inum_put hi] at hk'
    rw [show (s.put t k c g as).itable k' = s.itable k' from
      update_of_ne (hkk k' hk') ..] at hr'
    exact ⟨hr', hk'⟩
  · refine stage_next_away (s := s) rfl (fun v => stage_put hi _) ht ?_
    split_ifs
    · rfl
    · rw [stage_put hi, Pc.stage, if_neg hne.symm]
  · refine (actsOf_append s (s.itable k).inum as i).trans ?_
    rw [if_neg hne.symm, append_nil]
    rfl

theorem one_put_self :
    one (s.put t k c g as) (s.itable k).inum = ((one s (s.itable k).inum).set t c g as).norm := by
  have hcell : (one (s.put t k c g as) (s.itable k).inum).cell = c.norm := by
    rw [Cell.norm]
    split_ifs with h0
    · have hnone : entry (s.put t k c g as).itable (s.itable k).inum = none := by
        refine entry_eq_none.mpr fun k' hk' heq => ?_
        rw [inum_put hi] at heq
        by_cases h : k' = k
        · rw [h, show (s.put t k c g as).itable k = c.ip from update_self .., h0] at hk'
          exact absurd hk' (Nat.lt_irrefl 0)
        · rw [show (s.put t k c g as).itable k' = s.itable k' from update_of_ne h ..] at hk'
          exact h (hu k' k hk' hr heq)
      rw [cell_one_none hnone, show (s.put t k c g as).disk (s.itable k).inum = c.disk from update_self ..]
    · have hk : (s.put t k c g as).itable k = c.ip := update_self ..
      have := cell_one (s := s.put t k c g as) (k := k) (uniq_put hu hr hi) (by rw [hk]; omega)
      rw [hk, hi] at this
      rw [this, Table.cell, hk, hi, show (s.put t k c g as).disk (s.itable k).inum = c.disk from update_self ..,
        show (s.put t k c g as).plain k = c.plain from update_self ..]
  have hstage : (one (s.put t k c g as) (s.itable k).inum).stage =
      update (one s (s.itable k).inum).stage t g := by
    rw [stage_next (s := s) rfl fun v => stage_put hi _, stage_put hi]
    split_ifs with hg
    · rw [hg]
      rfl
    · rw [Pc.stage, if_pos rfl]
  have hacts : (one (s.put t k c g as) (s.itable k).inum).acts = (one s (s.itable k).inum).acts ++ as := by
    refine (actsOf_append s (s.itable k).inum as _).trans ?_
    rw [if_pos rfl]
    rfl
  exact One.ext hcell hstage hacts

end

variable {g' : Stage}

theorem stage_on (ht : s.pc t = .on k g') : (one s (s.itable k).inum).stage t = g' := by
  change (s.pc t).stage s.itable _ = _
  rw [ht, Pc.stage, if_pos rfl]

theorem Good.put (h : Good s disk) (hr : 0 < (s.itable k).ref) (hi : c.ip.inum = (s.itable k).inum)
    (ht : ∀ i, i ≠ (s.itable k).inum → (s.pc t).stage s.itable i = .away)
    (hg : g = .away ∨ g.counts ∨ g.uses)
    (hlife : ∀ p, Ok (one s (s.itable k).inum) p → ∃ q, run Phase.next p as = some q ∧
      Ok ((one s (s.itable k).inum).set t c g as) q) : Good (s.put t k c g as) disk := by
  obtain ⟨p, hrun, hok⟩ := h.life (s.itable k).inum
  obtain ⟨q, hrun', hok'⟩ := hlife p hok
  have hput : (s.put t k c g as).itable k = c.ip := update_self ..
  have hother : ∀ k', k' ≠ k → (s.put t k c g as).itable k' = s.itable k' := fun k' hne =>
    update_of_ne hne ..
  refine h.next rfl (uniq_put h.uniq hr hi) (fun k' hk' => ?_) (fun v k' g' hvt hv => ?_)
    (fun k' g' hv => ?_) (fun ty i' hv => ?_) fun i => ?_
  · by_cases hkk : k' = k
    · subst hkk
      rw [hput] at hk' ⊢
      obtain ⟨hplain, hlock, -⟩ := hok'.counted.idle hk'
      exact ⟨hlock, (update_self ..).trans hplain⟩
    · rw [hother k' hkk] at hk' ⊢
      exact ⟨(h.empty k' hk').1, (update_of_ne hkk ..).trans (h.empty k' hk').2⟩
  · obtain ⟨hr', hcg⟩ := h.on v k' g' hv
    by_cases hkk : k' = k
    · subst hkk
      rw [hput]
      refine hok'.counted.ref_pos (t := v) ?_
      rwa [set_stage_of_ne hvt, stage_on hv]
    · rwa [hother k' hkk]
  · split_ifs at hv with hga
    cases hv
    have hcg := hg.resolve_left hga
    rw [hput]
    exact ⟨hok'.counted.ref_pos (t := t) (by rwa [set_stage_self]), hcg⟩
  · split_ifs at hv
  · by_cases hne : i = (s.itable k).inum
    · subst hne
      refine ⟨q, ?_, ?_⟩
      · rw [show actsOf (s.put t k c g as) (s.itable k).inum = actsOf s (s.itable k).inum ++ as from
          (actsOf_append s (s.itable k).inum as _).trans (by rw [if_pos rfl]), run_append, hrun]
        exact hrun'
      · rw [one_put_self h.uniq hr hi]
        exact hok'.norm
    · obtain ⟨p, hrun, hok⟩ := h.life i
      refine ⟨p, ?_, ?_⟩
      · rw [show actsOf (s.put t k c g as) i = actsOf s i from
          (actsOf_append s (s.itable k).inum as _).trans (by rw [if_neg (Ne.symm hne), append_nil])]
        exact hrun
      · rwa [one_put_of_ne h.uniq hr hi (ht i hne) hne]

def Table.grab (s : Table n) (k : InodePtr) (e : Inode) (plain : ℕ) : Table n :=
  { s with itable := update s.itable k e, plain := update s.plain k plain }

theorem grab_plain (s : Table n) (k : InodePtr) (e : Inode) : s.grab k e (s.plain k) = s.setEntry k e := by
  rw [Table.grab, update_eq_self, Table.setEntry]

theorem Good.iget (h : Good s disk) (hs : s.iget i = some (u, k)) :
    ∃ e : Inode, e.locked = false ∧ e.inum = i ∧ u = s.grab k ((one s i).cell.iget e).ip (s.plain k) ∧
      s.plain k = (one s i).cell.plain ∧ ((one s i).cell.iget e).ip.inum = i ∧
      0 < ((one s i).cell.iget e).ip.ref ∧ ((s.itable k).ref = 0 ∨ (s.itable k).inum = i) ∧
      ∀ k', k' ≠ k → 0 < (s.itable k').ref → (s.itable k').inum ≠ i := by
  rw [Table.iget] at hs
  cases he : entry s.itable i with
  | some k' =>
    rw [he] at hs
    cases hs
    have hk := (entry_eq_some h.uniq).mp he
    have hcell : (one s i).cell = s.cell k := by rw [← hk.2, cell_one h.uniq hk.1]
    have hget : ((one s i).cell.iget { inum := i }).ip = { s.itable k with ref := (s.itable k).ref + 1 } := by
      rw [hcell, Cell.iget, if_pos (show 0 < (s.cell k).ip.ref from hk.1)]
      rfl
    refine ⟨{ inum := i }, rfl, rfl, by rw [hget, grab_plain], by rw [hcell]; rfl, by rw [hget]; exact hk.2,
      by rw [hget]; exact Nat.succ_pos _, Or.inr hk.2, fun k' hne hr heq => ?_⟩
    exact hne (h.uniq k' k hr hk.1 (heq.trans hk.2.symm))
  | none =>
    rw [he, map_eq_some_iff] at hs
    obtain ⟨k', hk, hs⟩ := hs
    cases hs
    have hr : (s.itable k).ref = 0 := by simpa using find?_some hk
    have hcell := cell_one_none he
    refine ⟨{ s.itable k with inum := i }, (h.empty k hr).1, rfl, ?_, ?_, ?_, ?_, Or.inl hr,
      fun k' _ hr' => entry_eq_none.mp he k' hr'⟩
    · rw [hcell, Cell.iget, if_neg (Nat.lt_irrefl 0), grab_plain]
    · rw [hcell]
      exact (h.empty k hr).2
    · rw [hcell, Cell.iget, if_neg (Nat.lt_irrefl 0)]
    · rw [hcell, Cell.iget, if_neg (Nat.lt_irrefl 0)]
      exact Nat.one_pos

section
variable {e : Inode} {pl : ℕ} (h : Good s disk) (hi : e.inum = i)
  (hothers : ∀ k', k' ≠ k → 0 < (s.itable k').ref → (s.itable k').inum ≠ i)
include h hi hothers

theorem uniq_grab : Uniq (s.grab k e pl).itable :=
  h.uniq.update fun _ k' hne hr' => hi ▸ hothers k' hne hr'

variable (hk : (s.itable k).ref = 0 ∨ (s.itable k).inum = i)
include hk

theorem cell_grab_of_ne (hj : j ≠ i) : (one (s.grab k e pl) j).cell = (one s j).cell := by
  refine cell_one_congr h.uniq (uniq_grab h hi hothers) rfl (fun k' hr' hk' => ?_)
    fun k' hr' hk' => ?_
  · have hkk : k' ≠ k := by
      rintro rfl
      have := hk.resolve_left (by omega)
      exact hj (hk'.symm.trans this)
    exact ⟨update_of_ne hkk .., update_of_ne hkk ..⟩
  · have hkk : k' ≠ k := by
      rintro rfl
      rw [show (s.grab k' e pl).itable k' = e from update_self .., hi] at hk'
      exact hj hk'.symm
    rw [show (s.grab k e pl).itable k' = s.itable k' from update_of_ne hkk ..] at hr' hk'
    exact ⟨hr', hk'⟩

theorem stage_grab (v : Fin n) : (s.pc v).stage (s.grab k e pl).itable j = (s.pc v).stage s.itable j := by
  cases hv : s.pc v with
  | on k' g' =>
    have hr' := (h.on v k' g' hv).1
    have hinum : ((s.grab k e pl).itable k').inum = (s.itable k').inum := by
      change (update s.itable k e k').inum = _
      by_cases hkk : k' = k
      · subst hkk
        rw [update_self, hi, hk.resolve_left (by omega)]
      · rw [update_of_ne hkk]
    simp only [Pc.stage, hinum]
  | idle => rfl
  | ialloc ty i' => rfl
  | alloced ty i' => rfl

variable {pc : Pc} (hpc : ∀ j, pc.stage (s.grab k e pl).itable j = if j = i then g else .away)
include hpc

theorem Good.grab (hr : 0 < e.ref) (ht : ∀ j, j ≠ i → (s.pc t).stage s.itable j = .away)
    (hon : ∀ k' g', pc = .on k' g' → k' = k ∧ (g'.counts ∨ g'.uses))
    (hscan : ∀ ty i', pc ≠ .ialloc ty i')
    (hlife : ∀ p, Ok (one s i) p →
      Ok ((one s i).set t { disk := s.disk i, ip := e, plain := pl } g []) p) :
    Good ((s.grab k e pl).setPc t pc) disk := by
  have h₁ : (s.grab k e pl).itable k = e := update_self ..
  have h₂ : (s.grab k e pl).plain k = pl := update_self ..
  have hother : ∀ k', k' ≠ k → (s.grab k e pl).itable k' = s.itable k' := fun k' hne =>
    update_of_ne hne ..
  have huniq : Uniq (s.grab k e pl).itable := uniq_grab h hi hothers
  refine h.next rfl huniq (fun k' hk' => ?_) (fun v k' g' _ hv => ?_) (fun k' g' hv => ?_)
    (fun ty i' hv => absurd hv (hscan ty i')) fun j => ?_
  · change ((s.grab k e pl).itable k').ref = 0 at hk'
    change ((s.grab k e pl).itable k').locked = false ∧ (s.grab k e pl).plain k' = 0
    by_cases hkk : k' = k
    · rw [hkk, h₁] at hk'
      omega
    · rw [hother k' hkk] at hk' ⊢
      exact ⟨(h.empty k' hk').1, (update_of_ne hkk ..).trans (h.empty k' hk').2⟩
  · change 0 < ((s.grab k e pl).itable k').ref
    by_cases hkk : k' = k
    · rwa [hkk, h₁]
    · rw [hother k' hkk]
      exact (h.on v k' g' hv).1
  · obtain ⟨rfl, hcg⟩ := hon k' g' hv
    exact ⟨(congrArg Inode.ref h₁).symm ▸ hr, hcg⟩
  · obtain ⟨p, hrun, hok⟩ := h.life j
    refine ⟨p, hrun, ?_⟩
    have hst : ∀ v, (s.pc v).stage (s.grab k e pl).itable j = (s.pc v).stage s.itable j :=
      stage_grab h hi hothers hk
    by_cases hj : j = i
    · subst hj
      have hcell := cell_one (s := s.grab k e pl) (k := k) huniq (by rwa [h₁])
      rw [h₁, hi, Table.cell, h₁, h₂, hi] at hcell
      convert hlife p hok using 1
      have hnext := stage_next (s := s) (u := (s.grab k e pl).setPc t pc) rfl hst
      rw [show pc.stage ((s.grab k e pl).setPc t pc).itable j = _ from hpc j, if_pos rfl] at hnext
      exact One.ext hcell hnext (append_nil _).symm
    · convert hok using 1
      refine One.ext (cell_grab_of_ne h hi hothers hk hj) (stage_next_away (s := s) rfl hst (ht j hj) ?_) rfl
      exact (hpc j).trans (if_neg hj)

end

theorem setPc_idle {v : Table n} (h : v.pc t = .idle) : v.setPc t .idle = v := by
  rw [Table.setPc, ← h, update_eq_self]

theorem settle_ip (c : Cell) (b : Option (BitVec 16)) : (c.settle b).ip = c.ip := by
  rw [Cell.settle]
  split_ifs <;> rfl

theorem move_ok {c' : Cell} {m : Move} (hm : move c g m = some (.ok (c', g'))) :
    c'.ip.inum = c.ip.inum ∧ (g' = .away ∨ g'.counts ∨ g'.uses) := by
  rw [move.eq_def] at hm
  split at hm
  · split_ifs at hm <;> obtain ⟨rfl, rfl⟩ := ok_inj hm
    · exact ⟨by rw [settle_ip], Or.inr (Or.inr rfl)⟩
    · next b _ _ =>
      refine ⟨rfl, Or.inr ?_⟩
      cases b
      · exact Or.inr rfl
      · exact Or.inl rfl
  · split_ifs at hm
    · cases hm
    · obtain ⟨rfl, rfl⟩ := ok_inj hm
      exact ⟨by rw [settle_ip], Or.inr (Or.inr rfl)⟩
  · split_ifs at hm
    obtain ⟨rfl, rfl⟩ := ok_inj hm
    exact ⟨rfl, Or.inr (Or.inr rfl)⟩
  · obtain ⟨rfl, rfl⟩ := ok_inj hm
    exact ⟨rfl, Or.inr (Or.inr rfl)⟩
  · split_ifs at hm
    · cases hm
    · obtain ⟨rfl, rfl⟩ := ok_inj hm
      exact ⟨rfl, Or.inl rfl⟩
  · split_ifs at hm <;> obtain ⟨rfl, rfl⟩ := ok_inj hm <;> exact ⟨rfl, Or.inr (Or.inl rfl)⟩
  · obtain ⟨rfl, rfl⟩ := ok_inj hm
    exact ⟨rfl, Or.inr (Or.inl rfl)⟩
  · obtain ⟨rfl, rfl⟩ := ok_inj hm
    exact ⟨rfl, Or.inr (Or.inl rfl)⟩
  · obtain ⟨rfl, rfl⟩ := ok_inj hm
    exact ⟨rfl, Or.inl rfl⟩
  · cases hm

theorem iput_ok {c' : Cell} (hm : iput c = .ok (c', g)) :
    c'.ip.inum = c.ip.inum ∧ (g = .away ∨ g.counts ∨ g.uses) := by
  rw [iput] at hm
  split_ifs at hm <;> cases hm
  · exact ⟨rfl, Or.inr (Or.inl rfl)⟩
  · exact ⟨rfl, Or.inl rfl⟩

theorem stage_idle (h : s.pc t = .idle) (i : ℕ) : (s.pc t).stage s.itable i = .away := by
  rw [h]
  rfl

theorem set_away (x : One n) (h : x.stage t = .away) : x.set t c .away [] = x.setCell c := by
  rw [One.set, One.setCell, append_nil, ← h, update_eq_self]

theorem Good.lookup (h : Good s disk) (ht : s.pc t = .idle) (hty : (s.disk i).type ≠ 0)
    (hnl : (s.disk i).nlink ≠ 0) (hs : s.iget i = some (u, k)) :
    Good { u with plain := update u.plain k (u.plain k + 1) } disk := by
  obtain ⟨e, hlock, -, rfl, hplain, hinum, href, hk, hothers⟩ := h.iget hs
  have heq : { s.grab k ((one s i).cell.iget e).ip (s.plain k) with
      plain := update (s.grab k ((one s i).cell.iget e).ip (s.plain k)).plain k
        ((s.grab k ((one s i).cell.iget e).ip (s.plain k)).plain k + 1) } =
      (s.grab k ((one s i).cell.iget e).ip (s.plain k + 1)).setPc t .idle := by
    rw [setPc_idle (v := s.grab k _ _) ht]
    simp only [Table.grab, update_self, update_idem]
  rw [heq]
  refine h.grab (g := .away) hinum hothers hk (fun j => ?_) href (fun j _ => stage_idle ht j) nofun nofun
    fun p hok => ?_
  · exact (ite_self _).symm
  · rw [set_away _ (stage_idle ht i)]
    have := hok.lookup hlock (by rwa [disk_one h.uniq]) (by rwa [disk_one h.uniq])
    convert this using 2
    simp only [hplain, iget_disk, disk_one h.uniq]

variable {ty : BitVec 16}

theorem Good.iget_alloced (h : Good s disk) (ht : s.pc t = .alloced ty i)
    (hs : s.iget i = some (u, k)) : Good (u.setPc t (.on k (.ilock (some ty)))) disk := by
  obtain ⟨e, hlock, -, rfl, hplain, hinum, href, hk, hothers⟩ := h.iget hs
  have hg : (one s i).stage t = .alloced ty := by
    change (s.pc t).stage s.itable i = _
    rw [ht, Pc.stage, if_pos rfl]
  refine h.grab (g := .ilock (some ty)) hinum hothers hk (fun j => ?_) href (fun j hj => ?_) ?_ nofun
    fun p hok => ?_
  · rw [Pc.stage, show (s.grab k _ _).itable k = _ from update_self .., hinum]
    simp only [eq_comm]
  · rw [ht, Pc.stage, if_neg hj.symm]
  · rintro k' g' ⟨⟩
    exact ⟨rfl, Or.inl rfl⟩
  · have := hok.iget (a := []) hg hlock
    convert this using 2
    rw [hplain, ← disk_one h.uniq, ← iget_disk (one s i).cell e, ← (hok.counted.iget hlock).2.2.1]

theorem Good.setPc (h : Good s disk) {pc : Pc} (ht : ∀ i, (s.pc t).stage s.itable i = .away)
    (hpc : ∀ i, pc.stage s.itable i = .away) (hon : ∀ k g, pc ≠ .on k g)
    (hscan : ∀ ty i, pc = .ialloc ty i → ty ≠ 0) : Good (s.setPc t pc) disk := by
  refine h.next rfl h.uniq h.empty (fun v k g _ hv => (h.on v k g hv).1)
    (fun k g hv => absurd hv (hon k g)) hscan fun i => ?_
  rw [show one (s.setPc t pc) i = one s i from
    One.ext rfl (stage_next_away (s := s) rfl (fun _ => rfl) (ht i) (hpc i)) rfl]
  exact h.life i

def Table.take (s : Table n) (t : Fin n) (ty : BitVec 16) (i : ℕ) : Table n :=
  { s.setPc t (.alloced ty i) with
    disk := update s.disk i { type := ty }
    acts := s.acts ++ [(i, .ialloc t)] }

theorem cell_take (hu : Uniq s.itable) :
    (one (s.take t ty i) j).cell = { (one s j).cell with disk := (s.take t ty i).disk j } := by
  change (match entry s.itable j with
    | some k => (s.take t ty i).cell k
    | none => { disk := (s.take t ty i).disk j }) = _
  rw [one]
  cases he : entry s.itable j with
  | none => rfl
  | some k =>
    have hk := (entry_eq_some hu).mp he
    simp only [Table.cell, show (s.take t ty i).itable k = s.itable k from rfl, hk.2]
    rfl

theorem one_take_self (hu : Uniq s.itable) : one (s.take t ty i) i =
      (one s i).set t { (one s i).cell with disk := { type := ty } } (.alloced ty) [.ialloc t] := by
  refine One.ext ?_ ((stage_next (s := s) (u := s.take t ty i) rfl fun _ => rfl).trans ?_) ?_
  · rw [cell_take hu, show (s.take t ty i).disk i = { type := ty } from update_self ..]
    rfl
  · rw [Pc.stage, if_pos rfl]
    rfl
  · refine (actsOf_append s i [.ialloc t] i).trans ?_
    rw [if_pos rfl]
    rfl

theorem one_take_of_ne {ty ty' : BitVec 16} (hu : Uniq s.itable) (ht : s.pc t = .ialloc ty' i) (hj : j ≠ i) :
    one (s.take t ty i) j = one s j := by
  refine One.ext ?_ (stage_next_away (s := s) rfl (fun _ => rfl) (by rw [ht]; rfl) (if_neg hj.symm)) ?_
  · rw [cell_take hu, show (s.take t ty i).disk j = s.disk j from update_of_ne hj ..,
      ← disk_one hu]
  · refine (actsOf_append s i [.ialloc t] j).trans ?_
    rw [if_neg hj.symm, append_nil]
    rfl

theorem Good.take (h : Good s disk) (ht : s.pc t = .ialloc ty i)
    (hd : (s.disk i).type = 0) : Good (s.take t ty i) disk := by
  refine h.next rfl h.uniq h.empty (fun v k g _ hv => (h.on v k g hv).1) nofun nofun fun j => ?_
  obtain ⟨p, hrun, hok⟩ := h.life j
  by_cases hj : j = i
  · subst hj
    have hg : (one s j).stage t = .away := by
      change (s.pc t).stage s.itable j = _
      rw [ht]
      rfl
    obtain ⟨rfl, hok'⟩ := hok.ialloc (a := [.ialloc t]) hg (by rw [disk_one h.uniq, hd])
      (h.scan t ty j ht)
    have hacts : actsOf (s.take t ty j) j = actsOf s j ++ [.ialloc t] :=
      congrArg One.acts (one_take_self h.uniq)
    refine ⟨.used, ?_, by rwa [one_take_self h.uniq]⟩
    rw [hacts, run_append, hrun]
    rfl
  · have hacts : actsOf (s.take t ty i) j = actsOf s j :=
      congrArg One.acts (one_take_of_ne h.uniq ht hj)
    exact ⟨p, by rwa [hacts], by rwa [one_take_of_ne h.uniq ht hj]⟩

theorem Good.ref_pos (h : Good s disk) (hp : 0 < s.plain k) : 0 < (s.itable k).ref := by
  by_contra hr
  have := (h.empty k (by omega)).2
  omega

theorem put_away (ht : s.pc t = .idle) : s.put t k c .away [] = s.write k c := by
  have : (s.write k c).setPc t .idle = s.write k c := setPc_idle ht
  simp only [Table.put, if_true, this, map_nil, append_nil]
  rfl

theorem put_cell : s.put t k (s.cell k) g [] = s.setPc t (if g = .away then .idle else .on k g) := by
  simp only [Table.put, Table.write, Table.cell, Table.setPc, update_eq_self, map_nil,
    append_nil]

theorem Good.idup (h : Good s disk) (ht : s.pc t = .idle) (hp : 0 < s.plain k) :
    Good (s.write k { s.cell k with
      ip := { (s.cell k).ip with ref := (s.cell k).ip.ref + 1 }
      plain := (s.cell k).plain + 1 }) disk := by
  have hr := h.ref_pos hp
  have hcell := cell_one h.uniq hr
  rw [← put_away ht]
  refine h.put hr rfl (fun i _ => stage_idle ht i) (Or.inl rfl) fun p hok => ⟨p, rfl, ?_⟩
  rw [set_away _ (stage_idle ht _), ← hcell]
  exact hok.idup (by rw [hcell]; exact hp)

theorem Good.ilock (h : Good s disk) (ht : s.pc t = .idle) (hp : 0 < s.plain k) :
    Good (s.setPc t (.on k (.ilock none))) disk := by
  have hr := h.ref_pos hp
  have hcell := cell_one h.uniq hr
  have hput : s.put t k (s.cell k) (.ilock none) [] = s.setPc t (.on k (.ilock none)) := put_cell
  rw [← hput]
  refine h.put hr rfl (fun i _ => stage_idle ht i) (Or.inr (Or.inr rfl)) fun p hok => ⟨p, rfl, ?_⟩
  rw [← hcell]
  exact hok.ilock (stage_idle ht _) (by rw [hcell]; exact hp)

theorem Good.uses (h : Good s disk) (hr : 0 < (s.itable k).ref)
    (hu : s.plain k = 1 → ∀ v, (s.pc v).uses k = false) (hone : s.plain k = 1) (v : Fin n) :
    ((one s (s.itable k).inum).stage v).uses = false := by
  have hv := hu hone v
  change ((s.pc v).stage s.itable (s.itable k).inum).uses = false
  cases hpc : s.pc v with
  | on k' g =>
    rw [Pc.stage]
    split_ifs with hi
    · obtain rfl := h.uniq k' k (h.on v k' g hpc).1 hr hi
      simpa [hpc, Pc.uses] using hv
    · rfl
  | idle => rfl
  | ialloc ty i' => rfl
  | alloced ty i' =>
    rw [Pc.stage]
    split_ifs <;> rfl

theorem Good.iput (h : Good s disk) (ht : s.pc t = .idle) (hp : 0 < s.plain k)
    (hu : s.plain k = 1 → ∀ v, (s.pc v).uses k = false) (hi : iput (s.cell k) = .ok (c, g)) :
    Good (s.put t k c g (startsFreeing t g)) disk := by
  have hr := h.ref_pos hp
  have hcell := cell_one h.uniq hr
  refine h.put hr (iput_ok hi).1 (fun i _ => stage_idle ht i) (iput_ok hi).2 fun p hok => ?_
  rw [← hcell] at hi
  refine hok.iput (stage_idle ht _) (by rw [hcell]; exact hp) (fun hone => ?_) hi
  rw [hcell] at hone
  exact h.uses hr hu hone

theorem Good.move (h : Good s disk) {m : Move} (ht : s.pc t = .on k g')
    (hm : move (s.cell k) g' m = some (.ok (c, g))) : Good (s.put t k c g (acts t g' m)) disk := by
  have hr := (h.on t k g' ht).1
  have hcell := cell_one h.uniq hr
  have hg := stage_on ht
  refine h.put hr (move_ok hm).1 (fun i hi => ?_) (move_ok hm).2 fun p hok => ?_
  · rw [ht, Pc.stage, if_neg hi.symm]
  · rw [← hcell, ← hg] at hm
    have := hok.move (a := acts t g' m) hm
    rwa [hg] at this

theorem Good.panic (h : Good s disk) (e : Panic) : Good (s.panic e) disk :=
  ⟨h.uniq, h.empty, h.on, h.scan, h.life⟩

/-- The panics of `ialloc` and `iget` for want of a free inode or a free entry. -/
def Full (e : Panic) : Prop := e = .iallocNoInodes ∨ e = .igetNoInodes

theorem Good.move_ne_error (h : Good s disk) (ht : s.pc t = .on k g) (m : Move) (e : Panic) :
    Recycle.move (s.cell k) g m ≠ some (.error e) := by
  obtain ⟨p, -, hok⟩ := h.life (s.itable k).inum
  have := hok.move_ne_error t m e
  rwa [cell_one h.uniq (h.on t k g ht).1, stage_on ht] at this

theorem Good.iput_ne_error (h : Good s disk) (hp : 0 < s.plain k)
    (hu : s.plain k = 1 → ∀ v, (s.pc v).uses k = false) (e : Panic) :
    Recycle.iput (s.cell k) ≠ .error e := by
  obtain ⟨p, -, hok⟩ := h.life (s.itable k).inum
  have hr := h.ref_pos hp
  have hcell := cell_one h.uniq hr
  have := hok.iput_ne_error (by rw [hcell]; exact hp) (fun hone => h.uses hr hu (by rwa [hcell] at hone)) e
  rwa [hcell] at this

variable {e : Event n}

theorem act_good (h : Good s disk) (hl : Linked s e) (hs : act ninodes s e = some u) :
    Good u disk ∧ (u.panicked = s.panicked ∨ ∃ e', u.panicked = some e' ∧ Full e') := by
  cases e with
  | lookup t i =>
    simp only [act] at hs
    split at hs
    · next ht =>
      split at hs
      · next u' k hu =>
        cases hs
        refine ⟨h.lookup ht hl.1 hl.2 hu, Or.inl ?_⟩
        obtain ⟨e, -, -, rfl, -⟩ := h.iget hu
        rfl
      · cases hs
        exact ⟨h.panic _, Or.inr ⟨_, rfl, Or.inr rfl⟩⟩
    · cases hs
  | idup t k =>
    simp only [act] at hs
    split at hs
    · next ht =>
      split_ifs at hs with hp
      cases hs
      exact ⟨h.idup ht hp, Or.inl rfl⟩
    · cases hs
  | ialloc t ty =>
    simp only [act] at hs
    split at hs
    · next ht =>
      split_ifs at hs with hty
      cases hs
      refine ⟨h.setPc (stage_idle ht) (fun _ => rfl) nofun ?_, Or.inl rfl⟩
      rintro _ _ ⟨⟩
      exact hty
    · cases hs
  | scan t =>
    simp only [act] at hs
    split at hs
    · next ty i ht =>
      split_ifs at hs with hi hd
      · cases hs
        exact ⟨h.take ht hd, Or.inl rfl⟩
      · cases hs
        refine ⟨h.setPc (fun i => by rw [ht]; rfl) (fun _ => rfl) nofun ?_, Or.inl rfl⟩
        rintro _ _ ⟨⟩
        exact h.scan t ty i ht
      · cases hs
        exact ⟨h.panic _, Or.inr ⟨_, rfl, Or.inl rfl⟩⟩
    · cases hs
  | iget t =>
    simp only [act] at hs
    split at hs
    · next ty i ht =>
      split at hs
      · next u' k hu =>
        cases hs
        refine ⟨h.iget_alloced ht hu, Or.inl ?_⟩
        obtain ⟨e, -, -, rfl, -⟩ := h.iget hu
        rfl
      · cases hs
        exact ⟨h.panic _, Or.inr ⟨_, rfl, Or.inr rfl⟩⟩
    · cases hs
  | ilock t k =>
    simp only [act] at hs
    split at hs
    · next ht =>
      split_ifs at hs with hp hr
      · have := h.ref_pos hp
        omega
      · cases hs
        exact ⟨h.ilock ht hp, Or.inl rfl⟩
    · cases hs
  | iput t k =>
    simp only [act] at hs
    split at hs
    · next ht =>
      split_ifs at hs with hp
      split at hs
      · next c g hi =>
        cases hs
        exact ⟨h.iput ht hp.1 hp.2 hi, Or.inl rfl⟩
      · next e hi => exact absurd hi (h.iput_ne_error hp.1 hp.2 e)
    · cases hs
  | move t m =>
    simp only [act] at hs
    split at hs
    · next k g ht =>
      split at hs
      · next c g' hm =>
        cases hs
        exact ⟨h.move ht hm, Or.inl rfl⟩
      · next e hm => exact absurd hm (h.move_ne_error ht m e)
      · cases hs
    · cases hs

theorem good_start (disk : ℕ → Dinode) : Good ({ disk := disk } : Table n) disk := by
  have hnone : ∀ i, entry (fun _ : InodePtr => ({} : Inode)) i = none := fun i =>
    entry_eq_none (s := ({ disk := disk } : Table n)).mpr fun k hk => absurd hk (Nat.lt_irrefl 0)
  refine ⟨fun k _ hk => absurd hk (Nat.lt_irrefl 0), fun _ _ => ⟨rfl, rfl⟩, nofun, nofun, fun i => ?_⟩
  have hcell : (one ({ disk := disk } : Table n) i).cell = { disk := disk i } := cell_one_none (hnone i)
  have hocc : ∀ f : Stage → Bool, f .away = false →
      Count.occ Finset.univ (fun t => f ((one ({ disk := disk } : Table n) i).stage t)) true = 0 :=
    fun f hf => Count.occ_eq_zero.mpr fun t _ ht => Bool.noConfusion (hf.symm.trans ht)
  have hcounted : Counted (one ({ disk := disk } : Table n) i) := by
    refine ⟨?_, ?_, fun _ => trivial⟩
    · rw [hcell, hocc Stage.counts rfl]
    · rw [hcell, hocc Stage.locks rfl]
      rfl
  by_cases hd : (disk i).type = 0
  · refine ⟨.free, by rw [if_pos hd]; rfl, hcounted, ?_, ?_, fun t _ => Or.inl rfl, ?_⟩
    · rwa [hcell]
    · rw [hcell]
    · rw [hcell]
      exact nofun
  · refine ⟨.used, by rw [if_neg hd]; rfl, hcounted, Or.inl ⟨fun t => Or.inr (Or.inl rfl), ?_, ?_, ?_, ?_⟩⟩
    · rwa [hcell]
    · rw [hcell]
      exact nofun
    · rw [hcell]
      exact nofun
    · rw [hcell]
      exact nofun

/-- What `iput`, `ialloc` and `ilock` do in one step from `s`. -/
structure Recycles (s : Table n) (e : Event n) (u : Table n) : Prop where
  /-- An `iput` on the last reference to an inode without links begins to free it. -/
  last : ∀ t k, e = .iput t k → (s.itable k).ref = 1 → (s.disk (s.itable k).inum).nlink = 0 →
    u.pc t = .on k (.itrunc 0)
  /-- `ialloc` takes a number only if it is free on the disk. -/
  ialloc : ∀ t ty i, u.pc t = .alloced ty i → s.pc t = .alloced ty i ∨ (s.disk i).type = 0
  /-- A new inode is locked: it is all zero but for its type. -/
  fresh : ∀ t k ty, s.pc t = .on k (.ilock (some ty)) ∨ s.pc t = .on k (.load (some ty)) →
    u.pc t = .on k .holds → (u.itable k).valid = true ∧ (u.itable k).d = { type := ty }
  /-- When the type is cleared, the inode on the disk has no contents any more. -/
  freed : ∀ t k, s.pc t = .on k .clear → u.pc t ≠ s.pc t →
    let d := s.disk (s.itable k).inum
    d.type ≠ 0 ∧ d.size = 0 ∧ (∀ j, d.addrs j = 0) ∧
      u.disk (s.itable k).inum = { d with type := 0 } ∧ u.acts = s.acts ++ [((s.itable k).inum, .free t)]

def Event.thread : Event n → Fin n
  | .lookup t _ | .idup t _ | .ialloc t _ | .scan t | .iget t | .ilock t _ | .iput t _ | .move t _ => t

theorem iget_pc (hs : s.iget i = some (u, k)) : u.pc = s.pc := by
  rw [Table.iget] at hs
  split at hs
  · cases hs
    rfl
  · obtain ⟨_, -, hs⟩ := map_eq_some_iff.mp hs
    cases hs
    rfl

theorem act_pc (hs : act ninodes s e = some u) : ∃ pc, u.pc = update s.pc e.thread pc ∧
      ∀ ty i, pc = .alloced ty i → s.pc e.thread = pc ∨ (s.disk i).type = 0 := by
  have hsame : ∀ {t}, u.pc = s.pc → ∃ pc, u.pc = update s.pc t pc ∧
      ∀ ty i, pc = .alloced ty i → s.pc t = pc ∨ (s.disk i).type = 0 := fun {t} h =>
    ⟨s.pc t, by rw [h, update_eq_self], fun _ _ _ => Or.inl rfl⟩
  revert hs
  fun_cases act ninodes s e <;> rintro ⟨⟩
  case case1 hu =>
    have hpc := iget_pc hu
    exact hsame hpc
  case case10 hd => exact ⟨_, rfl, fun _ _ hpc => Or.inr (by cases hpc; exact hd)⟩
  case case14 hu => exact ⟨_, congrArg (update · _ _) (iget_pc hu), nofun⟩
  case case21 => exact ⟨_, rfl, fun _ _ hpc => by split_ifs at hpc⟩
  case case25 => exact ⟨_, rfl, fun _ _ hpc => by split_ifs at hpc⟩
  all_goals first
    | exact hsame rfl
    | exact ⟨_, rfl, nofun⟩

theorem pc_put : (s.put t k c g as).pc t = if g = .away then .idle else .on k g :=
  update_self ..

theorem Good.last (h : Good s disk) (hs : act ninodes s (.iput t k) = some u)
    (hr : (s.itable k).ref = 1) (hn : (s.disk (s.itable k).inum).nlink = 0) :
    u.pc t = .on k (.itrunc 0) := by
  simp only [act] at hs
  split at hs
  · split_ifs at hs with hp
    obtain ⟨p, -, hok⟩ := h.life (s.itable k).inum
    have hpos := h.ref_pos hp.1
    have hcell := cell_one h.uniq hpos
    obtain ⟨c, hc⟩ := hok.iput_last (by rw [hcell]; exact hp.1)
      (fun hone => h.uses hpos hp.2 (by rwa [hcell] at hone)) (by rw [hcell]; exact hr)
      (by rw [disk_one h.uniq]; exact hn)
    rw [hcell] at hc
    rw [hc] at hs
    cases hs
    exact pc_put
  · cases hs

theorem act_alloced (hs : act ninodes s e = some u)
    (hu : u.pc t = .alloced ty i) : s.pc t = .alloced ty i ∨ (s.disk i).type = 0 := by
  obtain ⟨pc, hpc, hnew⟩ := act_pc ninodes hs
  rw [hpc] at hu
  by_cases ht : t = e.thread
  · rw [ht, update_self] at hu
    rw [ht, ← hu]
    exact hnew ty i hu
  · rw [update_of_ne ht] at hu
    exact Or.inl hu

theorem act_on (hs : act ninodes s e = some u) (ht : s.pc t = .on k g) (hne : u.pc t ≠ s.pc t) :
    ∃ m c g', move (s.cell k) g m = some (.ok (c, g')) ∧ u = s.put t k c g' (acts t g m) := by
  have hthread : t = e.thread := by
    obtain ⟨pc, hpc, -⟩ := act_pc ninodes hs
    by_contra hn
    exact hne (by rw [hpc, update_of_ne hn])
  subst hthread
  cases e with
  | move t m =>
    change s.pc t = _ at ht
    simp only [act, ht] at hs
    split at hs
    · next c g' hm =>
      cases hs
      exact ⟨m, c, g', hm, rfl⟩
    · cases hs
      exact absurd rfl hne
    · cases hs
  | _ =>
    rw [Event.thread] at ht
    simp [act, ht] at hs

theorem Good.fresh (h : Good s disk) (hs : act ninodes s e = some u)
    (ht : s.pc t = .on k (.ilock (some ty)) ∨ s.pc t = .on k (.load (some ty)))
    (hu : u.pc t = .on k .holds) : (u.itable k).valid = true ∧ (u.itable k).d = { type := ty } := by
  obtain ⟨p, -, hok⟩ := h.life (s.itable k).inum
  rcases ht with ht | ht
  · obtain ⟨m, c, g', hm, rfl⟩ := act_on ninodes hs ht (by rw [hu, ht]; nofun)
    have hg : g' = .holds := by
      rw [pc_put] at hu
      split_ifs at hu
      cases hu
      rfl
    -- the copy of a new inode is never taken for a valid one
    have hstage := stage_on ht
    cases m with
    | acquiresleep =>
      rw [← cell_one h.uniq (h.on t k _ ht).1] at hm
      have := (hok.acquiresleep (a := []) hstage hm).2 rfl
      rw [hg] at this
      cases this
    | _ => cases hm
  · obtain ⟨m, c, g', hm, rfl⟩ := act_on ninodes hs ht (by rw [hu, ht]; nofun)
    have hstage := stage_on ht
    have hput : (s.put t k c g' (acts t (.load (some ty)) m)).itable k = c.ip := update_self ..
    cases m with
    | load =>
      rw [← cell_one h.uniq (h.on t k _ ht).1] at hm
      rw [hput]
      refine ⟨?_, (hok.load (a := []) hstage hm).2 ty rfl⟩
      rw [Recycle.move] at hm
      split_ifs at hm
      · cases hm
      · obtain ⟨rfl, rfl⟩ := ok_inj hm
        rw [settle_ip]
    | _ => cases hm

theorem Good.freed (h : Good s disk) (hs : act ninodes s e = some u) (ht : s.pc t = .on k .clear)
    (hne : u.pc t ≠ s.pc t) :
    let d := s.disk (s.itable k).inum
    d.type ≠ 0 ∧ d.size = 0 ∧ (∀ j, d.addrs j = 0) ∧
      u.disk (s.itable k).inum = { d with type := 0 } ∧
      u.acts = s.acts ++ [((s.itable k).inum, .free t)] := by
  obtain ⟨p, -, hok⟩ := h.life (s.itable k).inum
  obtain ⟨m, c, g', hm, rfl⟩ := act_on ninodes hs ht hne
  obtain ⟨rfl, ha⟩ := hok.truncated (stage_on ht)
  obtain ⟨-, -, hdisk, hsize, haddrs⟩ := hok.phase
  have hcell := cell_one h.uniq (h.on t k _ ht).1
  rw [hcell] at hdisk hsize haddrs
  have hd : s.disk (s.itable k).inum = (s.itable k).d := hdisk
  have htype := ha.disk.1
  rw [hcell] at htype
  cases m with
  | clear =>
    obtain ⟨rfl, rfl⟩ := ok_inj hm
    refine ⟨htype, ?_, ?_, ?_, rfl⟩
    · rw [hd]
      exact hsize
    · rw [hd]
      exact haddrs
    · rw [hd]
      exact update_self ..
  | _ => cases hm

/-- On every run the inodes on the disk go through their lives: each `iput` that finds the last
reference to an inode without links truncates it once and frees it once before the number is taken
again, and whoever `ialloc` gave the number sees the new inode. -/
theorem inode_recycling (disk : ℕ → Dinode) {es : List (Event n)}
    (hl : Along (step ninodes) Linked { disk := disk } es)
    (hr : run (step ninodes) { disk := disk } es = some s) :
    (∀ i, ∃ p, run Phase.next (if (disk i).type = 0 then .free else .used) (actsOf s i) = some p ∧
      (p = .free ↔ (s.disk i).type = 0) ∧
      ∀ t, p = .dying t ∨ p = .truncated t → s.pc t ≠ .idle) ∧
    (∀ e, s.panicked = some e → Full e) ∧ ∀ e u, step ninodes s e = some u → Recycles s e u := by
  have hact : ∀ {v w : Table n} {e : Event n}, step ninodes v e = some w →
      v.panicked = none ∧ act ninodes v e = some w := by
    intro v w e hs
    rw [step] at hs
    split_ifs at hs with hp
    exact ⟨hp, hs⟩
  obtain ⟨hgood, hpanic⟩ : Good s disk ∧ ∀ e, s.panicked = some e → Full e := by
    refine run_invariant (C := Linked)
      (I := fun v : Table n => Good v disk ∧ ∀ e, v.panicked = some e → Full e)
      ⟨good_start disk, nofun⟩ (fun v e w hv hl hs => ?_) hl hr
    obtain ⟨hp, ha⟩ := hact hs
    obtain ⟨hw, hpw⟩ := act_good ninodes hv.1 hl ha
    refine ⟨hw, fun e' he' => ?_⟩
    rcases hpw with hpw | ⟨e'', hpw, hfull⟩
    · rw [hpw, hp] at he'
      cases he'
    · rw [hpw] at he'
      cases he'
      exact hfull
  refine ⟨fun i => ?_, hpanic, fun e u hs => ?_⟩
  · obtain ⟨p, hrun, hok⟩ := hgood.life i
    refine ⟨p, hrun, by rw [hok.free_iff, disk_one hgood.uniq], fun t ht hidle => ?_⟩
    exact hok.in_call ht (stage_idle hidle i)
  · obtain ⟨-, ha⟩ := hact hs
    refine ⟨?_, fun t ty i hu => act_alloced ninodes ha hu,
      fun t k ty ht hu => hgood.fresh ninodes ha ht hu, fun t k ht hne => hgood.freed ninodes ha ht hne⟩
    rintro t k rfl hr hn
    exact hgood.last ninodes ha hr hn

def entry0 : InodePtr := ⟨0, ninode_pos⟩

def usedDisk : ℕ → Dinode := fun _ => { type := T_FILE, nlink := 1, size := 7, addrs := fun _ => 46 }

def recycleRun : List (Event 2) :=
  [.lookup 0 1, .ilock 0 entry0, .move 0 .acquiresleep, .move 0 .load,
    .move 0 (.change { usedDisk 1 with nlink := 0 }), .move 0 .iupdate, .move 0 .iunlock, .iput 0 entry0] ++ List.replicate (NDIRECT + 2) (.move 0 .itrunc) ++
  [.move 0 .clear, .ialloc 1 T_DEVICE, .scan 1, .iget 1, .move 0 .releasesleep,
    .move 1 .acquiresleep]

theorem inode_recycling_recycleRun : ∃ s u : Table 2,
    run (step 5) { disk := usedDisk } recycleRun = some s ∧
    actsOf s 1 = [.last 0, .itrunc 0, .free 0, .ialloc 1] ∧ (s.itable entry0).ref = 2 ∧
    step 5 s (.move 1 .load) = some u ∧ (u.itable entry0).d = { type := T_DEVICE } ∧
    (∀ e, s.panicked = some e → Full e) := by
  have hsees : (run (step 5) ({ disk := usedDisk } : Table 2) recycleRun).map (fun s =>
      (actsOf s 1, (s.itable entry0).ref, s.pc 1, (step 5 s (.move 1 .load)).map (·.pc 1))) =
      some ([.last 0, .itrunc 0, .free 0, .ialloc 1], 2, .on entry0 (.load (some T_DEVICE)),
        some (.on entry0 .holds)) := by decide +kernel
  obtain ⟨s, hr, hs⟩ := map_eq_some_iff.mp hsees
  simp only [Prod.mk.injEq, map_eq_some_iff] at hs
  obtain ⟨hacts, href, hpc, u, hu, hpc'⟩ := hs
  obtain ⟨-, hpanic, hstep⟩ := inode_recycling 5 usedDisk (by decide +kernel) hr
  exact ⟨s, u, hr, hacts, href, hu, ((hstep _ u hu).fresh 1 entry0 T_DEVICE (Or.inr hpc) hpc').2, hpanic⟩

/-- `ialloc` has taken number 1 and not yet called `iget`. Meanwhile a process follows an old directory
entry with this number and puts the inode back, which has no links yet. -/
def staleRun : List (Event 2) :=
  [.ialloc 1 T_FILE, .scan 1, .lookup 0 1, .ilock 0 entry0, .move 0 .acquiresleep, .move 0 .load,
    .move 0 .iunlock, .iput 0 entry0] ++ List.replicate (NDIRECT + 2) (.move 0 .itrunc) ++
  [.move 0 .clear, .move 0 .releasesleep, .move 0 .drop, .iget 1, .move 1 .acquiresleep, .move 1 .load]

/-- The number is freed under its new owner, whose `ilock` panics. -/
theorem not_inode_recycling : ∃ s : Table 2,
    run (step 5) { disk := fun _ => { type := 0 } } staleRun = some s ∧
      actsOf s 1 = [.ialloc 1, .last 0, .itrunc 0, .free 0] ∧ s.panicked = some .ilockNoType ∧
      ¬ Full .ilockNoType := by
  have hsees : (run (step 5) ({ disk := fun _ => { type := 0 } } : Table 2) staleRun).map
      (fun s => (actsOf s 1, s.panicked)) =
        some ([.ialloc 1, .last 0, .itrunc 0, .free 0], some .ilockNoType) := by decide +kernel
  obtain ⟨s, hr, hs⟩ := map_eq_some_iff.mp hsees
  obtain ⟨hacts, hpanic⟩ := Prod.mk.inj hs
  exact ⟨s, hr, hacts, hpanic, by rintro (he | he) <;> cases he⟩

end Xv6.Fs.Recycle
