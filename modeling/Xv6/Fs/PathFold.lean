import Mathlib.Data.List.DropRight
import Xv6.Fs.Idle
import Xv6.Fs.Pass
import Xv6.Fs.TreeRun

/-! Path resolution as a fold: `skipelem` yields the elements of a path one by one, and `namei` and
`nameiparent` look them up from directory to directory. -/
namespace Xv6.Fs
open Bytes Function List Option Multiset

variable {sb : Superblock} {s t : State} {ip dp cwd : InodePtr} {i d : ℕ} {H K : Multiset InodePtr}
  {path rest name nm : List Byte} {F : ℕ → Node} {parent : Bool}

def components (path : List Byte) : List (List Byte) :=
  ((path.splitOnP (· = slash)).filter (· ≠ [])).map (·.take DIRSIZ)

def skipelems (path : List Byte) : List (List Byte) :=
  match _h : skipelem path with
  | none => []
  | some (rest, name) => name :: skipelems rest
termination_by path.length
decreasing_by exact skipelem_lt ‹_›

theorem components_append_slash (p q : List Byte) :
    components (p ++ slash :: q) = components p ++ components q := by
  unfold components
  rw [splitOnP_append_cons p q (by simp), filter_append, map_append]

theorem components_nil : components [] = [] := by
  simp [components, splitOnP_nil]

theorem components_slash (p : List Byte) : components (slash :: p) = components p := by
  have h := components_append_slash [] p
  rwa [components_nil, nil_append, nil_append] at h

theorem components_piece (hne : name ≠ []) (h : ∀ c ∈ name, c ≠ slash) :
    components name = [name.take DIRSIZ] := by
  unfold components
  rw [splitOnP_eq_singleton fun c hc => by simpa using h c hc]
  simp [hne]

theorem components_dropWhile (p : List Byte) :
    components (p.dropWhile (· = slash)) = components p := by
  induction p with
  | nil => rfl
  | cons c p ih =>
    by_cases hc : c = slash
    · subst hc
      rw [dropWhile_cons_of_pos (by simp), ih, components_slash]
    · rw [dropWhile_cons_of_neg (by simpa using hc)]

theorem skipelem_none (h : skipelem path = none) : components path = [] := by
  unfold skipelem at h
  dsimp only at h
  split at h
  · rename_i hnil
    rw [← components_dropWhile, hnil, components_nil]
  · cases h

theorem skipelem_some (h : skipelem path = some (rest, name)) :
    components path = name :: components rest := by
  unfold skipelem at h
  dsimp only at h
  split at h
  · cases h
  rename_i hne
  rw [← components_dropWhile path]
  generalize hq : path.dropWhile (· = slash) = q at h hne
  cases h
  rw [components_dropWhile]
  set a := q.takeWhile (· ≠ slash) with ha
  have hsplit : a ++ q.dropWhile (· ≠ slash) = q := takeWhile_append_dropWhile
  have hall : ∀ c ∈ a, c ≠ slash := fun c hc => by simpa using mem_takeWhile_imp hc
  have hane : a ≠ [] := by
    obtain ⟨c, q', rfl⟩ := exists_cons_of_ne_nil hne
    have hc := head_dropWhile_not (fun x => decide (x = slash)) (l := path)
      (by rw [hq]; exact hne)
    simp only [hq, head_cons, decide_eq_false_iff_not] at hc
    rw [ha, takeWhile_cons_of_pos (by simpa using hc)]
    exact cons_ne_nil _ _
  cases hb : q.dropWhile (· ≠ slash) with
  | nil =>
    rw [hb, append_nil] at hsplit
    rw [← hsplit, components_piece hane hall, components_nil]
  | cons c b =>
    have hc := head_dropWhile_not (fun x => decide (x ≠ slash)) (l := q)
      (by rw [hb]; exact cons_ne_nil _ _)
    simp only [hb, head_cons, decide_eq_false_iff_not, not_not] at hc
    subst hc
    rw [hb] at hsplit
    rw [← hsplit, components_append_slash, components_piece hane hall, components_slash,
      singleton_append]

/-- What `skipelem` leaves does not begin with a slash, so it is empty when no element is left. -/
theorem skipelem_rest (h : skipelem path = some (rest, name)) : rest = [] ↔ components rest = [] := by
  refine ⟨fun h0 => by rw [h0, components_nil], fun h0 => ?_⟩
  have hnone : skipelem rest = none := by
    cases hr : skipelem rest with
    | none => rfl
    | some x =>
      rw [skipelem_some hr] at h0
      cases h0
  unfold skipelem at h hnone
  dsimp only at h hnone
  split at h
  · cases h
  cases h
  split at hnone
  · rename_i hnil
    rwa [dropWhile_idempotent] at hnil
  · cases hnone

/-- Repeated `skipelem` ends, and yields the elements of the path in order. -/
theorem skipelems_eq_components (path : List Byte) : skipelems path = components path := by
  fun_induction skipelems path with
  | case1 path h => rw [skipelem_none h]
  | case2 path rest name h ih => rw [skipelem_some h, ih]

def enter (F : ℕ → Node) (i : ℕ) (name : List Byte) : Option ℕ :=
  if (F i).type = T_DIR then ((F i).lookup name).map fun k => ((F i).ent k).inum.toNat else none

def follow (F : ℕ → Node) (i : ℕ) (names : List (List Byte)) : Option ℕ := names.foldlM (enter F) i

theorem follow_cons (names : List (List Byte)) :
    follow F i (name :: names) = (enter F i name).bind fun j => follow F j names := foldlM_cons

theorem follow_append (names : List (List Byte)) :
    follow F i (names ++ [name]) = (follow F i names).bind fun j => enter F j name := by
  rw [follow, foldlM_append]
  simp only [foldlM_cons, foldlM_nil]
  exact bind_congr fun j => bind_pure _

theorem walkFrom_follow {n : ℕ} (hn : path.length < n) :
    (walkFrom F false n i path name).map Prod.fst = follow F i (components path) := by
  induction n generalizing i path name with
  | zero => omega
  | succ n ih =>
    rw [walkFrom]
    cases hskip : skipelem path with
    | none =>
      rw [skipelem_none hskip]
      rfl
    | some x =>
      obtain ⟨rest, elem⟩ := x
      have hlt := skipelem_lt hskip
      rw [skipelem_some hskip, follow_cons, enter]
      dsimp only
      by_cases htype : (F i).type = T_DIR
      · rw [if_neg (not_not.mpr htype), if_neg (fun h => Bool.false_ne_true h.1), if_pos htype]
        cases (F i).lookup elem with
        | none => rfl
        | some k => exact ih (by omega)
      · rw [if_pos htype, if_neg htype]
        rfl

/-- The walk of `nameiparent` is the fold over all elements but the last, if it ends in a
directory. -/
theorem walkFrom_parent {n : ℕ} (hn : path.length < n) :
    walkFrom F true n i path name = (components path).getLast?.bind fun nm =>
      ((follow F i (components path).dropLast).filter fun d => (F d).type = T_DIR).map fun d =>
        (d, nm) := by
  induction n generalizing i path name with
  | zero => omega
  | succ n ih =>
    rw [walkFrom]
    cases hskip : skipelem path with
    | none =>
      rw [skipelem_none hskip]
      rfl
    | some x =>
      obtain ⟨rest, elem⟩ := x
      have hlt := skipelem_lt hskip
      have hrest := skipelem_rest hskip
      rw [skipelem_some hskip]
      dsimp only
      cases hcs : components rest with
      | nil =>
        -- the last element: the walk stops in the directory `i`
        have hnil := hrest.mpr hcs
        by_cases htype : (F i).type = T_DIR
        · rw [if_neg (not_not.mpr htype), if_pos ⟨rfl, hnil⟩]
          simp [follow, htype]
        · rw [if_pos htype]
          simp [follow, htype]
      | cons c cs =>
        have hne : rest ≠ [] := fun h0 => by
          rw [hrest.mp h0] at hcs
          cases hcs
        have hlast : (elem :: c :: cs).getLast? = (c :: cs).getLast? :=
          getLast?_cons_cons
        rw [hlast, dropLast_cons_of_ne_nil (cons_ne_nil c cs), follow_cons, enter]
        by_cases htype : (F i).type = T_DIR
        · rw [if_neg (not_not.mpr htype), if_neg (fun h => hne h.2), if_pos htype]
          cases (F i).lookup elem with
          | none => simp
          | some k =>
            rw [← hcs]
            exact ih (by omega)
        · rw [if_pos htype, if_neg htype]
          simp

/-- What a walk needs: directories that name allocated inodes and are made of whole entries, two free
entries in the inode table, and no lock that somebody else holds. -/
structure Walkable (sb : Superblock) (H : Multiset InodePtr) (s : State) : Prop where
  steady : Steady sb H s
  entries : NoDangling (files sb s)
  aligned : ∀ d, (files sb s d).type = T_DIR → direntSize ∣ (files sb s d).bytes.length
  room : ∃ a b, a ≠ b ∧ users s a + H.count a = 0 ∧ users s b + H.count b = 0
  unlocked : locks s = fun _ => false

theorem Walkable.free (h : Walkable sb H s) (hinv : Inv sb (ip ::ₘ H) t) (hf : Frame H s t) :
    ∃ jp, (t.itable jp).ref = 0 := by
  obtain ⟨a, b, hab, ha, hb⟩ := h.room
  have hfree : ∀ {jp}, jp ≠ ip → users s jp + H.count jp = 0 → (t.itable jp).ref = 0 := by
    intro jp hne h0
    rw [hinv.refs jp, hf.users, Multiset.count_cons_of_ne hne, h0]
  by_cases hip : a = ip
  · exact ⟨b, hfree (fun h => hab (hip.trans h.symm)) hb⟩
  · exact ⟨a, hfree hip ha⟩

theorem Walkable.frame (h : Walkable sb H s) (hi : Idle sb H K s t) (hl : locks t = locks s) :
    Walkable sb H t where
  steady := hi.steady h.steady
  entries := by
    rw [hi.files]
    exact h.entries
  aligned := by
    rw [hi.files]
    exact h.aligned
  room := by
    obtain ⟨a, b, hab, ha, hb⟩ := h.room
    exact ⟨a, b, hab, by rwa [hi.frame.users], by rwa [hi.frame.users]⟩
  unlocked := hl.trans h.unlocked

theorem locks_setInode_same {e : Inode} (he : e.locked = (s.itable ip).locked) :
    locks (s.setInode ip e) = locks s := (quiet_setInode he).2.2

theorem iget_returns (inum : ℕ) (h : ∃ jp, (s.itable jp).ref = 0) :
    Sat (iget inum) s (fun _ t => locks t = locks s) fun _ => False := by
  obtain ⟨jp, hjp⟩ := h
  unfold iget
  refine Sat.get_bind ?_
  split
  · rename_i ip _
    refine getInode_bind ?_
    split
    · exact setInode_bind (Sat.pure (locks_setInode_same rfl))
    · exact setInode_bind (Sat.pure (locks_setInode_same rfl))
  · rename_i hnone
    unfold findInode at hnone
    split at hnone
    · cases hnone
    · have := find?_eq_none.mp hnone jp (mem_finRange jp)
      simp [hjp] at this

theorem ilock_returns (h : Inv sb H s) (hr : 0 < (s.itable ip).ref) (hl : locks s ip = false)
    (htype : (files sb s (s.itable ip).inum).type ≠ 0) :
    Sat (ilock sb ip) s (fun _ t => locks t = update (locks s) ip true)
      fun _ => False := by
  have hlt := (h.range ip hr).2
  unfold ilock acquiresleep
  refine getInode_bind ?_
  rw [if_neg (by omega)]
  refine Sat.bind (R := fun _ t => t = s.acquire ip) (getInode_bind ?_) ?_
  · refine Sat.ite (fun hlock => ?_) fun _ => rfl
    rw [← locks, hl] at hlock
    cases hlock
  rintro _ t rfl
  have hacq : locks (s.acquire ip) = update (locks s) ip true := locks_setInode s ip _
  refine Sat.ite (fun _ => Sat.pure hacq) fun _ => bread_bind (setInode_bind ?_)
  refine Sat.ite (fun h0 => ?_) fun _ => Sat.pure ?_
  · refine htype ?_
    rw [files_type, ← readDinode_eq hlt]
    exact h0
  · rw [locks_setInode, hacq, update_idem]

theorem iunlock_returns (hr : 0 < (s.itable ip).ref) (hl : locks s ip = true) :
    Sat (iunlock ip) s (fun _ t => locks t = update (locks s) ip false)
      fun _ => False := by
  unfold iunlock releasesleep
  refine getInode_bind (Sat.ite (fun hbad => ?_) fun _ => getInode_bind (setInode_sat ?_))
  · rcases hbad with hbad | hbad
    · rw [← locks, hl] at hbad
      cases hbad
    · omega
  · exact locks_setInode s ip _

theorem iput_returns (hlast : ¬ Last (s.itable ip)) :
    Sat (iput sb ip) s (fun _ t => locks t = locks s) fun _ => False := by
  unfold iput
  refine getInode_bind (Sat.bind (R := fun _ t => t = s) (doIf_sat (fun hl => absurd hl hlast)
    fun _ => rfl) ?_)
  rintro _ t rfl
  exact getInode_bind (setInode_sat (locks_setInode_same rfl))

theorem dirlookup_returns (name : List Byte) (h : Inv sb H s) (hc : Cached (s.itable dp) d)
    (htype : (files sb s d).type = T_DIR) (hal : direntSize ∣ (files sb s d).bytes.length)
    (hfree : ∃ jp, (s.itable jp).ref = 0) :
    Sat (dirlookup sb dp name) s (fun _ t => locks t = locks s) fun _ => False := by
  refine dirlookup_rule (h.toLive hc) ?_ ?_ (fun _ _ => rfl) fun _ _ _ => iget_returns _ hfree
  all_goals rw [h.view_file]
  · exact fun hne => hne htype
  · exact fun hne => hne hal

theorem iunlockput_returns (h : Inv sb (ip ::ₘ H) s) (hst : Steady sb H s)
    (hl : locks s ip = true) :
    Sat (iunlockput sb ip) s (fun _ t => Idle sb H H s t ∧
      locks t = update (locks s) ip false) fun _ => False := by
  unfold iunlockput
  have hle := le_cons_self H ip
  refine Sat.bind ((iunlock_idle h).beside (iunlock_returns h.ref_pos hl)) ?_
  rintro _ t ⟨ht, hlt⟩
  have hlast := ((ht.mono hle).steady hst).not_last ht.inv
  refine ((iput_idle ht.inv hlast).beside (iput_returns hlast)).post ?_
  rintro _ u ⟨hu, hlu⟩
  exact ⟨(ht.mono hle).trans hu, hlu.trans hlt⟩

theorem namexFrom_returns {n : ℕ} (h : Inv sb (ip ::ₘ H) s) (hw : Walkable sb H s)
    (htype : (files sb s (s.itable ip).inum).type ≠ 0) :
    Sat (namexFrom sb parent n ip path name) s (fun _ _ => True) fun _ => False := by
  induction n generalizing ip path name s with
  | zero => exact Sat.pure trivial
  | succ n ih =>
    have hle := le_cons_self H ip
    have hfalse : ∀ jp, locks s jp = false := fun jp => congrFun hw.unlocked jp
    rw [namexFrom]
    cases hskip : skipelem path with
    | none =>
      refine Sat.ite (fun _ => ?_) fun _ => Sat.pure trivial
      exact Sat.bind (iput_returns (hw.steady.not_last h)) fun _ _ _ => Sat.pure trivial
    | some x =>
      dsimp only
      refine Sat.bind ((ilock_idle h h.ref_pos).beside
        (ilock_returns h h.ref_pos (hfalse ip) htype)) ?_
      rintro _ t ⟨⟨ht, hc⟩, hlt⟩
      have hst : Idle sb H (ip ::ₘ H) s t := ht.mono hle
      have hlock : locks t ip = true := by rw [hlt, update_self]
      refine getInode_bind ?_
      rw [ht.inv.dtype hc, ht.files]
      refine Sat.ite (fun _ => ?_) fun hdir => Sat.ite (fun _ => ?_) fun _ => ?_
      · exact Sat.bind (iunlockput_returns ht.inv (hst.steady hw.steady) hlock)
          fun _ _ _ => Sat.pure trivial
      · exact Sat.bind (iunlock_returns ht.inv.ref_pos hlock) fun _ _ _ => Sat.pure trivial
      have hdir' : (files sb t (s.itable ip).inum).type = T_DIR := by
        rw [ht.files]
        exact not_not.mp hdir
      have hal : direntSize ∣ (files sb t (s.itable ip).inum).bytes.length := by
        rw [ht.files]
        exact hw.aligned _ (not_not.mp hdir)
      refine Sat.bind ((dirlookup_idle x.2 ht.inv hc).beside
        (dirlookup_returns x.2 ht.inv hc hdir' hal (hw.free ht.inv hst.frame))) ?_
      rintro r u ⟨⟨⟨-, hr⟩, hm⟩, hlu⟩
      split
      · obtain ⟨rfl, -⟩ := hr
        exact Sat.bind (iunlockput_returns ht.inv (hst.steady hw.steady) hlock)
          fun _ _ _ => Sat.pure trivial
      · rename_i next off
        obtain ⟨k, hk, -, hu, hnum, -⟩ := hr
        have hlen := le_cons_self H next
        have hinv : Inv sb (ip ::ₘ next ::ₘ H) u := by
          rw [cons_swap]
          exact hu.inv
        have hsu : Idle sb H (next ::ₘ ip ::ₘ H) s u := hst.trans ((Idle.of_step hu hm).mono hle)
        refine Sat.bind (iunlockput_returns hinv ((hsu.steady hw.steady).mono hlen)
          (by rw [hlu]; exact hlock)) ?_
        rintro _ v ⟨hv, hlv⟩
        have hsv : Idle sb H (next ::ₘ H) s v := hsu.trans (hv.mono hlen)
        have hlocks : locks v = locks s := by
          rw [hlv, hlu, hlt]
          exact update_unlock (hfalse ip)
        refine ih hv.inv (hw.frame hsv hlocks) ?_
        -- the next inode is one that a directory entry names
        have hkeep : (v.itable next).inum = (u.itable next).inum :=
          (hv.frame.keep next (by rw [Multiset.count_cons_self]; omega)).1
        rw [hkeep, hnum, hsv.files, ht.files]
        rw [ht.files] at hk
        obtain ⟨hk1, hk2, -⟩ := Node.of_lookup_some hk
        exact hw.entries _ (not_not.mp hdir) k hk1 hk2

theorem namex_returns (h : Inv sb H s) (hw : Walkable sb H s) (hr : 0 < (s.itable cwd).ref)
    (htype : (files sb s (startInum (s.itable cwd).inum path)).type ≠ 0) :
    Sat (namex sb cwd path parent) s (fun _ _ => True) fun _ => False := by
  have hstart : Sat (startInode cwd path) s (fun _ t => Quiet s t) fun _ => False := by
    obtain ⟨a, -, -, ha, -⟩ := hw.room
    refine Sat.ite (fun _ => ?_) fun _ => ?_
    · exact ((iget_quiet (P := True) _).beside
        (iget_returns _ ⟨a, by rw [h.refs, ha]⟩)).post fun _ _ hq => hq.1
    · exact getInode_bind (setInode_bind (Sat.pure (quiet_setInode rfl)))
  refine Sat.bind ((startInode_sat h hr).beside hstart) ?_
  rintro ip t ⟨⟨ht, hnum⟩, hq⟩
  have hi : Idle sb H (ip ::ₘ H) s t := .of_step ht hq.1
  refine namexFrom_returns ht.inv (hw.frame hi hq.2.2) ?_
  rwa [hi.files, hnum]

/-- What a path means. `elements`: repeated `skipelem` yields its elements. `namei`: it is the fold of
lookups over them. `nameiparent`: it is the fold over all but the last, if that is a directory, with
the last as the name. `last`: what `namei` finds is what that directory has under that name. -/
structure Resolves (sb : Superblock) (H : Multiset InodePtr) (cwd : InodePtr) (path : List Byte)
    (s : State) : Prop where
  elements : skipelems path = components path
  namei : ∀ r t, namei sb cwd path s = .ok (r, t) → disk sb t = disk sb s ∧
    r.map (fun ip => (t.itable ip).inum) =
      follow (files sb s) (startInum (s.itable cwd).inum path) (components path)
  nameiparent : ∀ r t, nameiparent sb cwd path s = .ok (r, t) → disk sb t = disk sb s ∧
    (components path = [] → r = none) ∧
    ∀ d nm, r.map (fun x => ((t.itable x.1).inum, x.2)) = some (d, nm) ↔
      (components path).getLast? = some nm ∧
      follow (files sb s) (startInum (s.itable cwd).inum path) (components path).dropLast = some d ∧
      (files sb s d).type = T_DIR
  last : ∀ d nm, (components path).getLast? = some nm →
    follow (files sb s) (startInum (s.itable cwd).inum path) (components path).dropLast = some d →
    (files sb s d).type = T_DIR →
    follow (files sb s) (startInum (s.itable cwd).inum path) (components path) =
      ((files sb s d).lookup nm).map fun k => ((files sb s d).ent k).inum.toNat
  returns : Walkable sb H s → (files sb s (startInum (s.itable cwd).inum path)).type ≠ 0 →
    (∃ r t, Fs.namei sb cwd path s = .ok (r, t)) ∧
      ∃ r t, Fs.nameiparent sb cwd path s = .ok (r, t)

theorem resolve_false : (resolve F i path false).map Prod.fst =
    follow F (startInum i path) (components path) := walkFrom_follow (Nat.lt_succ_self _)

theorem resolve_true_eq_some : resolve F i path true = some (d, nm) ↔
    (components path).getLast? = some nm ∧
      follow F (startInum i path) (components path).dropLast = some d ∧ (F d).type = T_DIR := by
  have h : resolve F i path true = _ := walkFrom_parent (Nat.lt_succ_self path.length)
  rw [h, ← startInum]
  simp only [bind_eq_some_iff, map_eq_some_iff, filter_eq_some_iff,
    decide_eq_true_eq, Prod.mk.injEq]
  constructor
  · rintro ⟨_, hlast, _, ⟨hd, htype⟩, rfl, rfl⟩
    exact ⟨hlast, hd, htype⟩
  · rintro ⟨hlast, hd, htype⟩
    exact ⟨nm, hlast, d, ⟨hd, htype⟩, rfl, rfl⟩

theorem follow_last {names : List (List Byte)} (hlast : names.getLast? = some nm)
    (hd : follow F i names.dropLast = some d) (htype : (F d).type = T_DIR) :
    follow F i names = ((F d).lookup nm).map fun k => ((F d).ent k).inum.toNat := by
  rw [← dropLast_append_getLast? nm hlast, follow_append, hd, bind_some, enter,
    if_pos htype]

/-- Path resolution in a state in which no directory changes. -/
theorem path_resolution (h : Inv sb H s) (hst : Steady sb H s) (hr : 0 < (s.itable cwd).ref)
    (path : List Byte) : Resolves sb H cwd path s where
  elements := skipelems_eq_components path
  namei r t hrun := by
    have hsat : Sat (Fs.namei sb cwd path) s (fun r t => disk sb t = disk sb s ∧
        r.map (fun ip => (t.itable ip).inum) =
          follow (files sb s) (startInum (s.itable cwd).inum path) (components path))
        fun _ => True := by
      unfold Fs.namei
      refine Sat.bind (namex_idle h hst hr) ?_
      rintro x u ⟨hu, hres⟩
      refine Sat.pure ⟨hu.disk, ?_⟩
      rw [← resolve_false, ← hres, Option.map_map, Option.map_map]
      rfl
    exact hsat.ok hrun
  nameiparent r t hrun := by
    obtain ⟨ht, hres⟩ := (namex_idle h hst hr).ok hrun
    refine ⟨ht.disk, fun hnil => ?_, fun d nm => ?_⟩
    · cases r with
      | none => rfl
      | some x =>
        have hsome := resolve_true_eq_some.mp hres.symm
        rw [hnil] at hsome
        cases hsome.1
    · rw [hres, resolve_true_eq_some]
  last d nm hlast hd htype := follow_last hlast hd htype
  returns hw htype := by
    refine ⟨?_, ?_⟩
    · have hsat : Sat (Fs.namei sb cwd path) s (fun _ _ => True) fun _ => False :=
        Sat.bind (namex_returns h hw hr htype) fun _ _ _ => Sat.pure trivial
      obtain ⟨r, t, hrun, -⟩ := hsat.exists_ok
      exact ⟨r, t, hrun⟩
    · obtain ⟨r, t, hrun, -⟩ := (namex_returns h hw hr htype).exists_ok
      exact ⟨r, t, hrun⟩

def firstCwd : InodePtr := ⟨0, ninode_pos⟩

theorem boot_unused {disk₀ : ℕ → Log.Block} (hne : ip ≠ firstCwd) :
    users (boot disk₀) ip + (cwds (boot disk₀)).count ip = 0 := by
  have hcount : (cwds (boot disk₀)).count ip = 0 := by
    rw [cwds_boot, Multiset.count_singleton]
    exact if_neg hne
  have husers : users (boot disk₀) ip = 0 := Count.occ_eq_zero.mpr fun _ _ => nofun
  rw [hcount, husers]

theorem path_resolution_pathAB :
    Resolves smallDisk (cwds (boot smallImage)) firstCwd pathAB (boot smallImage) ∧
    ∃ r t, namei smallDisk firstCwd pathAB (boot smallImage) = .ok (r, t) ∧
      r.map (fun ip => (t.itable ip).inum) = some 3 := by
  have hgood : Good smallDisk True (boot smallImage) := good_boot smallImage_tree
  have hcwd : 0 < ((boot smallImage).itable firstCwd).ref := Nat.one_pos
  have hres := path_resolution hgood.inv hgood.steady hcwd pathAB
  have hfiles : files smallDisk (boot smallImage) = smallFile := smallImage_file
  have hwalk : Walkable smallDisk (cwds (boot smallImage)) (boot smallImage) := by
    refine ⟨hgood.steady, hgood.tree.noDangling, fun d hd => ?_, ⟨⟨1, by decide⟩, ⟨2, by decide⟩,
      by decide, boot_unused (by decide), boot_unused (by decide)⟩, ?_⟩
    · rw [hfiles] at hd ⊢
      have hsmall : ∀ d < 8, direntSize ∣ (smallFile d).bytes.length := by decide
      by_cases h8 : d < 8
      · exact hsmall d h8
      · rw [smallFile_free (Nat.le_of_not_lt h8)]
        exact Nat.dvd_zero _
    · funext ip
      by_cases hip : ip = firstCwd
      · rw [hip]
        rfl
      · rw [locks, boot_itable_of_ne hip]
  obtain ⟨⟨r, t, hrun⟩, -⟩ := hres.returns hwalk (by rw [hfiles]; decide)
  refine ⟨hres, r, t, hrun, (hres.namei r t hrun).2.trans ?_⟩
  rw [hfiles]
  decide

end Xv6.Fs
