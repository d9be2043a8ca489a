import Xv6.Fs.CallSpec
import Xv6.Fs.Pass

/-! Functions that write to no block: lookups, and the references and locks they take. -/
namespace Xv6.Fs
open Bytes Multiset

variable {sb : Superblock} {s t u : State} {ip dp cwd : InodePtr} {i d : ℕ}
  {H K L : Multiset InodePtr} {name path : List Byte}

structure Idle (sb : Superblock) (K H : Multiset InodePtr) (s t : State) : Prop where
  inv : Inv sb H t
  frame : Frame K s t
  m : t.m = s.m

namespace Idle

theorem of_step {F : ℕ → Node} (h : Step sb K H F s t) (hm : t.m = s.m) : Idle sb K H s t :=
  ⟨h.inv, h.frame, hm⟩

theorem trans (h : Idle sb K H s t) (h' : Idle sb K L t u) : Idle sb K L s u :=
  ⟨h'.inv, h.frame.trans h'.frame, h'.m.trans h.m⟩

theorem mono (h : Idle sb K H s t) (hL : L ≤ K) : Idle sb L H s t := ⟨h.inv, h.frame.mono hL, h.m⟩

theorem disk (h : Idle sb K H s t) : disk sb t = disk sb s := by rw [Fs.disk, h.m, Fs.disk]

theorem files (h : Idle sb K H s t) : files sb t = files sb s := by
  rw [Fs.files, h.disk]
  rfl

theorem step (h : Idle sb K H s t) : Step sb K H (Fs.files sb s) s t := ⟨h.inv, h.frame, h.files⟩

theorem steady (h : Idle sb K H s t) (hst : Steady sb K s) : Steady sb K t :=
  hst.frame h.frame h.files

theorem cached (h : Idle sb K H s t) (hK : ip ∈ K) (hH : ip ∈ H) (hc : Cached (s.itable ip) i) :
    Cached (t.itable ip) i := h.step.cached hK hH hc

end Idle

theorem nothing : False → Room ∅ 0 s := nofun

theorem ilock_idle (h : Inv sb H s) (hr : 0 < (s.itable ip).ref) :
    Sat (ilock sb ip) s (fun _ t => Idle sb H H s t ∧ Cached (t.itable ip) (s.itable ip).inum)
      fun _ => True := by
  refine ((ilock_sat h hr).beside (ilock_pass nothing)).mono ?_ fun _ _ => trivial
  rintro _ t ⟨⟨ht, hc⟩, -, -, hm, -⟩
  exact ⟨.of_step ht hm, hc⟩

theorem iunlock_idle (h : Inv sb H s) :
    Sat (iunlock ip) s (fun _ t => Idle sb H H s t) fun _ => True := by
  refine ((iunlock_sat h).beside (iunlock_pass sb nothing)).mono ?_ fun _ _ => trivial
  rintro _ t ⟨⟨-, ht⟩, hm, -⟩
  exact .of_step ht hm

theorem iput_idle (h : Inv sb (ip ::ₘ H) s) (hlast : ¬ Last (s.itable ip)) :
    Sat (iput sb ip) s (fun _ t => Idle sb H H s t) fun _ => True := by
  have hm : Sat (iput sb ip) s (fun _ t => t.m = s.m) fun _ => True := by
    unfold iput
    refine getInode_bind (Sat.bind (R := fun _ t => t.m = s.m)
      (doIf_sat (fun hl => absurd hl hlast) fun _ => rfl) fun _ t ht => getInode_bind (setInode_sat ht))
  refine ((iput_sat h).beside hm).post ?_
  rintro _ t ⟨ht, hm⟩
  exact .of_step ht hm

theorem iunlockput_idle (h : Inv sb (ip ::ₘ H) s) (hst : Steady sb H s) :
    Sat (iunlockput sb ip) s (fun _ t => Idle sb H H s t) fun _ => True := by
  have hle := le_cons_self H ip
  unfold iunlockput
  refine Sat.bind (iunlock_idle h) fun _ t ht => ?_
  have hlast := ((ht.mono hle).steady hst).not_last ht.inv
  exact (iput_idle ht.inv hlast).post fun _ u hu => (ht.mono hle).trans hu

theorem dirlookup_idle (name : List Byte) (h : Inv sb H s) (hc : Cached (s.itable dp) d) :
    Sat (dirlookup sb dp name) s (fun r t => Found sb H d name s r t ∧ t.m = s.m)
      fun _ => True :=
  ((dirlookup_sat name h hc).beside (dirlookup_quiet (P := False) name h hc)).mono
    (fun _ _ ht => ⟨ht.1, ht.2.1⟩) fun _ _ => trivial

def Walks (sb : Superblock) (H : Multiset InodePtr) (w : Option (ℕ × List Byte)) (s : State)
    (r : Option (InodePtr × List Byte)) (t : State) : Prop :=
  Idle sb H (r.elim H fun x => x.1 ::ₘ H) s t ∧ r.map (fun x => ((t.itable x.1).inum, x.2)) = w

theorem namexFrom_still {parent : Bool} {n : ℕ} (h : Inv sb (ip ::ₘ H) s) (hst : Steady sb H s) :
    Sat (namexFrom sb parent n ip path name) s (fun _ t => t.m = s.m) fun _ => True := by
  induction n generalizing ip path name s with
  | zero => exact Sat.pure rfl
  | succ n ih =>
    have hle := le_cons_self H ip
    have hleave : ∀ {t : State}, Idle sb (ip ::ₘ H) (ip ::ₘ H) s t →
        Sat (do iunlockput sb ip; return (none : Option (InodePtr × List Byte))) t
          (fun _ u => u.m = s.m) fun _ => True := fun ht =>
      Sat.bind (iunlockput_idle ht.inv ((ht.mono hle).steady hst))
        fun _ _ hu => Sat.pure (hu.m.trans ht.m)
    rw [namexFrom]
    cases hskip : skipelem path with
    | none =>
      refine Sat.ite (fun _ => ?_) fun _ => Sat.pure rfl
      exact Sat.bind (iput_idle h (hst.not_last h)) fun _ _ ht => Sat.pure ht.m
    | some x =>
      dsimp only
      refine Sat.bind (ilock_idle h h.ref_pos) ?_
      rintro _ t ⟨ht, hc⟩
      refine getInode_bind (Sat.ite (fun _ => hleave ht) fun _ => Sat.ite (fun _ => ?_) fun _ => ?_)
      · exact Sat.bind (iunlock_idle ht.inv) fun _ _ hu => Sat.pure (hu.m.trans ht.m)
      refine Sat.bind (dirlookup_idle x.2 ht.inv hc) ?_
      rintro r u ⟨⟨-, hr⟩, hm⟩
      split
      · obtain ⟨rfl, -⟩ := hr
        exact hleave ht
      · rename_i next off
        obtain ⟨k, hk, -, hu, hnum, -⟩ := hr
        have hinv : Inv sb (ip ::ₘ next ::ₘ H) u := by
          rw [cons_swap]
          exact hu.inv
        have hsu : Idle sb H (next ::ₘ ip ::ₘ H) s u := (ht.trans (.of_step hu hm)).mono hle
        have hstu := hsu.steady hst
        refine Sat.bind (iunlockput_idle hinv (hstu.mono (le_cons_self H next))) ?_
        intro _ v hv
        have huv := hv.mono (le_cons_self H next)
        exact (ih hv.inv (huv.steady hstu)).post fun _ w hw => hw.trans (hv.m.trans hsu.m)

theorem namex_idle {parent : Bool} (h : Inv sb H s) (hst : Steady sb H s)
    (hr : 0 < (s.itable cwd).ref) :
    Sat (namex sb cwd path parent) s
      (Walks sb H (resolve (files sb s) (s.itable cwd).inum path parent) s) fun _ => True := by
  have hstart : Sat (startInode cwd path) s (fun ip t => Idle sb H (ip ::ₘ H) s t)
      fun _ => True :=
    ((startInode_sat h hr).beside (startInode_quiet (P := False))).mono
      (fun _ _ ht => .of_step ht.1.1 ht.2.1) fun _ _ => trivial
  have hm : Sat (namex sb cwd path parent) s (fun _ t => t.m = s.m) fun _ => True :=
    Sat.bind hstart fun ip t ht => (namexFrom_still ht.inv (ht.steady hst)).post fun _ u hu => hu.trans ht.m
  refine ((namex_sat h hr).beside hm).post ?_
  rintro r t ⟨⟨F, ht, hF⟩, hm⟩
  exact ⟨.of_step ht hm, (hF hst).2⟩

end Xv6.Fs
