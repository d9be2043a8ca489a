import Xv6.Fs.TxPass
import Xv6.Fs.Ownership

/-! How many blocks one transaction logs. -/
namespace Xv6.Fs
open Bytes
open Xv6.Log (BSIZE MAXOPBLOCKS)

variable {sb : Superblock} {s : State} {H : Multiset InodePtr} {p : Fin NPROC} {x : Proc}

inductive Meets (sb : Superblock) (H : Multiset InodePtr) (s : State) : ℕ → Prop
  | root : Meets sb H s ROOTINO
  | used {ip : InodePtr} : 0 < users s ip + H.count ip → Meets sb H s (s.itable ip).inum
  | entry {d j : ℕ} : Meets sb H s d → (files sb s d).type = T_DIR → j < (files sb s d).nents →
      ((files sb s d).ent j).inum ≠ 0 → Meets sb H s ((files sb s d).ent j).inum.toNat

/-- A consistent state with nothing in the log: the invariant holds, and of the inodes that a walk
can meet only those in use have no link. -/
structure Settled (sb : Superblock) (H : Multiset InodePtr) (s : State) : Prop where
  inv : Inv sb H s
  linked : ∀ i, Meets sb H s i → (files sb s i).type ≠ 0 → (files sb s i).nlink = 0 → HeldBy H s i
  log : s.m.lh = []

/-- What a process does between `begin_op` and `end_op`. A path is none when it could not be read;
`put` is the transaction of the last `close` of a file and that of `exit`. -/
inductive Op where
  | write (f : FilePtr) (src : ℕ → Option Byte) (n : ℕ)
  | open (p : Fin NPROC) (path : List Byte) (omode : BitVec 32)
  | mkdir (p : Fin NPROC) (path : Option (List Byte))
  | mknod (p : Fin NPROC) (path : Option (List Byte)) (major minor : BitVec 16)
  | link (p : Fin NPROC) (old new : List Byte)
  | unlink (p : Fin NPROC) (path : List Byte)
  | chdir (p : Fin NPROC) (path : Option (List Byte))
  | put (ip : InodePtr)
  | exec (p : Fin NPROC) (path : List Byte) (vm : ℕ → Bool)

def Op.body (sb : Superblock) : Op → M Unit
  | .write f src n => do let _ ← writeTx sb f src n; return ()
  | .open p path omode => do let _ ← openTx sb p path omode; return ()
  | .mkdir p (some path) => do let _ ← makeTx sb p path T_DIR 0 0; return ()
  | .mknod p (some path) major minor => do
    let _ ← makeTx sb p path T_DEVICE major minor
    return ()
  | .link p old new => do let _ ← linkTx sb p old new; return ()
  | .unlink p path => do let _ ← unlinkTx sb p path; return ()
  | .chdir p (some path) => do let _ ← chdirTx sb p path; return ()
  | .put ip => iput sb ip
  | .exec p path vm => do let _ ← execTx sb p path vm; return ()
  | .mkdir _ none | .mknod _ none _ _ | .chdir _ none => return ()

def Op.proc : Op → Option (Fin NPROC)
  | .open p _ _ | .mkdir p _ | .mknod p _ _ _ | .link p _ _ | .unlink p _ | .chdir p _
  | .exec p _ _ => some p
  | .write _ _ _ | .put _ => none

/-- The arguments that the calls pass: an open file and at most three blocks to write, a reference
to drop, a process in use. -/
structure Op.Ready (H : Multiset InodePtr) (s : State) (op : Op) : Prop where
  write : ∀ f src n, op = .write f src n → (s.ftable f).type = .inode ∧ n ≤ 3 * BSIZE
  put : ∀ ip, op = .put ip → ip ∈ H
  proc : ∀ p, op.proc = some p → ∃ x, s.procs p = some x ∧ x.cwd ∈ H

theorem Settled.calm (h : Settled sb H s) : Calm sb (Meets sb H s) H s where
  root := .root
  entry _ hd htype _ hj hne := .entry hd htype hj hne
  held := h.linked

theorem Op.pass (hg : Mkfs sb) (h : Settled sb H s) {op : Op} (hop : op.Ready H s) :
    Sat (op.body sb) s (fun _ t => Pass sb True ∅ 0 (locks s) s t) (Fine True) := by
  have hG : True → Mkfs sb := fun _ => hg
  have hroom : True → Room ∅ MAXOPBLOCKS s := fun _ => ⟨by rw [h.log]; exact List.nodup_nil, by
    rw [h.log]
    exact le_refl _⟩
  have hwalk : ∀ {x : Proc}, x.cwd ∈ H →
      True → Calm sb (Meets sb H s) H s ∧ Meets sb H s (s.itable x.cwd).inum :=
    fun hcwd _ => ⟨h.calm, .used (mem_count hcwd)⟩
  have hrun : ∀ {α : Type} {m : M α}, Sat m s (fun _ t => Pass sb True ∅ 0 (locks s) s t)
      (Fine True) → Sat (do let _ ← m; return ()) s
      (fun _ t => Pass sb True ∅ 0 (locks s) s t) (Fine True) :=
    fun hm => Sat.bind hm fun _ _ ht => Sat.pure ht
  have hnone : Sat (return () : M Unit) s (fun _ t => Pass sb True ∅ 0 (locks s) s t)
      (Fine True) := Sat.pure (Pass.done (pass_refl hroom))
  cases op with
  | write f src n =>
    obtain ⟨hf, hn⟩ := hop.write f src n rfl
    exact hrun (writeTx_pass hG h.inv hroom hn (if_pos (.inl hf)))
  | «open» p path omode =>
    obtain ⟨x, hx, hcwd⟩ := hop.proc p rfl
    exact hrun (openTx_pass hG h.inv hx hcwd hroom (hwalk hcwd) omode)
  | mkdir p path =>
    obtain ⟨x, hx, hcwd⟩ := hop.proc p rfl
    cases path with
    | none => exact hnone
    | some path => exact hrun (makeTx_pass hG h.inv hx hcwd hroom (hwalk hcwd) (by decide))
  | mknod p path major minor =>
    obtain ⟨x, hx, hcwd⟩ := hop.proc p rfl
    cases path with
    | none => exact hnone
    | some path => exact hrun (makeTx_pass hG h.inv hx hcwd hroom (hwalk hcwd) (by decide))
  | link p old new =>
    obtain ⟨x, hx, hcwd⟩ := hop.proc p rfl
    exact hrun (linkTx_pass hG h.inv hx hcwd hroom (hwalk hcwd) old new)
  | unlink p path =>
    obtain ⟨x, hx, hcwd⟩ := hop.proc p rfl
    exact hrun (unlinkTx_pass hG h.inv hx hcwd hroom (hwalk hcwd) path)
  | chdir p path =>
    obtain ⟨x, hx, hcwd⟩ := hop.proc p rfl
    cases path with
    | none => exact hnone
    | some path => exact hrun (chdirTx_pass hG h.inv hx hcwd hroom (hwalk hcwd) path)
  | put ip => exact iputTx_pass hG h.inv hroom (hop.put ip rfl)
  | exec p path vm =>
    obtain ⟨x, hx, hcwd⟩ := hop.proc p rfl
    exact hrun (execTx_pass hG h.inv hroom hx hcwd (hwalk hcwd) path vm)

/-- With the layout of `mkfs` every transaction that starts in a consistent state logs at most
`MAXOPBLOCKS` distinct blocks, and the log does not run over in its course. -/
theorem logged_le_maxOpBlocks (hg : Mkfs sb) (h : Settled sb H s) (op : Op) (hop : op.Ready H s) :
    (∀ r, op.body sb s = .ok r → r.2.m.lh.Nodup ∧ r.2.m.lh.length ≤ MAXOPBLOCKS) ∧
      op.body sb s ≠ .error .tooBigTransaction := by
  have hpass := Op.pass hg h hop
  refine ⟨fun r hr => ?_, fun he => hpass.error he trivial rfl⟩
  have hroom := (hpass.ok hr).room trivial
  exact ⟨hroom.nodup, hroom.length_le⟩

def smallStart : State := { boot smallImage with outstanding := 1 }

theorem smallStart_settled : Settled smallDisk (cwds (boot smallImage)) smallStart := by
  have hboot := boot_inv smallImage_consistent
  have hstart : Step smallDisk (cwds (boot smallImage)) (cwds (boot smallImage))
      (files smallDisk (boot smallImage)) (boot smallImage) smallStart :=
    hboot.machine hboot.log rfl
  refine ⟨hstart.inv, fun i _ htype hn => ?_, rfl⟩
  have hi : i < 8 := lt_of_type htype
  have hlinks : ∀ i < 8, ((diskVol smallDisk smallImage).file i).type ≠ 0 →
      ((diskVol smallDisk smallImage).file i).nlink ≠ 0 := by decide +kernel
  rw [hstart.files] at htype hn
  exact absurd hn (hlinks i hi htype)

def removeOp : Op := .unlink initproc pathAB

theorem removeOp_ready : removeOp.Ready (cwds (boot smallImage)) smallStart := by
  refine ⟨?_, ?_, ?_⟩
  · rintro _ _ _ ⟨⟩
  · rintro _ ⟨⟩
  · rintro _ ⟨⟩
    refine ⟨{ cwd := ⟨0, by decide⟩ }, rfl, ?_⟩
    rw [cwds_boot]
    exact Multiset.mem_singleton_self _

theorem logged_le_removeOp : ∃ r, removeOp.body smallDisk smallStart = .ok r ∧
    r.2.m.lh.Nodup ∧ r.2.m.lh.length ≤ MAXOPBLOCKS := by
  have hok : (removeOp.body smallDisk smallStart).isOk = true := by decide +kernel
  have hg : Mkfs smallDisk := ⟨rfl, by decide⟩
  have hmain := (logged_le_maxOpBlocks hg smallStart_settled removeOp removeOp_ready).1
  generalize removeOp.body smallDisk smallStart = x at hok hmain
  cases x with
  | ok r => exact ⟨r, rfl, hmain r rfl⟩
  | error e => cases hok

end Xv6.Fs
