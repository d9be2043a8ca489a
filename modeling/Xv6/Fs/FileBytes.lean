import Xv6.Fs.Budget
import Xv6.Fs.SharedOffset

/-! Files as byte arrays: what `readi` gets after a `writei`. -/
namespace Xv6.Fs
open Bytes List
open Xv6.Log (BSIZE)

variable {sb : Superblock} {s t : State} {ip : InodePtr} {i b : ℕ} {src : ℕ → Option Byte}

def OutOfRoom (e : Panic) : Prop :=
  e = .outOfBlocks ∨ e = .tooBigTransaction ∨ e = .logWriteOutsideOfTrans

/-- The parts of which the functions that map and update inodes are made. -/
structure Parts (sb : Superblock) (R : State → State → Prop) (E : Panic → Prop) : Prop where
  dinode : ∀ ip g, Relates R E (modifyDinode ip g)
  put : ∀ b x, Relates R E (do storeBlock b x; logWrite sb b)
  full : E .outOfBlocks

namespace Parts
open Relates
variable {R : State → State → Prop} [IsPreorder State R] {E : Panic → Prop} (h : Parts sb R E)

theorem bread (b : ℕ) : Relates R E (Fs.bread b) := fun s => Std.Refl.refl (r := R) s

theorem getInode (ip : InodePtr) : Relates R E (Fs.getInode ip) := fun s =>
  Std.Refl.refl (r := R) s

include h

theorem ballocFrom (n b : ℕ) : Relates R E (Fs.ballocFrom sb n b) := by
  induction n generalizing b with
  | zero => exact throw h.full
  | succ n ih =>
    rw [Fs.ballocFrom]
    refine ite (fun _ => bind (bread _) fun bp => ?_) fun _ => throw h.full
    split
    · rw [← bind_assoc]
      exact bind (h.put _ _) fun _ => bind (h.put _ _) fun _ => pure _
    · exact ih _

theorem addrBlock (ip : InodePtr) (j : Fin (NDIRECT + 1)) : Relates R E (Fs.addrBlock sb ip j) :=
  bind (getInode ip) fun _ => ite
    (fun _ => bind (h.ballocFrom _ _) fun _ => bind (h.dinode ip _) fun _ => pure _) fun _ => pure _

theorem bmap (ip : InodePtr) {bn : ℕ} (hbn : bn < MAXFILE ∨ E .bmapOutOfRange) :
    Relates R E (Fs.bmap sb ip bn) := by
  unfold Fs.bmap
  refine ite (fun _ => h.addrBlock ip _) fun hd => ite (fun _ => ?_) fun hi => throw ?_
  · refine bind (h.addrBlock ip _) fun _ => bind (bread _) fun _ => ite (fun _ => ?_) fun _ => pure _
    refine bind (h.ballocFrom _ _) fun _ => bind (bread _) fun _ => ?_
    rw [← bind_assoc]
    exact bind (h.put _ _) fun _ => pure _
  · refine hbn.resolve_left fun hlt => ?_
    simp only [MAXFILE] at hlt
    omega

theorem iupdate (ip : InodePtr) : Relates R E (Fs.iupdate sb ip) :=
  bind (getInode ip) fun _ => bind (bread _) fun _ => h.put _ _

end Parts

def Roomy {α : Type} (m : M α) : Prop := Relates (fun _ _ => True) OutOfRoom m

namespace Roomy
open Relates

theorem storeBlock (b : ℕ) (x : Log.Block) : Roomy (Fs.storeBlock b x) := fun _ => trivial

theorem logWrite (sb : Superblock) (b : ℕ) : Roomy (Fs.logWrite sb b) := fun s =>
  (logWrite_run sb b s).mono (fun _ _ _ => trivial) fun _ => .inr

theorem parts (sb : Superblock) : Parts sb (fun _ _ => True) OutOfRoom where
  dinode _ _ _ := trivial
  put _ _ := bind (storeBlock _ _) fun _ => logWrite _ _
  full := .inl rfl

theorem writeiLoop (sb : Superblock) (ip : InodePtr) (src : ℕ → Option Byte) {n fuel tot off : ℕ}
    (h : off + (n - tot) ≤ MAXFILE * BSIZE) : Roomy (Fs.writeiLoop sb ip src n fuel tot off) := by
  induction fuel generalizing tot off with
  | zero => exact pure _
  | succ fuel ih =>
    rw [Fs.writeiLoop]
    refine ite (fun hlt => ?_) fun _ => pure _
    have hbn : off / BSIZE < MAXFILE := Nat.div_lt_of_lt_mul (by
      rw [Nat.mul_comm]
      omega)
    refine bind ((parts sb).bmap ip (.inl hbn)) fun _ => bind (Parts.bread _) fun _ =>
      bind (storeBlock _ _) fun _ => ite (fun _ => pure _) fun _ => bind (logWrite _ _) fun _ => ih ?_
    simp only [BSIZE] at h ⊢
    omega

theorem writei (sb : Superblock) (ip : InodePtr) (src : ℕ → Option Byte) (off n : BitVec 32) :
    Roomy (Fs.writei sb ip src off n) := by
  refine bind (Parts.getInode ip) fun e => ite (fun _ => pure _) fun hoff => ite (fun _ => pure _)
    fun hmax => bind (writeiLoop sb ip src ?_) fun _ => bind (Parts.getInode ip) fun _ =>
      bind (ite (fun _ => (parts sb).dinode ip _) fun _ => pure _) fun _ =>
        bind ((parts sb).iupdate ip) fun _ => pure _
  simp only [not_or, BitVec.not_lt, BitVec.le_def] at hoff hmax
  simp only [MAXFILE, NDIRECT, NINDIRECT, BSIZE] at hmax ⊢
  bv_omega

end Roomy

theorem readi_bytes (h : Live sb t ip i) {dst : ℕ → Bool} (hdst : ∀ k, dst k = true)
    {o m : BitVec 32} (hwrap : o.toNat + m.toNat < 2 ^ 32) :
    readi sb ip dst o m t =
      .ok (some ((((view sb t).file i).bytes.take (o.toNat + m.toNat)).drop o.toNat), t) := by
  have hsat := readi_sat (E := fun _ => False) h dst o m
  obtain ⟨r, u, hr, rfl, hbytes, hsome⟩ := hsat.exists_ok
  obtain ⟨bs, rfl⟩ := Option.ne_none_iff_exists'.mp (hsome hdst)
  rw [hr, hbytes bs rfl, Vol.file_of_ne h.type]
  congr 3
  set size := ((view sb u).node i).size with hsize
  have hlen : readLen size o m = min m.toNat (size.toNat - o.toNat) := by
    have hsum : ¬ o + m < o := by bv_omega
    unfold readLen
    split_ifs with hc
    · rcases hc with hc | hc
      · rw [BitVec.lt_def] at hc
        omega
      · exact absurd hc hsum
    · rfl
  rw [hlen, drop_take, Nat.add_sub_cancel_left]
  rcases Nat.le_total o.toNat size.toNat with ho | ho
  · rw [Vol.slice_eq (n := size.toNat) (by omega)]
    refine take_eq_take_iff.mpr ?_
    simp only [length_drop, length_map, length_range]
    omega
  · rw [Nat.sub_eq_zero_of_le ho, Nat.min_zero, drop_eq_nil_of_le (by simpa using ho), take_nil]
    rfl

theorem Put.node_of_ne {f : Node} (h : Put sb ip i f s t) (hs : Live sb s ip i) {k : ℕ} (hk : k ≠ i) :
    (view sb t).node k = (view sb s).node k := by
  obtain ⟨d, hd⟩ := h.touched
  have hit : t.itable = Function.update s.itable ip { s.itable ip with d := d } := by rw [hd]; rfl
  have hnot : ¬ Cached (s.itable ip) k := fun hc => hk (hc.2.1.symm.trans hs.cached.2.1)
  have hnot' : ¬ Cached { s.itable ip with d := d } k := hnot
  have htable : tableNode t.itable k = tableNode s.itable k := by
    rw [hit, tableNode_update hs.uniq (hit ▸ h.live.uniq), if_neg hnot', if_neg hnot]
  change (tableNode t.itable k).getD ((disk sb t).node k) = _
  rw [htable, h.dnode, Function.update_of_ne hk]
  rfl

/-- From `s` to `t` the inode `i` in the entry `ip` got the contents `c`, which `readi` sees; nothing
else about it changed, and nothing of the other inodes. -/
structure Becomes (sb : Superblock) (ip : InodePtr) (i : ℕ) (c : List Byte) (s t : State) : Prop where
  size : (t.itable ip).d.size.toNat = c.length
  read : ∀ (dst : ℕ → Bool), (∀ k, dst k = true) → ∀ o m : BitVec 32, o.toNat + m.toNat < 2 ^ 32 →
    readi sb ip dst o m t = .ok (some ((c.take (o.toNat + m.toNat)).drop o.toNat), t)
  self : (view sb t).file i = { (view sb s).file i with bytes := c }
  other : ∀ k < sb.ninodes, k ≠ i → (view sb t).node k = (view sb s).node k ∧
    (view sb t).file k = (view sb s).file k

theorem Put.becomes {c : List Byte} (h : Put sb ip i { (view sb s).file i with bytes := c } s t)
    (hs : Live sb s ip i) : Becomes sb ip i c s t where
  size := by
    have hlen := congrArg (fun f => f.bytes.length) h.self
    simpa [Vol.file_of_ne h.live.type, h.live.d] using hlen
  read dst hdst o m hwrap := by
    rw [readi_bytes h.live hdst hwrap, h.self]
  self := h.self
  other k hk hki := ⟨h.node_of_ne hs hki, h.other k hk hki⟩

/-- The two tests at the start of `writei`, in exact numbers. -/
theorem refuses_iff {size off n : BitVec 32} (hsize : size.toNat ≤ MAXFILE * BSIZE) :
    (size < off ∨ off + n < off) ∨ BitVec.ofNat 32 (MAXFILE * BSIZE) < off + n ↔
      size.toNat < off.toNat ∨ 2 ^ 32 ≤ off.toNat + n.toNat ∨
        MAXFILE * BSIZE < off.toNat + n.toNat := by
  simp only [MAXFILE, NDIRECT, NINDIRECT, BSIZE] at hsize ⊢
  bv_omega

theorem writei_refuses (src : ℕ → Option Byte) (off n : BitVec 32)
    (h : ((s.itable ip).d.size < off ∨ off + n < off) ∨ BitVec.ofNat 32 (MAXFILE * BSIZE) < off + n) :
    writei sb ip src off n s = .ok (-1, s) := by
  have hsat : Sat (writei sb ip src off n) s (fun r t => r = -1 ∧ t = s) fun _ => False := by
    unfold writei
    refine getInode_bind (Sat.ite (fun _ => Sat.pure ⟨rfl, rfl⟩) fun h₁ => Sat.ite
      (fun _ => Sat.pure ⟨rfl, rfl⟩) fun h₂ => ?_)
    exact absurd h (not_or.mpr ⟨h₁, h₂⟩)
  obtain ⟨r, t, hr, rfl, rfl⟩ := hsat.exists_ok
  exact hr

theorem writei_accepts (src : ℕ → Option Byte) (off n : BitVec 32)
    (h : ¬ (((s.itable ip).d.size < off ∨ off + n < off) ∨
      BitVec.ofNat 32 (MAXFILE * BSIZE) < off + n)) :
    Sat (writei sb ip src off n) s (fun r _ => r ≠ -1) fun _ => True := by
  obtain ⟨h₁, h₂⟩ := not_or.mp h
  unfold writei
  refine getInode_bind (Sat.ite (fun hc => absurd hc h₁) fun _ => Sat.ite (fun hc => absurd hc h₂)
    fun _ => ?_)
  refine Sat.bind Sat.any fun r _ _ => Sat.skip fun _ _ => Sat.skip fun _ _ =>
    Sat.skip fun _ _ => Sat.pure ?_
  omega

/-- With all of its source readable, a `writei` inside the file and its limit writes everything,
unless `balloc` or `log_write` panics; any other `writei` returns -1 and does nothing. -/
theorem writei_becomes (h : Live sb s ip i) (src : ℕ → Option Byte) (off n : BitVec 32) :
    ((∀ c < n.toNat, (src c).isSome) → off.toNat ≤ (s.itable ip).d.size.toNat →
      off.toNat + n.toNat ≤ MAXFILE * BSIZE →
      Sat (writei sb ip src off n) s (fun r t => r = n.toNat ∧
        (t.itable ip).d.size.toNat = max (s.itable ip).d.size.toNat (off.toNat + n.toNat) ∧
        Becomes sb ip i
          (Splice.splice ((view sb s).file i).bytes off.toNat (bytesOf src n.toNat)) s t)
        OutOfRoom) ∧
    ((s.itable ip).d.size.toNat < off.toNat ∨ 2 ^ 32 ≤ off.toNat + n.toNat ∨
      MAXFILE * BSIZE < off.toNat + n.toNat → writei sb ip src off n s = .ok (-1, s)) := by
  have hlen : ((view sb s).file i).bytes.length = (s.itable ip).d.size.toNat := by
    rw [Vol.file_of_ne h.type, h.d]
    simp
  have hsize : (s.itable ip).d.size.toNat ≤ MAXFILE * BSIZE := by
    rw [h.d]
    exact h.wf.small i h.lt h.type
  constructor
  · intro hsrc hoff hmax
    have hgood : ¬ ((s.itable ip).d.size.toNat < off.toNat ∨ 2 ^ 32 ≤ off.toNat + n.toNat ∨
        MAXFILE * BSIZE < off.toNat + n.toNat) := by
      simp only [MAXFILE, NDIRECT, NINDIRECT, BSIZE] at hmax ⊢
      omega
    have hret : Sat (writei sb ip src off n) s (fun r _ => r ≠ -1) fun _ => True :=
      writei_accepts src off n (mt (refuses_iff hsize).mp hgood)
    refine (((writei_sat h src off n).beside hret).beside
      (Roomy.writei sb ip src off n s)).post ?_
    rintro r t ⟨⟨⟨hr, -⟩ | ⟨tot, x, bs, rfl, -, hle, hall, hput, hpat⟩, hne⟩, -⟩
    · exact absurd hr hne
    · obtain ⟨rfl, rfl⟩ := hall hsrc
      rw [hpat.eq_splice hle fun _ => rfl] at hput
      have hb := hput.becomes h
      refine ⟨rfl, ?_, hb⟩
      rw [hb.size, Splice.length_splice hle, length_bytesOf, hlen]
  · intro hbad
    exact writei_refuses src off n ((refuses_iff hsize).mpr hbad)

/-- A process has passed `begin_op`, and the blocks `lh` are in the log. -/
def State.inTransaction (s : State) (lh : List ℕ) : State :=
  { s with m := { s.m with lh := lh }, outstanding := 1 }

theorem Inv.inTransaction {H : Multiset InodePtr} (h : Inv sb H s) {f : FilePtr} (hf : WriteFile f s)
    (lh : List ℕ) (hlen : lh.length ≤ sb.nlog - 1)
    (hhome : ∀ b ∈ lh, sb.inodestart ≤ b ∧ b < sb.size) :
    Live sb (s.inTransaction lh) (s.ftable f).ip (fileInum f s) := by
  have hlog : LogOk sb (s.inTransaction lh).m := ⟨hlen, hhome⟩
  have hcached := h.cached_file hf.user
  have hstep : Step sb H H (files sb s) s (s.inTransaction lh) := h.machine hlog rfl
  exact hstep.inv.toLive hcached

theorem writei_becomes_twoBytes : ∃ t, writei smallDisk (twoBytesState.ftable secondFile).ip
    (fun k => [9, 8][k]?) 1 2 (twoBytesState.inTransaction []) = .ok (2, t) ∧
    Becomes smallDisk (twoBytesState.ftable secondFile).ip (fileInum secondFile twoBytesState)
      [1, 9, 8] (twoBytesState.inTransaction []) t := by
  have hinv := run_inv smallImage_consistent twoBytes_run
  have hlive := hinv.inTransaction twoBytes_writeFile [] (Nat.zero_le _) nofun
  have hold : ((view smallDisk (twoBytesState.inTransaction [])).file
      (fileInum secondFile twoBytesState)).bytes = [1, 2] := by decide +kernel
  have hsize : ((twoBytesState.inTransaction []).itable
      (twoBytesState.ftable secondFile).ip).d.size.toNat = 2 := by decide +kernel
  have hok : (writei smallDisk (twoBytesState.ftable secondFile).ip (fun k => [9, 8][k]?) 1 2
      (twoBytesState.inTransaction [])).isOk = true := by decide +kernel
  -- from here on the state is any one with these facts
  generalize twoBytesState.inTransaction [] = s at hlive hold hsize hok ⊢
  generalize (twoBytesState.ftable secondFile).ip = ip at hlive hsize hok ⊢
  generalize fileInum secondFile twoBytesState = i at hlive hold ⊢
  have hsat := (writei_becomes hlive (fun k => [9, 8][k]?) 1 2).1 (by decide) (by rw [hsize]; decide)
    (by decide)
  have hnew : Splice.splice [1, 2] (1 : BitVec 32).toNat
      (bytesOf (fun k => [9, 8][k]?) (2 : BitVec 32).toNat) = [1, 9, 8] := by decide
  rw [hold, hnew] at hsat
  cases hx : writei smallDisk ip (fun k => [9, 8][k]?) 1 2 s with
  | error e =>
    rw [hx] at hok
    cases hok
  | ok r =>
    obtain ⟨hr, -, hb⟩ := hsat.ok hx
    exact ⟨r.2, by rw [← Prod.mk.eta (p := r), hr]; rfl, hb⟩

/-- With 29 blocks in the log there is no room for one more, although `writei` does not have to
allocate a block. -/
theorem not_writei_fullLog :
    Live smallDisk (twoBytesState.inTransaction (List.range' 34 29))
        (twoBytesState.ftable secondFile).ip (fileInum secondFile twoBytesState) ∧
      ((twoBytesState.inTransaction (List.range' 34 29)).itable
        (twoBytesState.ftable secondFile).ip).d.size = 2 ∧
      (view smallDisk (twoBytesState.inTransaction (List.range' 34 29))).block
        (fileInum secondFile twoBytesState) 0 ≠ 0 ∧
      writei smallDisk (twoBytesState.ftable secondFile).ip (fun k => [9][k]?) 0 1
        (twoBytesState.inTransaction (List.range' 34 29)) = .error .tooBigTransaction := by
  have hinv := run_inv smallImage_consistent twoBytes_run
  have hlive := hinv.inTransaction twoBytes_writeFile (List.range' 34 29) (by decide)
    (by decide)
  have hsize : ((twoBytesState.inTransaction (List.range' 34 29)).itable
      (twoBytesState.ftable secondFile).ip).d.size = 2 := by decide +kernel
  have herr : panicOf (writei smallDisk (twoBytesState.ftable secondFile).ip (fun k => [9][k]?) 0 1
      (twoBytesState.inTransaction (List.range' 34 29))) = some .tooBigTransaction := by decide +kernel
  generalize twoBytesState.inTransaction (List.range' 34 29) = s at hlive hsize herr ⊢
  generalize (twoBytesState.ftable secondFile).ip = ip at hlive hsize herr ⊢
  generalize fileInum secondFile twoBytesState = i at hlive ⊢
  refine ⟨hlive, hsize, hlive.wf.full i hlive.lt hlive.type 0 ?_, eq_of_panicOf herr⟩
  rw [← hlive.d, hsize]
  decide

end Xv6.Fs
