import Xv6.Fs.Ownership
import Xv6.Lib.Splice

/-! Calls of `filewrite` through one open file: their chunks follow each other in the file, in the
order in which they run. -/
namespace Xv6.Fs
open Bytes PartialRun Splice Function List Option BitVec
open Xv6.Log (BSIZE)

structure Write where
  src : ℕ → Option Byte
  n : ℕ
  done : ℕ := 0

structure Shared where
  fs : State
  calls : List Write := []
  wrote : List (ℕ × List Byte) := []

inductive Turn where
  | start (src : ℕ → Option Byte) (n : BitVec 32)
  | chunk (c : ℕ)

/-- A process calls `filewrite`, or one that did runs the next round of its loop: a transaction. A
round that writes less than it should ends its call with -1, and is not one of these runs. -/
def turn (sb : Superblock) (f : FilePtr) (s : Shared) : Turn → Option Shared
  | .start src n => some { s with calls := s.calls ++ [{ src := src, n := n.toInt.toNat }] }
  | .chunk c =>
    match s.calls[c]? with
    | none => none
    | some w =>
      if w.done < w.n then
        let n1 := min (w.n - w.done) maxWrite
        match transaction sb (writeTx sb f (fun k => w.src (w.done + k)) n1) s.fs with
        | .error _ => none
        | .ok r =>
          if r.1 = n1 then some {
            fs := r.2
            calls := s.calls.set c { w with done := w.done + n1 }
            wrote := s.wrote ++ [(c, bytesOf (fun k => w.src (w.done + k)) n1)] }
          else none
      else none

def Shared.bytes (s : Shared) : List Byte := s.wrote.flatMap Prod.snd

def Shared.bytesBy (s : Shared) (c : ℕ) : List Byte :=
  (s.wrote.filter fun q => q.1 = c).flatMap Prod.snd

variable {sb : Superblock} {H : Multiset InodePtr} {f : FilePtr} {s₀ s t : State}
  {u v : Shared} {bs : List Byte} {src : ℕ → Option Byte} {n : ℕ}

def fileInum (f : FilePtr) (s : State) : ℕ := (s.itable (s.ftable f).ip).inum

def written (sb : Superblock) (f : FilePtr) (s₀ : State) (bs : List Byte) : ℕ → Node :=
  update (files sb s₀) (fileInum f s₀) { files sb s₀ (fileInum f s₀) with
    bytes := splice (files sb s₀ (fileInum f s₀)).bytes (s₀.ftable f).off.toNat bs }

/-- From `s₀` to `s` the bytes `bs` were written at the offset of `f`, which moved behind them. -/
structure Appends (sb : Superblock) (H : Multiset InodePtr) (f : FilePtr) (s₀ : State)
    (bs : List Byte) (s : State) : Prop where
  inv : Inv sb H s
  file : ∃ off, s.ftable f = { s₀.ftable f with off := off }
  inum : fileInum f s = fileInum f s₀
  off : (s.ftable f).off.toNat = (s₀.ftable f).off.toNat + bs.length
  files : files sb s = written sb f s₀ bs
  fits : bs ≠ [] → (s₀.ftable f).off.toNat ≤ (Fs.files sb s₀ (fileInum f s₀)).bytes.length

theorem Appends.refl (h : Inv sb H s) : Appends sb H f s [] s where
  inv := h
  file := ⟨_, rfl⟩
  inum := rfl
  off := rfl
  files := by rw [written, splice_nil, update_eq_self]
  fits h0 := absurd rfl h0

structure WriteFile (f : FilePtr) (s : State) : Prop where
  type : (s.ftable f).type = .inode
  writable : (s.ftable f).writable = true

theorem WriteFile.user (h : WriteFile f s) : fileUser (s.ftable f) = some (s.ftable f).ip :=
  if_pos (.inl h.type)

theorem Appends.writeFile (h : Appends sb H f s₀ bs s) (hf : WriteFile f s₀) : WriteFile f s := by
  obtain ⟨off, hoff⟩ := h.file
  exact ⟨by rw [hoff]; exact hf.type, by rw [hoff]; exact hf.writable⟩

theorem Appends.chunk (h : Appends sb H f s₀ bs s) (hf : WriteFile f s₀) {r : ℤ} (hinv : Inv sb H t)
    (hc : Chunk sb f src n s r t) (hr : r = n) (hn : n < 2 ^ 32) :
    Appends sb H f s₀ (bs ++ bytesOf src n) t := by
  obtain ⟨hoff, hle, hfiles⟩ := hc.full hr hn
  obtain ⟨o, hfile⟩ := h.file
  obtain ⟨o', hfile'⟩ := hc.file
  have hip : (s.ftable f).ip = (s₀.ftable f).ip := by rw [hfile]
  have hip' : (t.ftable f).ip = (s.ftable f).ip := by rw [hfile']
  have hnum : fileInum f t = fileInum f s₀ := by
    rw [← h.inum, fileInum, hip', hc.inum]
    rfl
  change _ ≤ (Fs.files sb s (fileInum f s)).bytes.length at hle
  change Fs.files sb t = update (Fs.files sb s) (fileInum f s)
    { Fs.files sb s (fileInum f s) with bytes := splice (Fs.files sb s (fileInum f s)).bytes _ _ }
    at hfiles
  have hold : (Fs.files sb s (fileInum f s₀)).bytes =
      splice (Fs.files sb s₀ (fileInum f s₀)).bytes (s₀.ftable f).off.toNat bs := by
    rw [h.files, written, update_self]
  have hfits : (s₀.ftable f).off.toNat ≤ (Fs.files sb s₀ (fileInum f s₀)).bytes.length := by
    rcases eq_or_ne bs [] with rfl | hne
    · rw [h.inum, h.off, hold, splice_nil] at hle
      simpa using hle
    · exact h.fits hne
  -- the offset does not wrap: the file has room for the chunk
  have hsmall : (s.ftable f).off.toNat + n < 2 ^ 32 := by
    have hu := (h.writeFile hf).user
    have hut : fileUser (t.ftable f) = some (t.ftable f).ip :=
      (hc.open hu (h.writeFile hf).writable).1
    have hmax := hinv.length_le (hinv.cached_file hut)
    change (Fs.files sb t (fileInum f t)).bytes.length ≤ _ at hmax
    rw [hnum, ← h.inum, hfiles, update_self] at hmax
    dsimp only at hmax
    rw [length_splice hle, length_bytesOf] at hmax
    simp only [MAXFILE, NDIRECT, NINDIRECT, BSIZE] at hmax
    omega
  refine ⟨hinv, ⟨o', by rw [hfile', hfile]⟩, hnum, ?_, ?_, fun _ => hfits⟩
  · rw [hoff, toNat_add, toNat_ofNat, length_append, length_bytesOf]
    have := h.off
    omega
  · rw [hfiles, h.inum, hold, h.off, splice_splice hfits, h.files, written, update_idem,
      update_self, written]

theorem bytesOf_add (src : ℕ → Option Byte) (n m : ℕ) :
    bytesOf src n ++ bytesOf (fun k => src (n + k)) m = bytesOf src (n + m) := by
  simp [bytesOf, range_add, comp_def]

theorem maxWrite_lt (n : ℕ) : min n maxWrite < 2 ^ 32 :=
  (Nat.min_le_right _ _).trans_lt (by decide)

structure Shares (sb : Superblock) (H : Multiset InodePtr) (f : FilePtr) (s₀ : State) (s : Shared) :
    Prop where
  appends : Appends sb H f s₀ s.bytes s.fs
  calls : ∀ c w, s.calls[c]? = some w → w.done ≤ w.n ∧ s.bytesBy c = bytesOf w.src w.done
  known : ∀ q ∈ s.wrote, q.1 < s.calls.length

theorem Shares.start (h : Shares sb H f s₀ u) (src : ℕ → Option Byte) (n : ℕ) :
    Shares sb H f s₀ { u with calls := u.calls ++ [{ src := src, n := n }] } := by
  refine ⟨h.appends, fun c w hw => ?_, fun q hq => ?_⟩
  · rcases Nat.lt_or_ge c u.calls.length with hc | hc
    · rw [getElem?_append_left hc] at hw
      exact h.calls c w hw
    · rw [getElem?_append_right hc] at hw
      obtain ⟨hlt, rfl⟩ := List.getElem?_eq_some_iff.mp hw
      rw [getElem_singleton]
      refine ⟨Nat.zero_le _, ?_⟩
      -- the new call has no chunk yet
      have hnone : u.wrote.filter (fun q => q.1 = c) = [] := filter_eq_nil_iff.mpr fun q hq => by
        have := h.known q hq
        simp only [decide_eq_true_eq]
        omega
      rw [Shared.bytesBy, hnone]
      rfl
  · rw [length_append]
    exact (h.known q hq).trans_le (Nat.le_add_right _ _)

theorem Shares.chunk (h : Shares sb H f s₀ u) (hf : WriteFile f s₀) {c : ℕ} {w : Write} {r : ℤ}
    (hw : u.calls[c]? = some w) (hle : w.done + n ≤ w.n) (hn : n < 2 ^ 32) (hinv : Inv sb H t)
    (hc : Chunk sb f (fun k => w.src (w.done + k)) n u.fs r t) (hr : r = n) :
    Shares sb H f s₀ {
      fs := t
      calls := u.calls.set c { w with done := w.done + n }
      wrote := u.wrote ++ [(c, bytesOf (fun k => w.src (w.done + k)) n)] } := by
  have hlt : c < u.calls.length := (List.getElem?_eq_some_iff.mp hw).1
  refine ⟨?_, fun c' w' hw' => ?_, fun q hq => ?_⟩
  · have happ := h.appends.chunk hf hinv hc hr hn
    rw [Shared.bytes] at happ
    rw [Shared.bytes, flatMap_append, flatMap_singleton]
    exact happ
  · have hby : ∀ c', Shared.bytesBy ⟨t, u.calls.set c { w with done := w.done + n },
        u.wrote ++ [(c, bytesOf (fun k => w.src (w.done + k)) n)]⟩ c' =
        u.bytesBy c' ++ if c = c' then bytesOf (fun k => w.src (w.done + k)) n else [] := by
      intro c'
      rw [Shared.bytesBy, filter_append, flatMap_append]
      by_cases hcc : c = c' <;> simp [hcc, Shared.bytesBy]
    rw [hby]
    rcases eq_or_ne c c' with rfl | hne
    · rw [getElem?_set_self hlt] at hw'
      obtain rfl := Option.some.inj hw'
      refine ⟨hle, ?_⟩
      rw [if_pos rfl, (h.calls c w hw).2, bytesOf_add]
    · rw [getElem?_set_ne hne] at hw'
      rw [if_neg hne, append_nil]
      exact h.calls c' w' hw'
  · rw [length_set]
    rcases mem_append.mp hq with hq | hq
    · exact h.known q hq
    · rw [mem_singleton.mp hq]
      exact hlt

theorem turn_shares (h : Shares sb H f s₀ u) (hf : WriteFile f s₀) {e : Turn}
    (hs : turn sb f u e = some v) : Shares sb H f s₀ v := by
  cases e with
  | start src n =>
    cases hs
    exact h.start src _
  | chunk c =>
    simp only [turn] at hs
    split at hs
    · cases hs
    rename_i w hw
    split at hs
    · rename_i hlt
      split at hs
      · cases hs
      rename_i r hr
      split at hs
      · rename_i hn
        cases hs
        have hwf := h.appends.writeFile hf
        obtain ⟨hmoved, hchunk⟩ :=
          (writeTx_sat True h.appends.inv hwf.user hwf.writable).ok hr
        exact h.chunk hf hw (by omega) (maxWrite_lt _) hmoved.inv hchunk hn
      · cases hs
    · cases hs

theorem filewriteLoop_appends {fuel j : ℕ} (h : Appends sb H f s₀ (bytesOf src j) s)
    (hf : WriteFile f s₀) (hj : j ≤ n) :
    Sat (filewriteLoop sb f src n fuel j) s (fun k t => k = n →
      Appends sb H f s₀ (bytesOf src n) t) Mild := by
  induction fuel generalizing s j with
  | zero =>
    refine Sat.pure fun hk => ?_
    rwa [← hk]
  | succ fuel ih =>
    have hwf := h.writeFile hf
    rw [filewriteLoop]
    refine Sat.ite (fun hlt => Sat.bind (writeTx_sat True h.inv hwf.user hwf.writable) ?_)
      fun hge => Sat.pure fun hk => ?_
    · rintro r t ⟨hmoved, hchunk⟩
      refine Sat.ite (fun _ => Sat.pure fun hk => absurd hk (by omega)) fun hr => ?_
      have happ := h.chunk hf hmoved.inv hchunk (not_not.mp hr) (maxWrite_lt _)
      rw [bytesOf_add] at happ
      exact ih happ (by omega)
    · rwa [← hk]

theorem filewrite_appends (h : Inv sb H s) (hf : WriteFile f s) (src : ℕ → Option Byte)
    (n : BitVec 32) (other : ℤ) :
    Sat (filewrite sb f src n other) s (fun r t => r = n.toInt → 0 ≤ n.toInt →
      Appends sb H f s (bytesOf src n.toInt.toNat) t) Mild := by
  unfold filewrite
  refine getFile_bind ?_
  rw [if_neg (by rw [hf.writable]; decide), hf.type]
  refine Sat.bind (filewriteLoop_appends (j := 0) (Appends.refl h) hf (Nat.zero_le _)) ?_
  intro k t hk
  refine Sat.pure fun hr hpos => hk ?_
  split at hr <;> omega

theorem writeTx_appends (h : Inv sb H s) (hf : WriteFile f s) (src : ℕ → Option Byte)
    (hn : n < 2 ^ 32) :
    Sat (transaction sb (writeTx sb f src n)) s (fun r t => r = n →
      Appends sb H f s (bytesOf src n) t) Mild := by
  refine (writeTx_sat True h hf.user hf.writable).post ?_
  rintro r t ⟨hmoved, hchunk⟩ hr
  exact (Appends.refl h).chunk hf hmoved.inv hchunk hr hn

/-- What the calls leave: the old contents up to the offset, what was written in the order in which
it was written, and the old contents behind that. -/
structure InOrder (sb : Superblock) (f : FilePtr) (s₀ : State) (s : Shared) : Prop where
  contents : files sb s.fs = update (files sb s₀) (fileInum f s₀)
    { files sb s₀ (fileInum f s₀) with
      bytes := (files sb s₀ (fileInum f s₀)).bytes.take (s₀.ftable f).off.toNat ++ s.bytes ++
        (files sb s₀ (fileInum f s₀)).bytes.drop ((s₀.ftable f).off.toNat + s.bytes.length) }
  offset : (s.fs.ftable f).off.toNat = (s₀.ftable f).off.toNat + s.bytes.length
  calls : ∀ c w, s.calls[c]? = some w → w.done = w.n → s.bytesBy c = bytesOf w.src w.n

/-- For every interleaving of the transactions of `filewrite` calls on one open file the chunks lie in
the file one after the other, each call's bytes once and in order; and a call that ran alone has done
what one transaction with all its bytes does. -/
theorem shared_offset (h : Inv sb H s₀) (hf : WriteFile f s₀) :
    (∀ ts u, run (turn sb f) { fs := s₀ } ts = some u → InOrder sb f s₀ u) ∧
    ∀ src n other r, filewrite sb f src n other s₀ = .ok r → r.1 = n.toInt → 0 ≤ n.toInt →
      files sb r.2 = written sb f s₀ (bytesOf src n.toInt.toNat) ∧
      ∀ r', transaction sb (writeTx sb f src n.toInt.toNat) s₀ = .ok r' → r'.1 = n.toInt →
        files sb r.2 = files sb r'.2 ∧ (r.2.ftable f).off = (r'.2.ftable f).off := by
  refine ⟨fun ts u hr => ?_, fun src n other r hr hret hpos => ?_⟩
  · have hshares : Shares sb H f s₀ u := run_invariant (I := Shares sb H f s₀)
      ⟨Appends.refl h, fun _ _ hw => absurd hw (by simp), fun _ hq => absurd hq (by simp)⟩ (fun _ _ _ hi _ hs => turn_shares hi hf hs) (along_true _ ts) hr
    refine ⟨hshares.appends.files, hshares.appends.off, fun c w hw hdone => ?_⟩
    rw [(hshares.calls c w hw).2, hdone]
  · have happ := (filewrite_appends h hf src n other).ok hr hret hpos
    refine ⟨happ.files, fun r' hr' hret' => ?_⟩
    have hlt : n.toInt.toNat < 2 ^ 32 := by
      have := n.toInt_lt
      omega
    have happ' := (writeTx_appends h hf src hlt).ok hr' (by omega)
    exact ⟨happ.files.trans happ'.files.symm,
      eq_of_toNat_eq (happ.off.trans happ'.off.symm)⟩

def twoBytes : List (Fin NPROC × Call) :=
  [(initproc, .open (some [slash, 99]) (O_CREATE ||| O_RDWR)),
    (initproc, .write 0 (fun k => [1, 2][k]?) 2 0),
    (initproc, .open (some [slash, 99]) O_RDWR)]

def twoBytesState : State := (run (step smallDisk) (boot smallImage) twoBytes).getD (boot smallImage)

def secondFile : FilePtr := ⟨1, by decide⟩

theorem twoBytes_run :
    run (step smallDisk) (boot smallImage) twoBytes = some twoBytesState := by
  have hsome : (run (step smallDisk) (boot smallImage) twoBytes).isSome = true := by decide +kernel
  obtain ⟨s, hs⟩ := isSome_iff_exists.mp hsome
  rw [twoBytesState, hs, getD_some]

theorem twoBytes_writeFile : WriteFile secondFile twoBytesState := by
  have h : (twoBytesState.ftable secondFile).type = .inode ∧
      (twoBytesState.ftable secondFile).writable = true := by decide +kernel
  exact ⟨h.1, h.2⟩

/-- The first call takes two transactions, and the second one writes between them. -/
def twoCalls : List Turn :=
  [.start (fun _ => some 9) 3073, .start (fun k => [8, 7][k]?) 2, .chunk 0, .chunk 1, .chunk 0]

theorem shared_offset_twoCalls : ∃ u, run (turn smallDisk secondFile) { fs := twoBytesState }
    twoCalls = some u ∧ u.wrote.map Prod.fst = [0, 1, 0] ∧ (∀ w ∈ u.calls, w.done = w.n) ∧
    InOrder smallDisk secondFile twoBytesState u := by
  have heval : (run (turn smallDisk secondFile) { fs := twoBytesState } twoCalls).any (fun u =>
      u.wrote.map Prod.fst = [0, 1, 0] ∧ ∀ w ∈ u.calls, w.done = w.n) = true := by
    decide +kernel
  obtain ⟨u, hu, hp⟩ := (Option.any_eq_true _ _).mp heval
  obtain ⟨hwrote, hdone⟩ := of_decide_eq_true hp
  have hinv := run_inv smallImage_consistent twoBytes_run
  exact ⟨u, hu, hwrote, hdone, (shared_offset hinv twoBytes_writeFile).1 twoCalls u hu⟩

def oneByte : List Turn := [.start (fun k => [9][k]?) 1, .chunk 0]

/-- The second byte of the file is still there after a call that wrote the first one: the file does not
end with what was written. -/
theorem not_endsWith_written : ∃ u, run (turn smallDisk secondFile) { fs := twoBytesState }
    oneByte = some u ∧ (∀ w ∈ u.calls, w.done = w.n) ∧
    (files smallDisk u.fs (fileInum secondFile twoBytesState)).bytes ≠
      (files smallDisk twoBytesState (fileInum secondFile twoBytesState)).bytes.take
        (twoBytesState.ftable secondFile).off.toNat ++ u.bytes := by
  have heval : (run (turn smallDisk secondFile) { fs := twoBytesState } oneByte).any (fun u =>
      (∀ w ∈ u.calls, w.done = w.n) ∧
      (files smallDisk u.fs (fileInum secondFile twoBytesState)).bytes ≠
        (files smallDisk twoBytesState (fileInum secondFile twoBytesState)).bytes.take
          (twoBytesState.ftable secondFile).off.toNat ++ u.bytes) = true := by
    decide +kernel
  obtain ⟨u, hu, hp⟩ := (Option.any_eq_true _ _).mp heval
  exact ⟨u, hu, of_decide_eq_true hp⟩

end Xv6.Fs
