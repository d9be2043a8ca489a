import Xv6.Lib.Bytes
import Xv6.Lib.Circular
import Xv6.Lib.Run

/-! The console input of `console.c`: `consoleintr` fills a ring of bytes which any number of
processes empty by `consoleread`, and the line editor that this implements. -/
namespace Xv6.Console
open Bytes PartialRun Function List BitVec

def INPUT_BUF : ℕ := 128

instance : NeZero INPUT_BUF := ⟨by decide⟩

def newline : Byte := 10
def carriageReturn : Byte := 13
def ctrlD : Byte := 4
def ctrlH : Byte := 8
def ctrlP : Byte := 16
def ctrlU : Byte := 21
def del : Byte := 127

structure Cons where
  buf : Buf INPUT_BUF := fun _ => 0
  r : BitVec 32 := 0
  w : BitVec 32 := 0
  e : BitVec 32 := 0

def killLine (c : Cons) : ℕ → Cons
  | 0 => c
  | fuel + 1 =>
    if c.e ≠ c.w ∧ c.buf (Circular.cell INPUT_BUF (c.e - 1)) ≠ newline then
      killLine { c with e := c.e - 1 } fuel
    else c

/-- The handler without its echo; the flag says whether it calls `wakeup(&cons.r)`. -/
def consoleintr (c : Cons) (ch : Byte) : Cons × Bool :=
  if ch = ctrlP then (c, false)
  else if ch = ctrlU then (killLine c (c.e - c.w).toNat, false)
  else if ch = ctrlH ∨ ch = del then (if c.e ≠ c.w then { c with e := c.e - 1 } else c, false)
  else if ch ≠ 0 ∧ c.e - c.r < BitVec.ofNat 32 INPUT_BUF then
    let ch := if ch = carriageReturn then newline else ch
    let c := { c with buf := update c.buf (Circular.cell INPUT_BUF c.e) ch, e := c.e + 1 }
    if ch = newline ∨ ch = ctrlD ∨ c.e = c.r + BitVec.ofNat 32 INPUT_BUF then
      ({ c with w := c.e }, true)
    else (c, false)
  else (c, false)

/-- How a section of `consoleread` ends: it finds the ring empty, or leaves the loop; `eof` says
that it met `^D`. -/
inductive Ends where
  | sleeps
  | returns (eof : Bool)
  deriving DecidableEq, Repr

/-- The loop of `consoleread` as long as the lock is held, with the bytes copied so far and the
counter `n`; `dst` says which bytes of the destination can be written. -/
def consoleread (dst : ℕ → Bool) (target : ℕ) : Cons → List Byte → ℕ → Cons × List Byte × ℕ × Ends
  | c, got, 0 => (c, got, 0, .returns false)
  | c, got, n + 1 =>
    if c.r = c.w then (c, got, n + 1, .sleeps)
    else
      let ch := c.buf (Circular.cell INPUT_BUF c.r)
      let c := { c with r := c.r + 1 }
      if ch = ctrlD then
        (if n + 1 < target then { c with r := c.r - 1 } else c, got, n + 1, .returns true)
      else if dst got.length = false then (c, got, n + 1, .returns false)
      else if ch = newline then (c, got ++ [ch], n, .returns false)
      else consoleread dst target c (got ++ [ch]) n

structure Read where
  dst : ℕ → Bool
  target : ℕ
  n : ℕ
  got : List Byte := []
  start : ℕ

structure Done where
  proc : ℕ
  target : ℕ
  got : List Byte
  ret : ℤ
  eof : Bool
  start : ℕ

/-- `out` are the bytes copied out, each with the process, and `calls` the calls that have
returned, in order. -/
structure State where
  cons : Cons := {}
  reading : ℕ → Option Read := fun _ => none
  asleep : ℕ → Bool := fun _ => false
  killed : ℕ → Bool := fun _ => false
  out : List (ℕ × Byte) := []
  calls : List Done := []

inductive Event where
  | consoleintr (ch : Byte)
  | consoleread (p n : ℕ) (dst : ℕ → Bool)
  | turn (p : ℕ)
  | kill (p : ℕ)

def turn (s : State) (p : ℕ) (x : Read) : State :=
  let (c, got, n, ends) := consoleread x.dst x.target s.cons x.got x.n
  let s := { s with cons := c, out := s.out ++ (got.drop x.got.length).map fun b => (p, b) }
  let leave (ret : ℤ) (eof : Bool) : State := { s with
    reading := update s.reading p none
    calls := s.calls ++ [{ proc := p, target := x.target, got, ret, eof, start := x.start }] }
  match ends with
  | .sleeps =>
    let x := { x with n, got }
    if s.killed p then leave (-1) false
    else { s with
      reading := update s.reading p (some x)
      asleep := update s.asleep p true }
  | .returns eof => leave (x.target - n) eof

def step (s : State) : Event → Option State
  | .consoleintr ch =>
    let (c, woken) := consoleintr s.cons ch
    some { s with cons := c, asleep := if woken then fun _ => false else s.asleep }
  | .consoleread p n dst =>
    if (s.reading p).isNone then
      let x : Read := { dst, target := n, n, start := s.calls.length }
      some { s with reading := update s.reading p (some x) }
    else none
  | .turn p =>
    match s.reading p with
    | some x => if s.asleep p then none else some (turn s p x)
    | none => none
  | .kill p => some { s with
      killed := update s.killed p true
      asleep := update s.asleep p false }

/-- The committed queue, the pending line, and what the editor has done: all bytes that were ever
committed and those of them that have left the queue. -/
structure Editor where
  queue : List Byte := []
  line : List Byte := []
  committed : List Byte := []
  past : List Byte := []
  reading : ℕ → Option Read := fun _ => none
  killed : ℕ → Bool := fun _ => false
  out : List (ℕ × Byte) := []
  calls : List Done := []

namespace Editor

def commit (a : Editor) : Editor :=
  { a with queue := a.queue ++ a.line, line := [], committed := a.committed ++ a.line }

def key (a : Editor) (ch : Byte) : Editor :=
  if ch = ctrlP ∨ ch = 0 then a
  else if ch = ctrlU then { a with line := [] }
  else if ch = ctrlH ∨ ch = del then { a with line := a.line.dropLast }
  else if INPUT_BUF ≤ a.queue.length + a.line.length then a
  else
    let ch := if ch = carriageReturn then newline else ch
    let a := { a with line := a.line ++ [ch] }
    if ch = newline ∨ ch = ctrlD ∨ a.queue.length + a.line.length = INPUT_BUF then a.commit else a

end Editor

def ordinary (b : Byte) : Bool := b ≠ newline && b ≠ ctrlD

/-- What a reader gets of the queue: the bytes for it, those that leave the queue, and the rest. -/
structure Served where
  bytes : List Byte
  gone : List Byte
  rest : List Byte
  ends : Ends

/-- A reader that has `got` and wants `n` more bytes stops at `n` bytes, after a newline or at
`^D`. It takes the `^D` away only if it has got nothing. -/
def serve (got : List Byte) (n : ℕ) (queue : List Byte) : Served :=
  let body := queue.takeWhile ordinary
  if n ≤ body.length then ⟨body.take n, body.take n, queue.drop n, .returns false⟩
  else match queue.dropWhile ordinary with
    | [] => ⟨body, body, [], .sleeps⟩
    | b :: rest =>
      if b = newline then ⟨body ++ [b], body ++ [b], rest, .returns false⟩
      else if got ++ body = [] then ⟨[], [b], rest, .returns true⟩
      else ⟨body, body, b :: rest, .returns true⟩

namespace Editor

def turn (a : Editor) (p : ℕ) (x : Read) : Editor :=
  let v := serve x.got x.n a.queue
  let a := { a with
    queue := v.rest, past := a.past ++ v.gone, out := a.out ++ v.bytes.map fun b => (p, b) }
  let got := x.got ++ v.bytes
  let leave (ret : ℤ) (eof : Bool) : Editor := { a with
    reading := update a.reading p none
    calls := a.calls ++ [{ proc := p, target := x.target, got, ret, eof, start := x.start }] }
  match v.ends with
  | .sleeps =>
    let x := { x with n := x.n - v.bytes.length, got }
    if a.killed p then leave (-1) false
    else { a with reading := update a.reading p (some x) }
  | .returns eof => leave got.length eof

def step (a : Editor) : Event → Option Editor
  | .consoleintr ch => some (a.key ch)
  | .consoleread p n dst =>
    if (a.reading p).isNone then
      let x : Read := { dst, target := n, n, start := a.calls.length }
      some { a with reading := update a.reading p (some x) }
    else none
  | .turn p => (a.reading p).map (a.turn p)
  | .kill p => some { a with killed := update a.killed p true }

end Editor

/-- The ring from `r` to `e` holds the queue and the pending line, and `w` separates them. -/
structure Rep (c : Cons) (queue line : List Byte) : Prop where
  holds : Circular.Holds c.buf c.r c.e (queue ++ line)
  sep : c.w = c.r + BitVec.ofNat 32 queue.length
  pending : newline ∉ line

variable {c : Cons} {queue line got : List Byte} {b : Byte} {n : ℕ}

theorem dvd_wrap : INPUT_BUF ∣ 2 ^ 32 := by decide

theorem lt_wrap : INPUT_BUF < 2 ^ 32 := by decide

namespace Rep

theorem count (h : Rep c queue line) : (c.e - c.r).toNat = queue.length + line.length := by
  rw [h.holds.count lt_wrap, length_append]

theorem length_le (h : Rep c queue line) : queue.length + line.length ≤ INPUT_BUF := by
  rw [← length_append]
  exact h.holds.length_le

theorem queue_count (h : Rep c queue line) : (c.w - c.r).toNat = queue.length := by
  have hle := h.length_le
  rw [h.sep, BitVec.add_comm, BitVec.add_sub_cancel, toNat_ofNat, Nat.mod_eq_of_lt]
  simp only [INPUT_BUF] at hle
  omega

theorem line_count (h : Rep c queue line) : (c.e - c.w).toNat = line.length := by
  have hle := h.length_le
  have he : c.e - c.w = BitVec.ofNat 32 line.length := by
    rw [h.sep, h.holds.tail, length_append, ofNat_add, ← BitVec.add_assoc,
      BitVec.add_comm, BitVec.add_sub_cancel]
  rw [he, toNat_ofNat, Nat.mod_eq_of_lt]
  simp only [INPUT_BUF] at hle
  omega

theorem line_empty_iff (h : Rep c queue line) : c.e = c.w ↔ line = [] := by
  rw [← length_eq_zero_iff, ← h.line_count]
  constructor
  · intro he
    simp [he]
  · intro hz
    have hsub : c.e - c.w = 0 := eq_of_toNat_eq (by simpa using hz)
    exact sub_eq_zero.mp hsub

theorem queue_empty_iff (h : Rep c queue line) : c.r = c.w ↔ queue = [] := by
  rw [← length_eq_zero_iff, ← h.queue_count]
  constructor
  · intro he
    simp [he]
  · intro hz
    have hsub : c.w - c.r = 0 := eq_of_toNat_eq (by simpa using hz)
    exact (sub_eq_zero.mp hsub).symm

theorem erase (h : Rep c queue (line ++ [b])) :
    c.buf (Circular.cell INPUT_BUF (c.e - 1)) = b ∧ Rep { c with e := c.e - 1 } queue line := by
  have hh := h.holds
  rw [← List.append_assoc] at hh
  obtain ⟨hb, hl⟩ := hh.unpush
  exact ⟨hb, hl, h.sep, fun hm => h.pending (mem_append_left _ hm)⟩

theorem backspace (h : Rep c queue line) :
    Rep (if c.e ≠ c.w then { c with e := c.e - 1 } else c) queue line.dropLast := by
  rcases eq_nil_or_concat' line with rfl | ⟨l, b, rfl⟩
  · rw [if_neg (not_not.mpr (h.line_empty_iff.mpr rfl))]
    exact h
  · rw [if_pos (mt h.line_empty_iff.mp (by simp)), dropLast_concat]
    exact h.erase.2

theorem killLine (h : Rep c queue line) {fuel : ℕ} (hf : fuel = line.length) :
    Rep (killLine c fuel) queue [] := by
  induction fuel generalizing c line with
  | zero =>
    obtain rfl := length_eq_zero_iff.mp hf.symm
    exact h
  | succ fuel ih =>
    obtain ⟨l, b, rfl⟩ : ∃ l b, line = l ++ [b] := by
      rcases eq_nil_or_concat' line with rfl | ⟨l, b, rfl⟩
      · simp at hf
      · exact ⟨l, b, rfl⟩
    obtain ⟨hb, hl⟩ := h.erase
    have hne : b ≠ newline := fun hb => h.pending (by simp [hb])
    rw [Console.killLine, if_pos ⟨mt h.line_empty_iff.mp (by simp), by rwa [hb]⟩]
    exact ih hl (by simpa using hf)

theorem store (h : Rep c queue line) (hlt : queue.length + line.length < INPUT_BUF) (b : Byte) :
    Circular.Holds (update c.buf (Circular.cell INPUT_BUF c.e) b) c.r (c.e + 1)
      (queue ++ (line ++ [b])) := by
  rw [← List.append_assoc]
  exact h.holds.push dvd_wrap (by rwa [length_append]) b

theorem pop (h : Rep c (b :: queue) line) :
    c.buf (Circular.cell INPUT_BUF c.r) = b ∧ Rep { c with r := c.r + 1 } queue line := by
  obtain ⟨hb, hl⟩ := Circular.Holds.pop (l := queue ++ line) h.holds
  refine ⟨hb, hl, ?_, h.pending⟩
  rw [h.sep, length_cons, Nat.add_comm, ofNat_add, BitVec.add_assoc]
  rfl

end Rep

theorem full_iff (h : Rep c queue line) :
    c.e - c.r < BitVec.ofNat 32 INPUT_BUF ↔ queue.length + line.length < INPUT_BUF := by
  rw [lt_def, h.count]
  rfl

theorem rep_default {a : Editor} (h : Rep c a.queue a.line)
    (hlt : a.queue.length + a.line.length < INPUT_BUF) (ch : Byte) :
    let c' := { c with buf := update c.buf (Circular.cell INPUT_BUF c.e) ch, e := c.e + 1 }
    let a' := { a with line := a.line ++ [ch] }
    let r := if ch = newline ∨ ch = ctrlD ∨ c'.e = c'.r + BitVec.ofNat 32 INPUT_BUF then
      ({ c' with w := c'.e }, true) else (c', false)
    let b := if ch = newline ∨ ch = ctrlD ∨ a'.queue.length + a'.line.length = INPUT_BUF then
      a'.commit else a'
    Rep r.1 b.queue b.line ∧ (r.2 = false → b.queue = a.queue) := by
  intro c' a' r b
  have hstore : Circular.Holds c'.buf c'.r c'.e (a.queue ++ (a.line ++ [ch])) := h.store hlt ch
  have hfull : c'.e = c'.r + BitVec.ofNat 32 INPUT_BUF ↔
      a'.queue.length + a'.line.length = INPUT_BUF := by
    rw [hstore.full_iff lt_wrap, length_append]
  simp only [r, b, hfull]
  split_ifs with hc
  · refine ⟨⟨?_, ?_, not_mem_nil⟩, nofun⟩
    · rw [Editor.commit, append_nil]
      exact hstore
    · rw [Editor.commit]
      exact hstore.tail
  · refine ⟨⟨hstore, h.sep, ?_⟩, fun _ => rfl⟩
    intro hm
    rcases mem_append.mp hm with hm | hm
    · exact h.pending hm
    · exact hc (.inl (mem_singleton.mp hm).symm)

theorem rep_consoleintr {a : Editor} (h : Rep c a.queue a.line) (ch : Byte) :
    Rep (consoleintr c ch).1 (a.key ch).queue (a.key ch).line ∧
      ((consoleintr c ch).2 = false → (a.key ch).queue = a.queue) := by
  unfold consoleintr Editor.key
  by_cases hp : ch = ctrlP
  · rw [if_pos hp, if_pos (.inl hp)]
    exact ⟨h, fun _ => rfl⟩
  rw [if_neg hp]
  by_cases hz : ch = 0
  · subst hz
    exact ⟨h, fun _ => rfl⟩
  rw [if_neg (not_or.mpr ⟨hp, hz⟩)]
  by_cases hu : ch = ctrlU
  · rw [if_pos hu, if_pos hu]
    exact ⟨h.killLine h.line_count, fun _ => rfl⟩
  rw [if_neg hu, if_neg hu]
  by_cases hh : ch = ctrlH ∨ ch = del
  · rw [if_pos hh, if_pos hh]
    exact ⟨h.backspace, fun _ => rfl⟩
  rw [if_neg hh, if_neg hh]
  by_cases hlt : a.queue.length + a.line.length < INPUT_BUF
  · rw [if_pos ⟨hz, (full_iff h).mpr hlt⟩, if_neg (not_le.mpr hlt)]
    exact rep_default h hlt (if ch = carriageReturn then newline else ch)
  · rw [if_neg fun hc => hlt ((full_iff h).mp hc.2), if_pos (not_lt.mp hlt)]
    exact ⟨h, fun _ => rfl⟩

theorem key_eq (a : Editor) (ch : Byte) : ∃ l line, a.key ch =
    { a with queue := a.queue ++ l, line := line, committed := a.committed ++ l } := by
  have hsame : ∀ line, ∃ l line', ({ a with line := line } : Editor) =
      { a with queue := a.queue ++ l, line := line', committed := a.committed ++ l } := fun line =>
    ⟨[], line, by rw [append_nil, append_nil]⟩
  unfold Editor.key
  split_ifs
  · exact hsame a.line
  · exact hsame []
  · exact hsame a.line.dropLast
  · exact hsame a.line
  · dsimp only
    split_ifs
    · exact ⟨_, _, rfl⟩
    · exact hsame _
  · dsimp only
    split_ifs
    · exact ⟨_, _, rfl⟩
    · exact hsame _

theorem serve_zero (got queue : List Byte) : serve got 0 queue = ⟨[], [], queue, .returns false⟩ := by
  simp [serve]

theorem serve_nil (got : List Byte) (n : ℕ) : serve got (n + 1) [] = ⟨[], [], [], .sleeps⟩ := by
  simp [serve]

theorem serve_eof (got : List Byte) (n : ℕ) (queue : List Byte) :
    serve got (n + 1) (ctrlD :: queue) = if got = [] then ⟨[], [ctrlD], queue, .returns true⟩
      else ⟨[], [], ctrlD :: queue, .returns true⟩ := by
  have hne : ctrlD ≠ newline := by decide
  simp [serve, ordinary, hne]

theorem serve_newline (got : List Byte) (n : ℕ) (queue : List Byte) :
    serve got (n + 1) (newline :: queue) = ⟨[newline], [newline], queue, .returns false⟩ := by
  simp [serve, ordinary]

theorem serve_ordinary (hb : ordinary b = true) (got : List Byte) (n : ℕ) (queue : List Byte) :
    serve got (n + 1) (b :: queue) =
      { serve (got ++ [b]) n queue with
        bytes := b :: (serve (got ++ [b]) n queue).bytes
        gone := b :: (serve (got ++ [b]) n queue).gone } := by
  have hgot : ∀ body : List Byte, got ++ b :: body ≠ [] ∧ got ++ [b] ++ body ≠ [] := by simp
  unfold serve
  simp only [takeWhile_cons, dropWhile_cons, hb, if_true, length_cons,
    Nat.add_le_add_iff_right, hgot, if_false]
  split_ifs with hn
  · rfl
  · cases queue.dropWhile ordinary with
    | nil => rfl
    | cons x rest =>
      dsimp only
      split_ifs <;> rfl

theorem consoleread_serve {dst : ℕ → Bool} (hdst : ∀ k, dst k = true) {target : ℕ}
    (h : Rep c queue line) (ht : target = n + got.length) :
    let v := serve got n queue
    ∃ c', consoleread dst target c got n = (c', got ++ v.bytes, n - v.bytes.length, v.ends) ∧
      Rep c' v.rest line := by
  induction n generalizing c queue got with
  | zero =>
    rw [serve_zero]
    exact ⟨c, by simp [consoleread], h⟩
  | succ n ih =>
    cases queue with
    | nil =>
      rw [serve_nil, consoleread, if_pos (h.queue_empty_iff.mpr rfl)]
      exact ⟨c, by simp, h⟩
    | cons b queue =>
      obtain ⟨hb, hpop⟩ := h.pop
      rw [consoleread, if_neg (mt h.queue_empty_iff.mp (by simp))]
      dsimp only
      rw [hb, hdst, if_neg (show ¬ true = false by decide)]
      by_cases hd : b = ctrlD
      · subst hd
        rw [if_pos rfl, serve_eof]
        by_cases hg : got = []
        · subst hg
          rw [if_neg (by simp [ht]), if_pos rfl]
          exact ⟨_, by simp, hpop⟩
        · have hlen : 0 < got.length := length_pos_iff.mpr hg
          rw [if_pos (by omega), if_neg hg]
          exact ⟨c, by simp, h⟩
      · rw [if_neg hd]
        by_cases hn : b = newline
        · subst hn
          rw [if_pos rfl, serve_newline]
          exact ⟨_, by simp, hpop⟩
        · rw [if_neg hn, serve_ordinary (by simp [ordinary, hd, hn])]
          have hlen : target = n + (got ++ [b]).length := by simp [ht]; omega
          obtain ⟨c', hc', hrep⟩ := ih hpop hlen
          exact ⟨c', by rw [hc']; simp, hrep⟩

structure Serves (got : List Byte) (n : ℕ) (queue : List Byte) (v : Served) : Prop where
  split : queue = v.gone ++ v.rest
  bytes : v.bytes = v.gone.filter (· ≠ ctrlD)
  length : v.bytes.length ≤ n
  body : ∀ b ∈ v.bytes.dropLast, ordinary b = true
  more : v.ends ≠ .returns false → ∀ b ∈ v.bytes, ordinary b = true
  sleeps : v.ends = .sleeps → v.rest = []
  full : v.ends = .returns false → v.bytes.length = n ∨ v.bytes.getLast? = some newline
  eof : v.ends = .returns true → got ++ v.bytes ≠ [] → v.rest.head? = some ctrlD

theorem serves_serve (got : List Byte) (n : ℕ) (queue : List Byte) :
    Serves got n queue (serve got n queue) := by
  induction n generalizing got queue with
  | zero =>
    rw [serve_zero]
    exact ⟨rfl, rfl, le_rfl, nofun, nofun, nofun, fun _ => .inl rfl, nofun⟩
  | succ n ih =>
    cases queue with
    | nil =>
      rw [serve_nil]
      exact ⟨rfl, rfl, Nat.zero_le _, nofun, nofun, fun _ => rfl, nofun, nofun⟩
    | cons b queue =>
      by_cases hd : b = ctrlD
      · subst hd
        rw [serve_eof]
        split_ifs with hg
        · exact ⟨rfl, rfl, Nat.zero_le _, nofun, nofun, nofun, nofun, fun _ hn => absurd hg (by simpa using hn)⟩
        · exact ⟨rfl, rfl, Nat.zero_le _, nofun, nofun, nofun, nofun, fun _ _ => rfl⟩
      · by_cases hn : b = newline
        · subst hn
          rw [serve_newline]
          exact ⟨rfl, rfl, by simp, nofun, fun h => absurd rfl h, nofun, fun _ => .inr rfl, nofun⟩
        · have hb : ordinary b = true := by simp [ordinary, hd, hn]
          have hv := ih (got ++ [b]) queue
          rw [serve_ordinary hb]
          generalize serve (got ++ [b]) n queue = v at hv ⊢
          refine ⟨by rw [hv.split]; rfl, ?_, Nat.succ_le_succ hv.length, ?_, ?_, hv.sleeps, ?_, ?_⟩
          · rw [filter_cons_of_pos (by simpa using hd), ← hv.bytes]
          · intro x hx
            rcases eq_or_ne v.bytes [] with hnil | hne
            · rw [hnil] at hx
              cases hx
            · rw [dropLast_cons_of_ne_nil hne] at hx
              rcases mem_cons.mp hx with rfl | hx
              · exact hb
              · exact hv.body x hx
          · intro he x hx
            rcases mem_cons.mp hx with rfl | hx
            · exact hb
            · exact hv.more he x hx
          · intro he
            rcases hv.full he with hfull | hlast
            · exact .inl (congrArg (· + 1) hfull)
            · exact .inr (by rw [getLast?_cons, hlast]; rfl)
          · intro he _
            exact hv.eof he (by simp)

def Event.Copies : Event → Prop
  | .consoleread _ _ dst => ∀ k, dst k = true
  | _ => True

structure Rel (s : State) (a : Editor) : Prop where
  rep : Rep s.cons a.queue a.line
  reading : s.reading = a.reading
  killed : s.killed = a.killed
  out : s.out = a.out
  calls : s.calls = a.calls
  copies : ∀ p x, s.reading p = some x → (∀ k, x.dst k = true) ∧ x.target = x.n + x.got.length
  asleep : ∀ p, s.asleep p = true → a.queue = []

variable {s t : State} {a a' : Editor} {p : ℕ} {x : Read}

theorem Rel.copies_update (h : Rel s a) {y : Option Read}
    (hy : ∀ z, y = some z → (∀ k, z.dst k = true) ∧ z.target = z.n + z.got.length) (q : ℕ) (z : Read)
    (hz : update s.reading p y q = some z) :
    (∀ k, z.dst k = true) ∧ z.target = z.n + z.got.length := by
  rcases eq_or_ne q p with rfl | hq
  · rw [update_self] at hz
    exact hy z hz
  · rw [update_of_ne hq] at hz
    exact h.copies q z hz

theorem Rel.turn (h : Rel s a) (hx : s.reading p = some x) : Rel (turn s p x) (a.turn p x) := by
  obtain ⟨hdst, ht⟩ := h.copies p x hx
  obtain ⟨c', hread, hrep⟩ := consoleread_serve hdst h.rep ht
  have hv := serves_serve x.got x.n a.queue
  unfold Console.turn Editor.turn
  simp only [hread]
  generalize serve x.got x.n a.queue = v at hrep hv ⊢
  have hlen := hv.length
  have hret : (x.target : ℤ) - (x.n - v.bytes.length : ℕ) = (x.got ++ v.bytes).length := by
    rw [length_append]
    omega
  have hdrop : (x.got ++ v.bytes).drop x.got.length = v.bytes := drop_left
  have hempty : ∀ q, s.asleep q = true → v.rest = [] := fun q hq => by
    have hsplit := hv.split
    rw [h.asleep q hq] at hsplit
    exact (append_eq_nil_iff.mp hsplit.symm).2
  rw [hdrop, hret, ← h.reading, ← h.out, ← h.calls, ← h.killed]
  split
  · rename_i hends
    split_ifs with hk
    · exact ⟨hrep, rfl, rfl, rfl, rfl, h.copies_update nofun, hempty⟩
    · refine ⟨hrep, rfl, rfl, rfl, rfl, h.copies_update ?_, fun _ _ => hv.sleeps hends⟩
      rintro z ⟨⟩
      refine ⟨hdst, ?_⟩
      rw [length_append]
      dsimp only
      omega
  · exact ⟨hrep, rfl, rfl, rfl, rfl, h.copies_update nofun, hempty⟩

theorem Rel.step (h : Rel s a) {e : Event} (he : e.Copies) (hs : step s e = some t) :
    ∃ b, a.step e = some b ∧ Rel t b := by
  cases e with
  | consoleintr ch =>
    cases hs
    obtain ⟨hrep, hqueue⟩ := rep_consoleintr h.rep ch
    obtain ⟨l, line, hkey⟩ := key_eq a ch
    refine ⟨_, rfl, hrep, ?_, ?_, ?_, ?_, h.copies, ?_⟩
    · rw [hkey]; exact h.reading
    · rw [hkey]; exact h.killed
    · rw [hkey]; exact h.out
    · rw [hkey]; exact h.calls
    · intro q hq
      change (if (consoleintr s.cons ch).2 = true then fun _ => false else s.asleep) q = true at hq
      cases hw : (consoleintr s.cons ch).2 with
      | false =>
        rw [hqueue hw]
        exact h.asleep q (by simpa [hw] using hq)
      | true => simp [hw] at hq
  | consoleread p n dst =>
    simp only [Console.step, h.reading] at hs
    split_ifs at hs with hp
    cases hs
    refine ⟨_, if_pos hp, h.rep, ?_, h.killed, h.out, h.calls, ?_, h.asleep⟩
    · rw [h.calls]
    · rw [← h.reading]
      refine h.copies_update ?_
      rintro z ⟨⟩
      exact ⟨he, rfl⟩
  | turn p =>
    simp only [Console.step] at hs
    split at hs
    · rename_i x hx
      split_ifs at hs
      cases hs
      refine ⟨_, ?_, h.turn hx⟩
      rw [Editor.step, ← h.reading, hx]
      rfl
    · cases hs
  | kill p =>
    cases hs
    refine ⟨_, rfl, h.rep, h.reading, ?_, h.out, h.calls, h.copies, ?_⟩
    · rw [h.killed]
    · intro q hq
      rcases eq_or_ne q p with rfl | hqp
      · simp at hq
      · exact h.asleep q (by simpa [hqp] using hq)

end Xv6.Console
