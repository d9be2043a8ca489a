import Xv6.Dev.Console

/-! What the readers of the console get over a whole run. -/
namespace Xv6.Console
open Bytes PartialRun Function List

def Done.LeftEof (d : Done) : Prop := d.eof = true ∧ d.got ≠ []

structure Done.Stopped (d : Done) : Prop where
  ret : d.ret = d.got.length
  le : d.got.length ≤ d.target
  body : ∀ b ∈ d.got.dropLast, ordinary b = true
  data : ctrlD ∉ d.got
  stop : d.got.length = d.target ∨ d.got.getLast? = some newline ∨ d.eof = true

structure Editor.Ok (a : Editor) : Prop where
  committed : a.committed = a.past ++ a.queue
  out : a.out.map Prod.snd = a.past.filter (· ≠ ctrlD)
  calls : ∀ d ∈ a.calls, d.ret = -1 ∧ a.killed d.proc = true ∨ d.Stopped
  next : ∀ (i j : ℕ) (d : Done), i < j → a.calls[j]? = some d → i < d.start →
    (∀ (k : ℕ) (e : Done), i ≤ k → k < j → a.calls[k]? = some e → e.LeftEof) → d.ret = 0

/-- While a call's `^D` is in the queue: it is the first byte, and readers that started after that
call have no bytes. -/
structure Editor.Inv (a : Editor) : Prop extends a.Ok where
  reads : ∀ p x, a.reading p = some x → x.target = x.n + x.got.length ∧
    (∀ b ∈ x.got, ordinary b = true) ∧ x.start ≤ a.calls.length
  head : ∀ d, a.calls.getLast? = some d → d.LeftEof → a.queue.head? = some ctrlD
  fresh : ∀ i < a.calls.length, (∀ (k : ℕ) (e : Done), i ≤ k → a.calls[k]? = some e → e.LeftEof) →
    ∀ p x, a.reading p = some x → i < x.start → x.got = []

theorem serve_of_head (got : List Byte) (n : ℕ) {queue : List Byte}
    (h : queue.head? = some ctrlD) :
    (serve got n queue).bytes = [] ∧ (serve got n queue).ends ≠ .sleeps := by
  obtain ⟨rest, rfl⟩ : ∃ rest, queue = ctrlD :: rest := head?_eq_some_iff.mp h
  cases n with
  | zero => rw [serve_zero]; exact ⟨rfl, nofun⟩
  | succ n =>
    rw [serve_eof]
    split_ifs
    · exact ⟨rfl, nofun⟩
    · exact ⟨rfl, nofun⟩

namespace Editor.Inv
variable {a a' : Editor} {p : ℕ} {x : Read}

theorem key (h : a.Inv) (ch : Byte) : (a.key ch).Inv := by
  obtain ⟨l, line, hkey⟩ := key_eq a ch
  rw [hkey]
  refine ⟨⟨?_, h.out, h.calls, h.next⟩, h.reads, ?_, h.fresh⟩
  · dsimp only
    rw [h.committed, append_assoc]
  · intro d hd he
    have hhead := h.head d hd he
    dsimp only
    cases hq : a.queue with
    | nil => rw [hq] at hhead; cases hhead
    | cons b q => rw [hq] at hhead; exact hhead

theorem kill (h : a.Inv) (p : ℕ) : ({ a with killed := update a.killed p true } : Editor).Inv := by
  refine ⟨⟨h.committed, h.out, fun d hd => ?_, h.next⟩, h.reads, h.head, h.fresh⟩
  rcases h.calls d hd with ⟨hr, hk⟩ | hs
  · refine .inl ⟨hr, ?_⟩
    dsimp only
    rw [update_apply, hk, ite_self]
  · exact .inr hs

theorem start (h : a.Inv) (p n : ℕ) (dst : ℕ → Bool) :
    let x : Read := { dst, target := n, n, start := a.calls.length }
    ({ a with reading := update a.reading p (some x) } : Editor).Inv := by
  refine ⟨⟨h.committed, h.out, h.calls, h.next⟩, ?_, h.head, ?_⟩
  · intro q y hy
    rcases eq_or_ne q p with rfl | hq
    · cases (update_self q _ a.reading).symm.trans hy
      exact ⟨rfl, nofun, le_rfl⟩
    · exact h.reads q y (by simpa [hq] using hy)
  · intro i hi hall q y hy hlt
    rcases eq_or_ne q p with rfl | hq
    · cases (update_self q _ a.reading).symm.trans hy
      rfl
    · exact h.fresh i hi hall q y (by simpa [hq] using hy) hlt

theorem head_of_streak (h : a.Inv) {i : ℕ} (hi : i < a.calls.length)
    (hall : ∀ (k : ℕ) (e : Done), i ≤ k → a.calls[k]? = some e → e.LeftEof) :
    a.queue.head? = some ctrlD := by
  have hlast : a.calls.getLast? = a.calls[a.calls.length - 1]? := getLast?_eq_getElem?
  have hlt : a.calls.length - 1 < a.calls.length := by omega
  rw [getElem?_eq_getElem hlt] at hlast
  exact h.head _ hlast (hall _ _ (by omega) (getElem?_eq_getElem hlt))

theorem moved (h : a.Inv) {v : Served} (hv : Serves x.got x.n a.queue v) (p : ℕ) :
    a.committed = a.past ++ v.gone ++ v.rest ∧
      (a.out ++ v.bytes.map fun b => (p, b)).map Prod.snd =
        (a.past ++ v.gone).filter (· ≠ ctrlD) := by
  constructor
  · rw [h.committed, append_assoc, ← hv.split]
  · rw [map_append, h.out, filter_append, ← hv.bytes, map_map]
    congr 1
    exact map_id' v.bytes

theorem finish (h : a.Inv) {v : Served} (hv : Serves x.got x.n a.queue v) {d : Done}
    (hx : a.reading p = some x) (hd : d.ret = -1 ∧ a.killed d.proc = true ∨ d.Stopped)
    (hstart : d.start = x.start) (hhead : d.LeftEof → v.rest.head? = some ctrlD)
    (hnext : a.queue.head? = some ctrlD → x.got = [] → d.ret = 0) :
    ({ a with
      queue := v.rest
      past := a.past ++ v.gone
      out := a.out ++ v.bytes.map fun b => (p, b)
      reading := update a.reading p none
      calls := a.calls ++ [d] } : Editor).Inv := by
  have hreads : ∀ q y, update a.reading p none q = some y → a.reading q = some y := by
    intro q y hy
    rcases eq_or_ne q p with rfl | hq
    · rw [update_self] at hy
      cases hy
    · rwa [update_of_ne hq] at hy
  have hold : ∀ k e, a.calls[k]? = some e → (a.calls ++ [d])[k]? = some e := fun k e he => by
    rw [getElem?_append_left (List.getElem?_eq_some_iff.mp he).1, he]
  refine ⟨⟨(h.moved hv p).1, (h.moved hv p).2, ?_, ?_⟩, ?_, ?_, ?_⟩
  · intro e he
    rcases mem_append.mp he with he | he
    · exact h.calls e he
    · rw [mem_singleton.mp he]
      exact hd
  · intro i j e hij he hlt hall
    rcases Nat.lt_trichotomy j a.calls.length with hj | rfl | hj
    · rw [getElem?_append_left hj] at he
      exact h.next i j e hij he hlt fun k f h₁ h₂ hf => hall k f h₁ h₂ (hold k f hf)
    · obtain rfl : d = e := by simpa using he
      have hstreak : ∀ (k : ℕ) (f : Done), i ≤ k → a.calls[k]? = some f → f.LeftEof :=
        fun k f hk hf => hall k f hk (List.getElem?_eq_some_iff.mp hf).1 (hold k f hf)
      exact hnext (h.head_of_streak hij hstreak) (h.fresh i hij hstreak p x hx (hstart ▸ hlt))
    · rw [getElem?_eq_none (by simp; omega)] at he
      cases he
  · intro q y hy
    obtain ⟨h₁, h₂, h₃⟩ := h.reads q y (hreads q y hy)
    exact ⟨h₁, h₂, by simp; omega⟩
  · intro e he
    obtain rfl : d = e := by simpa using he
    exact hhead
  · intro i hi hall q y hy hlt
    have hq := hreads q y hy
    have hlen := (h.reads q y hq).2.2
    exact h.fresh i (by omega) (fun k f hk hf => hall k f hk (hold k f hf)) q y hq hlt

theorem turn (h : a.Inv) (hx : a.reading p = some x) : (a.turn p x).Inv := by
  have hv := serves_serve x.got x.n a.queue
  have hat : a.queue.head? = some ctrlD → (serve x.got x.n a.queue).bytes = [] ∧
      (serve x.got x.n a.queue).ends ≠ .sleeps := serve_of_head x.got x.n
  obtain ⟨ht, hord, hstart⟩ := h.reads p x hx
  unfold Editor.turn
  dsimp only
  generalize serve x.got x.n a.queue = v at hv hat ⊢
  have hlen := hv.length
  split
  · rename_i hends
    have hnot : a.queue.head? ≠ some ctrlD := fun hd => (hat hd).2 hends
    split_ifs with hk
    · exact h.finish hv hx (.inl ⟨rfl, hk⟩) rfl (fun hl => absurd hl.1 (by simp))
        fun hd => absurd hd hnot
    · -- nothing was left in the queue, so no `^D` is there for other readers
      refine ⟨⟨(h.moved hv p).1, (h.moved hv p).2, h.calls, h.next⟩, ?_, ?_, ?_⟩
      · intro q y hy
        rcases eq_or_ne q p with rfl | hq
        · cases (update_self q _ a.reading).symm.trans hy
          refine ⟨?_, ?_, hstart⟩
          · dsimp only
            rw [length_append]
            omega
          · intro b hb
            rcases mem_append.mp hb with hb | hb
            · exact hord b hb
            · exact hv.more (by rw [hends]; nofun) b hb
        · exact h.reads q y (by simpa [hq] using hy)
      · exact fun d hd hl => absurd (h.head d hd hl) hnot
      · exact fun i hi hall => absurd (h.head_of_streak hi hall) hnot
  · rename_i eof hends
    refine h.finish hv hx (.inr ⟨rfl, ?_, ?_, ?_, ?_⟩) rfl ?_ ?_
    · dsimp only
      rw [length_append]
      omega
    · intro b hb
      rcases eq_or_ne v.bytes [] with hnil | hne
      · dsimp only at hb
        rw [hnil, append_nil] at hb
        exact hord b (mem_of_mem_dropLast hb)
      · dsimp only at hb
        rw [dropLast_append_of_ne_nil hne] at hb
        rcases mem_append.mp hb with hb | hb
        · exact hord b hb
        · exact hv.body b hb
    · intro hb
      rcases mem_append.mp hb with hb | hb
      · exact absurd (hord _ hb) (by decide)
      · rw [hv.bytes] at hb
        simpa using (mem_filter.mp hb).2
    · cases eof with
      | true => exact .inr (.inr rfl)
      | false =>
        rcases hv.full hends with hfull | hlast
        · refine .inl ?_
          dsimp only
          rw [length_append]
          omega
        · refine .inr (.inl ?_)
          dsimp only
          rw [getLast?_append, hlast]
          rfl
    · rintro ⟨heof, hne⟩
      cases (show eof = true from heof)
      exact hv.eof hends hne
    · intro hd hg
      dsimp only
      rw [hg, (hat hd).1]
      rfl

theorem step (h : a.Inv) {e : Event} (hs : a.step e = some a') : a'.Inv := by
  cases e with
  | consoleintr ch =>
    cases hs
    exact h.key ch
  | consoleread p n dst =>
    simp only [Editor.step] at hs
    split_ifs at hs
    cases hs
    exact h.start p n dst
  | turn p =>
    obtain ⟨x, hx, rfl⟩ := Option.map_eq_some_iff.mp hs
    exact h.turn hx
  | kill p =>
    cases hs
    exact h.kill p

end Editor.Inv

/-- In every run the indices stay in order, and the readers get what the readers of the editor get
in the same run. -/
theorem console_refines_editor {es : List Event} {s : State} (hcopies : ∀ e ∈ es, e.Copies)
    (hrun : run step {} es = some s) :
    (s.cons.w - s.cons.r).toNat ≤ (s.cons.e - s.cons.r).toNat ∧
      (s.cons.e - s.cons.r).toNat ≤ INPUT_BUF ∧
      ∃ a : Editor, run Editor.step {} es = some a ∧ Rel s a ∧ a.Ok := by
  have hinv : ∃ a : Editor, run Editor.step {} es = some a ∧ Rel s a ∧ a.Inv := by
    refine run_history (C := fun _ e => e.Copies)
      (I := fun es s => ∃ a : Editor, run Editor.step {} es = some a ∧ Rel s a ∧ a.Inv) ?_ ?_
      (along_of_forall hcopies _) hrun
    · refine ⟨{}, rfl, ⟨⟨Circular.holds_nil _ _, rfl, not_mem_nil⟩, rfl, rfl, rfl, rfl, nofun,
        fun _ _ => rfl⟩, ⟨rfl, rfl, nofun, fun i j d _ hd => ?_⟩, nofun, nofun, fun i hi => ?_⟩
      · simp at hd
      · simp at hi
    · rintro es t e u - ⟨a, ha, hrel, hok⟩ he hs
      obtain ⟨b, hb, hrel'⟩ := hrel.step he hs
      exact ⟨b, run_concat_eq_some.mpr ⟨a, ha, hb⟩, hrel', hok.step hb⟩
  obtain ⟨a, ha, hrel, hok⟩ := hinv
  have hcount := hrel.rep.count
  have hqueue := hrel.rep.queue_count
  have hle := hrel.rep.length_le
  exact ⟨by omega, by omega, a, ha, hrel, hok.toOk⟩

/-- `ab`, a backspace, `c` and `^D` are typed; the first read gets two bytes, the second none. -/
def eofRun : List Event :=
  [.consoleread 0 5 fun _ => true, .turn 0, .consoleintr 97, .consoleintr 98, .consoleintr del,
    .consoleintr 99, .consoleintr ctrlD, .turn 0, .consoleread 1 5 fun _ => true, .turn 1]

theorem console_refines_editor_eofRun : ∃ s a, run step {} eofRun = some s ∧
    run Editor.step {} eofRun = some a ∧ Rel s a ∧ a.Ok ∧
    s.calls.map (fun d => (d.got, d.ret)) = [([97, 99], 2), ([], 0)] := by
  have hcalls : (run step {} eofRun).map (fun s => s.calls.map fun d => (d.got, d.ret)) =
      some [([97, 99], 2), ([], 0)] := by decide +kernel
  obtain ⟨s, hs, hd⟩ := Option.map_eq_some_iff.mp hcalls
  have hcopies : ∀ e ∈ eofRun, e.Copies := by simp [eofRun, Event.Copies]
  obtain ⟨-, -, a, ha, hrel, hok⟩ := console_refines_editor hcopies hs
  exact ⟨s, a, hs, ha, hrel, hok, hd⟩

end Xv6.Console
