import Mathlib.Data.List.GetD
import Mathlib.Data.List.TakeWhile
import Xv6.Lib.Lines
import Xv6.User.Grep

/-! The loop of `user/grep.c` that reads a stream and prints the lines that match. The buffer is a
function of the position; what is written goes to the end of the output. -/
namespace Xv6.Grep
open Bytes Lines Function List

def newline : Byte := 0x0a

def BUFSIZE : ℕ := 1024

abbrev Buffer := ℕ → Byte

def strchr (buf : Buffer) (c : Byte) : ℕ → ℕ → Option ℕ
  | 0, _ => none
  | fuel + 1, p =>
    if buf p = 0 then none else if buf p = c then some p else strchr buf c fuel (p + 1)

def cstr (buf : Buffer) : ℕ → ℕ → List Byte
  | 0, _ => []
  | fuel + 1, p => if buf p = 0 then [] else buf p :: cstr buf fuel (p + 1)

def slice (buf : Buffer) (p n : ℕ) : List Byte := (List.range n).map fun i => buf (p + i)

def grepLines (pattern : List Byte) : ℕ → Buffer → ℕ → List Byte → Buffer × ℕ × List Byte
  | 0, buf, p, out => (buf, p, out)
  | fuel + 1, buf, p, out =>
    match strchr buf newline BUFSIZE p with
    | none => (buf, p, out)
    | some q =>
      let buf := update buf q 0
      if matchText pattern (cstr buf BUFSIZE p) then
        let buf := update buf q newline
        grepLines pattern fuel buf (q + 1) (out ++ slice buf p (q + 1 - p))
      else grepLines pattern fuel buf (q + 1) out

def readPiece (size n : ℕ) (stream : List Byte) : List Byte := stream.take (min (max size 1) n)

def fill (buf : Buffer) (m : ℕ) (piece : List Byte) : Buffer :=
  fun i => if m ≤ i ∧ i < m + piece.length then piece.getD (i - m) 0 else buf i

def compact (buf : Buffer) (p m : ℕ) : Buffer := fun i => if i < m then buf (p + i) else buf i

/-- The outer loop of `grep` from the `k`-th read on: the output. The reads return `sizes`. -/
def grepLoop (pattern : List Byte) (sizes : ℕ → ℕ) :
    ℕ → ℕ → Buffer → ℕ → List Byte → List Byte → List Byte
  | 0, _, _, _, _, out => out
  | fuel + 1, k, buf, m, stream, out =>
    let piece := readPiece (sizes k) (BUFSIZE - m - 1) stream
    let n := piece.length
    if 0 < n then
      let buf := fill buf m piece
      let m := m + n
      let buf := update buf m 0
      let r := grepLines pattern BUFSIZE buf 0 out
      if 0 < m then
        grepLoop pattern sizes fuel (k + 1) (compact r.1 r.2.1 (m - r.2.1)) (m - r.2.1)
          (stream.drop n) r.2.2
      else grepLoop pattern sizes fuel (k + 1) r.1 m (stream.drop n) r.2.2
    else out

/-- `grep(pattern, fd)` on a stream; every read but the last takes a byte at least. -/
def grep (pattern : List Byte) (sizes : ℕ → ℕ) (buf : Buffer) (stream : List Byte) : List Byte :=
  grepLoop pattern sizes (stream.length + 1) 0 buf 0 stream []

def filtered (pattern : List Byte) (ls : List (List Byte)) : List Byte :=
  (ls.filter (matchText pattern)).flatMap (· ++ [newline])

def Holds (buf : Buffer) (p : ℕ) (l : List Byte) : Prop := ∀ i ≤ l.length, buf (p + i) = l.getD i 0

section
variable {buf : Buffer} {p fuel : ℕ} {b : Byte} {l x : List Byte}

theorem Holds.head (h : Holds buf p (b :: l)) : buf p = b := h 0 (Nat.zero_le _)

theorem Holds.tail (h : Holds buf p (b :: l)) : Holds buf (p + 1) l := by
  intro i hi
  have := h (i + 1) (Nat.succ_le_succ hi)
  rwa [Nat.add_comm i 1, ← Nat.add_assoc, Nat.add_comm 1 i, getD_cons_succ] at this

theorem Holds.nil (h : Holds buf p []) : buf p = 0 := h 0 (Nat.zero_le _)

theorem Holds.drop (h : Holds buf p (x ++ l)) : Holds buf (p + x.length) l := by
  induction x generalizing p with
  | nil => exact h
  | cons b x ih =>
    have := ih h.tail
    rwa [Nat.add_assoc, Nat.add_comm 1] at this

theorem strchr_none (h : Holds buf p l) (h0 : 0 ∉ l) (hn : b ∉ l) : strchr buf b fuel p = none := by
  induction fuel generalizing p l with
  | zero => rfl
  | succ fuel ih =>
    rw [strchr]
    cases l with
    | nil => rw [if_pos h.nil]
    | cons c l =>
      rw [mem_cons, not_or] at h0 hn
      rw [h.head, if_neg (Ne.symm h0.1), if_neg (Ne.symm hn.1), ih h.tail h0.2 hn.2]

theorem strchr_some (h : Holds buf p (x ++ b :: l)) (h0 : 0 ∉ x ++ b :: l) (hx : b ∉ x)
    (hfuel : x.length < fuel) : strchr buf b fuel p = some (p + x.length) := by
  induction fuel generalizing p x with
  | zero => exact absurd hfuel (Nat.not_lt_zero _)
  | succ fuel ih =>
    rw [strchr]
    cases x with
    | nil =>
      rw [nil_append, mem_cons, not_or] at h0
      rw [nil_append] at h
      rw [h.head, if_neg (Ne.symm h0.1), if_pos rfl]
      rfl
    | cons c x =>
      rw [cons_append, mem_cons, not_or] at h0
      rw [cons_append] at h
      rw [mem_cons, not_or] at hx
      rw [length_cons] at hfuel ⊢
      rw [h.head, if_neg (Ne.symm h0.1), if_neg (Ne.symm hx.1),
        ih h.tail h0.2 hx.2 (by omega)]
      exact congrArg some (by omega)

theorem cstr_eq (h : Holds buf p l) (h0 : 0 ∉ l) (hfuel : l.length < fuel) : cstr buf fuel p = l := by
  induction fuel generalizing p l with
  | zero => exact absurd hfuel (Nat.not_lt_zero _)
  | succ fuel ih =>
    rw [cstr]
    cases l with
    | nil => rw [if_pos h.nil]
    | cons c l =>
      rw [mem_cons, not_or] at h0
      rw [length_cons] at hfuel
      rw [h.head, if_neg (Ne.symm h0.1), ih h.tail h0.2 (by omega)]

theorem slice_eq (h : ∀ i < l.length, buf (p + i) = l.getD i 0) : slice buf p l.length = l := by
  apply ext_getElem
  · rw [slice, length_map, length_range]
  · intro i hi hi'
    simp only [slice, getElem_map, getElem_range]
    rw [h i hi', getD_eq_getElem l 0 hi']

theorem Holds.update_left (h : Holds buf p l) {q : ℕ} {v : Byte} (hq : q < p) :
    Holds (update buf q v) p l := by
  intro i hi
  rw [update_of_ne (by omega), h i hi]

theorem Holds.terminate (h : Holds buf p (x ++ b :: l)) :
    Holds (update buf (p + x.length) 0) p x := by
  intro i hi
  rcases Nat.lt_or_ge i x.length with hlt | hge
  · rw [update_of_ne (by omega), h i (by rw [length_append]; omega),
      getD_append x _ 0 i hlt]
  · rw [show i = x.length by omega, update_self, getD_eq_default x 0 (le_refl _)]

theorem grepLines_eq (pattern out : List Byte) (h : Holds buf p l) (h0 : 0 ∉ l)
    (hlen : l.length < fuel) (hsize : l.length < BUFSIZE) :
    ∃ buf', Holds buf' (p + (l.length - (Lines.tail newline l).length)) (Lines.tail newline l) ∧
      grepLines pattern fuel buf p out =
        (buf', p + (l.length - (Lines.tail newline l).length),
          out ++ filtered pattern (lines newline l)) := by
  induction fuel generalizing buf p l out with
  | zero => exact absurd hlen (Nat.not_lt_zero _)
  | succ fuel ih =>
    rw [grepLines]
    by_cases hmem : newline ∈ l
    · obtain ⟨x, m, rfl, hx⟩ := eq_append_cons_of_mem hmem
      have hl : (x ++ newline :: m).length = x.length + 1 + m.length := by
        rw [length_append, length_cons]
        omega
      have hx0 : (0 : Byte) ∉ x := fun hmem => h0 (mem_append_left _ hmem)
      have hm0 : (0 : Byte) ∉ m := fun hmem =>
        h0 (mem_append_right _ (mem_cons_of_mem _ hmem))
      have htail := length_tail_le newline m
      have hrest : Holds buf (p + x.length + 1) m := h.drop.tail
      have hpos : p + x.length + 1 + (m.length - (Lines.tail newline m).length) =
          p + ((x ++ newline :: m).length - (Lines.tail newline m).length) := by omega
      rw [strchr_some h h0 hx (by omega), tail_line hx, lines_line hx]
      dsimp only
      rw [cstr_eq h.terminate hx0 (by omega)]
      by_cases hmatch : matchText pattern x = true
      · rw [if_pos hmatch]
        have hupd : update (update buf (p + x.length) 0) (p + x.length) newline
            = buf := by
          rw [update_idem, update_eq_self_iff]
          exact h.drop.head.symm
        have hslice : slice buf p (p + x.length + 1 - p) = x ++ [newline] := by
          have hlen' : p + x.length + 1 - p = (x ++ [newline]).length := by
            rw [length_append, length_singleton]
            omega
          rw [hlen']
          refine slice_eq fun i hi => ?_
          rw [length_append, length_singleton] at hi
          rw [h i (by omega), show x ++ newline :: m = x ++ [newline] ++ m by simp,
            getD_append _ m 0 i (by rw [length_append, length_singleton]; omega)]
        rw [hupd, hslice]
        obtain ⟨buf', hbuf', hrun⟩ := ih (out ++ (x ++ [newline])) hrest hm0 (by omega)
          (by omega)
        refine ⟨buf', hpos ▸ hbuf', ?_⟩
        rw [hrun, hpos, filtered, filtered, filter_cons_of_pos hmatch, flatMap_cons,
          append_assoc]
      · rw [if_neg hmatch]
        obtain ⟨buf', hbuf', hrun⟩ := ih out
          (hrest.update_left (q := p + x.length) (v := 0) (by omega)) hm0 (by omega) (by omega)
        refine ⟨buf', hpos ▸ hbuf', ?_⟩
        rw [hrun, hpos, filtered, filtered, filter_cons_of_neg hmatch]
    · have htail : Lines.tail newline l = l := tail_of_notMem hmem
      rw [strchr_none h h0 hmem, htail, Nat.sub_self, lines_of_notMem hmem]
      refine ⟨buf, h, ?_⟩
      rw [filtered, filter_nil, flatMap_nil, append_nil]
      rfl

end

/-- The line and its newline fit into the buffer, before the terminator. -/
def Fits (l : List Byte) : Prop := l.length + 1 < BUFSIZE

instance (l : List Byte) : Decidable (Fits l) := inferInstanceAs (Decidable (_ < _))

theorem filtered_append (pattern : List Byte) (ls ms : List (List Byte)) :
    filtered pattern (ls ++ ms) = filtered pattern ls ++ filtered pattern ms := by
  rw [filtered, filter_append, flatMap_append]
  rfl

theorem holds_fill {buf : Buffer} {part : List Byte} (piece : List Byte)
    (h : ∀ i < part.length, buf i = part.getD i 0) :
    Holds (update (fill buf part.length piece) (part.length + piece.length) 0) 0
      (part ++ piece) := by
  intro i hi
  rw [length_append] at hi
  rw [Nat.zero_add]
  rcases Nat.lt_or_ge i (part.length + piece.length) with hlt | hge
  · rw [update_of_ne (by omega), fill]
    rcases Nat.lt_or_ge i part.length with hp | hp
    · rw [if_neg (by omega), h i hp, getD_append part piece 0 i hp]
    · rw [if_pos ⟨hp, hlt⟩, getD_append_right part piece 0 i hp]
  · rw [show i = part.length + piece.length by omega, update_self,
      getD_eq_default _ 0 (by rw [length_append])]

theorem readPiece_eq_nil {size n : ℕ} {stream : List Byte} :
    readPiece size n stream = [] ↔ stream = [] ∨ n = 0 := by
  have hmin : min (max size 1) n = 0 ↔ n = 0 := by omega
  rw [readPiece, take_eq_nil_iff, hmin, or_comm]

theorem readPiece_append (size n : ℕ) (stream : List Byte) :
    readPiece size n stream ++ stream.drop (readPiece size n stream).length = stream :=
  prefix_iff_eq_append.mp ( take_prefix _ _)

theorem takeWhile_full {part stream : List Byte} (hnl : newline ∉ part)
    (hfull : BUFSIZE ≤ part.length + 1) :
    (lines newline (part ++ stream)).takeWhile Fits = [] := by
  cases hl : lines newline (part ++ stream) with
  | nil => rfl
  | cons y ys =>
    have hy := length_head_lines hnl hl
    refine takeWhile_cons_of_neg ?_
    rw [decide_eq_true_iff, Fits]
    omega

theorem grepLoop_eq {pattern stream part out : List Byte} {sizes : ℕ → ℕ} {buf : Buffer}
    {fuel k : ℕ} (hbuf : ∀ i < part.length, buf i = part.getD i 0) (hnl : newline ∉ part)
    (hpart : (0 : Byte) ∉ part) (hstream : (0 : Byte) ∉ stream) (hlen : part.length < BUFSIZE)
    (hfuel : stream.length < fuel) :
    grepLoop pattern sizes fuel k buf part.length stream out =
      out ++ filtered pattern ((lines newline (part ++ stream)).takeWhile Fits) := by
  induction fuel generalizing k buf part stream out with
  | zero => exact absurd hfuel (Nat.not_lt_zero _)
  | succ fuel ih =>
    rw [grepLoop]
    dsimp only
    set piece := readPiece (sizes k) (BUFSIZE - part.length - 1) stream with hpiece
    by_cases hnil : piece = []
    · -- the end of the stream, or a line that does not fit
      have hstop : (lines newline (part ++ stream)).takeWhile Fits = [] := by
        rcases readPiece_eq_nil.mp hnil with rfl | hfull
        · rw [append_nil, lines_of_notMem hnl]
          rfl
        · exact takeWhile_full hnl (by omega)
      rw [if_neg (by rw [hnil]; exact Nat.lt_irrefl 0), hstop, filtered, filter_nil, flatMap_nil,
        append_nil]
    · have hpos : 0 < piece.length := length_pos_iff.mpr hnil
      have htake : piece.length ≤ BUFSIZE - part.length - 1 := by
        rw [hpiece, readPiece, length_take]
        omega
      have hsplit : piece ++ stream.drop piece.length = stream := readPiece_append _ _ _
      have hle : piece.length ≤ stream.length := by
        rw [← hsplit, length_append]
        omega
      set text := part ++ piece with htext
      have hlt : text.length < BUFSIZE := by
        rw [htext, length_append]
        omega
      have htext0 : (0 : Byte) ∉ text := by
        rw [htext, mem_append, not_or]
        exact ⟨hpart, fun h => hstream (hsplit ▸ mem_append_left _ h)⟩
      obtain ⟨buf', hholds, hrun⟩ := grepLines_eq pattern out
        (holds_fill piece hbuf) htext0 hlt hlt
      have htail := length_tail_le newline text
      have hm : part.length + piece.length - (0 + (text.length - (Lines.tail newline text).length))
          = (Lines.tail newline text).length := by
        rw [htext, length_append] at htail ⊢
        omega
      have hbuf' : ∀ i < (Lines.tail newline text).length,
          compact buf' (0 + (text.length - (Lines.tail newline text).length))
            (Lines.tail newline text).length i = (Lines.tail newline text).getD i 0 := by
        intro i hi
        rw [compact, if_pos hi, hholds i hi.le]
      have hshort : ∀ x ∈ lines newline text, decide (Fits x) = true := by
        intro x hx
        have := length_of_mem_lines hx
        rw [decide_eq_true_iff, Fits]
        omega
      rw [if_pos hpos, hrun, if_pos (by omega)]
      dsimp only
      rw [hm, ih hbuf' (notMem_tail text) (fun h => htext0 (mem_of_mem_tail h))
        (fun h => hstream (hsplit ▸ mem_append_right _ h)) (by omega)
        (by rw [length_drop]; omega)]
      conv_rhs => rw [← hsplit]
      rw [← append_assoc part, ← htext, lines_append text, takeWhile_append_of_pos hshort,
        filtered_append, append_assoc]

theorem grep_eq (pattern : List Byte) (sizes : ℕ → ℕ) (buf : Buffer) {stream : List Byte}
    (h0 : 0 ∉ stream) :
    grep pattern sizes buf stream = filtered pattern ((lines newline stream).takeWhile Fits) :=
  (grepLoop_eq (fun i (hi : i < ([] : List Byte).length) => absurd hi (Nat.not_lt_zero i))
    not_mem_nil not_mem_nil h0 (by decide) (Nat.lt_succ_self _)).trans (nil_append _)

theorem filtered_eq_nil {pattern : List Byte} {ls : List (List Byte)} :
    filtered pattern ls = [] ↔ ∀ l ∈ ls, matchText pattern l = false := by
  rw [filtered, flatMap_eq_nil_iff]
  constructor
  · intro h l hl
    by_contra hm
    have hmem : l ∈ ls.filter (matchText pattern) :=
      mem_filter.mpr ⟨hl, Bool.not_eq_false _ ▸ hm⟩
    exact append_ne_nil_of_right_ne_nil l (cons_ne_nil newline []) (h l hmem)
  · intro h l hl
    obtain ⟨hl, hm⟩ := mem_filter.mp hl
    rw [h l hl] at hm
    cases hm

/-- `grep` prints the lines that match exactly if none matches from the first line on that does
not fit into the buffer; what it prints does not depend on how the stream comes in. -/
theorem grep_filters_iff (pattern stream : List Byte) (h0 : 0 ∉ stream) (sizes : ℕ → ℕ)
    (buf : Buffer) :
    (grep pattern sizes buf stream = filtered pattern (lines newline stream) ↔
      ∀ l ∈ (lines newline stream).dropWhile Fits, matchText pattern l = false) ∧
    ∀ sizes' buf', grep pattern sizes' buf' stream = grep pattern sizes buf stream := by
  refine ⟨?_, fun sizes' buf' => (grep_eq pattern sizes' buf' h0).trans (grep_eq _ _ _ h0).symm⟩
  have hsplit : filtered pattern (lines newline stream) =
      filtered pattern ((lines newline stream).takeWhile Fits) ++
        filtered pattern ((lines newline stream).dropWhile Fits) := by
    rw [← filtered_append, takeWhile_append_dropWhile]
  rw [grep_eq pattern sizes buf h0, hsplit, ← filtered_eq_nil, self_eq_append_right]

theorem grep_filters_iff_short :
    grep [0x62] (fun _ => 1) (fun _ => 0) [0x61, 0x0a, 0x62, 0x0a] = [0x62, 0x0a] :=
  ((grep_filters_iff [0x62] [0x61, 0x0a, 0x62, 0x0a] (by decide) (fun _ => 1) fun _ => 0).1.mpr
    (by decide)).trans (by decide)

/-- A line of 1023 bytes that matches, and nothing is printed. -/
theorem not_grep_filters :
    (0 : Byte) ∉ List.replicate 1023 (0x61 : Byte) ++ [newline] ∧
    ∀ sizes buf, grep [0x61] sizes buf (List.replicate 1023 0x61 ++ [newline]) = [] ∧
      filtered [0x61] (lines newline (List.replicate 1023 0x61 ++ [newline])) ≠ [] := by
  have h0 : (0 : Byte) ∉ List.replicate 1023 (0x61 : Byte) ++ [newline] := by
    rw [mem_append, mem_replicate, not_or]
    exact ⟨fun h => absurd h.2 (by decide), by decide⟩
  have hnl : newline ∉ List.replicate 1023 (0x61 : Byte) := by
    rw [mem_replicate]
    exact fun h => absurd h.2 (by decide)
  have hlines : lines newline (List.replicate 1023 (0x61 : Byte) ++ [newline]) =
      [List.replicate 1023 0x61] := lines_line hnl []
  refine ⟨h0, fun sizes buf => ⟨?_, ?_⟩⟩
  · have hlong : ¬ Fits (List.replicate 1023 0x61) := by
      rw [Fits, length_replicate]
      decide
    have hstop : [List.replicate 1023 (0x61 : Byte)].takeWhile Fits = [] :=
      takeWhile_cons_of_neg (p := fun l => decide (Fits l)) (by rwa [decide_eq_true_iff])
    rw [grep_eq _ _ _ h0, hlines, hstop]
    rfl
  · rw [hlines, Ne, filtered_eq_nil]
    exact fun h => absurd (h _ (mem_singleton_self _)) (by decide)

end Xv6.Grep
