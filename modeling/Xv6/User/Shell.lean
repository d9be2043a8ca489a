import Mathlib.Data.List.Basic
import Mathlib.Data.List.GetD
import Xv6.Lib.Bytes

/-! The parser of the shell, `user/sh.c`. Pointers into the line are positions in it; the memory of
the commands is not modelled, a command is a tree. -/
namespace Xv6.Shell
open Bytes List

def MAXARGS : ℕ := 10

def O_RDONLY : BitVec 32 := 0x000
def O_WRONLY : BitVec 32 := 0x001
def O_CREATE : BitVec 32 := 0x200
def O_TRUNC : BitVec 32 := 0x400

def charBar : Byte := 0x7c
def charLpar : Byte := 0x28
def charRpar : Byte := 0x29
def charSemi : Byte := 0x3b
def charAmp : Byte := 0x26
def charLt : Byte := 0x3c
def charGt : Byte := 0x3e
def tokAppend : Byte := 0x2b
def tokWord : Byte := 0x61

/-- Blank, tab, carriage return, newline and vertical tab. -/
def whitespace : List Byte := [0x20, 0x09, 0x0d, 0x0a, 0x0b]
def symbols : List Byte := [charLt, charBar, charGt, charAmp, charSemi, charLpar, charRpar]

inductive Panic where
  | syntaxError
  | missingFile
  | parseblock
  | missingParen
  | tooManyArgs
  /-- No panic of the shell: the recursion of the model was cut off. -/
  | outOfFuel
  deriving DecidableEq, Repr

/-- The two pointers to a word of the line: its start, and the byte behind it. -/
structure Span where
  q : ℕ
  eq : ℕ
  deriving DecidableEq, Repr

structure Redir where
  file : Span
  mode : BitVec 32
  fd : ℕ
  deriving DecidableEq, Repr

inductive Cmd where
  | exec (argv : List Span)
  | redir (cmd : Cmd) (r : Redir)
  | pipe (left right : Cmd)
  | list (left right : Cmd)
  | back (cmd : Cmd)
  deriving DecidableEq, Repr

def strchr (s : List Byte) (c : Byte) : Bool := s.contains c

/-- The byte at `s`; behind the line there is a NUL. -/
def charAt (line : List Byte) (s : ℕ) : Byte := line.getD s 0

/-- The loops that advance `s` up to `es`. -/
def scan (p : Byte → Bool) (line : List Byte) : ℕ → ℕ → ℕ
  | 0, s => s
  | n + 1, s => if s < line.length ∧ p (charAt line s) = true then scan p line n (s + 1) else s

def skip (line : List Byte) (s : ℕ) : ℕ := scan (strchr whitespace) line (line.length - s) s

structure Got where
  tok : Byte
  q : ℕ
  eq : ℕ
  s : ℕ

def wordByte (b : Byte) : Bool := !strchr whitespace b && !strchr symbols b

def gettoken (line : List Byte) (s : ℕ) : Got :=
  let q := skip line s
  let c := charAt line q
  let (tok, eq) :=
    if c = 0 then (0, q)
    else if strchr [charBar, charLpar, charRpar, charSemi, charAmp, charLt] c then (c, q + 1)
    else if c = charGt then
      if charAt line (q + 1) = charGt then (tokAppend, q + 2) else (c, q + 1)
    else (tokWord, scan wordByte line (line.length - q) q)
  { tok, q, eq, s := skip line eq }

def peek (line : List Byte) (s : ℕ) (toks : List Byte) : Bool × ℕ :=
  let s := skip line s
  (charAt line s ≠ 0 && strchr toks (charAt line s), s)

def redirOf (tok : Byte) (file : Span) : List Redir :=
  if tok = charLt then [⟨file, O_RDONLY, 0⟩]
  else if tok = charGt then [⟨file, O_WRONLY ||| O_CREATE ||| O_TRUNC, 1⟩]
  else if tok = tokAppend then [⟨file, O_WRONLY ||| O_CREATE, 1⟩]
  else []

/-- The loop of `parseredirs`: the redirections in the order in which they are read. The command
that they wrap may get further arguments, so it is wrapped when it is complete. -/
def parseredirs (line : List Byte) : ℕ → List Redir → ℕ → Except Panic (List Redir × ℕ)
  | 0, _, _ => .error .outOfFuel
  | n + 1, rs, s =>
    let (more, s) := peek line s [charLt, charGt]
    if more then
      let g := gettoken line s
      let f := gettoken line g.s
      if f.tok ≠ tokWord then .error .missingFile
      else parseredirs line n (rs ++ redirOf g.tok ⟨f.q, f.eq⟩) f.s
    else .ok (rs, s)

def wrap (rs : List Redir) (cmd : Cmd) : Cmd := rs.foldl Cmd.redir cmd

def parseargs (line : List Byte) :
    ℕ → List Span → List Redir → ℕ → Except Panic ((List Span × List Redir) × ℕ)
  | 0, _, _, _ => .error .outOfFuel
  | n + 1, argv, rs, s =>
    let (stop, s) := peek line s [charBar, charRpar, charAmp, charSemi]
    if stop then .ok ((argv, rs), s)
    else
      let g := gettoken line s
      if g.tok = 0 then .ok ((argv, rs), g.s)
      else if g.tok ≠ tokWord then .error .syntaxError
      else
        let argv := argv ++ [⟨g.q, g.eq⟩]
        if MAXARGS ≤ argv.length then .error .tooManyArgs
        else do
          let (rs, s) ← parseredirs line n rs g.s
          parseargs line n argv rs s

def parsebacks (line : List Byte) : ℕ → Cmd → ℕ → Except Panic (Cmd × ℕ)
  | 0, _, _ => .error .outOfFuel
  | n + 1, cmd, s =>
    let (more, s) := peek line s [charAmp]
    if more then parsebacks line n (.back cmd) (gettoken line s).s else .ok (cmd, s)

mutual

def parseline (line : List Byte) : ℕ → ℕ → Except Panic (Cmd × ℕ)
  | 0, _ => .error .outOfFuel
  | n + 1, s => do
    let (cmd, s) ← parsepipe line n s
    let (cmd, s) ← parsebacks line n cmd s
    let (more, s) := peek line s [charSemi]
    if more then do
      let (right, s) ← parseline line n (gettoken line s).s
      return (.list cmd right, s)
    else return (cmd, s)

def parsepipe (line : List Byte) : ℕ → ℕ → Except Panic (Cmd × ℕ)
  | 0, _ => .error .outOfFuel
  | n + 1, s => do
    let (cmd, s) ← parseexec line n s
    let (more, s) := peek line s [charBar]
    if more then do
      let (right, s) ← parsepipe line n (gettoken line s).s
      return (.pipe cmd right, s)
    else return (cmd, s)

def parseblock (line : List Byte) : ℕ → ℕ → Except Panic (Cmd × ℕ)
  | 0, _ => .error .outOfFuel
  | n + 1, s => do
    let (opens, s) := peek line s [charLpar]
    if opens then do
      let (cmd, s) ← parseline line n (gettoken line s).s
      let (closes, s) := peek line s [charRpar]
      if closes then do
        let (rs, s) ← parseredirs line n [] (gettoken line s).s
        return (wrap rs cmd, s)
      else throw .missingParen
    else throw .parseblock

def parseexec (line : List Byte) : ℕ → ℕ → Except Panic (Cmd × ℕ)
  | 0, _ => .error .outOfFuel
  | n + 1, s => do
    let (block, s) := peek line s [charLpar]
    if block then parseblock line n s
    else do
      let (rs, s) ← parseredirs line n [] s
      let ((argv, rs), s) ← parseargs line n [] rs s
      return (wrap rs (.exec argv), s)

end

/-- The NULs that end the words of a command, written to the memory `m`. -/
def nulterminate : Cmd → List Byte → List Byte
  | .exec argv, m => argv.foldl (fun m w => m.set w.eq 0) m
  | .redir cmd r, m => (nulterminate cmd m).set r.file.eq 0
  | .pipe left right, m => nulterminate right (nulterminate left m)
  | .list left right, m => nulterminate right (nulterminate left m)
  | .back cmd, m => nulterminate cmd m

/-- The command for a line, and the memory of the line behind it. -/
def parsecmd (line : List Byte) : Except Panic (Cmd × List Byte) := do
  let (cmd, s) ← parseline line (4 * line.length + 4) 0
  let (_, s) := peek line s []
  if s ≠ line.length then throw .syntaxError
  else return (cmd, nulterminate cmd (line ++ [0]))

def cstring (m : List Byte) (s : ℕ) : List Byte := (m.drop s).takeWhile (· ≠ 0)

inductive Token where
  | bar
  | lpar
  | rpar
  | semi
  | amp
  | lt
  | gt
  | append
  | word (w : Span)
  deriving DecidableEq, Repr

def symbolToken (b : Byte) : Option Token :=
  if b = charBar then some .bar
  else if b = charLpar then some .lpar
  else if b = charRpar then some .rpar
  else if b = charSemi then some .semi
  else if b = charAmp then some .amp
  else if b = charLt then some .lt
  else none

/-- The tokens of a text that starts at position `pos` of the line: whitespace separates, `>>` is one
token, and a word is as long as possible. -/
def lex (pos : ℕ) : List Byte → List Token
  | [] => []
  | b :: rest =>
    if strchr whitespace b then lex (pos + 1) rest
    else match symbolToken b with
      | some t => t :: lex (pos + 1) rest
      | none =>
        if b = charGt then
          match rest with
          | [] => [.gt]
          | b' :: rest' =>
            if b' = charGt then .append :: lex (pos + 2) rest' else .gt :: lex (pos + 1) (b' :: rest')
        else
          let n := (rest.takeWhile wordByte).length
          .word ⟨pos, pos + 1 + n⟩ :: lex (pos + 1 + n) (rest.drop n)
termination_by l => l.length
decreasing_by
  all_goals simp only [length_cons, length_drop]
  all_goals omega

variable {line l rest : List Byte} {s n pos : ℕ} {b : Byte} {t : Token} {ts : List Token}

theorem charAt_eq (h : line.drop s = b :: rest) : charAt line s = b := by
  have hb : (line)[s]? = some b := by
    rw [← Nat.add_zero s, ← getElem?_drop, h]
    rfl
  rw [charAt, getD_eq_getElem?_getD, hb]
  rfl

theorem charAt_of_drop_nil (h : line.drop s = []) : charAt line s = 0 := by
  rw [charAt, getD_eq_default _ _ (drop_eq_nil_iff.mp h)]

theorem drop_succ (h : line.drop s = b :: rest) : line.drop (s + 1) = rest := by
  rw [← drop_drop, h]
  rfl

theorem lt_of_drop_cons (h : line.drop s = b :: rest) : s < line.length := by
  by_contra hs
  rw [drop_eq_nil_of_le (Nat.le_of_not_lt hs)] at h
  cases h

/-- A scan goes over the longest run of bytes that it accepts. -/
theorem scan_eq (p : Byte → Bool) (hn : n = line.length - s) :
    scan p line n s = s + ((line.drop s).takeWhile p).length := by
  induction n generalizing s with
  | zero =>
    rw [drop_eq_nil_of_le (by omega)]
    rfl
  | succ n ih =>
    obtain ⟨b, rest, hd⟩ : ∃ b rest, line.drop s = b :: rest :=
      exists_cons_of_ne_nil fun h => by
        have := drop_eq_nil_iff.mp h
        omega
    rw [scan, charAt_eq hd, hd, takeWhile_cons]
    split_ifs with hc hp hp
    · rw [ih (by omega), drop_succ hd, length_cons]
      omega
    · exact absurd hc.2 hp
    · exact absurd ⟨lt_of_drop_cons hd, hp⟩ hc
    · rfl

theorem scan_le (p : Byte → Bool) (hn : n = line.length - s) (hs : s ≤ line.length) :
    scan p line n s ≤ line.length := by
  rw [scan_eq p hn]
  have := ( takeWhile_prefix p (l := line.drop s)).length_le
  rw [length_drop] at this
  omega

theorem drop_scan (p : Byte → Bool) (hn : n = line.length - s) :
    line.drop (scan p line n s) = (line.drop s).dropWhile p := by
  rw [scan_eq p hn, ← drop_drop]
  nth_rewrite 2 [← takeWhile_append_dropWhile (p := p) (l := line.drop s)]
  rw [drop_left]

/-- At position `s` of the line the tokens `ts` are still to be read. -/
structure Reads (line : List Byte) (s : ℕ) (ts : List Token) : Prop where
  le : s ≤ line.length
  lex : lex s (line.drop s) = ts

theorem lex_white (hb : strchr whitespace b = true) : lex pos (b :: rest) = lex (pos + 1) rest := by
  rw [lex.eq_def]
  exact if_pos hb

theorem lex_dropWhile (l : List Byte) (pos : ℕ) :
    lex (pos + (l.takeWhile (strchr whitespace)).length) (l.dropWhile (strchr whitespace)) =
      lex pos l := by
  induction l generalizing pos with
  | nil => rfl
  | cons b l ih =>
    rw [takeWhile_cons, dropWhile_cons]
    split_ifs with hb
    · rw [lex_white hb, ← ih (pos + 1), length_cons]
      congr 1
      omega
    · rfl

theorem Reads.skip (h : Reads line s ts) : Reads line (skip line s) ts ∧
    (line.drop (skip line s)).head?.all (fun b => !strchr whitespace b) = true := by
  refine ⟨⟨scan_le _ rfl h.le, ?_⟩, ?_⟩
  · rw [Shell.skip, drop_scan _ rfl, scan_eq _ rfl, lex_dropWhile, h.lex]
  · rw [Shell.skip, drop_scan _ rfl]
    cases hd : (line.drop s).dropWhile (strchr whitespace) with
    | nil => rfl
    | cons b rest =>
      have hne : (line.drop s).dropWhile (strchr whitespace) ≠ [] := by rw [hd]; nofun
      have hb := head_dropWhile_not (strchr whitespace) hne
      simp only [hd, head_cons] at hb
      simp [hb]

def Token.char : Token → Byte
  | .bar => charBar
  | .lpar => charLpar
  | .rpar => charRpar
  | .semi => charSemi
  | .amp => charAmp
  | .lt => charLt
  | .gt => charGt
  | .append => charGt
  | .word _ => tokWord

def Token.code : Token → Byte
  | .append => tokAppend
  | t => t.char

theorem symbolToken_eq (h : symbolToken b = some t) :
    t.char = b ∧ t.code = b ∧ strchr [charBar, charLpar, charRpar, charSemi, charAmp, charLt] b = true ∧
      ∀ w, t ≠ .word w := by
  unfold symbolToken at h
  split_ifs at h with h₁ h₂ h₃ h₄ h₅ h₆
  all_goals cases h; subst b; exact ⟨rfl, rfl, by decide, nofun⟩

theorem symbolToken_none (h : symbolToken b = none) :
    strchr [charBar, charLpar, charRpar, charSemi, charAmp, charLt] b = false := by
  unfold symbolToken at h
  split_ifs at h with h₁ h₂ h₃ h₄ h₅ h₆
  simp [strchr, h₁, h₂, h₃, h₄, h₅, h₆]

inductive Starts (line : List Byte) (q : ℕ) (b : Byte) : Token → ℕ → Prop
  | symbol {t : Token} : symbolToken b = some t → Starts line q b t (q + 1)
  | append : b = charGt → charAt line (q + 1) = charGt → Starts line q b .append (q + 2)
  | gt : b = charGt → charAt line (q + 1) ≠ charGt → Starts line q b .gt (q + 1)
  | word : symbolToken b = none → b ≠ charGt → wordByte b = true →
      Starts line q b (.word ⟨q, scan wordByte line (line.length - q) q⟩)
        (scan wordByte line (line.length - q) q)

theorem wordByte_of (hw : strchr whitespace b = false) (hs : symbolToken b = none) (hg : b ≠ charGt) :
    wordByte b = true := by
  have hsym := symbolToken_none hs
  simp only [strchr, contains_cons, contains_nil, Bool.or_false, Bool.or_eq_false_iff,
    beq_eq_false_iff_ne] at hsym
  have hnot : strchr symbols b = false := by simp [strchr, symbols, hg, hsym]
  rw [wordByte, hw, hnot]
  rfl

theorem lex_cons (hd : line.drop s = b :: rest) (hw : strchr whitespace b = false) :
    ∃ t e, Starts line s b t e ∧ Shell.lex s (line.drop s) = t :: Shell.lex e (line.drop e) ∧
      e ≤ line.length := by
  have hlt := lt_of_drop_cons hd
  have hrest := drop_succ hd
  rw [hd, lex.eq_def]
  dsimp only
  rw [if_neg (by rw [hw]; decide)]
  cases hs : symbolToken b with
  | some t => exact ⟨t, s + 1, .symbol hs, by rw [hrest], hlt⟩
  | none =>
    dsimp only
    by_cases hg : b = charGt
    · rw [if_pos hg]
      cases rest with
      | nil =>
        have hat : charAt line (s + 1) = 0 := charAt_of_drop_nil hrest
        exact ⟨.gt, s + 1, .gt hg (by rw [hat]; decide), by rw [hrest, lex.eq_def], hlt⟩
      | cons b' rest' =>
        have hat := charAt_eq hrest
        have hlt' := lt_of_drop_cons hrest
        dsimp only
        split_ifs with hg'
        · exact ⟨.append, s + 2, .append hg (by rw [hat, hg']), by rw [drop_succ hrest], hlt'⟩
        · exact ⟨.gt, s + 1, .gt hg (by rwa [hat]), by rw [hrest], hlt⟩
    · rw [if_neg hg]
      have hword := wordByte_of hw hs hg
      have he : scan wordByte line (line.length - s) s = s + 1 + (rest.takeWhile wordByte).length := by
        rw [scan_eq wordByte rfl, hd, takeWhile_cons, if_pos hword, length_cons]
        omega
      refine ⟨_, _, .word hs hg hword, ?_, scan_le _ rfl hlt.le⟩
      rw [he, ← drop_drop, hrest]

theorem Reads.next (h : Reads line s ts) (h0 : 0 ∉ line) :
    (ts = [] ∧ Shell.skip line s = line.length) ∨
      ∃ b rest t e ts', line.drop (Shell.skip line s) = b :: rest ∧ b ≠ 0 ∧ ts = t :: ts' ∧
        Starts line (Shell.skip line s) b t e ∧ Reads line e ts' := by
  obtain ⟨⟨hle, hlex⟩, hwhite⟩ := h.skip
  cases hd : line.drop (Shell.skip line s) with
  | nil =>
    rw [hd, Shell.lex.eq_def] at hlex
    have := drop_eq_nil_iff.mp hd
    exact .inl ⟨hlex.symm, by omega⟩
  | cons b rest =>
    have hw : strchr whitespace b = false := by simpa [hd] using hwhite
    obtain ⟨t, e, hstart, ht, he⟩ := lex_cons hd hw
    rw [hlex] at ht
    refine .inr ⟨b, rest, t, e, _, rfl, ?_, ht, hstart, he, rfl⟩
    rintro rfl
    exact h0 (mem_of_mem_drop (by rw [hd]; exact mem_cons_self))

theorem Reads.peek (h : Reads line s ts) (h0 : 0 ∉ line) {toks : List Byte} (htoks : toks ⊆ symbols) :
    (peek line s toks).1 = ts.head?.any (fun t => strchr toks t.char) ∧
      Reads line (peek line s toks).2 ts := by
  refine ⟨?_, h.skip.1⟩
  unfold Shell.peek
  dsimp only
  rcases h.next h0 with ⟨rfl, hend⟩ | ⟨b, rest, t, e, ts', hd, hb, rfl, hstart, -⟩
  · rw [charAt_of_drop_nil (by rw [hend, drop_length])]
    rfl
  · rw [charAt_eq hd]
    have hword : ∀ c, wordByte c = true → strchr toks c = false := by
      intro c hc
      simp only [strchr, contains_eq_mem, decide_eq_false_iff_not]
      intro hmem
      have := htoks hmem
      simp [wordByte, strchr, this] at hc
    simp only [ne_eq, hb, not_false_eq_true, decide_true, Bool.true_and, head?_cons,
      Option.any_some]
    cases hstart with
    | symbol hs => rw [(symbolToken_eq hs).1]
    | append hg _ => rw [hg]; rfl
    | gt hg _ => rw [hg]; rfl
    | word hs hg hw => rw [hword b hw, Token.char, hword tokWord (by decide)]

theorem Reads.gettoken (h : Reads line s ts) (h0 : 0 ∉ line) :
    (gettoken line s).tok = (ts.head?.map Token.code).getD 0 ∧
      Reads line (gettoken line s).s ts.tail ∧
      ∀ w, ts.head? = some (.word w) → (⟨(gettoken line s).q, (gettoken line s).eq⟩ : Span) = w := by
  unfold Shell.gettoken
  dsimp only
  rcases h.next h0 with ⟨rfl, hend⟩ | ⟨b, rest, t, e, ts', hd, hb, rfl, hstart, hreads⟩
  · rw [charAt_of_drop_nil (by rw [hend, drop_length]), if_pos rfl]
    exact ⟨rfl, h.skip.1.skip.1, nofun⟩
  · rw [charAt_eq hd, if_neg hb]
    cases hstart with
    | symbol hs =>
      obtain ⟨-, hcode, hmem, hnot⟩ := symbolToken_eq hs
      rw [if_pos hmem]
      exact ⟨hcode.symm, hreads.skip.1, fun w hw => absurd (Option.some.inj hw) (hnot w)⟩
    | append hg hg' =>
      subst hg
      rw [if_neg (by decide), if_pos rfl, if_pos hg']
      exact ⟨rfl, hreads.skip.1, nofun⟩
    | gt hg hg' =>
      subst hg
      rw [if_neg (by decide), if_pos rfl, if_neg hg']
      exact ⟨rfl, hreads.skip.1, nofun⟩
    | word hs hg hw =>
      rw [if_neg (by rw [symbolToken_none hs]; decide), if_neg hg]
      refine ⟨rfl, hreads.skip.1, ?_⟩
      rintro w ⟨⟩
      rfl

theorem lex_length_le (l : List Byte) (pos : ℕ) : (lex pos l).length ≤ l.length := by
  fun_induction lex pos l <;> grind

end Xv6.Shell
