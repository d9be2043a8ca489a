import Mathlib.Logic.Function.Iterate
import Xv6.User.Shell

/-! The parser accepts exactly the lines of the grammar, and the command that it builds is the one of
the derivation. -/
namespace Xv6.Shell
open Bytes List Option

def Token.redirect : Token → Option (BitVec 32 × ℕ)
  | .lt => some (O_RDONLY, 0)
  | .gt => some (O_WRONLY ||| O_CREATE ||| O_TRUNC, 1)
  | .append => some (O_WRONLY ||| O_CREATE, 1)
  | _ => none

inductive Redirs : List Token → List Redir → Prop
  | nil : Redirs [] []
  | cons {op : Token} {w : Span} {mode : BitVec 32} {fd : ℕ} {ts : List Token} {rs : List Redir} :
      op.redirect = some (mode, fd) → Redirs ts rs →
      Redirs (op :: .word w :: ts) (⟨w, mode, fd⟩ :: rs)

inductive Words : List Token → List Span → List Redir → Prop
  | nil : Words [] [] []
  | cons {w : Span} {us ts : List Token} {rs rs' : List Redir} {ws : List Span} :
      Redirs us rs → Words ts ws rs' → Words (.word w :: (us ++ ts)) (w :: ws) (rs ++ rs')

inductive NonTerm where
  | line
  | pipe
  | exec

/-- The grammar, with the command that a derivation gives. -/
inductive Derives : NonTerm → List Token → Cmd → Prop
  | last {ts : List Token} {c : Cmd} (k : ℕ) :
      Derives .pipe ts c → Derives .line (ts ++ List.replicate k .amp) (Cmd.back^[k] c)
  | list {ts us : List Token} {c d : Cmd} (k : ℕ) :
      Derives .pipe ts c → Derives .line us d →
      Derives .line (ts ++ (List.replicate k .amp ++ .semi :: us)) (.list (Cmd.back^[k] c) d)
  | single {ts : List Token} {c : Cmd} : Derives .exec ts c → Derives .pipe ts c
  | pipe {ts us : List Token} {c d : Cmd} :
      Derives .exec ts c → Derives .pipe us d → Derives .pipe (ts ++ .bar :: us) (.pipe c d)
  | block {ts us : List Token} {c : Cmd} {rs : List Redir} :
      Derives .line ts c → Redirs us rs → Derives .exec (.lpar :: (ts ++ .rpar :: us)) (wrap rs c)
  | simple {ts us : List Token} {ws : List Span} {rs rs' : List Redir} :
      Redirs ts rs → Words us ws rs' → ws.length < MAXARGS →
      Derives .exec (ts ++ us) (wrap (rs ++ rs') (.exec ws))

variable {line : List Byte} {s n : ℕ} {ts : List Token} {α β : Type}

def Takes (line : List Byte) (D : List Token → α → Prop) (ts : List Token) :
    Except Panic (α × ℕ) → Prop
  | .error e => e ≠ .outOfFuel
  | .ok (a, s) => ∃ used rest, ts = used ++ rest ∧ D used a ∧ Reads line s rest

variable {D : List Token → α → Prop}

theorem Takes.nothing {a : α} (h : Reads line s ts) (hD : D [] a) :
    Takes line D ts (.ok (a, s)) := ⟨[], ts, rfl, hD, h⟩

variable {r : Except Panic (α × ℕ)}

theorem Takes.mono {D E : List Token → α → Prop} (h : Takes line D ts r)
    (hDE : ∀ used a, D used a → E used a) : Takes line E ts r := by
  rcases r with e | ⟨a, s⟩
  · exact h
  · obtain ⟨used, rest, hts, hD, hs⟩ := h
    exact ⟨used, rest, hts, hDE used a hD, hs⟩

theorem Takes.after (us : List Token)
    (h : Takes line (fun used a => D (us ++ used) a) ts r) : Takes line D (us ++ ts) r := by
  rcases r with e | ⟨a, s⟩
  · exact h
  · obtain ⟨used, rest, hts, hD, hs⟩ := h
    exact ⟨us ++ used, rest, by rw [hts, append_assoc], hD, hs⟩

variable {f : α × ℕ → Except Panic (β × ℕ)} {x : Except Panic (α × ℕ)}

theorem Takes.bind {E : List Token → β → Prop}
    (h : Takes line D ts x)
    (hf : ∀ a s used rest, ts = used ++ rest → D used a → Reads line s rest →
      Takes line (fun later b => E (used ++ later) b) rest (f (a, s))) : Takes line E ts (x >>= f) := by
  rcases x with e | ⟨a, s⟩
  · exact h
  · obtain ⟨used, rest, rfl, hD, hs⟩ := h
    exact (hf a s used rest rfl hD hs).after used

theorem Token.code_ne_zero (t : Token) : t.code ≠ 0 := by
  cases t with
  | word w => exact show tokWord ≠ 0 by decide
  | _ => decide

theorem Token.word_of_code {t : Token} (h : t.code = tokWord) : ∃ w, t = .word w := by
  cases t with
  | word w => exact ⟨w, rfl⟩
  | _ => cases h

def singles : List Token := [.bar, .lpar, .rpar, .semi, .amp]

theorem strchr_char {t : Token} (ht : t ∈ singles) (u : Token) :
    strchr [t.char] u.char = decide (u = t) := by
  simp only [singles, mem_cons, not_mem_nil, or_false] at ht
  rcases ht with rfl | rfl | rfl | rfl | rfl <;> cases u <;> rfl

section
variable (h0 : 0 ∉ line)
include h0

theorem Reads.peek_eq (h : Reads line s ts) (toks : List Byte) (htoks : toks ⊆ symbols) :
    ∃ s', Shell.peek line s toks = (ts.head?.any (fun t => strchr toks t.char), s') ∧
      Reads line s' ts :=
  ⟨_, Prod.ext (h.peek h0 htoks).1 rfl, (h.peek h0 htoks).2⟩

theorem Reads.peek_one (h : Reads line s ts) (t : Token) (ht : t ∈ singles) :
    ∃ s', Shell.peek line s [t.char] = (decide (ts.head? = some t), s') ∧ Reads line s' ts := by
  have hsub : [t.char] ⊆ symbols := by
    simp only [singles, mem_cons, not_mem_nil, or_false] at ht
    rcases ht with rfl | rfl | rfl | rfl | rfl <;> decide
  obtain ⟨s', hp, h'⟩ := h.peek_eq h0 _ hsub
  refine ⟨s', ?_, h'⟩
  rw [hp]
  cases ts with
  | nil => rfl
  | cons u ts => simp only [head?_cons, any_some, strchr_char ht, Option.some.injEq]

theorem Reads.gettoken_cons {t : Token} (h : Reads line s (t :: ts)) :
    (Shell.gettoken line s).tok = t.code ∧ Reads line (Shell.gettoken line s).s ts :=
  ⟨(h.gettoken h0).1, (h.gettoken h0).2.1⟩

theorem Reads.gettoken_word {w : Span} (h : Reads line s (.word w :: ts)) :
    (Shell.gettoken line s).tok = tokWord ∧
      (⟨(Shell.gettoken line s).q, (Shell.gettoken line s).eq⟩ : Span) = w ∧
      Reads line (Shell.gettoken line s).s ts :=
  ⟨(h.gettoken h0).1, (h.gettoken h0).2.2 w rfl, (h.gettoken h0).2.1⟩

theorem Reads.word_of_tok (h : Reads line s ts) (htok : (Shell.gettoken line s).tok = tokWord) :
    ∃ w ts', ts = .word w :: ts' := by
  cases ts with
  | nil =>
    rw [(h.gettoken h0).1] at htok
    cases htok
  | cons t ts' =>
    rw [(h.gettoken_cons h0).1] at htok
    obtain ⟨w, rfl⟩ := Token.word_of_code htok
    exact ⟨w, ts', rfl⟩

end

theorem redirOf_code {op : Token} {mode : BitVec 32} {fd : ℕ} (h : op.redirect = some (mode, fd))
    (w : Span) : redirOf op.code w = [⟨w, mode, fd⟩] := by
  cases op with
  | lt | gt | append => cases h; rfl
  | _ => cases h

theorem strchr_redirect (op : Token) :
    strchr [charLt, charGt] op.char = op.redirect.isSome := by
  cases op <;> rfl

section
variable (h0 : 0 ∉ line)
include h0

theorem takes_parseredirs {rs : List Redir} (h : Reads line s ts) (hn : ts.length < n) :
    Takes line (fun used rs' => ∃ new, Redirs used new ∧ rs' = rs ++ new) ts
      (parseredirs line n rs s) := by
  induction n generalizing s ts rs with
  | zero => omega
  | succ n ih =>
    obtain ⟨s₁, hp, h₁⟩ := h.peek_eq h0 [charLt, charGt] (by decide)
    rw [parseredirs, hp]
    dsimp only
    split_ifs with hmore htok
    · nofun
    · -- an operator and the word behind it
      rcases ts with _ | ⟨op, ts⟩
      · cases hmore
      rw [head?_cons, any_some, strchr_redirect, isSome_iff_exists] at hmore
      obtain ⟨⟨mode, fd⟩, hop⟩ := hmore
      obtain ⟨hcode, h₂⟩ := h₁.gettoken_cons h0
      obtain ⟨w, ts', rfl⟩ := h₂.word_of_tok h0 (not_not.mp htok)
      obtain ⟨-, hw, h₃⟩ := h₂.gettoken_word h0
      rw [hcode, hw, redirOf_code hop]
      simp only [length_cons] at hn
      refine Takes.after [op, .word w] ((ih h₃ (by omega)).mono ?_)
      rintro used _ ⟨new, hnew, rfl⟩
      exact ⟨_, .cons hop hnew, by rw [append_assoc]; rfl⟩
    · exact .nothing h₁ ⟨[], .nil, (append_nil rs).symm⟩

theorem takes_parseargs {argv : List Span} {rs : List Redir} (h : Reads line s ts)
    (hn : ts.length < n) (hargv : argv.length < MAXARGS) :
    Takes line (fun used p => ∃ ws new, Words used ws new ∧ (argv ++ ws).length < MAXARGS ∧
      p = (argv ++ ws, rs ++ new)) ts (parseargs line n argv rs s) := by
  induction n generalizing s ts argv rs with
  | zero => omega
  | succ n ih =>
    have hnone : ∃ ws new, Words [] ws new ∧ (argv ++ ws).length < MAXARGS ∧
        (argv, rs) = (argv ++ ws, rs ++ new) :=
      ⟨[], [], .nil, by rwa [append_nil], by rw [append_nil, append_nil]⟩
    obtain ⟨s₁, hp, h₁⟩ := h.peek_eq h0 [charBar, charRpar, charAmp, charSemi] (by decide)
    rw [parseargs, hp]
    dsimp only
    split_ifs with hstop hend htok hmax
    · exact .nothing h₁ hnone
    · have hnil : ts = [] := by
        rcases ts with _ | ⟨t, ts⟩
        · rfl
        · rw [(h₁.gettoken_cons h0).1] at hend
          exact absurd hend t.code_ne_zero
      subst hnil
      exact .nothing (h₁.gettoken h0).2.1 hnone
    · nofun
    · nofun
    · obtain ⟨w, ts', rfl⟩ := h₁.word_of_tok h0 (not_not.mp htok)
      obtain ⟨-, hw, h₂⟩ := h₁.gettoken_word h0
      rw [hw] at hmax ⊢
      simp only [length_cons] at hn
      refine Takes.after [.word w] ((takes_parseredirs h0 h₂ (by omega)).bind ?_)
      rintro _ s₃ us rest rfl ⟨new, hnew, rfl⟩ h₃
      simp only [length_append] at hn
      refine (ih h₃ (by omega) (by omega)).mono ?_
      rintro used _ ⟨ws, new', hws, hlen, rfl⟩
      refine ⟨w :: ws, new ++ new', ?_, ?_, ?_⟩
      · change Words (.word w :: (us ++ used)) _ _
        exact .cons hnew hws
      · rwa [append_cons]
      · rw [append_assoc argv, append_assoc rs]
        rfl

theorem takes_parsebacks {c : Cmd} (h : Reads line s ts) (hn : ts.length < n) :
    Takes line (fun used d => ∃ k, used = List.replicate k .amp ∧ d = Cmd.back^[k] c) ts
      (parsebacks line n c s) := by
  induction n generalizing s ts c with
  | zero => omega
  | succ n ih =>
    obtain ⟨s₁, hp, h₁⟩ := h.peek_one h0 .amp (by decide)
    rw [parsebacks, show [charAmp] = [Token.amp.char] from rfl, hp]
    dsimp only
    split_ifs with hmore
    · obtain ⟨ts, rfl⟩ := head?_eq_some_iff.mp (of_decide_eq_true hmore)
      simp only [length_cons] at hn
      refine Takes.after [.amp] ((ih (h₁.gettoken_cons h0).2 (by omega)).mono ?_)
      rintro _ _ ⟨k, rfl, rfl⟩
      exact ⟨k + 1, rfl, (Function.iterate_succ_apply Cmd.back k c).symm⟩
    · exact .nothing h₁ ⟨0, rfl, rfl⟩

end

def NonTerm.parse : NonTerm → List Byte → ℕ → ℕ → Except Panic (Cmd × ℕ)
  | .line => parseline
  | .pipe => parsepipe
  | .exec => parseexec

/-- The depth of the calls of a routine with `r` tokens in front of it. -/
def NonTerm.depth (r : ℕ) : NonTerm → ℕ
  | .line => 4 * r + 4
  | .pipe => 4 * r + 3
  | .exec => 4 * r + 2

def Sound (line : List Byte) (n : ℕ) : Prop :=
  ∀ (k : NonTerm) (s : ℕ) (ts : List Token), Reads line s ts → k.depth ts.length ≤ n →
    Takes line (Derives k) ts (k.parse line n s)

section
variable (h0 : 0 ∉ line)
include h0

theorem Sound.parseline (ih : Sound line n) (h : Reads line s ts) (hn : 4 * ts.length + 4 ≤ n + 1) :
    Takes line (Derives .line) ts (parseline line (n + 1) s) := by
  rw [Shell.parseline]
  refine (ih .pipe s ts h (by simp only [NonTerm.depth]; omega)).bind ?_
  rintro c s₁ used₁ rest₁ rfl hc h₁
  simp only [length_append] at hn
  refine (takes_parsebacks h0 h₁ (by omega)).bind ?_
  rintro _ s₂ _ rest₂ rfl ⟨k, rfl, rfl⟩ h₂
  obtain ⟨s₃, hp, h₃⟩ := h₂.peek_one h0 .semi (by decide)
  dsimp only
  rw [show [charSemi] = [Token.semi.char] from rfl, hp]
  dsimp only
  split_ifs with hmore
  · obtain ⟨rest, rfl⟩ := head?_eq_some_iff.mp (of_decide_eq_true hmore)
    simp only [length_append, length_cons] at hn
    refine Takes.after [.semi] ((ih .line _ rest (h₃.gettoken_cons h0).2
      (by simp only [NonTerm.depth]; omega)).bind ?_)
    rintro d s₄ used₄ rest₄ rfl hd h₄
    refine .nothing h₄ ?_
    rw [append_nil]
    exact .list k hc hd
  · refine .nothing h₃ ?_
    rw [append_nil]
    exact .last k hc

theorem Sound.parsepipe (ih : Sound line n) (h : Reads line s ts) (hn : 4 * ts.length + 3 ≤ n + 1) :
    Takes line (Derives .pipe) ts (parsepipe line (n + 1) s) := by
  rw [Shell.parsepipe]
  refine (ih .exec s ts h (by simp only [NonTerm.depth]; omega)).bind ?_
  rintro c s₁ used₁ rest₁ rfl hc h₁
  obtain ⟨s₂, hp, h₂⟩ := h₁.peek_one h0 .bar (by decide)
  dsimp only
  rw [show [charBar] = [Token.bar.char] from rfl, hp]
  dsimp only
  split_ifs with hmore
  · obtain ⟨rest, rfl⟩ := head?_eq_some_iff.mp (of_decide_eq_true hmore)
    simp only [length_append, length_cons] at hn
    refine Takes.after [.bar] ((ih .pipe _ rest (h₂.gettoken_cons h0).2
      (by simp only [NonTerm.depth]; omega)).bind ?_)
    rintro d s₃ used₃ rest₃ rfl hd h₃
    refine .nothing h₃ ?_
    rw [append_nil]
    exact .pipe hc hd
  · refine .nothing h₂ ?_
    rw [append_nil]
    exact .single hc

theorem Sound.parseblock (ih : Sound line n) (h : Reads line s (.lpar :: ts))
    (hn : 4 * ts.length + 4 ≤ n) :
    Takes line (Derives .exec) (.lpar :: ts) (parseblock line (n + 1) s) := by
  obtain ⟨s₁, hp, h₁⟩ := h.peek_one h0 .lpar (by decide)
  rw [Shell.parseblock, show [charLpar] = [Token.lpar.char] from rfl, hp]
  dsimp only
  rw [if_pos (by rfl)]
  refine Takes.after [.lpar] ((ih .line _ ts (h₁.gettoken_cons h0).2 hn).bind ?_)
  rintro c s₂ used₂ rest₂ rfl hc h₂
  obtain ⟨s₃, hp', h₃⟩ := h₂.peek_one h0 .rpar (by decide)
  dsimp only
  rw [show [charRpar] = [Token.rpar.char] from rfl, hp']
  dsimp only
  split_ifs with hclose
  · obtain ⟨rest, rfl⟩ := head?_eq_some_iff.mp (of_decide_eq_true hclose)
    simp only [length_append, length_cons] at hn
    refine Takes.after [.rpar]
      ((takes_parseredirs h0 (h₃.gettoken_cons h0).2 (by omega)).bind ?_)
    rintro _ s₄ used₄ rest₄ rfl ⟨rs, hrs, rfl⟩ h₄
    refine .nothing h₄ ?_
    rw [append_nil]
    exact .block hc hrs
  · rintro ⟨⟩

theorem Sound.parseexec (ih : ∀ m ≤ n, Sound line m) (h : Reads line s ts)
    (hn : 4 * ts.length + 2 ≤ n + 1) : Takes line (Derives .exec) ts (parseexec line (n + 1) s) := by
  obtain ⟨s₁, hp, h₁⟩ := h.peek_one h0 .lpar (by decide)
  rw [Shell.parseexec, show [charLpar] = [Token.lpar.char] from rfl, hp]
  dsimp only
  split_ifs with hopen
  · obtain ⟨rest, rfl⟩ := head?_eq_some_iff.mp (of_decide_eq_true hopen)
    simp only [length_cons] at hn
    obtain ⟨m, rfl⟩ : ∃ m, n = m + 1 := ⟨n - 1, by omega⟩
    exact Sound.parseblock h0 (ih m (Nat.le_succ m)) h₁ (by omega)
  · refine (takes_parseredirs h0 h₁ (by omega)).bind ?_
    rintro _ s₂ used₂ rest₂ rfl ⟨rs, hrs, rfl⟩ h₂
    simp only [length_append] at hn
    refine (takes_parseargs h0 h₂ (by omega) (by decide)).bind ?_
    rintro _ s₃ used₃ rest₃ rfl ⟨ws, rs', hws, hlen, rfl⟩ h₃
    refine .nothing h₃ ?_
    rw [append_nil]
    exact .simple hrs hws hlen

theorem sound (n : ℕ) : Sound line n := by
  induction n using Nat.strong_induction_on with
  | _ n ih =>
    intro k s ts h hn
    obtain ⟨m, rfl⟩ : ∃ m, n = m + 1 :=
      ⟨n - 1, by cases k <;> simp only [NonTerm.depth] at hn <;> omega⟩
    cases k with
    | line => exact Sound.parseline h0 (ih m (Nat.lt_succ_self m)) h hn
    | pipe => exact Sound.parsepipe h0 (ih m (Nat.lt_succ_self m)) h hn
    | exec => exact Sound.parseexec h0 (fun j hj => ih j (Nat.lt_succ_of_le hj)) h hn

end

def Gives (line : List Byte) (a : α) (rest : List Token) (r : Except Panic (α × ℕ)) : Prop :=
  ∃ s, r = .ok (a, s) ∧ Reads line s rest

theorem Gives.bind {a : α} {b : β} {rest rest' : List Token}
    (h : Gives line a rest x)
    (hf : ∀ s, Reads line s rest → Gives line b rest' (f (a, s))) : Gives line b rest' (x >>= f) := by
  obtain ⟨s, rfl, hs⟩ := h
  exact hf s hs

/-- The tokens that may stand behind a nonterminal. -/
def NonTerm.follow : NonTerm → List Token
  | .line => [.rpar]
  | .pipe => [.rpar, .amp, .semi]
  | .exec => [.rpar, .amp, .semi, .bar]

def NonTerm.Ends (k : NonTerm) (rest : List Token) : Prop := ∀ t ∈ rest.head?, t ∈ k.follow

namespace NonTerm.Ends
variable {k : NonTerm} {rest : List Token} {t : Token}

theorem nil : k.Ends [] := nofun

theorem cons (ht : t ∈ k.follow) : k.Ends (t :: rest) := by
  rintro _ ⟨⟩
  exact ht

theorem mono {k' : NonTerm} (h : k.Ends rest) (hk : k.follow ⊆ k'.follow) : k'.Ends rest :=
  fun t ht => hk (h t ht)

theorem head_ne (h : k.Ends rest) (ht : t ∉ k.follow) : rest.head? ≠ some t :=
  fun hhead => ht (h t hhead)

theorem amps (h : NonTerm.pipe.Ends rest) (n : ℕ) :
    NonTerm.pipe.Ends (List.replicate n .amp ++ rest) := by
  cases n with
  | zero => exact h
  | succ n => exact cons (by decide)

theorem redirect (h : NonTerm.exec.Ends rest) : ∀ t ∈ rest.head?, t.redirect = none := by
  intro t ht
  have hmem := h t ht
  simp only [follow, mem_cons, not_mem_nil, or_false] at hmem
  rcases hmem with rfl | rfl | rfl | rfl <;> rfl

end NonTerm.Ends

section
variable (h0 : 0 ∉ line) {rest used : List Token}
include h0

theorem gives_parseredirs {rs new : List Redir} (hd : Redirs used new)
    (hrest : ∀ t ∈ rest.head?, t.redirect = none) (h : Reads line s (used ++ rest))
    (hn : (used ++ rest).length < n) : Gives line (rs ++ new) rest (parseredirs line n rs s) := by
  induction hd generalizing n s rs with
  | nil =>
    obtain ⟨m, rfl⟩ : ∃ m, n = m + 1 := ⟨n - 1, by omega⟩
    obtain ⟨s₁, hp, h₁⟩ := h.peek_eq h0 [charLt, charGt] (by decide)
    rw [nil_append] at hp h₁
    have hstop : rest.head?.any (fun t => strchr [charLt, charGt] t.char) = false := by
      simp only [strchr_redirect]
      cases hr : rest.head? with
      | none => rfl
      | some t => rw [any_some, hrest t hr]; rfl
    rw [parseredirs, hp, hstop, append_nil]
    exact ⟨s₁, rfl, h₁⟩
  | @cons op w mode fd ts new hop _ ih =>
    obtain ⟨m, rfl⟩ : ∃ m, n = m + 1 := ⟨n - 1, by omega⟩
    obtain ⟨s₁, hp, h₁⟩ := h.peek_eq h0 [charLt, charGt] (by decide)
    simp only [cons_append] at hp h₁ hn
    rw [head?_cons, any_some, strchr_redirect, hop] at hp
    obtain ⟨hcode, h₂⟩ := h₁.gettoken_cons h0
    obtain ⟨htok, hw, h₃⟩ := h₂.gettoken_word h0
    simp only [length_cons] at hn
    rw [parseredirs, hp]
    dsimp only
    rw [isSome_some, if_pos rfl, if_neg (not_not.mpr htok), hcode, hw, redirOf_code hop,
      append_cons]
    exact ih h₃ (by omega)

theorem gives_parseargs {argv ws : List Span} {rs new : List Redir} (hd : Words used ws new)
    (hrest : NonTerm.exec.Ends rest) (h : Reads line s (used ++ rest))
    (hn : (used ++ rest).length < n) (hlen : (argv ++ ws).length < MAXARGS) :
    Gives line (argv ++ ws, rs ++ new) rest (parseargs line n argv rs s) := by
  induction hd generalizing n s argv rs with
  | nil =>
    obtain ⟨m, rfl⟩ : ∃ m, n = m + 1 := ⟨n - 1, by omega⟩
    obtain ⟨s₁, hp, h₁⟩ := h.peek_eq h0 [charBar, charRpar, charAmp, charSemi] (by decide)
    rw [nil_append] at hp h₁
    rw [parseargs, hp, append_nil, append_nil]
    dsimp only
    cases rest with
    | nil =>
      obtain ⟨htok, h₂, -⟩ := h₁.gettoken h0
      change (gettoken line s₁).tok = 0 at htok
      rw [if_neg (by decide), if_pos htok]
      exact ⟨_, rfl, h₂⟩
    | cons t rest =>
      have hstop : strchr [charBar, charRpar, charAmp, charSemi] t.char = true := by
        have ht := hrest t rfl
        simp only [NonTerm.follow, mem_cons, not_mem_nil, or_false] at ht
        rcases ht with rfl | rfl | rfl | rfl <;> decide
      rw [head?_cons, any_some, if_pos hstop]
      exact ⟨s₁, rfl, h₁⟩
  | @cons w us ts rs₁ rs₂ ws hredirs hwords ih =>
    obtain ⟨m, rfl⟩ : ∃ m, n = m + 1 := ⟨n - 1, by omega⟩
    obtain ⟨s₁, hp, h₁⟩ := h.peek_eq h0 [charBar, charRpar, charAmp, charSemi] (by decide)
    simp only [cons_append, append_assoc] at hp h₁ hn
    simp only [length_cons] at hn
    obtain ⟨htok, hw, h₂⟩ := h₁.gettoken_word h0
    have hnext : ∀ t ∈ (ts ++ rest).head?, t.redirect = none := by
      intro t ht
      cases hwords with
      | nil => exact hrest.redirect t ht
      | cons _ _ => cases ht; rfl
    have hlen' : (argv ++ [w]).length < MAXARGS := by
      simp only [length_append, length_cons, length_nil] at hlen ⊢
      omega
    rw [parseargs, hp]
    dsimp only
    rw [if_neg (by exact Bool.false_ne_true), if_neg (by rw [htok]; decide),
      if_neg (not_not.mpr htok), hw, if_neg (Nat.not_le.mpr hlen'), append_cons,
      ← append_assoc]
    refine (gives_parseredirs h0 hredirs hnext h₂ (by omega)).bind fun s₃ h₃ => ?_
    simp only [length_append] at hn
    exact ih h₃ (by rw [length_append]; omega) (by rwa [← append_cons])

theorem gives_parsebacks {c : Cmd} (k : ℕ) (hrest : rest.head? ≠ some .amp)
    (h : Reads line s (List.replicate k .amp ++ rest)) (hn : k + rest.length < n) :
    Gives line (Cmd.back^[k] c) rest (parsebacks line n c s) := by
  induction k generalizing n s c with
  | zero =>
    obtain ⟨m, rfl⟩ : ∃ m, n = m + 1 := ⟨n - 1, by omega⟩
    obtain ⟨s₁, hp, h₁⟩ := h.peek_one h0 .amp (by decide)
    rw [replicate_zero, nil_append] at hp h₁
    rw [parsebacks, show [charAmp] = [Token.amp.char] from rfl, hp, decide_eq_false hrest]
    exact ⟨s₁, rfl, h₁⟩
  | succ k ih =>
    obtain ⟨m, rfl⟩ : ∃ m, n = m + 1 := ⟨n - 1, by omega⟩
    obtain ⟨s₁, hp, h₁⟩ := h.peek_one h0 .amp (by decide)
    rw [parsebacks, show [charAmp] = [Token.amp.char] from rfl, hp, Function.iterate_succ_apply]
    exact ih (h₁.gettoken_cons h0).2 (by omega)

theorem gives_parse {k : NonTerm} {c : Cmd} (hd : Derives k used c) (hrest : k.Ends rest)
    (h : Reads line s (used ++ rest)) (hn : k.depth (used ++ rest).length ≤ n) :
    Gives line c rest (k.parse line n s) := by
  induction hd generalizing n s rest with
  | @last ts c k _ ih =>
    obtain ⟨m, rfl⟩ : ∃ m, n = m + 1 := ⟨n - 1, by simp only [NonTerm.depth] at hn; omega⟩
    rw [append_assoc] at h hn
    simp only [NonTerm.depth] at hn ih
    change Gives line _ rest (parseline line (m + 1) s)
    rw [parseline]
    refine (ih ((hrest.mono (by decide)).amps k) h (by omega)).bind fun s₁ h₁ => ?_
    simp only [length_append, length_replicate] at hn
    refine (gives_parsebacks h0 k (hrest.head_ne (by decide)) h₁ (by omega)).bind fun s₂ h₂ => ?_
    obtain ⟨s₃, hp, h₃⟩ := h₂.peek_one h0 .semi (by decide)
    dsimp only
    rw [show [charSemi] = [Token.semi.char] from rfl, hp,
      decide_eq_false (hrest.head_ne (by decide))]
    exact ⟨s₃, rfl, h₃⟩
  | @list ts us c d k _ _ ihc ihd =>
    obtain ⟨m, rfl⟩ : ∃ m, n = m + 1 := ⟨n - 1, by simp only [NonTerm.depth] at hn; omega⟩
    rw [append_assoc, append_assoc, cons_append] at h hn
    simp only [NonTerm.depth] at hn ihc ihd
    change Gives line _ rest (parseline line (m + 1) s)
    rw [parseline]
    refine (ihc (.amps (.cons (by decide)) k) h (by omega)).bind fun s₁ h₁ => ?_
    simp only [length_append, length_replicate, length_cons] at hn
    refine (gives_parsebacks h0 k (by rintro ⟨⟩) h₁
      (by simp only [length_cons, length_append]; omega)).bind fun s₂ h₂ => ?_
    obtain ⟨s₃, hp, h₃⟩ := h₂.peek_one h0 .semi (by decide)
    dsimp only
    rw [show [charSemi] = [Token.semi.char] from rfl, hp]
    refine (ihd hrest (h₃.gettoken_cons h0).2
      (by rw [length_append]; omega)).bind fun s₄ h₄ => ?_
    exact ⟨s₄, rfl, h₄⟩
  | @single ts c _ ih =>
    obtain ⟨m, rfl⟩ : ∃ m, n = m + 1 := ⟨n - 1, by simp only [NonTerm.depth] at hn; omega⟩
    simp only [NonTerm.depth] at hn ih
    change Gives line _ rest (parsepipe line (m + 1) s)
    rw [parsepipe]
    refine (ih (hrest.mono (by decide)) h (by omega)).bind fun s₁ h₁ => ?_
    obtain ⟨s₂, hp, h₂⟩ := h₁.peek_one h0 .bar (by decide)
    dsimp only
    rw [show [charBar] = [Token.bar.char] from rfl, hp,
      decide_eq_false (hrest.head_ne (by decide))]
    exact ⟨s₂, rfl, h₂⟩
  | @pipe ts us c d _ _ ihc ihd =>
    obtain ⟨m, rfl⟩ : ∃ m, n = m + 1 := ⟨n - 1, by simp only [NonTerm.depth] at hn; omega⟩
    rw [append_assoc, cons_append] at h hn
    simp only [NonTerm.depth] at hn ihc ihd
    change Gives line _ rest (parsepipe line (m + 1) s)
    rw [parsepipe]
    refine (ihc (.cons (by decide)) h (by omega)).bind fun s₁ h₁ => ?_
    simp only [length_append, length_cons] at hn
    obtain ⟨s₂, hp, h₂⟩ := h₁.peek_one h0 .bar (by decide)
    dsimp only
    rw [show [charBar] = [Token.bar.char] from rfl, hp]
    refine (ihd hrest (h₂.gettoken_cons h0).2
      (by rw [length_append]; omega)).bind fun s₃ h₃ => ?_
    exact ⟨s₃, rfl, h₃⟩
  | @block ts us c rs _ hrs ih =>
    obtain ⟨m, rfl⟩ : ∃ m, n = m + 2 := ⟨n - 2, by simp only [NonTerm.depth] at hn; omega⟩
    simp only [cons_append, append_assoc] at h hn
    simp only [NonTerm.depth, length_cons] at hn ih
    obtain ⟨s₁, hp, h₁⟩ := h.peek_one h0 .lpar (by decide)
    obtain ⟨s₂, hp', h₂⟩ := h₁.peek_one h0 .lpar (by decide)
    change Gives line _ rest (parseexec line (m + 1 + 1) s)
    rw [parseexec, show [charLpar] = [Token.lpar.char] from rfl, hp]
    change Gives line _ rest (parseblock line (m + 1) s₁)
    rw [parseblock, show [charLpar] = [Token.lpar.char] from rfl, hp']
    refine (ih (.cons (by decide)) (h₂.gettoken_cons h0).2 (by omega)).bind fun s₃ h₃ => ?_
    obtain ⟨s₄, hp'', h₄⟩ := h₃.peek_one h0 .rpar (by decide)
    simp only [length_append, length_cons] at hn
    dsimp only
    rw [show [charRpar] = [Token.rpar.char] from rfl, hp'']
    refine (gives_parseredirs h0 hrs hrest.redirect (h₄.gettoken_cons h0).2
      (by rw [length_append]; omega)).bind fun s₅ h₅ => ?_
    exact ⟨s₅, rfl, h₅⟩
  | @simple ts us ws rs rs' hrs hws hlen =>
    obtain ⟨m, rfl⟩ : ∃ m, n = m + 1 := ⟨n - 1, by simp only [NonTerm.depth] at hn; omega⟩
    rw [append_assoc] at h hn
    simp only [NonTerm.depth] at hn
    have hnext : ∀ t ∈ (us ++ rest).head?, t ≠ .lpar ∧ t.redirect = none := by
      intro t ht
      cases hws with
      | nil => exact ⟨fun hl => hrest.head_ne (by decide) (hl ▸ ht), hrest.redirect t ht⟩
      | cons _ _ => cases ht; exact ⟨by rintro ⟨⟩, rfl⟩
    have hopen : (ts ++ (us ++ rest)).head? ≠ some .lpar := by
      cases hrs with
      | nil => exact fun ht => (hnext _ ht).1 rfl
      | cons hop _ => rintro ⟨⟩; cases hop
    obtain ⟨s₁, hp, h₁⟩ := h.peek_one h0 .lpar (by decide)
    change Gives line _ rest (parseexec line (m + 1) s)
    rw [parseexec, show [charLpar] = [Token.lpar.char] from rfl, hp, decide_eq_false hopen]
    refine (gives_parseredirs h0 hrs (fun t ht => (hnext t ht).2) h₁ (by omega)).bind
      fun s₂ h₂ => ?_
    rw [length_append] at hn
    have hargv : ([] ++ ws).length < MAXARGS := hlen
    refine (gives_parseargs h0 hws hrest h₂ (by omega) hargv).bind fun s₃ h₃ => ?_
    exact ⟨s₃, rfl, h₃⟩

end

end Xv6.Shell
