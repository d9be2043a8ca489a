import Mathlib.Data.List.TakeWhile
import Xv6.User.ShellParse

/-! The strings of a command. `nulterminate` writes into the line that all words share; it writes
behind words only, so it never cuts another word. -/
namespace Xv6.Shell
open Bytes List

variable {line : List Byte} {s : ℕ} {ts : List Token} {w : Span}

def Cmd.words : Cmd → List Span
  | .exec argv => argv
  | .redir cmd r => cmd.words ++ [r.file]
  | .pipe left right => left.words ++ right.words
  | .list left right => left.words ++ right.words
  | .back cmd => cmd.words

def Span.text (line : List Byte) (w : Span) : List Byte := (line.take w.eq).drop w.q

theorem words_wrap (rs : List Redir) (c : Cmd) : (wrap rs c).words = c.words ++ rs.map Redir.file := by
  induction rs generalizing c with
  | nil => exact (append_nil _).symm
  | cons r rs ih =>
    rw [wrap, foldl_cons, ← wrap, ih, Cmd.words, append_assoc, map_cons]
    rfl

theorem words_backs (k : ℕ) (c : Cmd) : (Cmd.back^[k] c).words = c.words := by
  induction k generalizing c with
  | zero => rfl
  | succ k ih => rw [Function.iterate_succ_apply, ih, Cmd.words]

theorem Redirs.mem {rs : List Redir} (h : Redirs ts rs) (hw : w ∈ rs.map Redir.file) :
    .word w ∈ ts := by
  induction h with
  | nil => cases hw
  | cons _ _ ih =>
    rcases mem_cons.mp hw with rfl | hw
    · exact mem_cons_of_mem _ mem_cons_self
    · exact mem_cons_of_mem _ (mem_cons_of_mem _ (ih hw))

theorem Words.mem {ws : List Span} {rs : List Redir} (h : Words ts ws rs)
    (hw : w ∈ ws ++ rs.map Redir.file) : .word w ∈ ts := by
  induction h with
  | nil => cases hw
  | cons hrs _ ih =>
    simp only [map_append, mem_append, mem_cons, Token.word.injEq] at hw ih ⊢
    rcases hw with (rfl | hw) | (hw | hw)
    · exact .inl rfl
    · exact .inr (.inr (ih (.inl hw)))
    · exact .inr (.inl (hrs.mem hw))
    · exact .inr (.inr (ih (.inr hw)))

theorem Derives.mem {k : NonTerm} {c : Cmd} (h : Derives k ts c) (hw : w ∈ c.words) :
    .word w ∈ ts := by
  induction h with
  | last k _ ih =>
    rw [words_backs] at hw
    exact mem_append_left _ (ih hw)
  | list k _ _ ihc ihd =>
    rw [Cmd.words, words_backs, mem_append] at hw
    rcases hw with hw | hw
    · exact mem_append_left _ (ihc hw)
    · exact mem_append_right _ (mem_append_right _ (mem_cons_of_mem _ (ihd hw)))
  | single _ ih => exact ih hw
  | pipe _ _ ihc ihd =>
    rw [Cmd.words, mem_append] at hw
    rcases hw with hw | hw
    · exact mem_append_left _ (ihc hw)
    · exact mem_append_right _ (mem_cons_of_mem _ (ihd hw))
  | block _ hrs ih =>
    rw [words_wrap, mem_append] at hw
    refine mem_cons_of_mem _ (mem_append.mpr ?_)
    rcases hw with hw | hw
    · exact .inl (ih hw)
    · exact .inr (mem_cons_of_mem _ (hrs.mem hw))
  | simple hrs hws _ =>
    rw [words_wrap, Cmd.words, map_append, mem_append, mem_append] at hw
    refine mem_append.mpr ?_
    rcases hw with hw | hw | hw
    · exact .inr (hws.mem (mem_append_left _ hw))
    · exact .inl (hrs.mem hw)
    · exact .inr (hws.mem (mem_append_right _ hw))

structure IsWord (line : List Byte) (w : Span) : Prop where
  lt : w.q < w.eq
  le : w.eq ≤ line.length
  byte : ∀ i, w.q ≤ i → i < w.eq → wordByte (charAt line i) = true
  stop : w.eq < line.length → wordByte (charAt line w.eq) = false

theorem charAt_of_lt {i : ℕ} (h : i < line.length) : line.drop i = charAt line i :: line.drop (i + 1) := by
  rw [drop_eq_getElem_cons h, charAt, getD_eq_getElem _ _ h]

theorem isWord_scan {q : ℕ} (hq : q < line.length) (hb : wordByte (charAt line q) = true) :
    IsWord line ⟨q, scan wordByte line (line.length - q) q⟩ := by
  have hmem : ∀ i, q ≤ i → i < scan wordByte line (line.length - q) q →
      wordByte (charAt line i) = true := by
    intro i hi hlt
    rw [scan_eq _ rfl] at hlt
    have hpre := takeWhile_prefix (l := line.drop q) wordByte
    have hi' : i - q < ((line.drop q).takeWhile wordByte).length := by omega
    have hbyte := mem_takeWhile_imp (getElem_mem hi')
    have hlen := hpre.length_le
    rw [length_drop] at hlen
    rw [hpre.getElem, getElem_drop] at hbyte
    rw [charAt, getD_eq_getElem _ _ (by omega)]
    simpa only [Nat.add_sub_cancel' hi] using hbyte
  refine ⟨?_, scan_le _ rfl hq.le, hmem, ?_⟩
  · rw [scan_eq _ rfl, charAt_of_lt hq, takeWhile_cons, if_pos hb, length_cons]
    exact Nat.lt_add_of_pos_right (Nat.succ_pos _)
  · intro hlt
    have hdrop := @drop_scan line q _ wordByte rfl
    have hne : (line.drop q).dropWhile wordByte ≠ [] := by
      rw [← hdrop]
      intro h
      have := drop_eq_nil_iff.mp h
      exact absurd hlt (Nat.not_lt.mpr this)
    have hhead := head_dropWhile_not wordByte hne
    simp only [← hdrop, charAt_of_lt hlt, head_cons] at hhead
    exact hhead

theorem Starts.progress {q e : ℕ} {b : Byte} {t : Token} (h : Starts line q b t e)
    (hq : q < line.length) (hb : charAt line q = b) : q < e ∧ ∀ w, t = .word w → IsWord line w := by
  cases h with
  | symbol hs => exact ⟨Nat.lt_succ_self q, fun w hw => absurd hw ((symbolToken_eq hs).2.2.2 w)⟩
  | append _ _ => exact ⟨by omega, nofun⟩
  | gt _ _ => exact ⟨by omega, nofun⟩
  | word _ _ hword =>
    have hspan := isWord_scan hq (hb.symm ▸ hword)
    exact ⟨hspan.lt, fun w hw => Token.word.inj hw ▸ hspan⟩

theorem Reads.isWord (h0 : 0 ∉ line) (h : Reads line s ts) (hw : .word w ∈ ts) : IsWord line w := by
  induction ts generalizing s with
  | nil => cases hw
  | cons t ts ih =>
    rcases h.next h0 with ⟨hnil, -⟩ | ⟨b, rest, t', e, ts', hd, -, hts, hstart, hreads⟩
    · cases hnil
    · cases hts
      rcases mem_cons.mp hw with hw | hw
      · exact (hstart.progress (lt_of_drop_cons hd) (charAt_eq hd)).2 w hw.symm
      · exact ih hreads hw

theorem IsWord.apart {w w' : Span} (h : IsWord line w) (h' : IsWord line w') (hq : w'.q ≤ w.eq) :
    w'.eq ≤ w.eq := by
  by_contra hlt
  have hbyte := h'.byte w.eq hq (by omega)
  rw [h.stop (by have := h'.le; omega)] at hbyte
  cases hbyte

theorem nulterminate_eq (c : Cmd) (m : List Byte) :
    nulterminate c m = c.words.foldl (fun m w => m.set w.eq 0) m := by
  induction c generalizing m with
  | exec argv => rfl
  | redir c r ih => rw [nulterminate, ih, Cmd.words, foldl_append]; rfl
  | pipe c d ihc ihd => rw [nulterminate, ihd, ihc, Cmd.words, foldl_append]
  | list c d ihc ihd => rw [nulterminate, ihd, ihc, Cmd.words, foldl_append]
  | back c ih => rw [nulterminate, ih, Cmd.words]

theorem length_foldl_set (ws : List Span) (m : List Byte) :
    (ws.foldl (fun m w => m.set w.eq 0) m).length = m.length := by
  induction ws generalizing m with
  | nil => rfl
  | cons w ws ih => rw [foldl_cons, ih, length_set]

theorem charAt_foldl_set (ws : List Span) (m : List Byte) (i : ℕ) :
    charAt (ws.foldl (fun m w => m.set w.eq 0) m) i =
      if ∃ w ∈ ws, w.eq = i then 0 else charAt m i := by
  induction ws generalizing m with
  | nil => simp
  | cons w ws ih =>
    have hset : charAt (m.set w.eq 0) i = if w.eq = i then 0 else charAt m i := by
      simp only [charAt, getD_eq_getElem?_getD, getElem?_set]
      split_ifs with hi hlt
      · rfl
      · rfl
      · rfl
    rw [foldl_cons, ih, hset]
    simp only [mem_cons, exists_eq_or_imp]
    by_cases hw : w.eq = i <;> by_cases hws : ∃ w ∈ ws, w.eq = i <;> simp only [hw, hws, if_true,
      if_false, true_or, or_true, or_self]

theorem cstring_eq {m : List Byte} {q e : ℕ} (hqe : q ≤ e) (he : e < m.length)
    (hbyte : ∀ i, q ≤ i → i < e → charAt m i ≠ 0) (hend : charAt m e = 0) :
    cstring m q = (m.take e).drop q := by
  have hsplit : m.drop q = (m.take e).drop q ++ m.drop e := by
    have hcut := take_append_drop (e - q) (m.drop q)
    rw [drop_drop, Nat.add_sub_cancel' hqe] at hcut
    rw [drop_take, hcut]
  have htext : ∀ b ∈ (m.take e).drop q, b ≠ 0 := by
    intro b hb
    obtain ⟨i, hi, rfl⟩ := getElem_of_mem hb
    simp only [length_drop, length_take] at hi
    have := hbyte (q + i) (by omega) (by omega)
    rw [charAt, getD_eq_getElem _ _ (by omega)] at this
    rwa [getElem_drop, getElem_take]
  rw [cstring, hsplit, takeWhile_append_of_pos (by simpa using htext), charAt_of_lt he, hend,
    takeWhile_cons, if_neg (by decide), append_nil]

theorem cstring_nulterminate {ws : List Span} (h0 : 0 ∉ line) (hws : ∀ w ∈ ws, IsWord line w)
    (hw : w ∈ ws) :
    cstring (ws.foldl (fun m w => m.set w.eq 0) (line ++ [0])) w.q = w.text line := by
  have hword := hws w hw
  have hlt := hword.lt
  have hle := hword.le
  have hat : ∀ i, w.q ≤ i → i < w.eq →
      charAt (ws.foldl (fun m w => m.set w.eq 0) (line ++ [0])) i = charAt line i := by
    intro i hi hlt
    rw [charAt_foldl_set, if_neg, charAt, getD_append _ _ _ _ (by omega), ← charAt]
    rintro ⟨w', hw', rfl⟩
    have := (hws w' hw').apart hword hi
    omega
  have hne : ∀ i, i < line.length → charAt line i ≠ 0 := by
    intro i hi hzero
    rw [charAt, getD_eq_getElem _ _ hi] at hzero
    exact h0 (hzero ▸ getElem_mem hi)
  have hlen := length_foldl_set ws (line ++ [0])
  rw [length_append, length_singleton] at hlen
  rw [cstring_eq hlt.le (by omega)
    (fun i hi hi' => by rw [hat i hi hi']; exact hne i (by omega))
    (by rw [charAt_foldl_set, if_pos ⟨w, hw, rfl⟩]), Span.text]
  refine ext_getElem ?_ ?_
  · simp only [length_drop, length_take]
    omega
  · intro i hi _
    simp only [length_drop, length_take] at hi
    have := hat (w.q + i) (by omega) (by omega)
    rw [charAt, charAt, getD_eq_getElem _ _ (by omega), getD_eq_getElem _ _ (by omega)]
      at this
    rw [getElem_drop, getElem_drop, getElem_take, getElem_take, this]

theorem takes_parseline (h0 : 0 ∉ line) :
    Takes line (Derives .line) (lex 0 line) (parseline line (4 * line.length + 4) 0) := by
  have := lex_length_le line 0
  exact sound h0 _ .line 0 _ ⟨Nat.zero_le _, rfl⟩ (by simp only [NonTerm.depth]; omega)

theorem Reads.peek_end (h0 : 0 ∉ line) (h : Reads line s ts) :
    (Shell.peek line s []).2 = line.length ↔ ts = [] := by
  change Shell.skip line s = line.length ↔ ts = []
  rcases h.next h0 with ⟨rfl, hend⟩ | ⟨b, rest, t, e, ts', hd, -, rfl, -, -⟩
  · simp [hend]
  · have := lt_of_drop_cons hd
    simp only [reduceCtorEq, iff_false]
    omega

theorem parsecmd_error {e : Panic} (h : parseline line (4 * line.length + 4) 0 = .error e) :
    parsecmd line = .error e := by
  rw [parsecmd, h]
  rfl

theorem parsecmd_ok {c : Cmd} (h : parseline line (4 * line.length + 4) 0 = .ok (c, s)) :
    parsecmd line = if (peek line s []).2 = line.length then .ok (c, nulterminate c (line ++ [0]))
      else .error .syntaxError := by
  rw [parsecmd, h]
  change (if (peek line s []).2 ≠ line.length then _ else _) = _
  split_ifs <;> first | rfl | contradiction

/-- The parser comes to an end on every line; it accepts exactly the lines that the grammar derives,
with the command of the derivation, and the strings of the command are the texts of its tokens. -/
theorem parsecmd_derives (line : List Byte) (h0 : 0 ∉ line) :
    parsecmd line ≠ .error .outOfFuel ∧
      (∀ c, Derives .line (lex 0 line) c ↔ ∃ m, parsecmd line = .ok (c, m)) ∧
      ∀ c m, parsecmd line = .ok (c, m) →
        ∀ w ∈ c.words, .word w ∈ lex 0 line ∧ cstring m w.q = w.text line := by
  have hreads : Reads line 0 (lex 0 line) := ⟨Nat.zero_le _, rfl⟩
  have hlen := lex_length_le line 0
  have htakes := takes_parseline h0
  have hcomplete : ∀ c, Derives .line (lex 0 line) c →
      Gives line c [] (parseline line (4 * line.length + 4) 0) := by
    intro c hc
    refine gives_parse h0 hc .nil (by rwa [append_nil]) ?_
    rw [append_nil]
    simp only [NonTerm.depth]
    omega
  cases hr : parseline line (4 * line.length + 4) 0 with
  | error e =>
    rw [hr] at htakes hcomplete
    rw [parsecmd_error hr]
    refine ⟨fun he => htakes (Except.error.inj he), fun c => ⟨fun hc => ?_, by rintro ⟨_, ⟨⟩⟩⟩,
      by rintro _ _ ⟨⟩⟩
    obtain ⟨_, ⟨⟩, -⟩ := hcomplete c hc
  | ok p =>
    obtain ⟨d, s⟩ := p
    rw [hr] at htakes hcomplete
    obtain ⟨used, rest, hts, hd, hs⟩ := htakes
    rw [parsecmd_ok hr]
    split_ifs with hend <;> rw [hs.peek_end h0] at hend
    · -- the whole line was taken
      rw [hend, append_nil] at hts
      rw [← hts] at hd
      refine ⟨by rintro ⟨⟩, fun c => ⟨fun hc => ?_, ?_⟩, ?_⟩
      · obtain ⟨_, ⟨⟩, -⟩ := hcomplete c hc
        exact ⟨_, rfl⟩
      · rintro ⟨_, ⟨⟩⟩
        exact hd
      · rintro _ _ ⟨⟩ w hw
        rw [nulterminate_eq]
        exact ⟨hd.mem hw, cstring_nulterminate h0 (fun w hw => hreads.isWord h0 (hd.mem hw)) hw⟩
    · -- something is left over
      refine ⟨by rintro ⟨⟩, fun c => ⟨fun hc => ?_, by rintro ⟨_, ⟨⟩⟩⟩, by rintro _ _ ⟨⟩⟩
      obtain ⟨_, ⟨⟩, hnil⟩ := hcomplete c hc
      exact absurd (hs.lex.symm.trans hnil.lex) hend

def pipeLine : List Byte := [0x6c, 0x73, 0x7c, 0x77, 0x63, 0x3e, 0x66]

theorem parsecmd_derives_pipeLine :
    Derives .line (lex 0 pipeLine) (.pipe (.exec [⟨0, 2⟩])
      (.redir (.exec [⟨3, 5⟩]) ⟨⟨6, 7⟩, O_WRONLY ||| O_CREATE ||| O_TRUNC, 1⟩)) :=
  ((parsecmd_derives pipeLine (by decide)).2.1 _).mpr
    ⟨[0x6c, 0x73, 0, 0x77, 0x63, 0, 0x66, 0], by decide +kernel⟩

end Xv6.Shell
