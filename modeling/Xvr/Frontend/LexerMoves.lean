/-
  Xvr.Frontend.LexerMoves — what the lexer consumes, as text.

  `Moves l l' w`: the lexer went from `l` to `l'` over the text `w`, and `current` and
  `line` say so. Every function of the lexer only moves by `advance`, so each is described
  by the text it moves over. `Blank` is one piece of skipped text, `Gap` what a call skips
  before its token, and `Unclosed` a text whose blanks lead to a block comment that is
  never closed.

  Proved: `eatLine_moves`, `eatShebang_moves`, `eatBlock_moves`, `eatBlock_diverges` (the
  loops), `eatWhitespace_total`, `eatWhitespace_diverges`.
-/

import Xvr.Frontend.Lexer
import Mathlib.Data.List.Infix

namespace Xvr.Frontend.Lexer

open Xvr.Lib.Loop

/-- The text from the lexer's position on. -/
def rest (l : Lexer) : List Char := l.source.text.drop l.current

structure Moves (l l' : Lexer) (w : List Char) : Prop where
  source : l'.source = l.source
  start : l'.start = l.start
  text : rest l = w ++ rest l'
  current : l'.current = l.current + w.length
  line : l'.line = l.line + w.count '\n'

/-! ## Reading -/

theorem rest_noNul (l : Lexer) : '\x00' ∉ rest l := fun h => l.source.noNul (List.mem_of_mem_drop h)

theorem charAt_current (l : Lexer) : charAt l.source l.current = (rest l).headD '\x00' := by
  rw [charAt, rest, List.headD_eq_head?_getD, List.head?_drop, List.getD_eq_getElem?_getD]

theorem peek_eq (l : Lexer) : peek l = (rest l).headD '\x00' := charAt_current l

theorem isAtEnd_iff (l : Lexer) : isAtEnd l = true ↔ rest l = [] := by
  rw [isAtEnd, charAt_current, beq_iff_eq]
  have hn := rest_noNul l
  rcases hr : rest l with _ | ⟨c, cs⟩
  · simp
  · rw [hr] at hn
    simp only [List.headD_cons, reduceCtorEq, iff_false]
    rintro rfl
    exact hn (List.mem_cons_self ..)

theorem isAtEnd_cons {l : Lexer} {c : Char} {cs : List Char} (h : rest l = c :: cs) : isAtEnd l = false := by
  cases he : isAtEnd l
  · rfl
  · rw [(isAtEnd_iff l).mp he] at h; cases h

theorem peek_cons {l : Lexer} {c : Char} {cs : List Char} (h : rest l = c :: cs) : peek l = c := by
  rw [peek_eq, h]; rfl

theorem peek_nil {l : Lexer} (h : rest l = []) : peek l = '\x00' := by rw [peek_eq, h]; rfl

theorem peekNext_cons {l : Lexer} {c : Char} {cs : List Char} (h : rest l = c :: cs) :
    peekNext l = cs.headD '\x00' := by
  have hcs : cs = l.source.text.drop (l.current + 1) := by
    rw [← List.tail_drop]; show cs = (rest l).tail; rw [h]; rfl
  rw [peekNext, isAtEnd_cons h, charAt, hcs, List.headD_eq_head?_getD, List.head?_drop, List.getD_eq_getElem?_getD]
  rfl

/-- A character read is the head of the rest, unless it is the terminator. -/
theorem rest_of_peek {l : Lexer} {c : Char} (h : peek l = c) (hc : c ≠ '\x00') : ∃ cs, rest l = c :: cs := by
  rw [peek_eq] at h
  rcases hr : rest l with _ | ⟨d, cs⟩
  · rw [hr] at h; exact absurd h.symm hc
  · rw [hr] at h; exact ⟨cs, by rw [← h]; rfl⟩

/-! ## Moving -/

theorem Moves.refl (l : Lexer) : Moves l l [] := ⟨rfl, rfl, rfl, rfl, rfl⟩

theorem Moves.trans {l₁ l₂ l₃ : Lexer} {v w : List Char} (h : Moves l₁ l₂ v) (h' : Moves l₂ l₃ w) :
    Moves l₁ l₃ (v ++ w) where
  source := h'.source.trans h.source
  start := h'.start.trans h.start
  text := by rw [h.text, h'.text, List.append_assoc]
  current := by rw [h'.current, h.current, List.length_append, Nat.add_assoc]
  line := by rw [h'.line, h.line, List.count_append, Nat.add_assoc]

theorem Moves.length {l l' : Lexer} {w : List Char} (h : Moves l l' w) :
    (rest l).length = w.length + (rest l').length := by
  rw [h.text, List.length_append]

theorem advance_cons {l : Lexer} {c : Char} {cs : List Char} (h : rest l = c :: cs) :
    (advance l).1 = c ∧ Moves l (skip l) [c] ∧ rest (skip l) = cs := by
  have hc : charAt l.source l.current = c := by rw [charAt_current, h]; rfl
  have hcs : l.source.text.drop (l.current + 1) = cs := by
    rw [← List.tail_drop]; show (rest l).tail = cs; rw [h]; rfl
  simp only [skip, advance, isAtEnd_cons h, hc, Bool.false_eq_true, if_false, true_and]
  refine ⟨⟨rfl, rfl, by rw [h]; simp only [rest, hcs]; rfl, rfl, ?_⟩, hcs⟩
  by_cases hn : c = '\n'
  · subst hn; rfl
  · simp [hn]

theorem skip_cons {l : Lexer} {c : Char} {cs : List Char} (h : rest l = c :: cs) : Moves l (skip l) [c] :=
  (advance_cons h).2.1

theorem skip_rest {l : Lexer} {c : Char} {cs : List Char} (h : rest l = c :: cs) : rest (skip l) = cs :=
  (advance_cons h).2.2

theorem skip_nil {l : Lexer} (h : rest l = []) : skip l = l := by
  rw [skip, advance, if_pos ((isAtEnd_iff l).mpr h)]

/-- A loop that skips characters of one kind moves over a text of that kind. -/
theorem skipWhile_moves (p : Char → Bool) (hp : p '\x00' = false) {c : Lexer → Bool} (hc : ∀ l, c l = p (peek l))
    {fuel : Nat} {l : Lexer} (hf : (rest l).length < fuel) :
    ∃ w l', whileLoop c skip fuel l = some l' ∧ Moves l l' w ∧ (∀ x ∈ w, p x = true) ∧ p (peek l') = false := by
  have hstep : ∀ s, (∃ w, Moves l s w ∧ ∀ x ∈ w, p x = true) → c s = true →
      (∃ w, Moves l (skip s) w ∧ ∀ x ∈ w, p x = true) ∧ (rest (skip s)).length < (rest s).length := by
    rintro s ⟨w, hw, hall⟩ hcs
    rw [hc] at hcs
    rcases hr : rest s with _ | ⟨x, xs⟩
    · rw [peek_nil hr, hp] at hcs; cases hcs
    · rw [peek_cons hr] at hcs
      refine ⟨⟨w ++ [x], hw.trans (skip_cons hr), fun y hy => ?_⟩, by rw [skip_rest hr]; simp⟩
      rcases List.mem_append.mp hy with hy | hy
      · exact hall y hy
      · rw [List.mem_singleton.mp hy]; exact hcs
  obtain ⟨l', hl, ⟨w, hw, hall⟩, hend⟩ :=
    whileLoop_total _ (fun s => (rest s).length) hstep ⟨[], Moves.refl l, by simp⟩ hf
  exact ⟨w, l', hl, hw, hall, by rw [← hc]; exact hend⟩

/-! ## What a call skips -/

/-- One piece of skipped text. A `#!` line is skipped while no token has started past the
    beginning of the source. -/
inductive Blank (shebang : Bool) : List Char → Prop
  | space {c : Char} : c = ' ' ∨ c = '\r' ∨ c = '\n' ∨ c = '\t' → Blank shebang [c]
  | line {body : List Char} : '\n' ∉ body → Blank shebang ('/' :: '/' :: body ++ ['\n'])
  | block {body : List Char} : ¬ ['*', '/'] <:+: body → Blank shebang ('/' :: '*' :: body ++ ['*', '/'])
  | shebang {body : List Char} : shebang = true → '\n' ∉ body → Blank shebang ('#' :: '!' :: body ++ ['\n'])

/-- What is skipped before `after`; only at the end of the source may a line be missing
    its newline. -/
inductive Gap (shebang : Bool) (after : List Char) : List Char → Prop
  | nil : Gap shebang after []
  | cons {v w : List Char} : Blank shebang v → Gap shebang after w → Gap shebang after (v ++ w)
  | lastLine {body : List Char} : after = [] → '\n' ∉ body → Gap shebang after ('/' :: '/' :: body)
  | lastShebang {body : List Char} : after = [] → shebang = true → '\n' ∉ body → Gap shebang after ('#' :: '!' :: body)

/-- Skipping blanks leads to a block comment that is never closed. -/
inductive Unclosed (shebang : Bool) : List Char → Prop
  | here {cs : List Char} : ¬ ['*', '/'] <:+: cs → Unclosed shebang ('/' :: '*' :: cs)
  | skip {v t : List Char} : Blank shebang v → Unclosed shebang t → Unclosed shebang (v ++ t)

theorem exists_close (cs : List Char) :
    ¬ ['*', '/'] <:+: cs ∨ ∃ body r, cs = body ++ '*' :: '/' :: r ∧ ¬ ['*', '/'] <:+: body := by
  induction cs with
  | nil => exact Or.inl (by simp)
  | cons c cs ih =>
    by_cases hp : ['*', '/'] <+: c :: cs
    · obtain ⟨r, hr⟩ := hp
      exact Or.inr ⟨[], r, hr.symm, by simp⟩
    · rcases ih with hno | ⟨body, r, rfl, hno⟩
      · refine Or.inl fun h => ?_
        rcases List.infix_cons_iff.mp h with h | h
        · exact hp h
        · exact hno h
      · refine Or.inr ⟨c :: body, r, rfl, fun h => ?_⟩
        rcases List.infix_cons_iff.mp h with h | h
        · exact hp (h.trans (List.prefix_append (c :: body) _))
        · exact hno h

/-- The first newline of a text is at one place. -/
theorem newline_unique {a b r s : List Char} (ha : '\n' ∉ a) (hb : '\n' ∉ b) (h : a ++ '\n' :: r = b ++ '\n' :: s) :
    a = b := by
  induction a generalizing b with
  | nil =>
    rcases b with _ | ⟨c, b⟩
    · rfl
    · rw [List.nil_append, List.cons_append, List.cons.injEq] at h
      exact absurd (by simp [← h.1]) hb
  | cons c a ih =>
    rcases b with _ | ⟨d, b⟩
    · rw [List.nil_append, List.cons_append, List.cons.injEq] at h
      exact absurd (by simp [h.1]) ha
    · rw [List.cons_append, List.cons_append, List.cons.injEq] at h
      rw [h.1, ih (fun hm => ha (List.mem_cons_of_mem _ hm)) (fun hm => hb (List.mem_cons_of_mem _ hm)) h.2]

/-- A text that does not hold `*/` does not hold it across a `*/` put behind it. -/
theorem close_here {v r t : List Char} (hv : ¬ ['*', '/'] <:+: v) (h : v ++ '*' :: '/' :: r = '*' :: '/' :: t) :
    v = [] := by
  rcases v with _ | ⟨c, _ | ⟨d, v⟩⟩
  · rfl
  · simp only [List.cons_append, List.nil_append, List.cons.injEq] at h
    exact absurd h.2.1 (by decide)
  · simp only [List.cons_append, List.cons.injEq] at h
    exact absurd (List.IsPrefix.isInfix ⟨v, by rw [h.1, h.2.1]; rfl⟩) hv

/-! ## The skipping loops -/

/-- What skipping to the end of a line moves over. -/
def LineEnd (l l' : Lexer) : Prop :=
  ∃ w, '\n' ∉ w ∧ (Moves l l' (w ++ ['\n']) ∨ Moves l l' w ∧ rest l' = [])

theorem not_mem_snoc {w : List Char} {c : Char} (hw : '\n' ∉ w) (hc : c ≠ '\n') : '\n' ∉ w ++ [c] := by
  simp [hw, Ne.symm hc]

/-- Inside the loop of `eatLine`: the last character read is a newline exactly when the
    line is over. -/
def InLine (l : Lexer) (s : Char × Lexer) : Prop :=
  ∃ w, '\n' ∉ w ∧ (s.1 ≠ '\n' ∧ Moves l s.2 w ∨ s.1 = '\n' ∧ Moves l s.2 (w ++ ['\n']))

theorem eatLine_moves {l : Lexer} {c : Char} {cs : List Char} (hr : rest l = c :: cs) (hc : c ≠ '\n') {fuel : Nat}
    (hf : (rest l).length < fuel) : ∃ l', eatLine fuel l = some l' ∧ LineEnd l l' := by
  have hstep : ∀ s, InLine l s → (s.1 != '\n' && !isAtEnd s.2) = true →
      InLine l (advance s.2) ∧ (rest (advance s.2).2).length < (rest s.2).length := by
    rintro ⟨d, s⟩ ⟨w, hw, hm⟩ hcond
    simp only [Bool.and_eq_true, bne_iff_ne, ne_eq, Bool.not_eq_true', ← Bool.not_eq_true, isAtEnd_iff] at hcond
    obtain ⟨hd, hend⟩ := hcond
    have hm : Moves l s w := (hm.resolve_right fun h => hd h.1).2
    rcases hs : rest s with _ | ⟨x, xs⟩
    · exact absurd hs hend
    obtain ⟨hx, hmx, hxs⟩ := advance_cons hs
    refine ⟨?_, by show (rest (skip s)).length < _; rw [hxs]; simp⟩
    by_cases hn : x = '\n'
    · exact ⟨w, hw, Or.inr ⟨hx.trans hn, by rw [← hn]; exact hm.trans hmx⟩⟩
    · exact ⟨w ++ [x], not_mem_snoc hw hn, Or.inl ⟨by rw [hx]; exact hn, hm.trans hmx⟩⟩
  obtain ⟨h₁, hm₁, hcs⟩ := advance_cons hr
  have hI : InLine l (advance l) := ⟨[c], by simpa using Ne.symm hc, Or.inl ⟨by rw [h₁]; exact hc, hm₁⟩⟩
  have hlt : (rest (advance l).2).length < fuel := by
    show (rest (skip l)).length < fuel
    rw [hcs]; rw [hr] at hf; simp at hf; omega
  obtain ⟨⟨d, l'⟩, hl, ⟨w, hw, hm⟩, hend⟩ := whileLoop_total _ (fun s => (rest s.2).length) hstep hI hlt
  refine ⟨l', by rw [eatLine, hl]; rfl, w, hw, ?_⟩
  rcases hm with ⟨hd, hm⟩ | ⟨_, hm⟩
  · refine Or.inr ⟨hm, (isAtEnd_iff l').mp ?_⟩
    simpa [hd] using hend
  · exact Or.inl hm

theorem eatShebang_moves {l : Lexer} {fuel : Nat} (hf : (rest l).length < fuel) :
    ∃ l', eatShebang fuel l = some l' ∧ LineEnd l l' := by
  have hc : ∀ l : Lexer, (peek l != '\n' && !isAtEnd l) = (peek l != '\n' && peek l != '\x00') := fun l => rfl
  obtain ⟨w, l₁, hl, hm, hall, hend⟩ :=
    skipWhile_moves (fun c => c != '\n' && c != '\x00') rfl hc hf
  have hw : '\n' ∉ w := fun h => by simpa using hall _ h
  by_cases hn : peek l₁ = '\n'
  · obtain ⟨cs, hr⟩ := rest_of_peek hn (by decide)
    exact ⟨skip l₁, by simp [eatShebang, hl, hn], w, hw, Or.inl (hm.trans (skip_cons hr))⟩
  · refine ⟨l₁, by simp [eatShebang, hl, hn], w, hw, Or.inr ⟨hm, (isAtEnd_iff l₁).mp ?_⟩⟩
    have : peek l₁ = '\x00' := by simpa [hn] using hend
    exact beq_iff_eq.mpr this

/-- The line is the one that was entered. -/
theorem LineEnd.heads {l l' : Lexer} (h : LineEnd l l') {a b : Char} {cs : List Char} (hr : rest l = a :: b :: cs)
    (ha : a ≠ '\n') (hb : b ≠ '\n') :
    ∃ body, '\n' ∉ body ∧ (Moves l l' (a :: b :: body ++ ['\n']) ∨ Moves l l' (a :: b :: body) ∧ rest l' = []) := by
  obtain ⟨w, hw, hm⟩ := h
  have htext : w ++ '\n' :: rest l' = a :: b :: cs ∨ w = a :: b :: cs := by
    rcases hm with hm | ⟨hm, hend⟩
    · left; rw [← hr, hm.text]; simp
    · right; rw [← hr, hm.text, hend, List.append_nil]
  rcases w with _ | ⟨x, _ | ⟨y, body⟩⟩
  · rcases htext with h | h
    · rw [List.nil_append, List.cons.injEq] at h; exact absurd h.1.symm ha
    · cases h
  · rcases htext with h | h
    · simp only [List.cons_append, List.nil_append, List.cons.injEq] at h; exact absurd h.2.1.symm hb
    · simp at h
  · have hxy : x = a ∧ y = b := by
      rcases htext with h | h <;> simp only [List.cons_append, List.cons.injEq] at h <;> exact ⟨h.1, h.2.1⟩
    obtain ⟨rfl, rfl⟩ := hxy
    exact ⟨body, fun h => hw (by simp [h]), hm⟩

/-- Inside the loop of `eatBlock`: it has passed `w` of the body, and `v` is left. -/
def InBlock (l : Lexer) (body r : List Char) (s : Lexer) : Prop :=
  ∃ w v, body = w ++ v ∧ Moves l s w ∧ rest s = v ++ '*' :: '/' :: r

theorem eatBlock_moves {l : Lexer} {body r : List Char} (hr : rest l = '/' :: '*' :: (body ++ '*' :: '/' :: r))
    (hb : ¬ ['*', '/'] <:+: body) {fuel : Nat} (hf : (rest l).length < fuel) :
    ∃ l', eatBlock fuel l = some l' ∧ Moves l l' ('/' :: '*' :: body ++ ['*', '/']) := by
  have hm₁ := skip_cons hr
  have hm₂ := skip_cons (skip_rest hr)
  have hr₂ := skip_rest (skip_rest hr)
  have hopen : ∀ s, InBlock (skip (skip l)) body r s → (!(peek s == '*' && peekNext s == '/')) = true →
      InBlock (skip (skip l)) body r (skip s) ∧ (rest (skip s)).length < (rest s).length := by
    rintro s ⟨w, v, hwv, hm, hs⟩ hcond
    rcases v with _ | ⟨c, v⟩
    · rw [List.nil_append] at hs
      rw [peek_cons hs, peekNext_cons hs] at hcond
      cases hcond
    · rw [List.cons_append] at hs
      refine ⟨⟨w ++ [c], v, by simp [hwv], hm.trans (skip_cons hs), skip_rest hs⟩, ?_⟩
      rw [skip_rest hs, hs]; simp
  have hlen : (rest (skip (skip l))).length < fuel := by
    have := hm₁.length
    have := hm₂.length
    omega
  obtain ⟨l₃, hl, ⟨w, v, hwv, hm, hs⟩, hend⟩ :=
    whileLoop_total _ (fun s => (rest s).length) hopen ⟨[], body, rfl, Moves.refl _, hr₂⟩ hlen
  have hv : v = [] := by
    simp only [Bool.not_eq_false', Bool.and_eq_true, beq_iff_eq] at hend
    obtain ⟨cs, hcs⟩ := rest_of_peek hend.1 (by decide)
    rw [peekNext_cons hcs] at hend
    rcases cs with _ | ⟨d, t⟩
    · exact absurd hend.2 (by decide)
    · have hd : d = '/' := hend.2
      rw [hd] at hcs
      exact close_here (fun h => hb (by rw [hwv]; exact h.trans (List.suffix_append w v).isInfix)) (hs.symm.trans hcs)
  rw [hv, List.append_nil] at hwv
  rw [hv, List.nil_append] at hs
  subst hwv
  refine ⟨skip (skip l₃), by rw [eatBlock, hl]; rfl, ?_⟩
  have := (hm₁.trans hm₂).trans (hm.trans ((skip_cons hs).trans (skip_cons (skip_rest hs))))
  simpa using this

/-- At the end of the source the loop's condition holds and `advance` stands still. -/
theorem eatBlock_diverges {l : Lexer} {cs : List Char} (hr : rest l = '/' :: '*' :: cs) (hno : ¬ ['*', '/'] <:+: cs)
    (fuel : Nat) : eatBlock fuel l = none := by
  have hstep : ∀ s : Lexer, ¬ ['*', '/'] <:+: rest s →
      (!(peek s == '*' && peekNext s == '/')) = true ∧ ¬ ['*', '/'] <:+: rest (skip s) := by
    intro s hs
    rcases hrs : rest s with _ | ⟨c, t⟩
    · rw [skip_nil hrs, peek_nil hrs]
      exact ⟨rfl, hs⟩
    · rw [skip_rest hrs, peek_cons hrs, peekNext_cons hrs]
      rw [hrs] at hs
      refine ⟨?_, fun h => hs (h.trans (List.suffix_cons c t).isInfix)⟩
      by_contra hcond
      simp only [Bool.not_eq_true, Bool.not_eq_false', Bool.and_eq_true, beq_iff_eq] at hcond
      rcases t with _ | ⟨d, t⟩
      · exact absurd hcond.2 (by decide)
      · have hd : d = '/' := hcond.2
        exact hs (List.IsPrefix.isInfix ⟨t, by rw [hcond.1, hd]; rfl⟩)
  have hstart : ¬ ['*', '/'] <:+: rest (skip (skip l)) := by rw [skip_rest (skip_rest hr)]; exact hno
  rw [eatBlock, whileLoop_diverges _ hstep fuel hstart]
  rfl

/-! ## One turn of `eatWhitespace` -/

theorem blank_ne_nil {shebang : Bool} {v : List Char} (h : Blank shebang v) : v ≠ [] := by
  cases h <;> simp

theorem not_unclosed_nil {shebang : Bool} {t : List Char} (h : Unclosed shebang t) : t ≠ [] := by
  cases h with
  | here _ => simp
  | skip hv _ => simp [blank_ne_nil hv]

theorem eatOne_hash {l : Lexer} (h : peek l = '#') (fuel : Nat) :
    eatOne fuel l = if l.start == 0 && peekNext l == '!' then some <$> eatShebang fuel l else some none := by
  rw [eatOne, h, if_neg (by decide), if_pos (by decide)]

theorem eatOne_slash {l : Lexer} (h : peek l = '/') (fuel : Nat) :
    eatOne fuel l = if peekNext l == '/' then some <$> eatLine fuel l
      else if peekNext l == '*' then some <$> eatBlock fuel l else some none := by
  rw [eatOne, h, if_neg (by decide), if_neg (by decide), if_pos (by decide)]

/-- One turn skipped the text `v`: a blank, or a last line. -/
structure Skipped (l l' : Lexer) (v : List Char) : Prop where
  moves : Moves l l' v
  pos : v ≠ []
  blank : Blank (l.start == 0) v ∨ rest l' = [] ∧ Gap (l.start == 0) [] v

theorem LineEnd.skipped {l l' : Lexer} (h : LineEnd l l') {a b : Char} {cs : List Char} (hr : rest l = a :: b :: cs)
    (ha : a ≠ '\n') (hb : b ≠ '\n') (hblank : ∀ body, '\n' ∉ body → Blank (l.start == 0) (a :: b :: body ++ ['\n']))
    (hgap : ∀ body, '\n' ∉ body → Gap (l.start == 0) [] (a :: b :: body)) : ∃ v, Skipped l l' v := by
  obtain ⟨body, hbody, hm | ⟨hm, hend⟩⟩ := h.heads hr ha hb
  · exact ⟨_, hm, by simp, Or.inl (hblank body hbody)⟩
  · exact ⟨_, hm, by simp, Or.inr ⟨hend, hgap body hbody⟩⟩

/-- What one turn does: skip a piece of text, return, or enter a comment without end. -/
theorem eatOne_cases (l : Lexer) {fuel : Nat} (hf : (rest l).length < fuel) :
    (∃ v l', eatOne fuel l = some (some l') ∧ Skipped l l' v) ∨ eatOne fuel l = some none ∨
      ∃ cs, rest l = '/' :: '*' :: cs ∧ ¬ ['*', '/'] <:+: cs := by
  rcases hr : rest l with _ | ⟨c, cs⟩
  · right; left; simp [eatOne, peek_nil hr]
  have hpeek := peek_cons hr
  have hnext := peekNext_cons hr
  by_cases hs : c = ' ' ∨ c = '\r' ∨ c = '\n' ∨ c = '\t'
  · refine Or.inl ⟨[c], skip l, ?_, skip_cons hr, by simp, Or.inl (.space hs)⟩
    rw [eatOne, hpeek, if_pos (by simpa [or_assoc] using hs)]
  by_cases hh : c = '#'
  · subst hh
    rw [eatOne_hash hpeek]
    by_cases hb : (l.start == 0 && peekNext l == '!') = true
    · rw [if_pos hb]
      rw [Bool.and_eq_true, beq_iff_eq (a := peekNext l)] at hb
      obtain ⟨l', hl, hend⟩ := eatShebang_moves hf
      obtain ⟨t, rfl⟩ : ∃ t, cs = '!' :: t := by
        rw [hnext] at hb
        rcases cs with _ | ⟨d, t⟩
        · exact absurd hb.2 (by decide)
        · exact ⟨t, congrArg (· :: t) hb.2⟩
      obtain ⟨v, hv⟩ := hend.skipped hr (by decide) (by decide) (fun body => .shebang hb.1)
        (fun body => .lastShebang rfl hb.1)
      exact Or.inl ⟨v, l', by rw [hl]; rfl, hv⟩
    · right; left
      rw [if_neg hb]
  by_cases hslash : c = '/'
  · subst hslash
    rw [eatOne_slash hpeek, hnext]
    rcases cs with _ | ⟨d, t⟩
    · right; left; rfl
    rw [List.headD_cons]
    by_cases h₂ : d = '/'
    · subst h₂
      obtain ⟨l', hl, hend⟩ := eatLine_moves hr (by decide) hf
      obtain ⟨v, hv⟩ := hend.skipped hr (by decide) (by decide) (fun body => .line) (fun body => .lastLine rfl)
      exact Or.inl ⟨v, l', by rw [if_pos (by decide), hl]; rfl, hv⟩
    by_cases h₃ : d = '*'
    · subst h₃
      rcases exists_close t with hno | ⟨body, r, rfl, hno⟩
      · exact Or.inr (Or.inr ⟨t, rfl, hno⟩)
      · obtain ⟨l', hl, hm⟩ := eatBlock_moves hr hno hf
        exact Or.inl ⟨_, l', by rw [if_neg (by decide), if_pos (by decide), hl]; rfl, hm, by simp, Or.inl (.block hno)⟩
    · right; left; simp [h₂, h₃]
  · right; left
    simp only [not_or] at hs
    simp [eatOne, hpeek, hs, hh, hslash]

theorem eatOne_diverges {l : Lexer} {cs : List Char} (hr : rest l = '/' :: '*' :: cs) (hno : ¬ ['*', '/'] <:+: cs)
    (fuel : Nat) : eatOne fuel l = none := by
  have hd : peekNext l = '*' := peekNext_cons hr
  rw [eatOne_slash (peek_cons hr), hd, if_neg (by decide), if_pos (by decide), eatBlock_diverges hr hno]
  rfl

/-! ## `eatWhitespace` -/

theorem gap_append {shebang : Bool} {after v w : List Char} {l₁ l₂ : Lexer}
    (hv : Blank shebang v ∨ rest l₁ = [] ∧ Gap shebang [] v) (hm : Moves l₁ l₂ w) (hg : Gap shebang (rest l₂) w)
    (ha : after = rest l₂) : Gap shebang after (v ++ w) := by
  subst ha
  rcases hv with hv | ⟨hend, hv⟩
  · exact .cons hv hg
  · -- nothing is left behind a last line
    have htext := hm.text
    rw [hend] at htext
    obtain ⟨hw, hr⟩ := List.append_eq_nil_iff.mp htext.symm
    rw [hw, hr, List.append_nil]
    exact hv

/-- Without an open comment ahead, the whitespace loop ends, having moved over a gap. -/
theorem eatWhitespace_total {n : Nat} {l : Lexer} (hf : (rest l).length + 2 ≤ n)
    (hu : ¬ Unclosed (l.start == 0) (rest l)) :
    ∃ w l', eatWhitespace n l = some l' ∧ Moves l l' w ∧ Gap (l.start == 0) (rest l') w := by
  induction n generalizing l with
  | zero => omega
  | succ n ih =>
    rcases @eatOne_cases l n (by omega) with ⟨v, l₁, hone, hm, hne, hv⟩ | hone | ⟨cs, hr, hno⟩
    · have hlen := hm.length
      have hpos : 0 < v.length := List.length_pos_iff.mpr hne
      have hu₁ : ¬ Unclosed (l₁.start == 0) (rest l₁) := by
        rw [hm.start]
        intro h
        rcases hv with hv | ⟨hend, _⟩
        · exact hu (by rw [hm.text]; exact .skip hv h)
        · rw [hend] at h
          exact not_unclosed_nil h rfl
      obtain ⟨w, l₂, hrun, hm₂, hg⟩ := ih (by omega) hu₁
      rw [hm.start] at hg
      exact ⟨v ++ w, l₂, by rw [eatWhitespace, hone]; exact hrun, hm.trans hm₂, gap_append hv hm₂ hg rfl⟩
    · exact ⟨[], l, by rw [eatWhitespace, hone]; rfl, Moves.refl l, .nil⟩
    · exact absurd (by rw [hr]; exact .here hno) hu

/-! ## More fuel -/

theorem eatLine_mono {n m : Nat} (hnm : n ≤ m) {l r : Lexer} (h : eatLine n l = some r) : eatLine m l = some r := by
  obtain ⟨s, hs, hr⟩ := Option.bind_eq_some_iff.mp h
  exact Option.bind_eq_some_iff.mpr ⟨s, whileLoop_mono hnm hs, hr⟩

theorem eatShebang_mono {n m : Nat} (hnm : n ≤ m) {l r : Lexer} (h : eatShebang n l = some r) :
    eatShebang m l = some r := by
  obtain ⟨s, hs, hr⟩ := Option.bind_eq_some_iff.mp h
  exact Option.bind_eq_some_iff.mpr ⟨s, whileLoop_mono hnm hs, hr⟩

theorem eatBlock_mono {n m : Nat} (hnm : n ≤ m) {l r : Lexer} (h : eatBlock n l = some r) : eatBlock m l = some r := by
  obtain ⟨s, hs, hr⟩ := Option.bind_eq_some_iff.mp h
  exact Option.bind_eq_some_iff.mpr ⟨s, whileLoop_mono hnm hs, hr⟩

theorem map_mono {α β : Type} {g : α → β} {x y : Option α} (h : ∀ r, x = some r → y = some r) {r : β}
    (hr : g <$> x = some r) : g <$> y = some r := by
  rcases hx : x with _ | a
  · rw [hx] at hr; cases hr
  · rw [h a hx, ← hr, hx]

theorem eatOne_mono {n m : Nat} (hnm : n ≤ m) {l : Lexer} {r : Option Lexer} (h : eatOne n l = some r) :
    eatOne m l = some r := by
  simp only [eatOne] at h ⊢
  split at h
  · rename_i hc; rw [if_pos hc]; exact h
  rename_i hc; rw [if_neg hc]
  split at h
  · rename_i hc; rw [if_pos hc]
    split at h
    · rename_i hc; rw [if_pos hc]; exact map_mono (fun _ => eatShebang_mono hnm) h
    · rename_i hc; rw [if_neg hc]; exact h
  rename_i hc; rw [if_neg hc]
  split at h
  · rename_i hc; rw [if_pos hc]
    split at h
    · rename_i hc; rw [if_pos hc]; exact map_mono (fun _ => eatLine_mono hnm) h
    rename_i hc; rw [if_neg hc]
    split at h
    · rename_i hc; rw [if_pos hc]; exact map_mono (fun _ => eatBlock_mono hnm) h
    · rename_i hc; rw [if_neg hc]; exact h
  · rename_i hc; rw [if_neg hc]; exact h

theorem eatWhitespace_mono {n m : Nat} (hnm : n ≤ m) {l r : Lexer} (h : eatWhitespace n l = some r) :
    eatWhitespace m l = some r := by
  induction n generalizing m l with
  | zero => cases h
  | succ n ih =>
    obtain ⟨m, rfl⟩ : ∃ k, m = k + 1 := ⟨m - 1, by omega⟩
    obtain ⟨o, ho, hr⟩ := Option.bind_eq_some_iff.mp h
    refine Option.bind_eq_some_iff.mpr ⟨o, eatOne_mono (by omega) ho, ?_⟩
    cases o with
    | none => exact hr
    | some l₁ => exact ih (by omega) hr

/-! ## A comment without end -/

theorem LineEnd.blank {l l' : Lexer} (h : LineEnd l l') {line t : List Char} (hr : rest l = line ++ '\n' :: t)
    (hn : '\n' ∉ line) : Moves l l' (line ++ ['\n']) := by
  obtain ⟨w, hw, hm | ⟨hm, hend⟩⟩ := h
  · have htext := hm.text
    rw [hr, List.append_assoc] at htext
    rw [newline_unique hn hw htext]
    exact hm
  · have htext := hm.text
    rw [hr, hend, List.append_nil] at htext
    exact absurd (by rw [← htext]; simp) hw

theorem eatOne_blank {l : Lexer} {v t : List Char} (hv : Blank (l.start == 0) v) (hr : rest l = v ++ t) {fuel : Nat}
    (hf : (rest l).length < fuel) : ∃ l', eatOne fuel l = some (some l') ∧ Moves l l' v := by
  cases hv with
  | @space c hc =>
    exact ⟨skip l, by rw [eatOne, peek_cons hr, if_pos (by simpa [or_assoc] using hc)], skip_cons hr⟩
  | @line body hb =>
    rw [List.append_assoc] at hr
    obtain ⟨l', hl, hend⟩ := eatLine_moves hr (by decide) hf
    have hd : peekNext l = '/' := peekNext_cons hr
    exact ⟨l', by rw [eatOne_slash (peek_cons hr), hd, if_pos (by decide), hl]; rfl, hend.blank hr (by simpa using hb)⟩
  | @block body hb =>
    have hr : rest l = '/' :: '*' :: (body ++ '*' :: '/' :: t) := by rw [hr]; simp
    obtain ⟨l', hl, hm⟩ := eatBlock_moves hr hb hf
    have hd : peekNext l = '*' := peekNext_cons hr
    exact ⟨l', by rw [eatOne_slash (peek_cons hr), hd, if_neg (by decide), if_pos (by decide), hl]; rfl, hm⟩
  | @shebang body hz hb =>
    rw [List.append_assoc] at hr
    obtain ⟨l', hl, hend⟩ := eatShebang_moves hf
    have hd : peekNext l = '!' := peekNext_cons hr
    exact ⟨l', by rw [eatOne_hash (peek_cons hr), hd, hz, if_pos (by decide), hl]; rfl,
      hend.blank hr (by simpa using hb)⟩

/-- The loop inside the comment never ends, so neither does the call. -/
theorem eatWhitespace_diverges {shebang : Bool} {t : List Char} (h : Unclosed shebang t) :
    ∀ n l, (l.start == 0) = shebang → rest l = t → eatWhitespace n l = none := by
  induction h with
  | here hno =>
    intro n l _ hr
    cases n with
    | zero => rfl
    | succ n => rw [eatWhitespace, eatOne_diverges hr hno]; rfl
  | @skip v t hv _ ih =>
    intro n l hs hr
    cases n with
    | zero => rfl
    | succ n =>
      rcases hone : eatOne n l with _ | o
      · rw [eatWhitespace, hone]; rfl
      subst hs
      obtain ⟨l', hl, hm⟩ := eatOne_blank hv hr (Nat.lt_succ_of_le (Nat.le_max_left (rest l).length n))
      rw [eatOne_mono (by omega) hone, Option.some.injEq] at hl
      have hrest : rest l' = t := List.append_cancel_left (hm.text.symm.trans hr)
      rw [eatWhitespace, hone, hl]
      exact ih n l' (by rw [hm.start]) hrest

end Xvr.Frontend.Lexer
