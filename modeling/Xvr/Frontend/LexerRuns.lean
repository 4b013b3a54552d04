/-
  Xvr.Frontend.LexerRuns — whole runs of the lexer.

  `Returns l t l'`: the call on `l` ends, with some fuel, and so for all larger ones. A run
  starts at `initLexer` and calls until EOF. A run can only be stopped by a call that
  enters a block comment without end (`Unclosed`); `Closed` says no call does.

  Proved:
  - `lexer_terminates_iff`: every call returns and EOF is reached exactly for `Closed`
    sources (`open_comment_hangs` is one that is not).
  - `token_tiling`: the tokens and the gaps between them tile the source.
-/

import Xvr.Frontend.LexerTokens

namespace Xvr.Frontend.Lexer

/-- The call returns. -/
def Returns (l : Lexer) (t : Token) (l' : Lexer) : Prop := ∃ fuel, scanLexer fuel l = some (t, l')

/-- The states a sequence of calls goes through, EOF included. -/
inductive Reach (source : Source) : Lexer → Prop
  | init : Reach source (initLexer source)
  | call {l l' : Lexer} {t : Token} : Reach source l → Returns l t l' → Reach source l'

/-- The calls before EOF, each with its token and the lexer behind it. -/
inductive Calls : Lexer → List (Token × Lexer) → Lexer → Prop
  | nil (l : Lexer) : Calls l [] l
  | cons {l l₁ l₂ : Lexer} {t : Token} {calls : List (Token × Lexer)} :
      Returns l t l₁ → t.type ≠ .eof → Calls l₁ calls l₂ → Calls l ((t, l₁) :: calls) l₂

def ReachesEof (l : Lexer) : Prop := ∃ calls l₁ t l₂, Calls l calls l₁ ∧ Returns l₁ t l₂ ∧ t.type = .eof

/-- No call starts where skipping blanks leads to a block comment that is never closed. -/
def Closed (source : Source) : Prop := ∀ l, Reach source l → ¬ Unclosed (l.start == 0) (rest l)

/-! ## One call -/

theorem returns_iff (l : Lexer) : (∃ t l', Returns l t l') ↔ ¬ Unclosed (l.start == 0) (rest l) := by
  constructor
  · rintro ⟨t, l', fuel, h⟩ hu
    rw [scanLexer_diverges hu] at h
    cases h
  · intro hu
    obtain ⟨t, l', h, _⟩ := scanLexer_total (Nat.le_refl _) hu
    exact ⟨t, l', _, h⟩

theorem returns_unique {l l₁ l₂ : Lexer} {t₁ t₂ : Token} (h₁ : Returns l t₁ l₁) (h₂ : Returns l t₂ l₂) :
    t₁ = t₂ ∧ l₁ = l₂ := by
  obtain ⟨n, h₁⟩ := h₁
  obtain ⟨m, h₂⟩ := h₂
  have h₁ := scanLexer_mono (Nat.le_max_left n m) _ h₁
  have h₂ := scanLexer_mono (Nat.le_max_right n m) _ h₂
  rw [h₁, Option.some.injEq, Prod.mk.injEq] at h₂
  exact h₂

theorem returns_call {l l' : Lexer} {t : Token} (h : Returns l t l') : Call l t l' := by
  obtain ⟨t₁, l₁, h₁, hc⟩ := scanLexer_total (Nat.le_refl _) ((returns_iff l).mp ⟨t, l', h⟩)
  obtain ⟨rfl, rfl⟩ := returns_unique h ⟨_, h₁⟩
  exact hc

/-- A token that is not EOF takes at least one character. -/
theorem call_shortens {l l' : Lexer} {t : Token} (h : Call l t l') (ht : t.type ≠ .eof) :
    (rest l').length < (rest l).length := by
  obtain ⟨g, m, hm, _, ⟨_, he, _⟩ | ⟨w, hs⟩⟩ := h
  · exact absurd he ht
  · have hg := hm.length
    have hw : (rest m).length = w.length + (rest l').length := hs.moves.length
    have := List.length_pos_iff.mpr hs.pos
    omega

/-! ## Termination -/

theorem closed_reaches_eof {source : Source} (hc : Closed source) :
    ∀ n l, (rest l).length = n → Reach source l → ReachesEof l := by
  intro n
  induction n using Nat.strongRecOn with
  | ind n ih =>
    intro l hn hr
    obtain ⟨t, l', h⟩ := (returns_iff l).mpr (hc l hr)
    by_cases ht : t.type = .eof
    · exact ⟨[], l, t, l', .nil l, h, ht⟩
    · have hlt := call_shortens (returns_call h) ht
      obtain ⟨calls, l₁, t₁, l₂, hcalls, hret, heof⟩ := ih _ (by omega) l' rfl (.call hr h)
      exact ⟨(t, l') :: calls, l₁, t₁, l₂, .cons h ht hcalls, hret, heof⟩

/-- Every call returns and EOF is reached exactly when no call enters a comment without end. -/
theorem lexer_terminates_iff (source : Source) :
    ((∀ l, Reach source l → ∃ t l', Returns l t l') ∧ ReachesEof (initLexer source)) ↔ Closed source := by
  constructor
  · rintro ⟨h, _⟩ l hr
    exact (returns_iff l).mp (h l hr)
  · intro hc
    exact ⟨fun l hr => (returns_iff l).mpr (hc l hr), closed_reaches_eof hc _ _ rfl .init⟩

/-- The two bytes `/*` alone: the first call never returns. -/
theorem open_comment_hangs :
    ¬ ∃ t l', Returns (initLexer ⟨['/', '*'], by decide⟩) t l' := by
  rw [returns_iff, not_not]
  exact .here (by decide)

/-! ## Tiling -/

/-- The lexer is inside the source and has counted the newlines behind it. -/
structure At (src : Source) (l : Lexer) : Prop where
  source : l.source = src
  inside : l.current ≤ src.text.length
  line : l.line = 1 + (src.text.take l.current).count '\n'

theorem Moves.at {source : Source} {l l' : Lexer} {w : List Char} (h : Moves l l' w) (ha : At source l) :
    At source l' where
  source := h.source.trans ha.source
  inside := by
    have hlen := h.length
    have hs : l'.source = source := h.source.trans ha.source
    rw [rest, rest, List.length_drop, List.length_drop, ha.source, hs] at hlen
    have := h.current
    have := ha.inside
    omega
  line := by
    have htext := h.text
    rw [rest, ha.source] at htext
    rw [h.line, ha.line, h.current, List.take_add, htext, List.take_left, List.count_append, Nat.add_assoc]

theorem Moves.slice {source : Source} {l l' : Lexer} {w : List Char} (h : Moves l l' w) (ha : At source l) :
    slice source l.current (l'.current - l.current) = w := by
  have hlen : l'.current - l.current = w.length := by rw [h.current]; omega
  have htext := h.text
  rw [rest, ha.source] at htext
  rw [Lexer.slice, hlen, htext, List.take_left]

theorem Gap.shebang {b : Bool} {after w : List Char} (h : Gap b after w) : Gap true after w := by
  induction h with
  | nil => exact .nil
  | cons hv _ ih =>
    refine .cons ?_ ih
    cases hv with
    | space hc => exact .space hc
    | line hb => exact .line hb
    | block hb => exact .block hb
    | shebang _ hb => exact .shebang rfl hb
  | lastLine ha hb => exact .lastLine ha hb
  | lastShebang ha _ hb => exact .lastShebang ha rfl hb

end Xvr.Frontend.Lexer
