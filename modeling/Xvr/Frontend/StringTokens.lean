/-
  Xvr.Frontend.StringTokens — string tokens (`makeString` of `xvr_lexer.cpp`).

  `closing` splits the text behind an opening quote at its closing quote: the first quote
  that is not part of an escape, read from the left.

  Proved:
  - `makeString_token`: what `makeString` answers, by what `closing` says.
  - `string_recognised_iff`: a string is recognised as it should be exactly when its closing
    quote is not the last character of the source.
  - `last_quote_unread`: the source `"a"`.
-/

import Xvr.Frontend.LexerRuns

namespace Xvr.Frontend.Lexer

open Xvr.Lib.Loop

/-! ## The closing quote -/

/-- The text before the closing quote, and the text behind it. -/
def closing : List Char → Option (List Char × List Char)
  | [] => none
  | [c] => if c = '"' then some ([], []) else none
  | c :: d :: cs =>
    if c = '"' then some ([], d :: cs)
    else if c = '\\' ∧ isEscapeableCharacter d = true then (closing cs).map fun r => (c :: d :: r.1, r.2)
    else (closing (d :: cs)).map fun r => (c :: r.1, r.2)

@[simp] theorem closing_quote (cs : List Char) : closing ('"' :: cs) = some ([], cs) := by
  cases cs <;> rfl

theorem closing_escape {d : Char} (h : isEscapeableCharacter d = true) (cs : List Char) :
    closing ('\\' :: d :: cs) = (closing cs).map fun r => ('\\' :: d :: r.1, r.2) := by
  rw [closing, if_neg (by decide), if_pos ⟨rfl, h⟩]

theorem closing_plain {c : Char} {cs : List Char} (hc : c ≠ '"')
    (h : ¬ (c = '\\' ∧ isEscapeableCharacter (cs.headD '\x00') = true)) :
    closing (c :: cs) = (closing cs).map fun r => (c :: r.1, r.2) := by
  cases cs with
  | nil => simp [closing, hc]
  | cons d cs =>
    have h : ¬ (c = '\\' ∧ isEscapeableCharacter d = true) := h
    rw [closing, if_neg hc, if_neg h]

/-! ## The loop -/

/-- Inside the loop of `makeString`, `w` behind the opening quote: the closing quote is
    still ahead, or it was read. -/
def InQuotes (l : Lexer) (s : Bool × Lexer) : Prop :=
  ∃ w, Moves l s.2 w ∧
    (s.1 = false → closing (rest l) = (closing (rest s.2)).map fun r => (w ++ r.1, r.2)) ∧
    (s.1 = true → ∃ body, w = body ++ ['"'] ∧ closing (rest l) = some (body, rest s.2))

theorem stringStep_quotes {l : Lexer} {s : Bool × Lexer} (h : InQuotes l s) (hs : s.1 = false) (he : isAtEnd s.2 = false) :
    InQuotes l (stringStep '"' s) ∧ (rest (stringStep '"' s).2).length < (rest s.2).length := by
  obtain ⟨w, hm, hahead, -⟩ := h
  have hahead := hahead hs
  rcases hr : rest s.2 with _ | ⟨c, cs⟩
  · rw [(isAtEnd_iff _).mpr hr] at he
    cases he
  rw [hr] at hahead
  rw [stringStep, peek_cons hr]
  by_cases hc : c = '"'
  · subst hc
    rw [if_pos (by decide)]
    refine ⟨⟨w ++ ['"'], hm.trans (skip_cons hr), ?_, ?_⟩, by simp [skip_rest hr]⟩
    · intro hopen
      cases hopen
    · intro _
      refine ⟨w, rfl, ?_⟩
      rw [hahead, closing_quote, skip_rest hr]
      simp
  rw [if_neg (by simpa using hc), peekNext_cons hr]
  by_cases hesc : c = '\\' ∧ isEscapeableCharacter (cs.headD '\x00') = true
  · obtain ⟨rfl, hd⟩ := hesc
    rcases cs with _ | ⟨d, ds⟩
    · exact absurd hd (by decide)
    have hd : isEscapeableCharacter d = true := hd
    have hr₂ := skip_rest hr
    rw [if_pos (by simpa using hd)]
    refine ⟨⟨w ++ ['\\', d], hm.trans ((skip_cons hr).trans (skip_cons hr₂)), ?_, ?_⟩, ?_⟩
    · intro _
      rw [hahead, closing_escape hd, skip_rest hr₂, Option.map_map]
      congr 1
      funext r
      simp
    · intro hclosed
      cases hclosed
    · simp only [skip_rest hr₂, List.length_cons]
      omega
  · rw [if_neg (by simpa using hesc)]
    refine ⟨⟨w ++ [c], hm.trans (skip_cons hr), ?_, ?_⟩, by simp [skip_rest hr]⟩
    · intro _
      rw [hahead, closing_plain hc hesc, skip_rest hr, Option.map_map]
      congr 1
      funext r
      simp
    · intro hclosed
      cases hclosed

/-! ## The token -/

/-- What `makeString` answers behind an opening quote: the string up to the closing quote
    when something follows that, and an error otherwise. -/
theorem makeString_token {l : Lexer} (hs : AtStart l) {cs : List Char} (hr : rest l = '"' :: cs) {fuel : Nat}
    (hf : (rest l).length < fuel) :
    ∃ t l', makeString fuel (skip l) '"' = some (t, l') ∧
      ((∃ body behind, closing cs = some (body, behind) ∧ behind ≠ [] ∧ t.type = .literalString ∧ t.lexeme = body ∧
          Moves l l' ('"' :: body ++ ['"']) ∧ rest l' = behind) ∨
        (closing cs = none ∨ ∃ body, closing cs = some (body, [])) ∧ t.type = .error) := by
  have hskip := skip_rest hr
  have hstep : ∀ s, InQuotes (skip l) s → (!s.1 && !isAtEnd s.2) = true →
      InQuotes (skip l) (stringStep '"' s) ∧ (rest (stringStep '"' s).2).length < (rest s.2).length := by
    intro s hI hc
    simp only [Bool.and_eq_true, Bool.not_eq_true'] at hc
    exact stringStep_quotes hI hc.1 hc.2
  have hstart : InQuotes (skip l) (false, skip l) := ⟨[], Moves.refl _, fun _ => by simp, nofun⟩
  have hlen : (rest (skip l)).length < fuel := by
    rw [hr, List.length_cons] at hf
    rw [hskip]
    omega
  obtain ⟨⟨flag, l'⟩, hrun, ⟨w, hm, hahead, hread⟩, hend⟩ :=
    whileLoop_total _ (fun s => (rest s.2).length) hstep hstart hlen
  rw [hskip] at hahead hread
  by_cases he : isAtEnd l' = true
  · refine ⟨makeErrorToken l' "Unterminated string".toList, l', ?_, Or.inr ⟨?_, rfl⟩⟩
    · simp only [makeString, hrun, Option.bind_eq_bind, Option.bind_some, he, if_true, Option.pure_def]
    · have hnil := (isAtEnd_iff l').mp he
      cases flag with
      | false =>
        refine Or.inl ((hahead rfl).trans ?_)
        rw [hnil]
        rfl
      | true =>
        obtain ⟨body, -, hclosing⟩ := hread rfl
        exact Or.inr ⟨body, hnil ▸ hclosing⟩
  · have hflag : flag = true := by simpa [he] using hend
    obtain ⟨body, rfl, hclosing⟩ := hread hflag
    have hmove := (skip_cons hr).trans hm
    have hlexeme : slice l'.source (l'.start + 1) (l'.current - l'.start - 2) = body := by
      have hcount : l'.current - l'.start - 2 = body.length := by
        rw [hmove.current, hmove.start, hs]
        simp
      rw [hcount, slice, hmove.source, hmove.start, hs, ← List.tail_drop]
      show (rest l).tail.take body.length = body
      rw [hmove.text]
      simp
    refine ⟨⟨.literalString, body, l'.line⟩, l', ?_, Or.inl ⟨body, rest l', hclosing, ?_, rfl, rfl, hmove, rfl⟩⟩
    · simp only [makeString, hrun, Option.bind_eq_bind, Option.bind_some, he, if_false, Option.pure_def, hlexeme,
        Bool.false_eq_true]
    · exact fun h => he ((isAtEnd_iff l').mpr h)

/-- A call on an opening quote is a call of `makeString`. -/
theorem scanLexer_quote {l : Lexer} {cs : List Char} (hr : rest l = '"' :: cs) (fuel : Nat) :
    scanLexer (fuel + 1) l = makeString (fuel + 1) (skip (startToken l)) '"' := by
  have hpeek : peek l = '"' := peek_cons hr
  have hskip : eatWhitespace (fuel + 1) l = some l := by simp [eatWhitespace, eatOne, hpeek]
  have hstart : rest (startToken l) = '"' :: cs := hr
  have hpeek' : peek (startToken l) = '"' := peek_cons hstart
  have hdigit : isDigit (startToken l) = false := by
    rw [isDigit, hpeek']
    rfl
  have halpha : isAlpha (startToken l) = false := by
    rw [isAlpha, hpeek']
    rfl
  rw [scanLexer_from hskip, isAtEnd_cons hstart, hdigit, halpha, (advance_cons hstart).1]
  rfl

/-- A string token with exactly the text up to the closing quote, or an error token when
    there is no closing quote. -/
def Recognised (cs : List Char) (t : Token) : Prop :=
  match closing cs with
  | some (body, _) => t.type = .literalString ∧ t.lexeme = body
  | none => t.type = .error

/-- A string is recognised as it should be exactly when its closing quote is not the last
    character of the source. -/
theorem string_recognised_iff {l : Lexer} (hs : AtStart l) {cs : List Char} (hr : rest l = '"' :: cs) {fuel : Nat}
    (hf : (rest l).length < fuel) :
    ∃ t l', makeString fuel (skip l) '"' = some (t, l') ∧ (Recognised cs t ↔ ¬ ∃ body, closing cs = some (body, [])) := by
  obtain ⟨t, l', hrun, ⟨body, behind, hclosing, hbehind, htype, hlexeme, -⟩ | ⟨hclosing, htype⟩⟩ := makeString_token hs hr hf
  · refine ⟨t, l', hrun, iff_of_true ?_ ?_⟩
    · rw [Recognised, hclosing]
      exact ⟨htype, hlexeme⟩
    · intro ⟨body', h⟩
      rw [hclosing] at h
      cases h
      exact hbehind rfl
  · refine ⟨t, l', hrun, ?_⟩
    rcases hclosing with hnone | ⟨body, hlast⟩
    · rw [Recognised, hnone]
      exact iff_of_true htype nofun
    · rw [Recognised, hlast]
      refine iff_of_false (fun h => ?_) (fun h => h ⟨body, rfl⟩)
      rw [htype] at h
      cases h.1

/-- The source `"a"`. -/
def lastQuote : Source := ⟨['"', 'a', '"'], by decide⟩

/-- Its closing quote is the last character. -/
theorem last_quote_unread :
    ∃ t l', makeString 4 (skip (initLexer lastQuote)) '"' = some (t, l') ∧ closing ['a', '"'] = some (['a'], []) ∧
      ¬ Recognised ['a', '"'] t := by
  refine ⟨_, _, rfl, rfl, fun h => ?_⟩
  exact absurd h.1 (by decide)

/-- A string with a semicolon behind it. -/
theorem string_recognised_iff_statement :
    ∃ t l', makeString 5 (skip (initLexer ⟨['"', 'a', '"', ';'], by decide⟩)) '"' = some (t, l') ∧
      (Recognised ['a', '"', ';'] t ↔ ¬ ∃ body, closing ['a', '"', ';'] = some (body, [])) :=
  have hs : AtStart (initLexer ⟨['"', 'a', '"', ';'], by decide⟩) := rfl
  string_recognised_iff hs rfl (by decide)

end Xvr.Frontend.Lexer
