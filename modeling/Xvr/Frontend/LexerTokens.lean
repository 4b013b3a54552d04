/-
  Xvr.Frontend.LexerTokens — what each token maker consumes and reports.

  `Scanned l t l' w`: from the start `l` of a token the lexer went over the text `w`, which
  is not empty, and made `t` of it. Every maker is described by it, for enough fuel.

  Proved: `scanOperator_scanned`, `makeIntegerOrFloat_scanned`, `makeString_scanned`,
  `makeKeywordOrIdentifier_scanned`, `scanLexer_total`, `scanLexer_diverges`.
-/

import Xvr.Frontend.LexerMoves

namespace Xvr.Frontend.Lexer

open Xvr.Lib.Loop

/-- Token types whose lexeme is the text they were scanned from. -/
def Plain (type : TokenType) : Prop := type ≠ .eof ∧ type ≠ .error ∧ type ≠ .literalString

instance (type : TokenType) : Decidable (Plain type) := inferInstanceAs (Decidable (_ ∧ _))

structure Scanned (l : Lexer) (t : Token) (l' : Lexer) (w : List Char) : Prop where
  moves : Moves l l' w
  pos : w ≠ []
  notEof : t.type ≠ .eof
  line : t.line = l'.line
  plain : Plain t.type → t.lexeme = w ∧ '\n' ∉ w
  string : t.type = .literalString → w = '"' :: t.lexeme ++ ['"']

/-- The lexer stands where a token starts. -/
def AtStart (l : Lexer) : Prop := l.start = l.current

/-! ## Building a token -/

theorem slice_moves {l l' : Lexer} {w : List Char} (h : Moves l l' w) (hs : AtStart l) :
    slice l'.source l'.start (l'.current - l'.start) = w := by
  have hlen : l'.current - l'.start = w.length := by rw [h.current, h.start, hs]; omega
  rw [slice, hlen, h.start, hs, h.source]
  show (rest l).take w.length = w
  rw [h.text, List.take_left]

theorem makeSpanToken_scanned {l l' : Lexer} {w : List Char} (h : Moves l l' w) (hs : AtStart l) (hw : w ≠ [])
    (hn : '\n' ∉ w) {type : TokenType} (ht : Plain type) : Scanned l (makeSpanToken l' type) l' w where
  moves := h
  pos := hw
  notEof := ht.1
  line := rfl
  plain _ := ⟨slice_moves h hs, hn⟩
  string he := absurd he ht.2.2

theorem makeToken_eq {l l' : Lexer} {w : List Char} (h : Moves l l' w) (hs : AtStart l) (type : TokenType) :
    makeToken l' type = makeSpanToken l' type := by
  have hle : l'.start ≤ l'.current := by rw [h.current, h.start, hs]; omega
  simp only [makeToken, makeSpanToken, Nat.sub_sub_self hle]

theorem makeToken_scanned {l l' : Lexer} {w : List Char} (h : Moves l l' w) (hs : AtStart l) (hw : w ≠ [])
    (hn : '\n' ∉ w) {type : TokenType} (ht : Plain type) : Scanned l (makeToken l' type) l' w := by
  rw [makeToken_eq h hs]
  exact makeSpanToken_scanned h hs hw hn ht

theorem makeErrorToken_scanned {l l' : Lexer} {w : List Char} (h : Moves l l' w) (hw : w ≠ []) (msg : List Char) :
    Scanned l (makeErrorToken l' msg) l' w where
  moves := h
  pos := hw
  notEof := by simp [makeErrorToken]
  line := rfl
  plain ht := absurd rfl ht.2.1
  string he := by cases he

/-! ## Operators -/

theorem matchChar_moves (l : Lexer) {c : Char} (hc : c ≠ '\x00') :
    (matchChar l c = (false, l)) ∨ matchChar l c = (true, skip l) ∧ Moves l (skip l) [c] := by
  rw [matchChar]
  split
  · exact Or.inl rfl
  split
  · rename_i hp
    obtain ⟨cs, hr⟩ := rest_of_peek (beq_iff_eq.mp hp) hc
    exact Or.inr ⟨rfl, skip_cons hr⟩
  · exact Or.inl rfl

theorem oneOrTwo_scanned {l l₁ : Lexer} {c second : Char} (h : Moves l l₁ [c]) (hs : AtStart l) (hc : c ≠ '\n')
    (h2 : second ≠ '\n') (h0 : second ≠ '\x00') {two one : TokenType} (ht : Plain two) (ho : Plain one) :
    ∃ w, Scanned l (oneOrTwo l₁ second two one).1 (oneOrTwo l₁ second two one).2 w := by
  rw [oneOrTwo]
  rcases matchChar_moves l₁ h0 with hm | ⟨hm, hmove⟩
  · rw [hm]
    exact ⟨[c], makeToken_scanned h hs (by simp) (by simpa using Ne.symm hc) ho⟩
  · rw [hm]
    exact ⟨[c, second], makeToken_scanned (h.trans hmove) hs (by simp) (by simp [Ne.symm hc, Ne.symm h2]) ht⟩

theorem oneOrTwoOf_scanned {l l₁ : Lexer} {c a b : Char} (h : Moves l l₁ [c]) (hs : AtStart l) (hc : c ≠ '\n')
    (ha : a ≠ '\n' ∧ a ≠ '\x00') (hb : b ≠ '\n' ∧ b ≠ '\x00') {ta tb one : TokenType} (hta : Plain ta) (htb : Plain tb)
    (ho : Plain one) : ∃ w, Scanned l (oneOrTwoOf l₁ a ta b tb one).1 (oneOrTwoOf l₁ a ta b tb one).2 w := by
  rw [oneOrTwoOf]
  rcases matchChar_moves l₁ ha.2 with hm | ⟨hm, hmove⟩
  · rw [hm]
    exact oneOrTwo_scanned h hs hc hb.1 hb.2 htb ho
  · rw [hm]
    exact ⟨[c, a], makeToken_scanned (h.trans hmove) hs (by simp) (by simp [Ne.symm hc, Ne.symm ha.1]) hta⟩

/-! ## Strings -/

/-- Inside the loop of `makeString`: the terminator was read exactly when the flag is up. -/
def InString (l : Lexer) (terminator : Char) (s : Bool × Lexer) : Prop :=
  ∃ w, Moves l s.2 w ∧ (s.1 = true → ∃ body, w = body ++ [terminator])

theorem stringStep_moves {l : Lexer} {terminator : Char} {s : Bool × Lexer} (h : InString l terminator s)
    (he : isAtEnd s.2 = false) :
    InString l terminator (stringStep terminator s) ∧
      (rest (stringStep terminator s).2).length < (rest s.2).length := by
  obtain ⟨w, hm, _⟩ := h
  rcases hr : rest s.2 with _ | ⟨c, cs⟩
  · rw [(isAtEnd_iff _).mpr hr] at he; cases he
  rw [stringStep, peek_cons hr]
  split
  · rename_i hc
    rw [beq_iff_eq] at hc
    refine ⟨⟨w ++ [c], hm.trans (skip_cons hr), fun _ => ⟨w, by rw [hc]⟩⟩, ?_⟩
    simp [skip_rest hr]
  split
  · rename_i hesc
    rw [Bool.and_eq_true, peekNext_cons hr] at hesc
    rcases cs with _ | ⟨d, ds⟩
    · exact absurd hesc.2 (by decide)
    · have hr₂ := skip_rest hr
      refine ⟨⟨w ++ ([c] ++ [d]), hm.trans ((skip_cons hr).trans (skip_cons hr₂)), fun h => by cases h⟩, ?_⟩
      simp only [skip_rest hr₂, List.length_cons]; omega
  · refine ⟨⟨w ++ [c], hm.trans (skip_cons hr), fun h => by cases h⟩, ?_⟩
    simp [skip_rest hr]

theorem makeString_scanned {l l₁ : Lexer} (h : Moves l l₁ ['"']) (hs : AtStart l) {fuel : Nat}
    (hf : (rest l₁).length < fuel) : ∃ t l' w, makeString fuel l₁ '"' = some (t, l') ∧ Scanned l t l' w := by
  have hstep : ∀ s, InString l₁ '"' s → (!s.1 && !isAtEnd s.2) = true →
      InString l₁ '"' (stringStep '"' s) ∧ (rest (stringStep '"' s).2).length < (rest s.2).length :=
    fun s hI hc => stringStep_moves hI (by simpa using (Bool.and_eq_true_iff.mp hc).2)
  have hstart : InString l₁ '"' (false, l₁) := ⟨[], Moves.refl l₁, fun h => by cases h⟩
  obtain ⟨⟨b, l'⟩, hl, ⟨w, hm, hb⟩, hend⟩ := whileLoop_total _ (fun s => (rest s.2).length) hstep hstart hf
  have hmove := h.trans hm
  by_cases he : isAtEnd l' = true
  · refine ⟨_, l', _, ?_, makeErrorToken_scanned hmove (by simp) "Unterminated string".toList⟩
    simp only [makeString, hl, Option.bind_eq_bind, Option.bind_some, he, if_true, Option.pure_def]
  · have hflag : b = true := by simpa [he] using hend
    obtain ⟨body, rfl⟩ := hb hflag
    refine ⟨⟨.literalString, body, l'.line⟩, l', _, ?_, hmove, by simp, by simp, rfl, fun h => absurd rfl h.2.2,
      fun _ => rfl⟩
    have hlen : l'.current - l'.start - 2 = body.length := by
      rw [hmove.current, hmove.start, hs]; simp
    have hslice : slice l'.source (l'.start + 1) (l'.current - l'.start - 2) = body := by
      rw [hlen, slice, hmove.source, hmove.start, hs, ← List.tail_drop]
      show (rest l).tail.take body.length = body
      rw [hmove.text]; simp
    simp only [makeString, hl, Option.bind_eq_bind, Option.bind_some, he, if_false, Option.pure_def, hslice,
      Bool.false_eq_true]

/-! ## Numbers -/

theorem eatDigits_moves {l : Lexer} {fuel : Nat} (hf : (rest l).length < fuel) :
    ∃ w l', eatDigits fuel l = some l' ∧ Moves l l' w ∧ '\n' ∉ w ∧ isDigit l' = false := by
  have hc : ∀ l : Lexer, (isDigit l || peek l == '_') = (isDigitChar (peek l) || peek l == '_') := fun l => rfl
  obtain ⟨w, l', hl, hm, hall, hend⟩ := skipWhile_moves (fun c => isDigitChar c || c == '_') (by decide) hc hf
  exact ⟨w, l', hl, hm, fun h => absurd (hall _ h) (by decide), (Bool.or_eq_false_iff.mp hend).1⟩

/-- Inside the loop over a suffix's digits. -/
def InWidth (l : Lexer) (s : BitVec 32 × Lexer) : Prop := ∃ w, Moves l s.2 w ∧ '\n' ∉ w

theorem eatBitWidth_moves {l : Lexer} {fuel : Nat} (hf : (rest l).length < fuel) :
    ∃ width w l', eatBitWidth fuel l = some (width, l') ∧ Moves l l' w ∧ '\n' ∉ w := by
  have hstep : ∀ s : BitVec 32 × Lexer, InWidth l s → isDigit s.2 = true →
      InWidth l (s.1 * 10 + (BitVec.ofNat 32 (peek s.2).toNat - BitVec.ofNat 32 '0'.toNat), skip s.2) ∧
        (rest (skip s.2)).length < (rest s.2).length := by
    rintro ⟨k, s⟩ ⟨w, hm, hw⟩ hd
    have hd : isDigitChar (peek s) = true := hd
    rcases hr : rest s with _ | ⟨c, cs⟩
    · rw [peek_nil hr] at hd; exact absurd hd (by decide)
    · rw [peek_cons hr] at hd
      refine ⟨⟨w ++ [c], hm.trans (skip_cons hr), not_mem_snoc hw ?_⟩, by simp [skip_rest hr]⟩
      rintro rfl
      exact absurd hd (by decide)
  have hstart : InWidth l (0, l) := ⟨[], Moves.refl l, by simp⟩
  obtain ⟨⟨k, l'⟩, hl, ⟨w, hm, hw⟩, _⟩ := whileLoop_total _ (fun s => (rest s.2).length) hstep hstart hf
  exact ⟨k, w, l', hl, hm, hw⟩

theorem suffixType_plain {suffix : Char} {width : BitVec 32} {type : TokenType}
    (h : suffixType suffix width = .inl type) : Plain type := by
  rw [suffixType] at h
  repeat' split at h
  all_goals cases h
  all_goals decide

theorem makeSuffix_scanned {l l₁ : Lexer} {v : List Char} (h : Moves l l₁ v) (hs : AtStart l) (hv : v ≠ [])
    (hn : '\n' ∉ v) {c : Char} {cs : List Char} (hr : rest l₁ = c :: cs) (hc : c ≠ '\n') {fuel : Nat}
    (hf : (rest l₁).length < fuel) (isFloat : Bool) :
    ∃ t l' w, makeSuffix fuel isFloat l₁ = some (t, l') ∧ Scanned l t l' w := by
  by_cases hfl : (peek l₁ == 'f' && !isFloat) = true
  · exact ⟨_, l₁, v, by simp only [makeSuffix, hfl, if_true]; rfl, makeErrorToken_scanned h hv _⟩
  have hlen : (rest (skip l₁)).length < fuel := by rw [skip_rest hr]; rw [hr] at hf; simp at hf; omega
  obtain ⟨width, w, l₂, hw, hm, hnw⟩ := eatBitWidth_moves hlen
  have hmove := (h.trans (skip_cons hr)).trans hm
  have hnl : '\n' ∉ v ++ [c] ++ w := by simp [hn, hnw, Ne.symm hc]
  rcases hty : suffixType (peek l₁) width with type | msg
  · exact ⟨_, l₂, _, by simp [makeSuffix, hfl, hw, hty],
      makeSpanToken_scanned hmove hs (by simp) hnl (suffixType_plain hty)⟩
  · exact ⟨makeErrorToken l₂ msg, l₂, _, by simp [makeSuffix, hfl, hw, hty], makeErrorToken_scanned hmove (by simp) msg⟩

theorem makeIntegerOrFloat_scanned {l : Lexer} (hs : AtStart l) (hd : isDigit l = true) {fuel : Nat}
    (hf : (rest l).length < fuel) :
    ∃ t l' w, makeIntegerOrFloat fuel l = some (t, l') ∧ Scanned l t l' w := by
  obtain ⟨w₁, l₁, he₁, hm₁, hn₁, hend₁⟩ := eatDigits_moves hf
  have hw₁ : w₁ ≠ [] := by
    rintro rfl
    have hsame : peek l = peek l₁ := by rw [peek_eq, peek_eq, hm₁.text, List.nil_append]
    rw [isDigit, hsame] at hd
    rw [isDigit, hd] at hend₁
    cases hend₁
  obtain ⟨isFloat, l₂, v, hfl, he₂, hm₂, hv, hn₂⟩ :
      ∃ isFloat l₂ v, (peek l₁ == '.' && isDigitChar (peekNext l₁)) = isFloat ∧
        (if isFloat then eatDigits fuel (skip l₁) else some l₁) = some l₂ ∧ Moves l l₂ v ∧ v ≠ [] ∧ '\n' ∉ v := by
    by_cases hfl : (peek l₁ == '.' && isDigitChar (peekNext l₁)) = true
    · obtain ⟨cs, hr⟩ := rest_of_peek (beq_iff_eq.mp (Bool.and_eq_true_iff.mp hfl).1) (by decide)
      have hlen := hm₁.length
      obtain ⟨w₂, l₂, he₂, hm₂, hn₂, _⟩ := @eatDigits_moves (skip l₁) fuel
        (by rw [skip_rest hr]; rw [hr] at hlen; simp at hlen; omega)
      exact ⟨true, l₂, _, hfl, by rw [if_pos rfl, he₂], (hm₁.trans (skip_cons hr)).trans hm₂, by simp,
        by simp [hn₁, hn₂]⟩
    · exact ⟨false, l₁, w₁, by simpa using hfl, by simp, hm₁, hw₁, hn₁⟩
  have hmake : makeIntegerOrFloat fuel l =
      if peek l₂ == 'i' || peek l₂ == 'u' || peek l₂ == 'f' then makeSuffix fuel isFloat l₂
      else some (makeSpanToken l₂ (if isFloat then .literalFloat else .literalInteger), l₂) := by
    simp only [makeIntegerOrFloat, he₁, Option.bind_eq_bind, Option.bind_some, hfl, he₂, Option.pure_def]
  rw [hmake]
  by_cases hsuf : (peek l₂ == 'i' || peek l₂ == 'u' || peek l₂ == 'f') = true
  · rw [if_pos hsuf]
    have hchar : peek l₂ = 'i' ∨ peek l₂ = 'u' ∨ peek l₂ = 'f' := by simpa [or_assoc] using hsuf
    have hne : peek l₂ ≠ '\x00' ∧ peek l₂ ≠ '\n' := by rcases hchar with h | h | h <;> rw [h] <;> decide
    obtain ⟨cs, hr⟩ := rest_of_peek rfl hne.1
    have hlen := hm₂.length
    exact makeSuffix_scanned hm₂ hs hv hn₂ hr hne.2 (by omega) isFloat
  · rw [if_neg hsuf]
    refine ⟨_, l₂, v, rfl, makeSpanToken_scanned hm₂ hs hv hn₂ ?_⟩
    cases isFloat <;> decide

/-! ## Keywords and identifiers -/

theorem findKeyword_plain (text : List Char) : Plain ((findKeyword text).getD .identifier) := by
  rw [findKeyword]
  rcases hk : keywordTypes.find? _ with _ | k
  · decide
  · have hall : ∀ k ∈ keywordTypes, Plain k.1 := by decide
    exact hall k (List.mem_of_find?_eq_some hk)

theorem makeKeywordOrIdentifier_scanned {l : Lexer} (hs : AtStart l) (ha : isAlpha l = true) {fuel : Nat}
    (hf : (rest l).length < fuel) :
    ∃ t l' w, makeKeywordOrIdentifier fuel l = some (t, l') ∧ Scanned l t l' w := by
  have ha : isAlphaChar (peek l) = true := ha
  have hne : peek l ≠ '\x00' := by intro h; rw [h] at ha; exact absurd ha (by decide)
  obtain ⟨cs, hr⟩ := rest_of_peek rfl hne
  have hc : ∀ l : Lexer, (isDigit l || isAlpha l) = (isDigitChar (peek l) || isAlphaChar (peek l)) := fun l => rfl
  have hlen : (rest (skip l)).length < fuel := by rw [skip_rest hr]; rw [hr] at hf; simp at hf; omega
  obtain ⟨w, l', hl, hm, hall, _⟩ :=
    skipWhile_moves (fun c => isDigitChar c || isAlphaChar c) (by decide) hc hlen
  have hnl : '\n' ∉ [peek l] ++ w := by
    intro h
    rcases List.mem_append.mp h with h | h
    · rw [← List.mem_singleton.mp h] at ha; exact absurd ha (by decide)
    · exact absurd (hall _ h) (by decide)
  exact ⟨_, l', _, by simp only [makeKeywordOrIdentifier, hl]; rfl,
    makeSpanToken_scanned ((skip_cons hr).trans hm) hs (by simp) hnl (findKeyword_plain _)⟩

/-! ## The switch -/

/-- A call that answers a token scanned from `l`. -/
def Answers (l : Lexer) (r : Option (Token × Lexer)) : Prop := ∃ t l' w, r = some (t, l') ∧ Scanned l t l' w

theorem Answers.intro {l l' : Lexer} {t : Token} {w : List Char} (h : Scanned l t l' w) : Answers l (some (t, l')) :=
  ⟨t, l', w, rfl, h⟩

theorem Answers.pair {l : Lexer} {r : Token × Lexer} {w : List Char} (h : Scanned l r.1 r.2 w) :
    Answers l (some r) := ⟨r.1, r.2, w, rfl, h⟩

theorem Answers.ite {l : Lexer} {c : Prop} [Decidable c] {a b : Option (Token × Lexer)} (ha : c → Answers l a)
    (hb : ¬ c → Answers l b) : Answers l (if c then a else b) := by
  split
  · rename_i h; exact ha h
  · rename_i h; exact hb h

theorem ampersand_answers {l : Lexer} {cs : List Char} (hs : AtStart l) (hr : rest l = '&' :: cs) :
    Answers l (if (advance (skip l)).1 != '&' then
        some (makeErrorToken (skip (skip l)) "Unexpected '&'".toList, skip (skip l))
      else some (makeToken (skip (skip l)) .and, skip (skip l))) := by
  have hm := skip_cons hr
  have hr₁ := skip_rest hr
  rcases cs with _ | ⟨d, ds⟩
  · have hfst : (advance (skip l)).1 = '\x00' := by rw [advance, if_pos ((isAtEnd_iff _).mpr hr₁)]
    rw [hfst, if_pos (by decide), skip_nil hr₁]
    exact .intro (makeErrorToken_scanned hm (by simp) _)
  · obtain ⟨hd, hm₂, _⟩ := advance_cons hr₁
    have hmove := hm.trans hm₂
    rw [hd]
    split
    · exact .intro (makeErrorToken_scanned hmove (by simp) _)
    · rename_i h
      have : d = '&' := by simpa using h
      subst this
      exact .intro (makeToken_scanned hmove hs (by simp) (by simp) (by decide))

theorem dot_answers {l : Lexer} {cs : List Char} (hs : AtStart l) (hr : rest l = '.' :: cs) :
    Answers l (if peek (skip l) == '.' && peekNext (skip l) == '.' then
        some (makeToken (skip (skip (skip l))) .rest, skip (skip (skip l)))
      else some (makeToken (skip l) .dot, skip l)) := by
  have hm := skip_cons hr
  split
  · rename_i h
    rw [Bool.and_eq_true, beq_iff_eq, beq_iff_eq] at h
    obtain ⟨ds, hr₁⟩ := rest_of_peek h.1 (by decide)
    rcases ds with _ | ⟨e, es⟩
    · rw [peekNext_cons hr₁] at h
      exact absurd h.2 (by decide)
    · have he : e = '.' := (peekNext_cons hr₁).symm.trans h.2
      subst he
      have hmove := (hm.trans (skip_cons hr₁)).trans (skip_cons (skip_rest hr₁))
      exact .intro (makeToken_scanned hmove hs (by simp) (by simp) (by decide))
  · exact .intro (makeToken_scanned hm hs (by simp) (by simp) (by decide))

theorem scanOperator_scanned {l : Lexer} {c : Char} {cs : List Char} (hs : AtStart l) (hr : rest l = c :: cs)
    {fuel : Nat} (hf : (rest l).length < fuel) : Answers l (scanOperator fuel c (skip l)) := by
  have hm := skip_cons hr
  have single : ∀ {d : Char} {type : TokenType}, (c == d) = true → d ≠ '\n' → Plain type →
      Answers l (some (makeToken (skip l) type, skip l)) := fun h hd ht =>
    .intro (makeToken_scanned hm hs (by simp) (by rw [beq_iff_eq.mp h]; simpa using Ne.symm hd) ht)
  have double : ∀ {d e : Char} {two one : TokenType}, (c == d) = true → d ≠ '\n' → e ≠ '\n' → e ≠ '\x00' →
      Plain two → Plain one → Answers l (some (oneOrTwo (skip l) e two one)) := fun h hd he h0 ht ho => by
    obtain ⟨w, hw⟩ := oneOrTwo_scanned hm hs (by rw [beq_iff_eq.mp h]; exact hd) he h0 ht ho
    exact .pair hw
  have triple : ∀ {d a b : Char} {ta tb one : TokenType}, (c == d) = true → d ≠ '\n' → (a ≠ '\n' ∧ a ≠ '\x00') →
      (b ≠ '\n' ∧ b ≠ '\x00') → Plain ta → Plain tb → Plain one →
      Answers l (some (oneOrTwoOf (skip l) a ta b tb one)) := fun h hd ha hb hta htb ho => by
    obtain ⟨w, hw⟩ := oneOrTwoOf_scanned hm hs (by rw [beq_iff_eq.mp h]; exact hd) ha hb hta htb ho
    exact .pair hw
  rw [scanOperator]
  refine .ite (fun h => single h (by decide) (by decide)) fun _ => ?_
  refine .ite (fun h => single h (by decide) (by decide)) fun _ => ?_
  refine .ite (fun h => single h (by decide) (by decide)) fun _ => ?_
  refine .ite (fun h => single h (by decide) (by decide)) fun _ => ?_
  refine .ite (fun h => single h (by decide) (by decide)) fun _ => ?_
  refine .ite (fun h => single h (by decide) (by decide)) fun _ => ?_
  refine .ite (fun h => triple h (by decide) (by decide) (by decide) (by decide) (by decide) (by decide)) fun _ => ?_
  refine .ite (fun h => triple h (by decide) (by decide) (by decide) (by decide) (by decide) (by decide)) fun _ => ?_
  refine .ite (fun h => double h (by decide) (by decide) (by decide) (by decide) (by decide)) fun _ => ?_
  refine .ite (fun h => double h (by decide) (by decide) (by decide) (by decide) (by decide)) fun _ => ?_
  refine .ite (fun h => double h (by decide) (by decide) (by decide) (by decide) (by decide)) fun _ => ?_
  refine .ite (fun h => double h (by decide) (by decide) (by decide) (by decide) (by decide)) fun _ => ?_
  refine .ite (fun h => double h (by decide) (by decide) (by decide) (by decide) (by decide)) fun _ => ?_
  refine .ite (fun h => double h (by decide) (by decide) (by decide) (by decide) (by decide)) fun _ => ?_
  refine .ite (fun h => double h (by decide) (by decide) (by decide) (by decide) (by decide)) fun _ => ?_
  refine .ite (fun h => ?ampersand) fun _ => ?_
  case ampersand => rw [beq_iff_eq] at h; subst h; exact ampersand_answers hs hr
  refine .ite (fun h => double h (by decide) (by decide) (by decide) (by decide) (by decide)) fun _ => ?_
  refine .ite (fun h => single h (by decide) (by decide)) fun _ => ?_
  refine .ite (fun h => double h (by decide) (by decide) (by decide) (by decide) (by decide)) fun _ => ?_
  refine .ite (fun h => single h (by decide) (by decide)) fun _ => ?_
  refine .ite (fun h => single h (by decide) (by decide)) fun _ => ?_
  refine .ite (fun h => ?dot) fun _ => ?_
  case dot => rw [beq_iff_eq] at h; subst h; exact dot_answers hs hr
  refine .ite (fun h => ?string) fun _ => .intro (makeErrorToken_scanned hm (by simp) _)
  case string =>
    rw [beq_iff_eq] at h
    subst h
    exact makeString_scanned hm hs (by rw [skip_rest hr]; rw [hr] at hf; simp at hf; omega)

/-! ## One call -/

/-- The lexer as `scanLexer` sets it before a token. -/
def startToken (l : Lexer) : Lexer := { l with start := l.current }

/-- What a call that returns does: it skips a gap, then it is at the end or scans a token. -/
def Call (l : Lexer) (t : Token) (l' : Lexer) : Prop :=
  ∃ g m, Moves l m g ∧ Gap (l.start == 0) (rest m) g ∧
    (rest m = [] ∧ t.type = .eof ∧ l' = startToken m ∨ ∃ w, Scanned (startToken m) t l' w)

/-- What a call does behind the gap. -/
theorem scanLexer_from {l m : Lexer} {fuel : Nat} (h : eatWhitespace fuel l = some m) :
    scanLexer fuel l =
      if isAtEnd (startToken m) then some (makeToken (startToken m) .eof, startToken m)
      else if isDigit (startToken m) then makeIntegerOrFloat fuel (startToken m)
      else if isAlpha (startToken m) then makeKeywordOrIdentifier fuel (startToken m)
      else scanOperator fuel (advance (startToken m)).1 (skip (startToken m)) := by
  rw [scanLexer, h]
  rfl

theorem scanLexer_total {l : Lexer} {fuel : Nat} (hf : (rest l).length + 2 ≤ fuel)
    (hu : ¬ Unclosed (l.start == 0) (rest l)) : ∃ t l', scanLexer fuel l = some (t, l') ∧ Call l t l' := by
  obtain ⟨g, m, hw, hm, hg⟩ := eatWhitespace_total hf hu
  have hs : AtStart (startToken m) := rfl
  have hlen := hm.length
  have hfm : (rest (startToken m)).length < fuel := by show (rest m).length < fuel; omega
  have hscan := scanLexer_from hw
  by_cases he : isAtEnd (startToken m) = true
  · exact ⟨_, _, by rw [hscan, if_pos he], g, m, hm, hg, Or.inl ⟨(isAtEnd_iff (startToken m)).mp he, rfl, rfl⟩⟩
  have hans : Answers (startToken m) (scanLexer fuel l) := by
    rw [hscan, if_neg he]
    refine .ite (fun hd => makeIntegerOrFloat_scanned hs hd hfm) fun _ => ?_
    refine .ite (fun ha => makeKeywordOrIdentifier_scanned hs ha hfm) fun _ => ?_
    rcases hr : rest (startToken m) with _ | ⟨c, cs⟩
    · exact absurd ((isAtEnd_iff _).mpr hr) he
    · rw [(advance_cons hr).1]
      exact scanOperator_scanned hs hr hfm
  obtain ⟨t, l', w, hl, hsc⟩ := hans
  exact ⟨t, l', hl, g, m, hm, hg, Or.inr ⟨w, hsc⟩⟩

theorem scanLexer_diverges {l : Lexer} (hu : Unclosed (l.start == 0) (rest l)) (fuel : Nat) :
    scanLexer fuel l = none := by
  rw [scanLexer, eatWhitespace_diverges hu fuel l rfl rfl]
  rfl

/-! ## More fuel -/

theorem bind_mono {α β : Type} {x y : Option α} {f g : α → Option β} (hxy : ∀ a, x = some a → y = some a)
    (hfg : ∀ a b, f a = some b → g a = some b) {b : β} (h : x.bind f = some b) : y.bind g = some b := by
  obtain ⟨a, ha, hb⟩ := Option.bind_eq_some_iff.mp h
  exact Option.bind_eq_some_iff.mpr ⟨a, hxy a ha, hfg a b hb⟩

theorem ite_mono {α : Type} {c : Prop} [Decidable c] {a b a' b' : Option α} (ha : ∀ r, a = some r → a' = some r)
    (hb : ∀ r, b = some r → b' = some r) {r : α} (h : (if c then a else b) = some r) :
    (if c then a' else b') = some r := by
  split at h
  · rename_i hc; rw [if_pos hc]; exact ha r h
  · rename_i hc; rw [if_neg hc]; exact hb r h

section

variable {n m : Nat} (hnm : n ≤ m)
include hnm

theorem makeSuffix_mono {isFloat : Bool} {l : Lexer} (r : Token × Lexer) (h : makeSuffix n isFloat l = some r) :
    makeSuffix m isFloat l = some r := by
  simp only [makeSuffix] at h ⊢
  exact ite_mono (fun _ h => h) (fun _ h => bind_mono (fun _ => whileLoop_mono hnm) (fun _ _ h => h) h) h

theorem makeIntegerOrFloat_mono {l : Lexer} (r : Token × Lexer) (h : makeIntegerOrFloat n l = some r) :
    makeIntegerOrFloat m l = some r := by
  refine bind_mono (fun _ => whileLoop_mono hnm) (fun l₁ r h => ?_) h
  refine bind_mono (fun _ h => ite_mono (fun _ => whileLoop_mono hnm) (fun _ h => h) h) (fun l₂ r h => ?_) h
  exact ite_mono (fun r => makeSuffix_mono hnm r) (fun _ h => h) h

theorem makeString_mono {l : Lexer} {c : Char} (r : Token × Lexer) (h : makeString n l c = some r) :
    makeString m l c = some r := bind_mono (fun _ => whileLoop_mono hnm) (fun _ _ h => h) h

theorem makeKeywordOrIdentifier_mono {l : Lexer} (r : Token × Lexer) (h : makeKeywordOrIdentifier n l = some r) :
    makeKeywordOrIdentifier m l = some r := bind_mono (fun _ => whileLoop_mono hnm) (fun _ _ h => h) h

theorem scanOperator_mono {l : Lexer} {c : Char} (r : Token × Lexer) (h : scanOperator n c l = some r) :
    scanOperator m c l = some r := by
  rw [scanOperator] at h ⊢
  -- only the string branch takes fuel
  repeat refine ite_mono (fun _ h => h) (fun _ h => ?_) h
  exact ite_mono (makeString_mono hnm) (fun _ h => h) h

theorem scanLexer_mono {l : Lexer} (r : Token × Lexer) (h : scanLexer n l = some r) : scanLexer m l = some r := by
  refine bind_mono (fun _ => eatWhitespace_mono hnm) (fun l₁ r h => ?_) h
  refine ite_mono (fun _ h => h) (fun _ h => ?_) h
  refine ite_mono (makeIntegerOrFloat_mono hnm) (fun _ h => ?_) h
  exact ite_mono (makeKeywordOrIdentifier_mono hnm) (scanOperator_mono hnm) h

end

end Xvr.Frontend.Lexer
