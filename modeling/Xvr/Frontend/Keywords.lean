/-
  Xvr.Frontend.Keywords — the lookup of a keyword's type (`xvr_keyword_types.cpp`), beside the
  lexer's.

  Both go through the same table. The lexer asks for a keyword of the token's length;
  `Xvr_findTypeByKeyword` compares as many characters as the text looked up has, so it takes
  the first keyword that begins with it.

  Proved:
  - `findTypeByKeyword_prefix`: that keyword's type, or EOF.
  - `lexer_classifies`: what the lexer makes of a source that is one word.
  - `keyword_lookup_iff`: the two agree exactly on the keywords other than `in` and on the words
    no keyword begins with.
-/

import Xvr.Frontend.LexerRuns
import Xvr.Runtime.StringUtils

namespace Xvr.Frontend.Lexer

open Xvr.Lib.CStrings Xvr.Runtime

/-- The loop of `Xvr_findTypeByKeyword`, from an entry of the table on. -/
def findTypeFrom (keyword : List Char) (length : Nat) : List (TokenType × List Char) → Option TokenType
  | [] => some .eof
  | entry :: entries => do
    if (← strncmp length keyword (entry.2 ++ [nul])) == 0 then return entry.1
    findTypeFrom keyword length entries

def findTypeByKeyword (keyword : CString) : Option TokenType := do
  let length ← safeStrlen keyword.memory 64
  findTypeFrom keyword.memory length keywordTypes

/-- A text in the shape of an identifier. -/
structure Word where
  first : Char
  others : List Char
  alpha : isAlphaChar first = true
  alnum : ∀ c ∈ others, (isDigitChar c || isAlphaChar c) = true

namespace Word

def text (w : Word) : List Char := w.first :: w.others

theorem noNul (w : Word) : nul ∉ w.text := by
  intro h
  rcases List.mem_cons.mp h with h | h
  · exact absurd (h ▸ w.alpha) (by decide)
  · exact absurd (w.alnum nul h) (by decide)

def cstring (w : Word) : CString := ⟨w.text, w.noNul⟩

def source (w : Word) : Source := ⟨w.text, w.noNul⟩

end Word

/-! ## The lookup -/

/-- The first keyword that begins with the text. -/
def firstBeginning (text : List Char) : Option (TokenType × List Char) := keywordTypes.find? fun k => text.isPrefixOf k.2

def beginningType (text : List Char) : TokenType := ((firstBeginning text).map (·.1)).getD .eof

theorem table_short : ∀ k ∈ keywordTypes, nul ∉ k.2 ∧ k.2.length < 64 := by decide +kernel

/-- A word shorter than the maximum is compared whole. -/
theorem strncmp_prefix (s : CString) {word : List Char} (hplain : nul ∉ word) (hshort : word.length < 64) :
    ∃ order, strncmp (min s.text.length 64) s.memory (word ++ [nul]) = some order ∧ (order = 0 ↔ s.text <+: word) := by
  have hcloses : Closes (min s.text.length 64) (word ++ [nul]) := .inr (by simp)
  obtain ⟨order, horder⟩ := strncmp_total (s.closes _) hcloses
  have hzero := strncmp_zero (s.closes _) hcloses
  rw [horder, Option.some.injEq, s.textWithin, textWithin_plain hplain] at hzero
  refine ⟨order, horder, hzero.trans ?_⟩
  by_cases hlen : s.text.length ≤ 64
  · rw [Nat.min_eq_left hlen, List.take_length, List.prefix_iff_eq_take]
  · have hlong : s.text.length > 64 := Nat.lt_of_not_le hlen
    refine iff_of_false (fun heq => ?_) (fun hprefix => ?_)
    · have hlength := congrArg List.length heq
      rw [List.length_take, List.length_take] at hlength
      omega
    · have hle := hprefix.length_le
      omega

theorem findTypeFrom_prefix (s : CString) {entries : List (TokenType × List Char)}
    (h : ∀ k ∈ entries, nul ∉ k.2 ∧ k.2.length < 64) :
    findTypeFrom s.memory (min s.text.length 64) entries =
      some (((entries.find? fun k => s.text.isPrefixOf k.2).map (·.1)).getD .eof) := by
  induction entries with
  | nil => rfl
  | cons k entries ih =>
    obtain ⟨hplain, hshort⟩ := h k List.mem_cons_self
    obtain ⟨order, horder, hzero⟩ := strncmp_prefix s hplain hshort
    have hrest := ih fun k' hk' => h k' (List.mem_cons_of_mem k hk')
    rw [← List.isPrefixOf_iff_prefix] at hzero
    by_cases hprefix : s.text.isPrefixOf k.2 = true
    · simp [findTypeFrom, horder, hzero.mpr hprefix, hprefix]
    · have hne : order ≠ 0 := fun heq => hprefix (hzero.mp heq)
      simp [findTypeFrom, horder, hne, hprefix, hrest]

theorem findTypeByKeyword_prefix (s : CString) : findTypeByKeyword s = some (beginningType s.text) := by
  rw [findTypeByKeyword, safeStrlen_cstring]
  exact findTypeFrom_prefix s table_short

/-! ## The lexer -/

theorem alpha_ne {c d : Char} (h : isAlphaChar c = true) (hd : isAlphaChar d = false) : c ≠ d := by
  rintro rfl
  rw [h] at hd
  cases hd

theorem alpha_not_digit {c : Char} (h : isAlphaChar c = true) : isDigitChar c = false := by
  rw [← Bool.not_eq_true]
  intro hd
  simp only [isDigitChar, isAlphaChar, Bool.and_eq_true, Bool.or_eq_true, decide_eq_true_eq, beq_iff_eq, Char.le_def,
    UInt32.le_iff_toNat_le] at h hd
  obtain ⟨-, hnine⟩ := hd
  rcases h with (⟨hupper, -⟩ | ⟨hlower, -⟩) | rfl
  · simp at hnine hupper
    omega
  · simp at hnine hlower
    omega
  · exact absurd hnine (by decide)

/-- A call on a letter is a call of `makeKeywordOrIdentifier`. -/
theorem scanLexer_alpha {l : Lexer} {c : Char} {cs : List Char} (hr : rest l = c :: cs) (hc : isAlphaChar c = true)
    (fuel : Nat) : scanLexer (fuel + 1) l = makeKeywordOrIdentifier (fuel + 1) (startToken l) := by
  have hblank : eatOne fuel l = some none := by
    have hne {d : Char} (hd : isAlphaChar d = false) : (peek l == d) = false :=
      beq_eq_false_iff_ne.mpr (peek_cons hr ▸ alpha_ne hc hd)
    simp [eatOne, hne (d := ' ') rfl, hne (d := '\r') rfl, hne (d := '\n') rfl, hne (d := '\t') rfl,
      hne (d := '#') rfl, hne (d := '/') rfl]
  have hskip : eatWhitespace (fuel + 1) l = some l := by simp [eatWhitespace, hblank]
  have hstart : rest (startToken l) = c :: cs := hr
  have hpeek : peek (startToken l) = c := peek_cons hstart
  have halpha : isAlpha (startToken l) = true := by rw [isAlpha, hpeek, hc]
  have hdigit : isDigit (startToken l) = false := by
    rw [isDigit, hpeek]
    exact alpha_not_digit hc
  rw [scanLexer_from hskip, isAtEnd_cons hstart, hdigit, halpha]
  rfl

def lexedType (text : List Char) : TokenType := (findKeyword text).getD .identifier

/-- A source that is one word is one token, of the keyword's type if it is one. -/
theorem lexer_classifies (w : Word) :
    ∃ t l', Returns (initLexer w.source) t l' ∧ t.type = lexedType w.text ∧ t.lexeme = w.text := by
  have hr : rest (initLexer w.source) = w.first :: w.others := rfl
  have hstart : rest (startToken (initLexer w.source)) = w.first :: w.others := hr
  have hcond (l : Lexer) : (isDigit l || isAlpha l) = (isDigitChar (peek l) || isAlphaChar (peek l)) := rfl
  have hfuel : (rest (skip (startToken (initLexer w.source)))).length < w.others.length + 1 := by
    rw [skip_rest hstart]
    exact Nat.lt_succ_self _
  obtain ⟨word, l', hloop, hmoves, -, hstop⟩ :=
    skipWhile_moves (fun c => isDigitChar c || isAlphaChar c) (by decide) hcond hfuel
  -- nothing of the word is left, or the loop had gone on
  have hend : rest l' = [] := by
    have htext := hmoves.text
    rw [skip_rest hstart] at htext
    rcases hleft : rest l' with _ | ⟨c, cs⟩
    · rfl
    · rw [hleft] at htext
      have halnum := w.alnum c (by rw [htext]; simp)
      rw [peek_cons hleft, halnum] at hstop
      cases hstop
  have hword : word = w.others := by
    have htext := hmoves.text
    rw [skip_rest hstart, hend, List.append_nil] at htext
    exact htext.symm
  have hall := (skip_cons hstart).trans hmoves
  have hslice : slice l'.source l'.start (l'.current - l'.start) = w.text := by
    rw [slice_moves hall rfl, hword]
    rfl
  refine ⟨makeSpanToken l' (lexedType w.text), l', ⟨w.others.length + 1, ?_⟩, rfl, hslice⟩
  rw [scanLexer_alpha hr w.alpha, makeKeywordOrIdentifier, hloop, Option.bind_eq_bind, Option.bind_some, hslice]
  rfl

/-! ## Agreement -/

/-- The lookup has a keyword's type exactly when the lexer takes the text for the keyword, and
    EOF when it takes it for an identifier. -/
def LookupAgrees (w : Word) : Prop :=
  ∃ t l' type, Returns (initLexer w.source) t l' ∧ t.lexeme = w.text ∧ findTypeByKeyword w.cstring = some type ∧
    (∀ k ∈ keywordTypes, type = k.1 ↔ t.type = k.1) ∧ (t.type = .identifier → type = .eof)

theorem lookupAgrees_iff (w : Word) :
    LookupAgrees w ↔ (∀ k ∈ keywordTypes, beginningType w.text = k.1 ↔ lexedType w.text = k.1) ∧
      (lexedType w.text = .identifier → beginningType w.text = .eof) := by
  obtain ⟨t, l', hreturns, htype, hlexeme⟩ := lexer_classifies w
  have hlookup : findTypeByKeyword w.cstring = some (beginningType w.text) := findTypeByKeyword_prefix w.cstring
  rw [← htype]
  constructor
  · rintro ⟨t', l'', type, hreturns', -, hfound, h⟩
    obtain ⟨rfl, -⟩ := returns_unique hreturns hreturns'
    obtain rfl := Option.some.inj (hlookup.symm.trans hfound)
    exact h
  · exact fun h => ⟨t, l', _, hreturns, hlexeme, hlookup, h⟩

/-! What the table is like. -/

theorem table_lexed : ∀ k ∈ keywordTypes, lexedType k.2 = k.1 := by decide +kernel

theorem table_beginning : ∀ k ∈ keywordTypes, beginningType k.2 = k.1 ↔ k.2 ≠ ['i', 'n'] := by decide +kernel

theorem table_plain : ∀ k ∈ keywordTypes, k.1 ≠ .eof ∧ k.1 ≠ .identifier := by decide +kernel

theorem lexedType_identifier {text : List Char} (h : ∀ k ∈ keywordTypes, k.2 ≠ text) : lexedType text = .identifier := by
  have hnone : findKeyword text = none := by
    rw [findKeyword, Option.map_eq_none_iff, List.find?_eq_none]
    intro k hk
    simp [h k hk]
  rw [lexedType, hnone]
  rfl

theorem beginningType_eof {text : List Char} : beginningType text = .eof ↔ ∀ k ∈ keywordTypes, ¬ text <+: k.2 := by
  rw [beginningType]
  rcases hfirst : firstBeginning text with _ | k
  · simpa [firstBeginning, List.find?_eq_none] using hfirst
  · have hk := List.mem_of_find?_eq_some hfirst
    have hprefix := List.find?_some hfirst
    refine iff_of_false (table_plain k hk).1 fun h => h k hk (List.isPrefixOf_iff_prefix.mp hprefix)

/-- They agree exactly on the keywords but `in`, and on what no keyword begins with. -/
theorem keyword_lookup_iff (w : Word) :
    LookupAgrees w ↔ (∃ k ∈ keywordTypes, k.2 = w.text ∧ k.2 ≠ ['i', 'n']) ∨ ∀ k ∈ keywordTypes, ¬ w.text <+: k.2 := by
  rw [lookupAgrees_iff, ← beginningType_eof]
  by_cases hkeyword : ∃ k ∈ keywordTypes, k.2 = w.text
  · obtain ⟨k, hk, htext⟩ := hkeyword
    have hlexed : lexedType w.text = k.1 := htext ▸ table_lexed k hk
    have hbeginning : beginningType w.text = k.1 ↔ k.2 ≠ ['i', 'n'] := htext ▸ table_beginning k hk
    have hnotEof : beginningType w.text ≠ .eof := by
      rw [ne_eq, beginningType_eof]
      exact fun h => h k hk (htext ▸ List.prefix_refl _)
    rw [hlexed]
    constructor
    · exact fun h => .inl ⟨k, hk, htext, hbeginning.mp ((h.1 k hk).mpr rfl)⟩
    · rintro (⟨k', hk', htext', hne⟩ | heof)
      · rw [hbeginning.mpr (htext.trans htext'.symm ▸ hne)]
        exact ⟨fun _ _ => Iff.rfl, fun h => absurd h (table_plain k hk).2⟩
      · exact absurd heof hnotEof
  · have hnone (k : TokenType × List Char) (hk : k ∈ keywordTypes) : k.2 ≠ w.text := fun heq => hkeyword ⟨k, hk, heq⟩
    rw [lexedType_identifier hnone]
    constructor
    · exact fun h => .inr (h.2 rfl)
    · rintro (⟨k, hk, htext, -⟩ | heof)
      · exact absurd htext (hnone k hk)
      · rw [heof]
        have hplain (k : TokenType × List Char) (hk : k ∈ keywordTypes) : .eof = k.1 ↔ .identifier = k.1 :=
          iff_of_false (Ne.symm (table_plain k hk).1) (Ne.symm (table_plain k hk).2)
        exact ⟨hplain, fun _ => rfl⟩

/-- `i` begins `int`, and is no keyword. -/
theorem prefix_found : ¬ ∀ w, LookupAgrees w := by
  intro h
  have hagrees := (lookupAgrees_iff ⟨'i', [], by decide, List.forall_mem_nil _⟩).mp (h _)
  exact absurd (hagrees.2 (by decide)) (by decide)

end Xvr.Frontend.Lexer
