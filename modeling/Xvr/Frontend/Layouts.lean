/-
  Xvr.Frontend.Layouts — which sources the lexer takes apart without an error.

  `Laid start offset line text tokens`: the text consists of gaps and spelled tokens in
  turns, ending with a gap. `start` is where the token before it began, which decides
  whether a `#!` line may still be skipped; `offset` and `line` are where the text begins.

  Proved:
  - `lexes_iff_laid`: a run up to EOF answers exactly these tokens and no error, if and only
    if the source is laid out as them.
-/

import Xvr.Frontend.Spellings

namespace Xvr.Frontend.Lexer

open Xvr.Lib.Loop

/-! ## Where skipping stops -/

/-- Nothing is skipped in front of the text. -/
structure Solid (text : List Char) : Prop where
  head : text.headD '\x00' ∉ [' ', '\r', '\n', '\t', '#']
  opener : ∀ o ∈ openers, ¬ o <+: text

theorem solid_nil : Solid [] := ⟨by decide, by decide⟩

theorem peekNext_opener {l : Lexer} (hp : peek l = '/') {c : Char} (hc : c ≠ '\x00') :
    peekNext l = c ↔ ['/', c] <+: rest l := by
  obtain ⟨cs, hr⟩ := rest_of_peek hp (by decide)
  rw [peekNext_cons hr, hr, List.cons_prefix_cons, and_iff_right rfl]
  cases cs with
  | nil => simpa using hc.symm
  | cons d ds => simp [List.cons_prefix_cons, eq_comm]

theorem eatOne_solid {l : Lexer} (h : Solid (rest l)) (fuel : Nat) : eatOne fuel l = some none := by
  have hhead := h.head
  rw [← peek_eq] at hhead
  simp only [List.mem_cons, List.not_mem_nil, or_false, not_or] at hhead
  by_cases hslash : peek l = '/'
  · have hline : peekNext l ≠ '/' := fun hn => h.opener _ (by decide) ((peekNext_opener hslash (by decide)).mp hn)
    have hblock : peekNext l ≠ '*' := fun hn => h.opener _ (by decide) ((peekNext_opener hslash (by decide)).mp hn)
    rw [eatOne_slash hslash, if_neg (by simpa using hline), if_neg (by simpa using hblock)]
  · simp [eatOne, hhead, hslash]

theorem eatOne_stops {l : Lexer} {fuel : Nat} (h : eatOne fuel l = some none) : ∀ o ∈ openers, ¬ o <+: rest l := by
  have hmap (x : Option Lexer) : some <$> x ≠ some none := by cases x <;> nofun
  intro o ho hbefore
  have hpeek : peek l = '/' := by
    have hall : ∀ o ∈ openers, o.headD '\x00' = '/' ∧ o ≠ [] := by decide
    obtain ⟨hhead, hne⟩ := hall o ho
    obtain ⟨tail, htail⟩ := hbefore
    rw [peek_eq, ← htail]
    cases o with
    | nil => exact absurd rfl hne
    | cons c cs => exact hhead
  rw [eatOne_slash hpeek] at h
  rcases List.mem_cons.mp ho with rfl | ho
  · rw [if_pos (beq_iff_eq.mpr ((peekNext_opener hpeek (by decide)).mpr hbefore))] at h
    exact hmap _ h
  · rw [List.mem_singleton.mp ho] at hbefore
    have hnext := (peekNext_opener hpeek (by decide)).mpr hbefore
    rw [hnext, if_neg (by decide), if_pos (by decide)] at h
    exact hmap _ h

/-- The whitespace loop ends where no comment begins. -/
theorem eatWhitespace_stops {n : Nat} {l m : Lexer} (h : eatWhitespace n l = some m) : ∀ o ∈ openers, ¬ o <+: rest m := by
  induction n generalizing l with
  | zero => cases h
  | succ n ih =>
    obtain ⟨o, ho, hr⟩ := Option.bind_eq_some_iff.mp h
    cases o with
    | none =>
      cases hr
      exact eatOne_stops ho
    | some l₁ => exact ih hr

/-! ## Gaps -/

/-- A line without a newline leads to the end of the source. -/
theorem LineEnd.last {l l' : Lexer} (h : LineEnd l l') (hn : '\n' ∉ rest l) : Moves l l' (rest l) ∧ rest l' = [] := by
  obtain ⟨w, -, hm | ⟨hm, hend⟩⟩ := h
  · exact absurd (by rw [hm.text]; simp) hn
  · have htext := hm.text
    rw [hend, List.append_nil] at htext
    exact ⟨htext ▸ hm, hend⟩

theorem eatWhitespace_end {l : Lexer} (h : rest l = []) (n : Nat) : eatWhitespace (n + 1) l = some l := by
  rw [eatWhitespace, eatOne_solid (h ▸ solid_nil)]
  rfl

/-- A gap is skipped as a whole, and nothing behind it. -/
theorem eatWhitespace_gap {shebang : Bool} {after gap : List Char} (h : Gap shebang after gap) (hsolid : Solid after)
    {l : Lexer} (hstart : (l.start == 0) = shebang) (hr : rest l = gap ++ after) {n : Nat}
    (hf : (rest l).length + 2 ≤ n) : ∃ m, eatWhitespace n l = some m ∧ Moves l m gap := by
  induction h generalizing l n with
  | nil =>
    obtain ⟨k, rfl⟩ : ∃ k, n = k + 1 := ⟨n - 1, by omega⟩
    exact ⟨l, by rw [eatWhitespace, eatOne_solid (hr ▸ hsolid)]; rfl, Moves.refl l⟩
  | @cons v w hv _ ih =>
    obtain ⟨k, rfl⟩ : ∃ k, n = k + 1 := ⟨n - 1, by omega⟩
    rw [List.append_assoc] at hr
    obtain ⟨l₁, hone, hm⟩ := eatOne_blank (hstart ▸ hv) hr (by omega : (rest l).length < k)
    have hr₁ : rest l₁ = w ++ after := List.append_cancel_left (hm.text.symm.trans hr)
    have hlen : (rest l₁).length + 2 ≤ k := by
      have := hm.length
      have := List.length_pos_iff.mpr (blank_ne_nil hv)
      omega
    obtain ⟨m, hrun, hm'⟩ := ih (hm.start ▸ hstart) hr₁ hlen
    exact ⟨m, by rw [eatWhitespace, hone]; exact hrun, hm.trans hm'⟩
  | @lastLine body hafter hbody =>
    obtain ⟨k, rfl⟩ : ∃ k, n = k + 2 := ⟨n - 2, by omega⟩
    rw [hafter, List.append_nil] at hr
    obtain ⟨l', hl, hend⟩ := eatLine_moves hr (by decide) (by omega : (rest l).length < k + 1)
    obtain ⟨hm, hlast⟩ := hend.last (by simpa [hr] using hbody)
    have hnext : peekNext l = '/' := peekNext_cons hr
    have hone : eatOne (k + 1) l = some (some l') := by
      rw [eatOne_slash (peek_cons hr), hnext, if_pos (by decide), hl]
      rfl
    exact ⟨l', by rw [eatWhitespace, hone]; exact eatWhitespace_end hlast k, hr ▸ hm⟩
  | @lastShebang body hafter hshebang hbody =>
    obtain ⟨k, rfl⟩ : ∃ k, n = k + 2 := ⟨n - 2, by omega⟩
    rw [hafter, List.append_nil] at hr
    obtain ⟨l', hl, hend⟩ := eatShebang_moves (by omega : (rest l).length < k + 1)
    obtain ⟨hm, hlast⟩ := hend.last (by simpa [hr] using hbody)
    have hnext : peekNext l = '!' := peekNext_cons hr
    have hone : eatOne (k + 1) l = some (some l') := by
      rw [eatOne_hash (peek_cons hr), hnext, hstart, hshebang, if_pos (by decide), hl]
      rfl
    exact ⟨l', by rw [eatWhitespace, hone]; exact eatWhitespace_end hlast k, hr ▸ hm⟩

/-! ## Tokens stand solid -/

theorem mem_extensions {text o : List Char} (ho : o ∈ openers) (hbefore : text <+: o) (hne : text ≠ o) :
    o.drop text.length ∈ extensions text := by
  have hmem : o ∈ operators.map (·.2) ++ openers := List.mem_append_right _ ho
  have hlonger : (text.isPrefixOf o && o != text) = true := by
    simp [List.isPrefixOf_iff_prefix, hbefore, Ne.symm hne]
  exact List.mem_map.mpr ⟨o, List.mem_filter.mpr ⟨hmem, hlonger⟩, rfl⟩

theorem operator_heads_solid : ∀ o ∈ operators, o.2.headD '\x00' ∉ [' ', '\r', '\n', '\t', '#'] := by decide

theorem openers_no_prefix : ∀ o ∈ operators, ∀ c ∈ openers, ¬ c <+: o.2 := by decide

/-- A longer operator would be a comment. -/
theorem operator_solid {type : TokenType} {text tail : List Char} (ho : (type, text) ∈ operators)
    (hlong : ∀ e ∈ extensions text, ¬ e <+: tail) : Solid (text ++ tail) := by
  obtain ⟨hne, -, -⟩ := operators_heads _ ho
  refine ⟨?_, fun o hopener hbefore => ?_⟩
  · have hhead := operator_heads_solid _ ho
    cases text with
    | nil => exact absurd rfl hne
    | cons c cs => exact hhead
  · rcases List.prefix_or_prefix_of_prefix (List.prefix_append text tail) hbefore with h | h
    · by_cases heq : text = o
      · exact openers_no_prefix _ ho o hopener (heq ▸ List.prefix_refl _)
      · refine hlong _ (mem_extensions hopener h heq) ?_
        obtain ⟨e, rfl⟩ := h
        rw [List.drop_left]
        exact (List.prefix_append_right_inj text).mp hbefore
    · exact openers_no_prefix _ ho o hopener h

theorem solid_cons {c : Char} {cs : List Char} (hc : c ∉ [' ', '\r', '\n', '\t', '#', '/']) : Solid (c :: cs) := by
  simp only [List.mem_cons, List.not_mem_nil, or_false, not_or] at hc
  refine ⟨by simp [hc], fun o ho hbefore => ?_⟩
  simp only [openers, List.mem_cons, List.not_mem_nil, or_false] at ho
  rcases ho with rfl | rfl <;> exact hc.2.2.2.2.2 (List.cons_prefix_cons.mp hbefore).1.symm

theorem alpha_solid {c : Char} (h : isAlphaChar c = true) : c ∉ [' ', '\r', '\n', '\t', '#', '/'] := by
  have hnone : ∀ d ∈ [' ', '\r', '\n', '\t', '#', '/'], isAlphaChar d = false := by simp [isAlphaChar]
  exact fun hc => absurd h (by rw [hnone c hc]; exact Bool.false_ne_true)

theorem digit_solid {c : Char} (h : isDigitChar c = true) : c ∉ [' ', '\r', '\n', '\t', '#', '/'] := by
  have hnone : ∀ d ∈ [' ', '\r', '\n', '\t', '#', '/'], isDigitChar d = false := by simp [isDigitChar]
  exact fun hc => absurd h (by rw [hnone c hc]; exact Bool.false_ne_true)

theorem spells_solid {type : TokenType} {text lexeme tail : List Char} (h : Spells type text lexeme tail) :
    Solid (text ++ tail) := by
  cases h with
  | word w _ => exact solid_cons (alpha_solid w.alpha)
  | number hnumber _ =>
    obtain ⟨d, ds, rfl, hd⟩ := hnumber.head
    exact solid_cons (digit_solid hd)
  | suffixed s _ _ =>
    obtain ⟨d, ds, hnumber, hd⟩ := s.isNumber.head
    rw [Suffixed.text, hnumber]
    exact solid_cons (digit_solid hd)
  | string _ _ => exact solid_cons (by decide)
  | operator ho hlong => exact operator_solid ho hlong

theorem spells_pos {type : TokenType} {text lexeme tail : List Char} (h : Spells type text lexeme tail) : text ≠ [] := by
  cases h with
  | word w _ => exact List.cons_ne_nil _ _
  | number hnumber _ =>
    obtain ⟨d, ds, rfl, -⟩ := hnumber.head
    exact List.cons_ne_nil _ _
  | suffixed s _ _ => simp [Suffixed.text]
  | string _ _ => simp
  | operator ho _ => exact (operators_heads _ ho).1

theorem lexedType_plain (text : List Char) : Plain (lexedType text) := findKeyword_plain text

theorem operators_plain : ∀ o ∈ operators, Plain o.1 := by decide

theorem spells_type {type : TokenType} {text lexeme tail : List Char} (h : Spells type text lexeme tail) :
    type ≠ .eof ∧ type ≠ .error := by
  cases h with
  | word w _ => exact ⟨(lexedType_plain _).1, (lexedType_plain _).2.1⟩
  | @number isFloat _ _ _ _ => cases isFloat <;> decide
  | suffixed s htype _ => exact ⟨(suffixType_plain htype).1, (suffixType_plain htype).2.1⟩
  | string _ _ => decide
  | operator ho _ => exact ⟨(operators_plain _ ho).1, (operators_plain _ ho).2.1⟩

/-! ## One call -/

theorem scanLexer_token {l m : Lexer} {fuel : Nat} (h : eatWhitespace fuel l = some m) :
    scanLexer fuel l =
      if isAtEnd (startToken m) then some (makeToken (startToken m) .eof, startToken m) else scanToken fuel (startToken m) :=
  scanLexer_from h

/-- What a call that returns did: skip a gap, then answer EOF or scan a token. -/
theorem returns_scans {l l' : Lexer} {t : Token} (h : Returns l t l') :
    ∃ gap m fuel, Moves l m gap ∧ Gap (l.start == 0) (rest m) gap ∧ (∀ o ∈ openers, ¬ o <+: rest m) ∧
      (rest m).length < fuel ∧ (rest m = [] ∧ t = makeToken (startToken m) .eof ∧ l' = startToken m ∨
        rest m ≠ [] ∧ scanToken fuel (startToken m) = some (t, l')) := by
  have hclosed := (returns_iff l).mp ⟨t, l', h⟩
  obtain ⟨gap, m, hskip, hm, hgap⟩ := eatWhitespace_total (Nat.le_refl _) hclosed
  obtain ⟨t', l'', hrun, -⟩ := scanLexer_total (Nat.le_refl _) hclosed
  obtain ⟨rfl, rfl⟩ := returns_unique h ⟨_, hrun⟩
  refine ⟨gap, m, (rest l).length + 2, hm, hgap, eatWhitespace_stops hskip, by have := hm.length; omega, ?_⟩
  rw [scanLexer_token hskip] at hrun
  by_cases hend : isAtEnd (startToken m) = true
  · rw [if_pos hend] at hrun
    obtain ⟨rfl, rfl⟩ := Prod.mk.inj (Option.some.inj hrun)
    exact .inl ⟨(isAtEnd_iff (startToken m)).mp hend, rfl, rfl⟩
  · rw [if_neg hend] at hrun
    exact .inr ⟨fun hnil => hend ((isAtEnd_iff (startToken m)).mpr hnil), hrun⟩

/-- A call in front of a gap and a spelled token answers the token. -/
theorem returns_spelled {type : TokenType} {text lexeme tail gap : List Char} {l : Lexer}
    (hgap : Gap (l.start == 0) (text ++ tail) gap) (hspells : Spells type text lexeme tail)
    (hr : rest l = gap ++ (text ++ tail)) :
    ∃ m l', Moves l m gap ∧ Moves (startToken m) l' text ∧ Returns l ⟨type, lexeme, l'.line⟩ l' := by
  obtain ⟨m, hskip, hm⟩ := eatWhitespace_gap hgap (spells_solid hspells) rfl hr (Nat.le_refl _)
  have hrest : rest (startToken m) = text ++ tail := List.append_cancel_left (hm.text.symm.trans hr)
  have hlen : (rest (startToken m)).length < (rest l).length + 2 := by
    have hshort := hm.length
    show (rest m).length < _
    omega
  have hs : AtStart (startToken m) := rfl
  obtain ⟨l', hrun, hm'⟩ := spells_scanned hspells hs hrest hlen
  refine ⟨m, l', hm, hm', _, (scanLexer_token hskip).trans ?_⟩
  have hend : ¬ isAtEnd (startToken m) = true := by
    rw [isAtEnd_iff, hrest]
    simp [spells_pos hspells]
  rw [if_neg hend, hrun]

/-! ## Runs -/

/-- The text is gaps and spelled tokens in turns. The token list ends with EOF. -/
inductive Laid : Nat → Nat → Nat → List Char → List Token → Prop
  | finish {start offset line : Nat} {gap : List Char} : Gap (start == 0) [] gap →
      Laid start offset line gap [⟨.eof, [], line + gap.count '\n'⟩]
  | token {start offset line : Nat} {gap text lexeme tail : List Char} {type : TokenType} {tokens : List Token} :
      Gap (start == 0) (text ++ tail) gap → Spells type text lexeme tail →
      Laid (offset + gap.length) (offset + gap.length + text.length) (line + gap.count '\n' + text.count '\n') tail tokens →
      Laid start offset line (gap ++ (text ++ tail)) (⟨type, lexeme, line + gap.count '\n' + text.count '\n'⟩ :: tokens)

/-- The calls from `l` on answer these tokens, the last of them EOF. -/
def Lexes (l : Lexer) (tokens : List Token) : Prop :=
  ∃ calls l₁ t l₂, Calls l calls l₁ ∧ Returns l₁ t l₂ ∧ t.type = .eof ∧ tokens = calls.map (·.1) ++ [t]

theorem Lexes.cons {l l' : Lexer} {t : Token} {tokens : List Token} (h : Returns l t l') (ht : t.type ≠ .eof)
    (hlexes : Lexes l' tokens) : Lexes l (t :: tokens) := by
  obtain ⟨calls, l₁, t₁, l₂, hcalls, hret, heof, rfl⟩ := hlexes
  exact ⟨(t, l') :: calls, l₁, t₁, l₂, .cons h ht hcalls, hret, heof, rfl⟩

theorem eofToken (m : Lexer) : makeToken (startToken m) .eof = ⟨.eof, [], m.line⟩ := by
  simp [makeToken, startToken, slice]

/-- At the end of the source a gap leads to EOF. -/
theorem returns_eof {l : Lexer} (hgap : Gap (l.start == 0) [] (rest l)) :
    ∃ l', Returns l ⟨.eof, [], l.line + (rest l).count '\n'⟩ l' := by
  obtain ⟨m, hskip, hm⟩ := eatWhitespace_gap hgap solid_nil rfl (List.append_nil _).symm (Nat.le_refl _)
  have hend : rest m = [] := List.append_cancel_left (hm.text.symm.trans (List.append_nil _).symm)
  refine ⟨startToken m, _, (scanLexer_token hskip).trans ?_⟩
  rw [if_pos ((isAtEnd_iff (startToken m)).mpr hend), eofToken, hm.line]

/-- A laid out text is taken apart as it is laid out. -/
theorem laid_lexes {start offset line : Nat} {text : List Char} {tokens : List Token}
    (h : Laid start offset line text tokens) {l : Lexer} (hstart : l.start = start) (hcurrent : l.current = offset)
    (hline : l.line = line) (hr : rest l = text) : Lexes l tokens ∧ ∀ t ∈ tokens, t.type ≠ .error := by
  induction h generalizing l with
  | finish hgap =>
    subst hstart hline
    obtain ⟨l', hret⟩ := returns_eof (hr ▸ hgap)
    exact ⟨⟨[], l, _, l', .nil l, hret, rfl, by rw [hr]; rfl⟩, by simp⟩
  | token hgap hspells _ ih =>
    subst hstart hcurrent hline
    obtain ⟨m, l', hm, hm', hret⟩ := returns_spelled hgap hspells hr
    have hrest : rest l' = _ :=
      List.append_cancel_left (hm'.text.symm.trans (List.append_cancel_left (hm.text.symm.trans hr)))
    have hl : l'.line = _ := hm'.line.trans (congrArg (· + _) hm.line)
    obtain ⟨hlexes, hclean⟩ := ih (hm'.start.trans hm.current) (hm'.current.trans (congrArg (· + _) hm.current)) hl hrest
    obtain ⟨heof, herror⟩ := spells_type hspells
    refine ⟨.cons (hl ▸ hret) heof hlexes, ?_⟩
    rintro t (_ | ⟨_, ht⟩)
    · exact herror
    · exact hclean t ht

theorem returns_line {l l' : Lexer} {t : Token} (h : Returns l t l') (ht : t.type ≠ .eof) : t.line = l'.line := by
  obtain ⟨g, m, -, -, ⟨-, heof, -⟩ | ⟨w, hscanned⟩⟩ := returns_call h
  · exact absurd heof ht
  · exact hscanned.line

/-- A run without an error takes a laid out text apart. -/
theorem calls_laid {l l₁ l₂ : Lexer} {calls : List (Token × Lexer)} {t : Token} (hcalls : Calls l calls l₁)
    (hret : Returns l₁ t l₂) (heof : t.type = .eof) (hclean : ∀ c ∈ calls, c.1.type ≠ .error) :
    Laid l.start l.current l.line (rest l) (calls.map (·.1) ++ [t]) := by
  induction hcalls with
  | nil l =>
    obtain ⟨gap, m, fuel, hm, hgap, hopen, hfuel, ⟨hend, rfl, rfl⟩ | ⟨hne, hrun⟩⟩ := returns_scans hret
    · rw [hend] at hgap
      rw [eofToken, hm.line, hm.text, hend, List.append_nil]
      exact .finish hgap
    · have hspelled := scanned_spells (rfl : AtStart (startToken m)) hne hopen hfuel
      obtain ⟨text, hspells, -⟩ := hspelled t l₂ hrun (by rw [heof]; decide)
      exact absurd heof (spells_type hspells).1
  | @cons l l' _ t' _ hret' ht' _ ih =>
    obtain ⟨herror, hclean⟩ := List.forall_mem_cons.mp hclean
    obtain ⟨gap, m, fuel, hm, hgap, hopen, hfuel, ⟨-, rfl, -⟩ | ⟨hne, hrun⟩⟩ := returns_scans hret'
    · exact absurd rfl ht'
    · obtain ⟨text, hspells, hm'⟩ := scanned_spells (rfl : AtStart (startToken m)) hne hopen hfuel t' l' hrun herror
      have hrest : rest m = text ++ rest l' := hm'.text
      have hline : l'.line = l.line + gap.count '\n' + text.count '\n' := hm'.line.trans (congrArg (· + _) hm.line)
      have hbehind := ih hret hclean
      rw [hm'.start.trans hm.current, hm'.current.trans (congrArg (· + _) hm.current), hline] at hbehind
      have htoken : t' = ⟨t'.type, t'.lexeme, l.line + gap.count '\n' + text.count '\n'⟩ := by
        rw [← hline, ← returns_line hret' ht']
      rw [hm.text, hrest, List.map_cons, List.cons_append, htoken]
      exact .token (hrest ▸ hgap) hspells hbehind

/-- The lexer takes a source apart into these tokens without an error, if and only if it is
    laid out as them. -/
theorem lexes_iff_laid (source : Source) (tokens : List Token) :
    (Lexes (initLexer source) tokens ∧ ∀ t ∈ tokens, t.type ≠ .error) ↔ Laid 0 0 1 source.text tokens := by
  constructor
  · rintro ⟨⟨calls, l₁, t, l₂, hcalls, hret, heof, rfl⟩, hclean⟩
    exact calls_laid hcalls hret heof fun c hc => hclean c.1 (by simp [List.mem_map.mpr ⟨c, hc, rfl⟩])
  · exact fun h => laid_lexes h rfl rfl rfl rfl

end Xvr.Frontend.Lexer
