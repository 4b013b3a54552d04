/-
  Xvr.Frontend.StringLiterals — from a string token to its literal (`string` of
  `xvr_parser.cpp`).

  The decoder is modelled once more here, with its index, its buffer and the places it reads
  and writes; `unescape` is what it computes.

  Proved:
  - `decode_runs`: the decoder ends, reads at most the closing quote, writes only inside its
    buffer, and gives what `unescape` gives.
  - `string_round_trip`: an escaped string is lexed and decoded to itself, and the decoder
    stays inside its bounds on every string token.
-/

import Xvr.Frontend.StringTokens
import Xvr.Frontend.ArithmeticFolds

namespace Xvr.Frontend.Parse

open Xvr.Runtime Lexer Xvr.Lib.Loop

/-! ## The decoder -/

/-- The decoder between two turns: `i`, what the buffer holds up to `strLength`, the
    characters that named no escape, and the places read and written. -/
structure Decoder where
  index : Nat
  buffer : List Char
  refused : List Char
  reads : List Nat
  writes : List Nat

namespace Decoder

def read (d : Decoder) (i : Nat) : Decoder := { d with reads := i :: d.reads }

/-- `buffer[strLength++] = c`. -/
def write (d : Decoder) (c : Char) : Decoder :=
  { d with buffer := d.buffer ++ [c], writes := d.buffer.length :: d.writes }

def refuse (d : Decoder) (c : Char) : Decoder := { d with refused := d.refused ++ [c] }

def step (d : Decoder) (count : Nat) : Decoder := { d with index := d.index + count }

/-- One turn of the loop of `string`, on the character at `i` and the one behind it. -/
def turn (d : Decoder) (c escaped : Char) : Decoder :=
  if c ≠ '\\' then ((d.read d.index).write c).step 1
  else
    match unescapeChar escaped with
    | some c => (((d.read d.index).read (d.index + 1)).write c).step 2
    | none => (((d.read d.index).read (d.index + 1)).refuse escaped).step 2

end Decoder

/-- The turn over the source from the lexeme on. -/
def decodeTurn (text : List Char) (d : Decoder) : Decoder :=
  d.turn (text.getD d.index '\x00') (text.getD (d.index + 1) '\x00')

def decode (length : Nat) (text : List Char) : Option Decoder :=
  whileLoop (fun d => decide (d.index < length)) (decodeTurn text) (length + 1) ⟨0, [], [], [], []⟩

/-- The decoder read no further than the closing quote, and wrote into its buffer. -/
structure InBounds (length : Nat) (d : Decoder) : Prop where
  reads : ∀ i ∈ d.reads, i ≤ length
  writes : ∀ i ∈ d.writes, i < length

/-- The parser after the errors of some refused characters. -/
def refusedAll (p : Parser) (refused : List Char) : Parser :=
  refused.foldl (fun p c => raise p.previous (escapeMessage c) p) p

/-! ## Equations of `unescape` -/

theorem unescape_plain {c : Char} (h : c ≠ '\\') (cs : List Char) :
    unescape (c :: cs) = (do return c :: (← unescape cs)) := by
  rw [unescape.eq_def]
  split <;> simp_all

theorem unescape_known {c e : Char} (h : unescapeChar e = some c) (cs : List Char) :
    unescape ('\\' :: e :: cs) = (do return c :: (← unescape cs)) := by
  rw [unescape, h]

theorem unescape_unknown {e : Char} (h : unescapeChar e = none) (cs : List Char) :
    unescape ('\\' :: e :: cs) = (do
      let p ← get
      error p.previous (escapeMessage e)
      unescape cs) := by
  rw [unescape, h]

theorem unescape_last : unescape ['\\'] = pure ['"'] := by rw [unescape]

/-! ## The loop -/

/-- A text put before the text a program answers. -/
def putBefore (text : List Char) (m : P (List Char)) : P (List Char) := do return text ++ (← m)

theorem putBefore_cons (text : List Char) (c : Char) (m : P (List Char)) :
    putBefore text (do return c :: (← m)) = putBefore (text ++ [c]) m := by
  funext p
  simp only [putBefore, bind, EStateM.bind, pure, EStateM.pure]
  cases m p <;> simp

theorem putBefore_pure (text rest : List Char) (p : Parser) : putBefore text (pure rest) p = .ok (text ++ rest) p := rfl

/-- Between two turns: what is left of the lexeme is decoded behind what the buffer holds. -/
structure Decoding (lexeme : List Char) (p : Parser) (d : Decoder) : Prop where
  inBounds : InBounds lexeme.length d
  short : d.buffer.length ≤ d.index
  ahead : unescape lexeme p = putBefore d.buffer (unescape (lexeme.drop d.index)) (refusedAll p d.refused)

theorem InBounds.read {length i : Nat} {d : Decoder} (h : InBounds length d) (hi : i ≤ length) :
    InBounds length (d.read i) :=
  ⟨fun j hj => (List.mem_cons.mp hj).elim (fun hj => hj ▸ hi) (h.reads j), h.writes⟩

theorem InBounds.write {length : Nat} {d : Decoder} (h : InBounds length d) (hd : d.buffer.length < length) (c : Char) :
    InBounds length (d.write c) :=
  ⟨h.reads, fun j hj => (List.mem_cons.mp hj).elim (fun hj => hj ▸ hd) (h.writes j)⟩

theorem InBounds.refuse {length : Nat} {d : Decoder} (h : InBounds length d) (c : Char) : InBounds length (d.refuse c) :=
  ⟨h.reads, h.writes⟩

theorem InBounds.step {length : Nat} {d : Decoder} (h : InBounds length d) (count : Nat) : InBounds length (d.step count) :=
  ⟨h.reads, h.writes⟩

/-- An error changes the parser alone, and not the token behind it. -/
theorem refusedAll_snoc (p : Parser) (refused : List Char) (c : Char) :
    refusedAll p (refused ++ [c]) = raise (refusedAll p refused).previous (escapeMessage c) (refusedAll p refused) := by
  simp [refusedAll]

section

variable {lexeme behind : List Char} {p : Parser} {d : Decoder} (h : Decoding lexeme p d) (hlt : d.index < lexeme.length)

include h hlt

/-- A character that starts no escape is copied. -/
theorem copied {c : Char} {cs : List Char} (hrest : lexeme.drop d.index = c :: cs) (hc : c ≠ '\\') :
    Decoding lexeme p (((d.read d.index).write c).step 1) := by
  have hshort := h.short
  refine ⟨((h.inBounds.read (Nat.le_of_lt hlt)).write (Nat.lt_of_le_of_lt hshort hlt) c).step 1, ?_, ?_⟩
  · show (d.buffer ++ [c]).length ≤ d.index + 1
    simpa using hshort
  · show unescape lexeme p = putBefore (d.buffer ++ [c]) (unescape (lexeme.drop (d.index + 1))) (refusedAll p d.refused)
    rw [h.ahead, hrest, unescape_plain hc, putBefore_cons, ← List.tail_drop, hrest]
    rfl

/-- An escape gives the character it stands for. -/
theorem escaped {c : Char} {cs : List Char}
    (hrest : unescape (lexeme.drop d.index) = (do return c :: (← unescape cs))) (hcs : cs = lexeme.drop (d.index + 2)) :
    Decoding lexeme p ((((d.read d.index).read (d.index + 1)).write c).step 2) := by
  have hshort := h.short
  have hread := (h.inBounds.read (Nat.le_of_lt hlt)).read (i := d.index + 1) hlt
  refine ⟨(hread.write (Nat.lt_of_le_of_lt hshort hlt) c).step 2, ?_, ?_⟩
  · show (d.buffer ++ [c]).length ≤ d.index + 2
    rw [List.length_append, List.length_singleton]
    omega
  · show unescape lexeme p = putBefore (d.buffer ++ [c]) (unescape (lexeme.drop (d.index + 2))) (refusedAll p d.refused)
    rw [h.ahead, hrest, putBefore_cons, hcs]

/-- Anything else behind a backslash is an error, and left out. -/
theorem refused {e : Char} {cs : List Char} (hrest : lexeme.drop d.index = '\\' :: e :: cs) (he : unescapeChar e = none) :
    Decoding lexeme p ((((d.read d.index).read (d.index + 1)).refuse e).step 2) := by
  have hshort := h.short
  have hread := (h.inBounds.read (Nat.le_of_lt hlt)).read (i := d.index + 1) hlt
  refine ⟨(hread.refuse e).step 2, Nat.le_trans hshort (Nat.le_add_right _ _), ?_⟩
  show unescape lexeme p = putBefore d.buffer (unescape (lexeme.drop (d.index + 2))) (refusedAll p (d.refused ++ [e]))
  have hcs : lexeme.drop (d.index + 2) = cs := by rw [← List.tail_drop, ← List.tail_drop, hrest]; rfl
  rw [h.ahead, hrest, unescape_unknown he, hcs, refusedAll_snoc]
  rfl

theorem turn_decoding {c : Char} {cs : List Char} (hrest : lexeme.drop d.index = c :: cs) :
    Decoding lexeme p (d.turn c ((cs ++ ['"']).headD '\x00')) ∧ d.index < (d.turn c ((cs ++ ['"']).headD '\x00')).index := by
  have htwo : cs.tail = lexeme.drop (d.index + 2) := by rw [← List.tail_drop, ← List.tail_drop, hrest]; rfl
  unfold Decoder.turn
  by_cases hc : c = '\\'
  · subst hc
    rw [if_neg (by decide)]
    rcases cs with _ | ⟨e, es⟩
    · -- a backslash at the end of the lexeme: the closing quote is read behind it
      refine ⟨escaped h hlt ?_ htwo, Nat.lt_add_of_pos_right Nat.two_pos⟩
      rw [hrest, unescape_last]
      rfl
    · simp only [List.cons_append, List.headD_cons]
      cases he : unescapeChar e with
      | some c =>
        refine ⟨escaped h hlt ?_ htwo, Nat.lt_add_of_pos_right Nat.two_pos⟩
        rw [hrest, unescape_known he]
        rfl
      | none => exact ⟨refused h hlt hrest he, Nat.lt_add_of_pos_right Nat.two_pos⟩
  · rw [if_pos hc]
    exact ⟨copied h hlt hrest hc, Nat.lt_succ_self _⟩

theorem decodeTurn_decoding :
    Decoding lexeme p (decodeTurn (lexeme ++ '"' :: behind) d) ∧
      d.index < (decodeTurn (lexeme ++ '"' :: behind) d).index := by
  rcases hrest : lexeme.drop d.index with _ | ⟨c, cs⟩
  · have := List.drop_eq_nil_iff.mp hrest
    omega
  have hdrop : (lexeme ++ '"' :: behind).drop d.index = c :: (cs ++ '"' :: behind) := by
    rw [List.drop_append_of_le_length (Nat.le_of_lt hlt), hrest, List.cons_append]
  have hfirst : (lexeme ++ '"' :: behind).getD d.index '\x00' = c := by
    rw [List.getD_eq_getElem?_getD, ← List.head?_drop, hdrop]
    rfl
  have hsecond : (lexeme ++ '"' :: behind).getD (d.index + 1) '\x00' = (cs ++ ['"']).headD '\x00' := by
    rw [List.getD_eq_getElem?_getD, ← List.head?_drop, ← List.tail_drop, hdrop]
    cases cs <;> rfl
  rw [decodeTurn, hfirst, hsecond]
  exact turn_decoding h hlt hrest

end

theorem decode_runs_from (lexeme behind : List Char) (p : Parser) :
    ∃ d, decode lexeme.length (lexeme ++ '"' :: behind) = some d ∧ InBounds lexeme.length d ∧
      unescape lexeme p = .ok d.buffer (refusedAll p d.refused) := by
  have hstep : ∀ d, Decoding lexeme p d → decide (d.index < lexeme.length) = true →
      Decoding lexeme p (decodeTurn (lexeme ++ '"' :: behind) d) ∧
        lexeme.length - (decodeTurn (lexeme ++ '"' :: behind) d).index < lexeme.length - d.index := by
    intro d hd hlt
    have hlt : d.index < lexeme.length := of_decide_eq_true hlt
    obtain ⟨hturn, hindex⟩ : Decoding lexeme p (decodeTurn (lexeme ++ '"' :: behind) d) ∧
        d.index < (decodeTurn (lexeme ++ '"' :: behind) d).index := decodeTurn_decoding hd hlt
    exact ⟨hturn, by omega⟩
  have hstart : Decoding lexeme p ⟨0, [], [], [], []⟩ := by
    refine ⟨⟨nofun, nofun⟩, Nat.le_refl _, ?_⟩
    show unescape lexeme p = putBefore [] (unescape lexeme) p
    simp only [putBefore, bind, EStateM.bind, pure, EStateM.pure]
    cases unescape lexeme p <;> rfl
  obtain ⟨d, hrun, hd, hend⟩ := whileLoop_total _ (fun d => lexeme.length - d.index) hstep hstart
    (Nat.lt_succ_of_le (Nat.sub_le _ _))
  refine ⟨d, hrun, hd.inBounds, ?_⟩
  rw [hd.ahead, List.drop_eq_nil_of_le (Nat.le_of_not_lt (of_decide_eq_false hend)), unescape, putBefore_pure, List.append_nil]

/-- The decoder ends inside its bounds, with the text and the errors of `unescape`. -/
theorem decode_runs (lexeme behind : List Char) :
    ∃ d, decode lexeme.length (lexeme ++ '"' :: behind) = some d ∧ InBounds lexeme.length d ∧
      ∀ p, unescape lexeme p = .ok d.buffer (refusedAll p d.refused) := by
  obtain ⟨d, hrun, hbounds, -⟩ := decode_runs_from lexeme behind (blankParser (tokensOf []))
  refine ⟨d, hrun, hbounds, fun p => ?_⟩
  obtain ⟨d', hrun', -, hresult⟩ := decode_runs_from lexeme behind p
  cases hrun.symm.trans hrun'
  exact hresult

/-! ## Escaping -/

def escapeChar (c : Char) : List Char :=
  if c = '\\' then ['\\', '\\'] else if c = '"' then ['\\', '"'] else if c = '\n' then ['\\', 'n']
  else if c = '\t' then ['\\', 't'] else [c]

def escapeText (text : List Char) : List Char := text.flatMap escapeChar

/-- A character is escaped by one the lexer and the parser both know, or stands as it is. -/
theorem escapeChar_cases (c : Char) :
    (∃ e, escapeChar c = ['\\', e] ∧ unescapeChar e = some c ∧ isEscapeableCharacter e = true ∧ e ≠ '\x00') ∨
      escapeChar c = [c] ∧ c ≠ '\\' ∧ c ≠ '"' := by
  unfold escapeChar
  by_cases h₁ : c = '\\'
  · subst h₁
    exact Or.inl ⟨'\\', rfl, rfl, rfl, by decide⟩
  by_cases h₂ : c = '"'
  · subst h₂
    exact Or.inl ⟨'"', rfl, rfl, rfl, by decide⟩
  by_cases h₃ : c = '\n'
  · subst h₃
    exact Or.inl ⟨'n', rfl, rfl, rfl, by decide⟩
  by_cases h₄ : c = '\t'
  · subst h₄
    exact Or.inl ⟨'t', rfl, rfl, rfl, by decide⟩
  · simp [h₁, h₂, h₃, h₄]

theorem escapeText_cons (c : Char) (cs : List Char) : escapeText (c :: cs) = escapeChar c ++ escapeText cs := rfl

theorem escapeText_noNul {text : List Char} (h : '\x00' ∉ text) : '\x00' ∉ escapeText text := by
  intro hmem
  obtain ⟨c, hc, hin⟩ := List.mem_flatMap.mp hmem
  rcases escapeChar_cases c with ⟨e, he, -, -, hne⟩ | ⟨he, -, -⟩
  · rw [he] at hin
    rcases List.mem_cons.mp hin with hin | hin
    · exact absurd hin (by decide)
    · exact hne (List.mem_singleton.mp hin).symm
  · rw [he, List.mem_singleton] at hin
    exact h (hin ▸ hc)

/-- The quote behind an escaped text closes it. -/
theorem closing_escapeText (text behind : List Char) :
    closing (escapeText text ++ '"' :: behind) = some (escapeText text, behind) := by
  induction text with
  | nil => exact closing_quote behind
  | cons c cs ih =>
    rw [escapeText_cons]
    rcases escapeChar_cases c with ⟨e, he, -, hesc, -⟩ | ⟨he, hslash, hquote⟩
    · rw [he]
      show closing ('\\' :: e :: (escapeText cs ++ '"' :: behind)) = _
      rw [closing_escape hesc, ih]
      rfl
    · rw [he]
      show closing (c :: (escapeText cs ++ '"' :: behind)) = _
      rw [closing_plain hquote fun h => hslash h.1, ih]
      rfl

theorem unescape_escapeText (text : List Char) (p : Parser) : unescape (escapeText text) p = .ok text p := by
  induction text with
  | nil => rfl
  | cons c cs ih =>
    rw [escapeText_cons]
    rcases escapeChar_cases c with ⟨e, he, hknown, -, -⟩ | ⟨he, hslash, -⟩
    · rw [he]
      show unescape ('\\' :: e :: escapeText cs) p = _
      rw [unescape_known hknown]
      exact bind_ok ih
    · rw [he]
      show unescape (c :: escapeText cs) p = _
      rw [unescape_plain hslash]
      exact bind_ok ih

/-! ## The round trip -/

/-- The source `"…";` with an escaped text between the quotes. -/
def quoted (text : List Char) (h : '\x00' ∉ text) : Source where
  text := '"' :: (escapeText text ++ ['"', ';'])
  noNul := by
    have := escapeText_noNul h
    simp [this]

/-- The token of a quoted text. -/
theorem quoted_lexed (text : List Char) (h : '\x00' ∉ text) :
    ∃ t l', Lexer.Returns (initLexer (quoted text h)) t l' ∧ t.type = .literalString ∧ t.lexeme = escapeText text := by
  have hr : rest (initLexer (quoted text h)) = '"' :: (escapeText text ++ ['"', ';']) := rfl
  have hs : AtStart (initLexer (quoted text h)) := rfl
  obtain ⟨t, l', hrun, ⟨body, behind, hclosing, -, htype, hlexeme, -⟩ | ⟨hclosing, -⟩⟩ :=
    makeString_token hs hr (Nat.lt_succ_self _)
  · rw [closing_escapeText] at hclosing
    cases hclosing
    exact ⟨t, l', ⟨(rest (initLexer (quoted text h))).length + 1, (scanLexer_quote hr _).trans hrun⟩, htype, hlexeme⟩
  · rw [closing_escapeText] at hclosing
    rcases hclosing with hclosing | ⟨body, hclosing⟩ <;> cases hclosing

/-- The rule on the token of an escaped text that is short enough. -/
theorem string_escaped (handle : Node) {p : Parser} {text : List Char} (htype : p.previous.type = .literalString)
    (hlexeme : p.previous.lexeme = escapeText text) (hlen : text.length ≤ maxStringLength) :
    string handle p = .ok (.eof, .literal (.string text)) p := by
  unfold string
  rw [bind_get, if_pos htype, hlexeme, bind_ok (unescape_escapeText text p)]
  have hshort : errorIf (text.length > maxStringLength) p.previous stringLengthMessage p = .ok () p := by
    have hnot : decide (text.length > maxStringLength) = false := by simpa using hlen
    rw [errorIf, hnot]
    rfl
  rw [bind_ok hshort, List.take_of_length_le hlen]
  rfl

/-- The decoder on a string token of any call, over the source from its lexeme on. -/
theorem token_inBounds {l l' : Lexer} {t : Token} (h : Lexer.Returns l t l') (htype : t.type = .literalString) :
    l'.source.text.drop (l'.start + 1) = t.lexeme ++ '"' :: rest l' ∧
      ∃ d, decode t.lexeme.length (l'.source.text.drop (l'.start + 1)) = some d ∧ InBounds t.lexeme.length d ∧
        ∀ p, unescape t.lexeme p = .ok d.buffer (refusedAll p d.refused) := by
  obtain ⟨g, m, -, -, ⟨-, heof, -⟩ | ⟨w, hscanned⟩⟩ := returns_call h
  · rw [heof] at htype
    cases htype
  · have htext : l'.source.text.drop (l'.start + 1) = t.lexeme ++ '"' :: rest l' := by
      rw [← List.tail_drop, hscanned.moves.source, hscanned.moves.start]
      show (rest (startToken m)).tail = _
      rw [hscanned.moves.text, hscanned.string htype]
      simp
    rw [htext]
    exact ⟨rfl, decode_runs t.lexeme (rest l')⟩

/-- An escaped and quoted string is lexed and decoded to itself, and on every string token
    the decoder reads no further than the closing quote and writes inside its buffer. -/
theorem string_round_trip :
    (∀ text : List Char, ∀ h : '\x00' ∉ text, text.length ≤ maxStringLength →
      ∃ t l', Lexer.Returns (initLexer (quoted text h)) t l' ∧
        ∀ handle p, p.previous = t → string handle p = .ok (.eof, .literal (.string text)) p) ∧
    ∀ l t l', Lexer.Returns l t l' → t.type = .literalString →
      l'.source.text.drop (l'.start + 1) = t.lexeme ++ '"' :: rest l' ∧
        ∃ d, decode t.lexeme.length (l'.source.text.drop (l'.start + 1)) = some d ∧ InBounds t.lexeme.length d ∧
          ∀ p, unescape t.lexeme p = .ok d.buffer (refusedAll p d.refused) := by
  refine ⟨fun text h hlen => ?_, fun l t l' h htype => token_inBounds h htype⟩
  obtain ⟨t, l', hret, htype, hlexeme⟩ := quoted_lexed text h
  refine ⟨t, l', hret, fun handle p hp => ?_⟩
  subst hp
  exact string_escaped handle htype hlexeme hlen

/-- A quote, a backslash and a newline. -/
theorem string_round_trip_quote :
    ∃ t l', Lexer.Returns (initLexer (quoted ['"', '\\', '\n'] (by decide))) t l' ∧
      ∀ handle p, p.previous = t → string handle p = .ok (.eof, .literal (.string ['"', '\\', '\n'])) p :=
  string_round_trip.1 _ (by decide) (by decide)

end Xvr.Frontend.Parse
