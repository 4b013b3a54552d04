/-
  Xvr.Frontend.Lexer — the lexer (`xvr_lexer.cpp`).

  A source is a text without NUL, followed by its terminator; a character is a byte. Each
  function is the source's, moving `start`, `current` and `line` as it does; a function
  with a loop takes fuel and answers `none` while the loop has not ended. What a call
  reports beside its token (the dump of tokens) is not modelled.
-/

import Xvr.Frontend.Token
import Xvr.Lib.Loop

namespace Xvr.Frontend.Lexer

open Xvr.Lib.Loop

/-- A NUL-terminated source. -/
structure Source where
  text : List Char
  noNul : '\x00' ∉ text

/-- `Xvr_Lexer`. -/
structure Lexer where
  source : Source
  start : Nat
  current : Nat
  line : Nat

/-- The byte at an offset; the terminator stands after the text. -/
def charAt (source : Source) (index : Nat) : Char := source.text.getD index '\x00'

/-- `length` bytes of the source from an offset on. -/
def slice (source : Source) (offset length : Nat) : List Char := (source.text.drop offset).take length

/-! ## Reading and moving -/

def isAtEnd (lexer : Lexer) : Bool := charAt lexer.source lexer.current == '\x00'

def peek (lexer : Lexer) : Char := charAt lexer.source lexer.current

def peekNext (lexer : Lexer) : Char :=
  if isAtEnd lexer then '\x00' else charAt lexer.source (lexer.current + 1)

/-- The character stepped over, and the lexer behind it; at the end nothing moves. -/
def advance (lexer : Lexer) : Char × Lexer :=
  if isAtEnd lexer then ('\x00', lexer)
  else
    let line := if charAt lexer.source lexer.current == '\n' then lexer.line + 1 else lexer.line
    (charAt lexer.source lexer.current, { lexer with current := lexer.current + 1, line })

def skip (lexer : Lexer) : Lexer := (advance lexer).2

def isDigitChar (c : Char) : Bool := '0' ≤ c && c ≤ '9'
def isAlphaChar (c : Char) : Bool := ('A' ≤ c && c ≤ 'Z') || ('a' ≤ c && c ≤ 'z') || c == '_'

def isDigit (lexer : Lexer) : Bool := isDigitChar (peek lexer)
def isAlpha (lexer : Lexer) : Bool := isAlphaChar (peek lexer)

/-- `match` with an expected text of one character. -/
def matchChar (lexer : Lexer) (expected : Char) : Bool × Lexer :=
  if isAtEnd lexer then (false, lexer)
  else if peek lexer == expected then (true, skip lexer)
  else (false, lexer)

/-! ## Whitespace and comments -/

/-- `while (advance(lexer) != '\n' && !isAtEnd(lexer));` -/
def eatLine (fuel : Nat) (lexer : Lexer) : Option Lexer := do
  let (_, lexer) ← whileLoop (fun s => s.1 != '\n' && !isAtEnd s.2) (fun s => advance s.2) fuel (advance lexer)
  return lexer

def eatShebang (fuel : Nat) (lexer : Lexer) : Option Lexer := do
  let lexer ← whileLoop (fun l => peek l != '\n' && !isAtEnd l) skip fuel lexer
  return if peek lexer == '\n' then skip lexer else lexer

/-- The loop looks for the closing mark and for nothing else. -/
def eatBlock (fuel : Nat) (lexer : Lexer) : Option Lexer := do
  let lexer ← whileLoop (fun l => !(peek l == '*' && peekNext l == '/')) skip fuel (skip (skip lexer))
  return skip (skip lexer)

/-- The switch of `eatWhitespace`: `some (some l)` when it ends in `break`, `some none`
    when it returns. -/
def eatOne (fuel : Nat) (lexer : Lexer) : Option (Option Lexer) :=
  let c := peek lexer
  if c == ' ' || c == '\r' || c == '\n' || c == '\t' then some (some (skip lexer))
  else if c == '#' then
    if lexer.start == 0 && peekNext lexer == '!' then some <$> eatShebang fuel lexer else some none
  else if c == '/' then
    if peekNext lexer == '/' then some <$> eatLine fuel lexer
    else if peekNext lexer == '*' then some <$> eatBlock fuel lexer
    else some none
  else some none

def eatWhitespace : Nat → Lexer → Option Lexer
  | 0, _ => none
  | fuel + 1, lexer => do
    match ← eatOne fuel lexer with
    | some lexer => eatWhitespace fuel lexer
    | none => return lexer

/-! ## Tokens -/

def makeErrorToken (lexer : Lexer) (msg : List Char) : Token := ⟨.error, msg, lexer.line⟩

def makeToken (lexer : Lexer) (type : TokenType) : Token :=
  let length := lexer.current - lexer.start
  ⟨type, slice lexer.source (lexer.current - length) length, lexer.line⟩

/-- The token from `start` on, as the number, keyword and identifier branches build it. -/
def makeSpanToken (lexer : Lexer) (type : TokenType) : Token :=
  ⟨type, slice lexer.source lexer.start (lexer.current - lexer.start), lexer.line⟩

def eatDigits (fuel : Nat) (lexer : Lexer) : Option Lexer :=
  whileLoop (fun l => isDigit l || peek l == '_') skip fuel lexer

/-- The digits of a suffix; the accumulator is an `int`, taken to wrap. -/
def eatBitWidth (fuel : Nat) (lexer : Lexer) : Option (BitVec 32 × Lexer) :=
  whileLoop (fun s => isDigit s.2)
    (fun s => (s.1 * 10 + (BitVec.ofNat 32 (peek s.2).toNat - BitVec.ofNat 32 '0'.toNat), skip s.2)) fuel (0, lexer)

/-- The token type a suffix names, or the message of the error token. -/
def suffixType (suffix : Char) (bitWidth : BitVec 32) : TokenType ⊕ List Char :=
  if bitWidth != 8 && bitWidth != 16 && bitWidth != 32 && bitWidth != 64 then
    .inr (if suffix == 'f' then "Invalid float bit width".toList else "Invalid integer bit width".toList)
  else if suffix == 'i' then
    .inl (if bitWidth == 8 then .literalInt8 else if bitWidth == 16 then .literalInt16
      else if bitWidth == 32 then .literalInt32 else .literalInt64)
  else if suffix == 'u' then
    .inl (if bitWidth == 8 then .literalUint8 else if bitWidth == 16 then .literalUint16
      else if bitWidth == 32 then .literalUint32 else .literalUint64)
  else if bitWidth == 16 then .inl .literalFloat16
  else if bitWidth == 32 then .inl .literalFloat32
  else if bitWidth == 64 then .inl .literalFloat64
  else .inr "Invalid float bit width (only 16, 32, 64 supported)".toList

/-- The suffix branch of `makeIntegerOrFloat`. -/
def makeSuffix (fuel : Nat) (isFloat : Bool) (lexer : Lexer) : Option (Token × Lexer) := do
  let suffix := peek lexer
  if suffix == 'f' && !isFloat then
    return (makeErrorToken lexer "Invalid float suffix without decimal".toList, lexer)
  let (bitWidth, lexer) ← eatBitWidth fuel (skip lexer)
  match suffixType suffix bitWidth with
  | .inl type => return (makeSpanToken lexer type, lexer)
  | .inr msg => return (makeErrorToken lexer msg, lexer)

def makeIntegerOrFloat (fuel : Nat) (lexer : Lexer) : Option (Token × Lexer) := do
  let lexer ← eatDigits fuel lexer
  let isFloat := peek lexer == '.' && isDigitChar (peekNext lexer)
  let lexer ← (if isFloat then eatDigits fuel (skip lexer) else some lexer)
  if peek lexer == 'i' || peek lexer == 'u' || peek lexer == 'f' then makeSuffix fuel isFloat lexer
  else return (makeSpanToken lexer (if isFloat then .literalFloat else .literalInteger), lexer)

def isEscapeableCharacter (c : Char) : Bool := c == 'n' || c == 't' || c == '\\' || c == '"'

/-- One turn of the loop of `makeString`; the flag is its `break`. -/
def stringStep (terminator : Char) (s : Bool × Lexer) : Bool × Lexer :=
  if peek s.2 == terminator then (true, skip s.2)
  else if peek s.2 == '\\' && isEscapeableCharacter (peekNext s.2) then (false, skip (skip s.2))
  else (false, skip s.2)

/-- The test after the loop asks for the end of the source, not for the terminator. -/
def makeString (fuel : Nat) (lexer : Lexer) (terminator : Char) : Option (Token × Lexer) := do
  let (_, lexer) ← whileLoop (fun s => !s.1 && !isAtEnd s.2) (stringStep terminator) fuel (false, lexer)
  if isAtEnd lexer then return (makeErrorToken lexer "Unterminated string".toList, lexer)
  return (⟨.literalString, slice lexer.source (lexer.start + 1) (lexer.current - lexer.start - 2), lexer.line⟩, lexer)

/-- The first keyword with this text. -/
def findKeyword (text : List Char) : Option TokenType :=
  (keywordTypes.find? fun k => k.2.length == text.length && k.2 == text).map (·.1)

def makeKeywordOrIdentifier (fuel : Nat) (lexer : Lexer) : Option (Token × Lexer) := do
  let lexer ← whileLoop (fun l => isDigit l || isAlpha l) skip fuel (skip lexer)
  let text := slice lexer.source lexer.start (lexer.current - lexer.start)
  return (makeSpanToken lexer ((findKeyword text).getD .identifier), lexer)

/-! ## The calls -/

/-- `Xvr_initLexer`. -/
def initLexer (source : Source) : Lexer := ⟨source, 0, 0, 1⟩

/-- One operator character, or two when the second is `second`. -/
def oneOrTwo (lexer : Lexer) (second : Char) (two one : TokenType) : Token × Lexer :=
  let (found, lexer) := matchChar lexer second
  (makeToken lexer (if found then two else one), lexer)

/-- Two tries in a row, for `+` and `-`. -/
def oneOrTwoOf (lexer : Lexer) (assign : Char) (assignType : TokenType) (again : Char) (againType one : TokenType) :
    Token × Lexer :=
  let (found, lexer) := matchChar lexer assign
  if found then (makeToken lexer assignType, lexer) else oneOrTwo lexer again againType one

/-- The switch of `Xvr_private_scanLexer`, behind the character `c`. The lexeme of the error
    for an unknown character points into a buffer of the function, dead once it returns; the
    text printed into it is kept here. -/
def scanOperator (fuel : Nat) (c : Char) (lexer : Lexer) : Option (Token × Lexer) :=
  if c == '(' then some (makeToken lexer .parenLeft, lexer)
  else if c == ')' then some (makeToken lexer .parenRight, lexer)
  else if c == '{' then some (makeToken lexer .braceLeft, lexer)
  else if c == '}' then some (makeToken lexer .braceRight, lexer)
  else if c == '[' then some (makeToken lexer .bracketLeft, lexer)
  else if c == ']' then some (makeToken lexer .bracketRight, lexer)
  else if c == '+' then some (oneOrTwoOf lexer '=' .plusAssign '+' .plusPlus .plus)
  else if c == '-' then some (oneOrTwoOf lexer '=' .minusAssign '-' .minusMinus .minus)
  else if c == '*' then some (oneOrTwo lexer '=' .multiplyAssign .multiply)
  else if c == '/' then some (oneOrTwo lexer '=' .divideAssign .divide)
  else if c == '%' then some (oneOrTwo lexer '=' .moduloAssign .modulo)
  else if c == '!' then some (oneOrTwo lexer '=' .notEqual .not)
  else if c == '=' then some (oneOrTwo lexer '=' .equal .assign)
  else if c == '<' then some (oneOrTwo lexer '=' .lessEqual .less)
  else if c == '>' then some (oneOrTwo lexer '=' .greaterEqual .greater)
  else if c == '&' then
    let (next, lexer) := advance lexer
    if next != '&' then some (makeErrorToken lexer "Unexpected '&'".toList, lexer)
    else some (makeToken lexer .and, lexer)
  else if c == '|' then some (oneOrTwo lexer '|' .or .pipe)
  else if c == '?' then some (makeToken lexer .question, lexer)
  else if c == ':' then some (oneOrTwo lexer ':' .colonColon .colon)
  else if c == ';' then some (makeToken lexer .semicolon, lexer)
  else if c == ',' then some (makeToken lexer .comma, lexer)
  else if c == '.' then
    if peek lexer == '.' && peekNext lexer == '.' then
      let lexer := skip (skip lexer)
      some (makeToken lexer .rest, lexer)
    else some (makeToken lexer .dot, lexer)
  else if c == '"' then makeString fuel lexer c
  else some (makeErrorToken lexer ("Unexpected token: ".toList ++ [c]), lexer)

/-- `Xvr_private_scanLexer`. -/
def scanLexer (fuel : Nat) (lexer : Lexer) : Option (Token × Lexer) := do
  let lexer ← eatWhitespace fuel lexer
  let lexer := { lexer with start := lexer.current }
  if isAtEnd lexer then return (makeToken lexer .eof, lexer)
  else if isDigit lexer then makeIntegerOrFloat fuel lexer
  else if isAlpha lexer then makeKeywordOrIdentifier fuel lexer
  else
    let (c, lexer) := advance lexer
    scanOperator fuel c lexer

end Xvr.Frontend.Lexer
