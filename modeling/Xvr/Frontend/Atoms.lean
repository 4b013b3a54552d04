/-
  Xvr.Frontend.Atoms — the rules that read no further expression (`string`, `atomic`,
  `identifier` and `identifierOrKeyword` of `xvr_parser.cpp`) and `sscanf` on the texts
  they give it.

  A rule gets the content of its handle and answers it with its opcode; a rule that raises
  leaves the handle as it was.
-/

import Xvr.Frontend.Folding
import Xvr.Lib.Floats

namespace Xvr.Frontend.Parse

open Xvr.Runtime Xvr.Lib.Floats

/-! ## Numbers -/

def removeChar (lexeme : List Char) (c : Char) : List Char := lexeme.filter (· != c)

def isDecimal (c : Char) : Bool := '0' ≤ c && c ≤ '9'

def decimalValue (digits : List Char) : Nat := digits.foldl (fun value c => value * 10 + (c.toNat - '0'.toNat)) 0

/-- The decimal number a text starts with. -/
def leadingDecimal (text : List Char) : Nat := decimalValue (text.takeWhile isDecimal)

/-- `sscanf` with `%hhd`, `%hd`, `%d` or `%ld`, taken to store the number modulo the width. -/
def scanSigned (width : Nat) (text : List Char) : BitVec width := BitVec.ofNat width (leadingDecimal text)

/-- `sscanf` with `%hhu`, `%hu`, `%u` or `%lu`. -/
def scanUnsigned (width : Nat) (text : List Char) : BitVec width := BitVec.ofNat width (leadingDecimal text)

/-- Digits, and after a point more digits: the number without its point, and how many
    digits stood behind it. -/
def scanDecimal (text : List Char) : Nat × Nat :=
  let whole := text.takeWhile isDecimal
  match text.dropWhile isDecimal with
  | '.' :: rest =>
    let fraction := rest.takeWhile isDecimal
    (decimalValue (whole ++ fraction), fraction.length)
  | _ => (decimalValue whole, 0)

/-- `sscanf` with `%f`. -/
def scanFloat (text : List Char) : Float32 := Float32.ofScientific (scanDecimal text).1 true (scanDecimal text).2

/-- `sscanf` with `%lf`. -/
def scanDouble (text : List Char) : Float := Float.ofScientific (scanDecimal text).1 true (scanDecimal text).2

def scanNumber (text : List Char) : ℚ := (scanDecimal text).1 / 10 ^ (scanDecimal text).2

/-- A number as a `double` cast to `float`; `none` is infinity. -/
def toFloat (x : ℚ) : Option ℚ := double.round x >>= single.round

/-- Sign, exponent and mantissa of a `float`, laid out as the parser lays out a half. What
    was scanned from digits is always a number or infinity. -/
def halfBits (f : Option ℚ) : BitVec 16 :=
  let sign : BitVec 16 := if f.any (· < 0) then 1 else 0
  let (exp, mantissa) : ℤ × ℤ :=
    match f with
    | none => (31, 0)
    | some x =>
      if x = 0 then (0, 0)
      else
        let (m, e) := frexp x
        (e + 15, ⌊(|m| - 1 / 2) * 2048⌋)
  (sign <<< 15) ||| BitVec.ofInt 16 (exp * 1024) ||| BitVec.ofInt 16 mantissa

/-! ## Strings -/

def ccError : String := "\x1b[31m"

def ccReset : String := "\x1b[0m"

/-- `snprintf` into a message buffer of 256 bytes. -/
def msg256 (text : String) : String := String.ofList (text.toList.take 255)

def escapeMessage (c : Char) : String :=
  msg256 (ccError ++ "Unrecognized escape character " ++ c.toString ++ " in string" ++ ccReset)

def stringLengthMessage : String :=
  msg256 (ccError ++ "Strings can only be a maximum of 4096 characters long" ++ ccReset)

/-- The character an escape stands for. -/
def unescapeChar : Char → Option Char
  | 'n' => some '\n'
  | 't' => some '\t'
  | '\\' => some '\\'
  | '"' => some '"'
  | _ => none

/-- The unescaped text. A character that names no escape raises an error and is dropped;
    behind the text stands the closing quote. -/
def unescape : List Char → P (List Char)
  | [] => pure []
  | '\\' :: c :: cs => do
    match unescapeChar c with
    | some c => return c :: (← unescape cs)
    | none =>
      let p ← get
      error p.previous (escapeMessage c)
      unescape cs
  | ['\\'] => pure ['"']
  | c :: cs => return c :: (← unescape cs)

def string (handle : Node) : P (Opcode × Node) := do
  let p ← get
  if p.previous.type = .literalString then
    let buffer ← unescape p.previous.lexeme
    errorIf (buffer.length > maxStringLength) p.previous stringLengthMessage
    pure (.eof, emitASTNodeLiteral (.string (buffer.take maxStringLength)))
  else
    error p.previous "Unexpected token passed to string precedence rule"
    pure (.eof, handle)

/-! ## Literals and names -/

/-- The literal a token of a literal kind stands for. -/
def tokenLiteral (token : Token) : Option Literal :=
  let lexeme := removeChar token.lexeme '_'
  match token.type with
  | .null => some .null
  | .literalTrue => some (.boolean true)
  | .literalFalse => some (.boolean false)
  | .literalInteger => some (.integer (scanSigned 32 lexeme))
  | .literalInt8 => some (.int8 (scanSigned 8 lexeme))
  | .literalInt16 => some (.int16 (scanSigned 16 lexeme))
  | .literalInt32 => some (.int32 (scanSigned 32 lexeme))
  | .literalInt64 => some (.int64 (scanSigned 64 lexeme))
  | .literalUint8 => some (.uint8 (scanUnsigned 8 lexeme))
  | .literalUint16 => some (.uint16 (scanUnsigned 16 lexeme))
  | .literalUint32 => some (.uint32 (scanUnsigned 32 lexeme))
  | .literalUint64 => some (.uint64 (scanUnsigned 64 lexeme))
  | .literalFloat => some (toFloatLiteral (scanFloat lexeme))
  | .literalFloat16 => some (.float16 (halfBits (toFloat (scanNumber lexeme))))
  | .literalFloat32 => some (.float32 (scanFloat lexeme).toBits.toBitVec)
  | .literalFloat64 => some (.float64 (scanDouble lexeme).toBits.toBitVec)
  | _ => none

def atomic (handle : Node) : P (Opcode × Node) := do
  let p ← get
  match tokenLiteral p.previous with
  | some literal => pure (.eof, emitASTNodeLiteral literal)
  | none =>
    if p.previous.type = .type_ then
      let constant ← matchToken .const_
      pure (.eof, emitASTNodeLiteral (.type .type constant []))
    else
      error p.previous "Unexpected token passed to atomic precedence rule"
      pure (.eof, handle)

def maxIdentifierLength : Nat := 256

def identifierTooLong : String := "Identifiers can only be a maximum of 256 characters long"

/-- The length check every reader of a name makes, and the name cut to size. -/
def identifierLiteral (token : Token) : P Literal := do
  let p ← get
  errorIf (token.lexeme.length > maxIdentifierLength) p.previous identifierTooLong
  pure (.identifier (token.lexeme.take maxIdentifierLength))

/-- The keyword's name is cut without an error. -/
def identifierOrKeyword (_ : Node) : P (Opcode × Node) := do
  let p ← get
  pure (.eof, emitASTNodeLiteral (.identifier (p.previous.lexeme.take maxIdentifierLength)))

def identifier (handle : Node) : P (Opcode × Node) := do
  let p ← get
  if p.previous.type ≠ .identifier then
    error p.previous "Expected identifier"
    pure (.eof, handle)
  else
    let literal ← identifierLiteral p.previous
    pure (.eof, emitASTNodeLiteral literal)

/-- `getTypeFromToken`. -/
def getTypeFromToken : TokenType → LiteralType
  | .boolean => .boolean
  | .integer => .integer
  | .int8 => .int8
  | .int16 => .int16
  | .int32 => .int32
  | .int64 => .int64
  | .uint8 => .uint8
  | .uint16 => .uint16
  | .uint32 => .uint32
  | .uint64 => .uint64
  | .float16 => .float16
  | .float32 => .float32
  | .float64 => .float64
  | .float => .float
  | .string => .string
  | _ => .null

end Xvr.Frontend.Parse
