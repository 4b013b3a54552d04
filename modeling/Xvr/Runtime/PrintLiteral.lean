/-
  Xvr.Runtime.PrintLiteral — how a literal is printed (`printToBuffer`,
  `Xvr_printLiteralCustom`).

  A compound literal is printed into a buffer of its own, and the buffer into that of the literal
  around it. The buffer is in global variables, which a compound keeps on the C stack meanwhile:
  there a capacity and a count are `int`s. Memory is granted, and what it holds then is anything.

  Not modelled: releasing the buffers, and the diagnostics for kinds that cannot be printed.
-/

import Xvr.Lib.Decimals
import Xvr.Runtime.HalfFloats
import Xvr.Runtime.LiteralFns
import Xvr.Runtime.Memory
import Xvr.Runtime.StringUtils

namespace Xvr.Runtime

open Xvr.Lib.CStrings Xvr.Lib.Floats Xvr.Lib.Decimals

/-- Arrays, dictionaries and types. -/
def Literal.isCompound : Literal → Bool
  | .array _ | .dictionary _ | .type _ _ _ => true
  | _ => false

/-! ## Literals without parts -/

section

variable (beyond : ℚ → Bool)

/-- The test `x - (int)x`. What a number beyond an `int` is converted to is undefined, and so what
    the test says then. -/
def hasFraction (x : ℚ) : Bool := if -2 ^ 31 - 1 < x ∧ x < 2 ^ 31 then x.den ≠ 1 else beyond x

/-- A floating-point number of so many exponent and mantissa bits: `%g` if it has a fraction,
    `%.1f` if not. -/
def floatText (exponentBits mantissaBits word : ℕ) : List Char :=
  signed (word / 2 ^ (exponentBits + mantissaBits) % 2 = 1) <|
    match ieeeValue exponentBits mantissaBits word with
    | none => if word % 2 ^ mantissaBits = 0 then ['i', 'n', 'f'] else ['n', 'a', 'n']
    | some x => if hasFraction beyond x then general |x| else fixed 1 |x|

/-- `%.*s` with the length as an `int`: a negative one is no bound. -/
def precisionText (text : List Char) : List Char :=
  let precision := (BitVec.ofNat 32 text.length).toInt
  textWithin (if precision < 0 then text.length else precision.toNat) text

/-- `snprintf` into so many characters, the last of which is NUL. -/
def snprintf (size : Nat) (text : List Char) : List Char := text.take (size - 1)

/-- A text between the quotes, if there are any. -/
def withQuotes (quotes : Char) (text : List Char) : List Char :=
  if quotes = nul then text else quotes :: (text ++ [quotes])

/-- The text of a literal without parts; some kinds have none. -/
def scalarText (quotes : Char) : Literal → Option (List Char)
  | .null => some "null".toList
  | .boolean value => some (if value then "true".toList else "false".toList)
  | .integer v => some (integer v.toInt)
  | .int8 v => some (integer v.toInt)
  | .int16 v => some (integer v.toInt)
  | .int32 v => some (integer v.toInt)
  | .int64 v => some (integer v.toInt)
  | .uint8 v => some (integer v.toNat)
  | .uint16 v => some (integer v.toNat)
  | .uint32 v => some (integer v.toNat)
  | .uint64 v => some (integer v.toNat)
  | .float bits => some (floatText beyond 8 23 bits.toNat)
  | .float16 bits => some (floatText beyond 8 23 (halfToFloat bits).toNat)
  | .float32 bits => some (floatText beyond 8 23 bits.toNat)
  | .float64 bits => some (floatText beyond 11 52 bits.toNat)
  | .string text => some (withQuotes quotes text)
  | .function _ | .functionNative _ | .functionHook _ => some "(function)".toList
  | .identifier name => some name
  | .typeIntermediate _ | .functionIntermediate _ => some "Unprintable literal found".toList
  | .opaquePtr _ _ => some "(opaque)".toList
  | _ => none

/-- What of it is printed: it goes through an array on the stack. Constants, which do not, are
    shorter. -/
def printedText (quotes : Char) : Literal → Option (List Char)
  | .string text => some (snprintf 4096 (withQuotes quotes (precisionText text)))
  | .identifier name => some (snprintf 256 (precisionText name))
  | l => (scalarText beyond quotes l).map (snprintf 256)

end

/-- What a type is printed as, but for arrays and dictionaries. -/
def typeName : LiteralType → Option (List Char)
  | .null => some "null".toList
  | .boolean => some "bool".toList
  | .integer => some "int".toList
  | .int8 => some "int8".toList
  | .int16 => some "int16".toList
  | .int32 => some "int32".toList
  | .int64 => some "int64".toList
  | .uint8 => some "uint8".toList
  | .uint16 => some "uint16".toList
  | .uint32 => some "uint32".toList
  | .uint64 => some "uint64".toList
  | .float => some "float".toList
  | .string => some "string".toList
  | .function => some "proc".toList
  | .functionNative => some "native".toList
  | .identifier => some "identifier".toList
  | .type => some "type".toList
  | .opaquePtr => some "opaque".toList
  | .any => some "any".toList
  | _ => none

/-! ## The buffer -/

/-- The global variables, how often memory has been allocated, and the buffers the caller's
    print function has been given. -/
structure PrintState where
  buffer : List Char
  capacity : Nat
  count : Nat
  quotes : Char
  allocations : Nat
  printed : List (List Char)

/-- Before the first literal is printed. -/
def initPrint : PrintState :=
  { buffer := [], capacity := 0, count := 0, quotes := nul, allocations := 0, printed := [] }

/-- A print function, given the memory of a string; `none` when memory is left. -/
abbrev PrintFn := List Char → PrintState → Option PrintState

/-- The caller's. -/
def callerPrint : PrintFn := fun memory s => some { s with printed := s.printed ++ [memory] }

/-- A `size_t` kept in an `int`. -/
def throughInt (n : Nat) : Nat := ((BitVec.ofNat 32 n).signExtend 64).toNat

/-- A string constant in memory. -/
def constant (text : String) : List Char := text.toList ++ [nul]

section

-- what the memory of each allocation holds
variable (fresh : Nat → Nat → Char)

/-- The `while` loop of `printToBuffer`. -/
def growPrintBuffer (need : Nat) (s : PrintState) : Option PrintState :=
  if s.capacity < need then do
    let buffer ← reallocate s.buffer (growCapacity s.capacity) (some (fresh s.allocations))
    growPrintBuffer need
      { s with buffer, capacity := growCapacity s.capacity, allocations := s.allocations + 1 }
  else some s
termination_by need - s.capacity
decreasing_by
  have := lt_growCapacity s.capacity
  omega

def printToBuffer : PrintFn := fun str s => do
  let strLen ← safeStrlen str 4096
  let s ← growPrintBuffer fresh (strLen + s.count + 1) s
  let copyLen := min strLen (s.capacity - s.count)
  if copyLen = 0 then return s
  else if s.buffer.length < s.count + copyLen then none
  else
    return { s with
      buffer := s.buffer.take s.count ++ str.take copyLen ++ s.buffer.drop (s.count + copyLen)
      count := s.count + copyLen }

/-- The frame of every compound: a buffer of its own, which is printed in the end. -/
def printBuffered (printFn : PrintFn) (contents : PrintState → Option PrintState) (s : PrintState) :
    Option PrintState := do
  let inner ← contents { s with buffer := [], capacity := 0, count := 0 }
  let s ← printFn inner.buffer
    { inner with buffer := s.buffer, capacity := throughInt s.capacity, count := throughInt s.count }
  return { s with quotes := nul }

def printIf (c : Bool) (str : List Char) (s : PrintState) : Option PrintState :=
  if c then printToBuffer fresh str s else some s

/-- Between square brackets. -/
def printBracketed (contents : PrintState → Option PrintState) (s : PrintState) : Option PrintState := do
  let s ← printToBuffer fresh (constant "[") s
  let s ← contents s
  printToBuffer fresh (constant "]") s

/-- The `switch` over what a type is of. -/
def printTypeOf (t : LiteralType) (subtypes pairs : PrintState → Option PrintState) (s : PrintState) :
    Option PrintState :=
  if t = .array then printBracketed fresh subtypes s
  else if t = .dictionary then printBracketed fresh pairs s
  else
    match typeName t with
    | some name => printToBuffer fresh (name ++ [nul]) s
    | none => some s

variable (beyond : ℚ → Bool)

def printScalar (printFn : PrintFn) (l : Literal) (s : PrintState) : Option PrintState :=
  match printedText beyond s.quotes l with
  | some text => printFn (text ++ [nul]) s
  | none => some s

mutual

/-- `Xvr_printLiteralCustom`. -/
def printLiteralCustom : PrintFn → Literal → PrintState → Option PrintState
  | printFn, .array es, s => printBuffered printFn (printBracketed fresh (printElements es)) s
  | printFn, .dictionary d, s => printBuffered printFn (printBracketed fresh (printDictionary d)) s
  | printFn, .type t c subtypes, s =>
    printBuffered printFn (fun s => do
      let s ← printToBuffer fresh (constant "<") s
      let s ← printTypeOf fresh t (printSubtypes subtypes) (printPairs subtypes) s
      let s ← printIf fresh c (constant " const") s
      printToBuffer fresh (constant ">") s) s
  | printFn, l, s => printScalar beyond printFn l s

def printElements : List Literal → PrintState → Option PrintState
  | [], s => some s
  | e :: es, s => do
    let s ← printLiteralCustom (printToBuffer fresh) e { s with quotes := '"' }
    let s ← printIf fresh (!es.isEmpty) (constant ",") s
    printElements es s

def printDictionary : LiteralDictionary Literal → PrintState → Option PrintState
  | ⟨entries, count, _⟩, s => do
    let s ← printEntries entries 0 s
    printIf fresh (count = 0) (constant ":") s

/-- The loop over the slots, with the entries printed so far counted. -/
def printEntries : List (Entry Literal) → Nat → PrintState → Option PrintState
  | [], _, s => some s
  | e :: es, delimCount, s => do
    let s ← printEntry e delimCount s
    printEntries es (if e.key.isNull then delimCount else delimCount + 1) s

def printEntry : Entry Literal → Nat → PrintState → Option PrintState
  | ⟨key, value⟩, delimCount, s =>
    if key.isNull then some s
    else do
      let s ← printIf fresh (0 < delimCount) (constant ",") s
      let s ← printLiteralCustom (printToBuffer fresh) key { s with quotes := '"' }
      let s ← printToBuffer fresh (constant ":") s
      printLiteralCustom (printToBuffer fresh) value { s with quotes := '"' }

def printSubtypes : List Literal → PrintState → Option PrintState
  | [], s => some s
  | l :: ls, s => do
    let s ← printLiteralCustom (printToBuffer fresh) l s
    printSubtypes ls s

/-- Keys and values by turns; a last key's value is read behind the subtypes. -/
def printPairs : List Literal → PrintState → Option PrintState
  | [], s => some s
  | [_], _ => none
  | l :: r :: ls, s => do
    let s ← printLiteralCustom (printToBuffer fresh) l s
    let s ← printToBuffer fresh (constant ":") s
    let s ← printLiteralCustom (printToBuffer fresh) r s
    printPairs ls s

end

end

/-! ## The whole text -/

/-- In order, separated by commas, within brackets. -/
def bracketed (parts : List (List Char)) : List Char := '[' :: ([','].intercalate parts ++ [']'])

section

variable (beyond : ℚ → Bool)

mutual

/-- The rendering of a literal, between the quotes if it is a string. -/
def render (quotes : Char) : Literal → List Char
  | .array es => bracketed (renderList '"' es)
  | .dictionary d => renderDictionary d
  | .type t c subtypes =>
    let name :=
      if t = .array then bracketed (renderList nul subtypes)
      else if t = .dictionary then bracketed (renderPairs subtypes)
      else (typeName t).getD []
    '<' :: (name ++ (if c then " const".toList else []) ++ ['>'])
  | l => (scalarText beyond quotes l).getD []

def renderList (quotes : Char) : List Literal → List (List Char)
  | [] => []
  | l :: ls => render quotes l :: renderList quotes ls

/-- An empty dictionary has a colon. -/
def renderDictionary : LiteralDictionary Literal → List Char
  | ⟨entries, _, _⟩ =>
    let bindings := renderEntries entries
    bracketed (if bindings.isEmpty then [[':']] else bindings)

def renderEntries : List (Entry Literal) → List (List Char)
  | [] => []
  | e :: es => if e.key.isNull then renderEntries es else renderEntry e :: renderEntries es

def renderEntry : Entry Literal → List Char
  | ⟨key, value⟩ => render '"' key ++ ':' :: render '"' value

def renderPairs : List Literal → List (List Char)
  | l :: r :: ls => (render nul l ++ ':' :: render nul r) :: renderPairs ls
  | _ => []

end

end

end Xvr.Runtime
