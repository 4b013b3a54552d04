/-
  Xvr.Frontend.Folding — compile-time evaluation in the parser
  (`calcStaticBinaryArithmetic`, `calcStaticMathFn`, `dottify` of `xvr_parser.cpp`).

  Integers are folded in C's `int`, two's complement, whatever width the operands were
  written with; a division whose quotient does not fit is an access.
-/

import Xvr.Frontend.Parser

namespace Xvr.Frontend.Parse

open Xvr.Runtime Xvr.Lib

/-- `XVR_MAX_STRING_LENGTH`. -/
def maxStringLength : Nat := 4096

/-- `error` at the previous token, then `return false`. -/
def foldError (message : String) : P (Option Literal) := do
  let p ← get
  error p.previous message
  pure none

/-! ## The operations -/

def foldIntegers (opcode : Opcode) (lhs rhs : BitVec 32) : P (Option Literal) :=
  match opcode with
  | .addition => pure (some (.integer (lhs + rhs)))
  | .subtraction => pure (some (.integer (lhs - rhs)))
  | .multiplication => pure (some (.integer (lhs * rhs)))
  | .division =>
    if rhs = 0 then foldError "Can't divide by zero (error found in constant folding)"
    else do
      access (.divide lhs rhs)
      pure (some (.integer (lhs.sdiv rhs)))
  | .modulo =>
    if rhs = 0 then foldError "Can't modulo by zero (error found in constant folding)"
    else do
      access (.divide lhs rhs)
      pure (some (.integer (lhs.srem rhs)))
  | .compareEqual => pure (some (.boolean (lhs == rhs)))
  | .compareNotEqual => pure (some (.boolean (lhs != rhs)))
  | .compareLess => pure (some (.boolean (lhs.slt rhs)))
  | .compareLessEqual => pure (some (.boolean (lhs.sle rhs)))
  | .compareGreater => pure (some (.boolean (rhs.slt lhs)))
  | .compareGreaterEqual => pure (some (.boolean (rhs.sle lhs)))
  | _ => foldError "[internal] bad opcode argument passed to calcStaticBinaryArithmetic()"

/-- `XVR_TO_FLOAT_LITERAL`. -/
def toFloatLiteral (value : Float32) : Literal := .float value.toBits.toBitVec

def foldFloats (opcode : Opcode) (lhs rhs : Float32) : P (Option Literal) :=
  match opcode with
  | .addition => pure (some (toFloatLiteral (lhs + rhs)))
  | .subtraction => pure (some (toFloatLiteral (lhs - rhs)))
  | .multiplication => pure (some (toFloatLiteral (lhs * rhs)))
  | .division =>
    if rhs == 0 then foldError "Can't divide by zero (error found in constant folding)"
    else pure (some (toFloatLiteral (lhs / rhs)))
  | .compareEqual => pure (some (.boolean (lhs == rhs)))
  | .compareNotEqual => pure (some (.boolean (lhs != rhs)))
  | .compareLess => pure (some (.boolean (lhs < rhs)))
  | .compareLessEqual => pure (some (.boolean (lhs ≤ rhs)))
  | .compareGreater => pure (some (.boolean (rhs < lhs)))
  | .compareGreaterEqual => pure (some (.boolean (rhs ≤ lhs)))
  | _ => foldError "[internal] bad opcode argument passed to calcStaticBinaryArithmetic()"

/-- What `%s` prints of a string. -/
def printed (text : List Char) : List Char := text.takeWhile (· != '\x00')

/-- `snprintf` into the buffer keeps one place for the terminator. -/
def concatStrings (lhs rhs : List Char) : List Char :=
  let text := (printed lhs ++ printed rhs).take (maxStringLength - 1)
  text ++ List.replicate (lhs.length + rhs.length - text.length) '\x00'

def stringText : Literal → List Char
  | .string text => text
  | _ => []

/-- An integer beside a float becomes a float. -/
def coerceBeside (other l : Literal) : Literal :=
  if other.isFloat && l.isInteger then toFloatLiteral (Int32.ofBitVec l.asInteger).toFloat32 else l

/-- `none` is `return false`; a null result means there is nothing to fold. -/
def foldLiterals (opcode : Opcode) (lhs rhs : Literal) : P (Option Literal) :=
  if lhs.isString && rhs.isString && opcode = .addition then
    if (stringText lhs).length + (stringText rhs).length > maxStringLength then
      foldError "Can't concatenate these strings, result is too long (error found in constant folding)\n"
    else pure (some (.string (concatStrings (stringText lhs) (stringText rhs))))
  else
    let l := coerceBeside rhs lhs
    let r := coerceBeside lhs rhs
    if l.isInteger && r.isInteger then foldIntegers opcode l.asInteger r.asInteger
    else if (l.isFloat || r.isFloat) && opcode = .modulo then
      foldError "Bad arithmetic argument (modulo on floats not allowed)"
    else if l.isFloat && r.isFloat then foldFloats opcode l.asFloat r.asFloat
    else pure (some .null)

def foldable : Opcode → Bool
  | .addition | .subtraction | .multiplication | .division | .modulo
  | .compareEqual | .compareNotEqual | .compareLess | .compareLessEqual | .compareGreater | .compareGreaterEqual => true
  | _ => false

/-! ## Whole nodes -/

/-- The evaluation of a node whose two children have been folded. -/
def foldNode (opcode : Opcode) (left right : Node) : P (Bool × Node) :=
  match left, right with
  | .literal lhs, .literal rhs => do
    match ← foldLiterals opcode lhs rhs with
    | none => pure (false, .binary opcode left right)
    | some result =>
      if result.isNull then pure (true, .binary opcode left right)
      else
        freeASTNode left
        freeASTNode right
        pure (true, .literal result)
  | _, _ => pure (true, .binary opcode left right)

/-- The answer of the recursive calls is dropped. -/
def calcStaticBinaryArithmetic : Node → P (Bool × Node)
  | .binary opcode left right =>
    if foldable opcode then do
      deref left
      let left ← (if left.isBinary then do pure (← calcStaticBinaryArithmetic left).2 else pure left)
      deref right
      let right ← (if right.isBinary then do pure (← calcStaticBinaryArithmetic right).2 else pure right)
      foldNode opcode left right
    else pure (true, .binary opcode left right)
  | node => pure (true, node)

/-- The callee's name is read at `binary.left` of an FN_CALL node, where that node stores
    its argument list; that is never a literal, so the function returns before any of its
    folds and the node stays as it is. -/
def calcStaticMathFn (node : Node) : Node := node

def countArgument : Node → Node
  | .fnCall arguments argumentCount => .fnCall arguments (argumentCount + 1)
  | node => node

/-- A call counts its object as an argument. The right side of a call is an FN_CALL node,
    which the recursion leaves alone, so it may be counted after it. -/
def dottify : Node → P Node
  | .binary opcode left right => do
    access (.dotted (.binary opcode left right))
    let left ← dottify left
    let right ← dottify right
    if opcode = .fnCall then pure (.binary .dot left (countArgument right))
    else pure (.binary opcode left right)
  | node => do
    access (.dotted node)
    pure node

/-- The literal `-` makes of a number. -/
def negateLiteral (l : Literal) : Literal :=
  if l.isInteger then .integer (-l.asInteger) else toFloatLiteral (-l.asFloat)

end Xvr.Frontend.Parse
