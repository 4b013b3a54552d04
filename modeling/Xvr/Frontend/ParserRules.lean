/-
  Xvr.Frontend.ParserRules — the Pratt table and its rules (`asType` to `parsePrecedence`
  of `xvr_parser.cpp`).

  The functions that call each other are written once over the calls they make (`Rec`);
  `ParserStatements` ties the knot with fuel. A rule gets the content of its handle and
  answers its opcode with the handle's new content; an infix rule starts from the null
  pointer.
-/

import Xvr.Frontend.Atoms

namespace Xvr.Frontend.Parse

open Xvr.Runtime Xvr.Lib

/-- `PrecedenceRule`, in the order of the source. -/
inductive PrecedenceRule where
  | none | assignment | ternary | or | and | comparison | term | factor | unary | call | primary
  deriving DecidableEq, Repr

instance : LE PrecedenceRule := ⟨fun a b => a.ctorIdx ≤ b.ctorIdx⟩

instance (a b : PrecedenceRule) : Decidable (a ≤ b) := inferInstanceAs (Decidable (a.ctorIdx ≤ b.ctorIdx))

/-- The calls a rule makes back into the parser, the turns its loops may take, and what is
    not the parser's: whether the word a node of another type stores where a BINARY node
    stores `right` is zero. -/
structure Rec where
  parsePrecedence : Node → PrecedenceRule → P Node
  declaration : P Node
  parseIfChain : P Node
  readTypeToLiteral : P Literal
  fuel : Nat
  rightWordIsZero : Parser → Node → Bool

abbrev ParseFn := Node → P (Opcode × Node)

structure ParseRule where
  prefixRule : Option ParseFn
  infixRule : Option ParseFn
  precedence : PrecedenceRule

section Rules

variable (rec : Rec)

/-- `expression`. -/
def expression (handle : Node) : P Node := rec.parsePrecedence handle .assignment

def asType (handle : Node) : P (Opcode × Node) := do
  let literal ← rec.readTypeToLiteral
  if literal.kind ≠ .type then
    let p ← get
    error p.previous "Expected type after 'astype' keyword"
    pure (.eof, handle)
  else pure (.eof, emitASTNodeLiteral literal)

def typeOf (_ : Node) : P (Opcode × Node) := do
  let rhs ← rec.parsePrecedence .null .ternary
  pure (.eof, .unary .typeOf rhs)

/-! ### Arrays and dictionaries -/

/-- The entries read so far: no node yet, or one of the two kinds. -/
structure Entries where
  array : Option (List Node)
  dictionary : Option (List Node)
  iterations : Nat

/-- What the loop of `compound` ends with: `none` is an early return. -/
abbrev CompoundTurn := Entries ⊕ Option Entries

/-- `left : right`. -/
def dictionaryEntry (entries : Entries) (left : Node) : P CompoundTurn := do
  let right ← rec.parsePrecedence .null .primary
  if right.isNull then
    freeASTNode left
    pure (.inr none)
  else
    match entries.array with
    | some array =>
      let p ← get
      error p.previous "Incorrect detection between array and dictionary"
      freeASTNode (.compound .array array)
      freeASTNode left
      freeASTNode right
      pure (.inr none)
    | none => pure (.inl { entries with dictionary := some (entries.dictionary.getD [] ++ [.pair left right]) })

def arrayEntry (entries : Entries) (left : Node) : P CompoundTurn := do
  match entries.dictionary with
  | some dictionary =>
    let p ← get
    error p.current "Incorrect detection between array and dictionary"
    freeASTNode (.compound .dictionary dictionary)
    freeASTNode left
    pure (.inr none)
  | none =>
    deref left
    pure (.inl { entries with array := some (entries.array.getD [] ++ [left]) })

/-- The comma before every entry but the first. -/
def compoundComma (entries : Entries) : P Unit :=
  if entries.iterations > 0 then consume .comma "Expected ',' in array or dictionary" else pure ()

/-- The entry a turn of the loop reads, behind its comma. -/
def compoundEntry (entries : Entries) : P CompoundTurn := do
  compoundComma entries
  let entries := { entries with iterations := entries.iterations + 1 }
  let left ← rec.parsePrecedence .null .primary
  if left.isNull then pure (.inr none)
  else if ← matchToken .colon then dictionaryEntry rec entries left
  else arrayEntry entries left

def compoundTurn (entries : Entries) : P CompoundTurn := do
  if ← matchToken .bracketRight then pure (.inr (some entries))
  else if entries.iterations = 0 then
    -- an empty dictionary has a colon between its brackets
    if ← matchToken .colon then
      consume .bracketRight "Expected ']' at the end of empty dictionary definition"
      pure (.inr (some { entries with dictionary := some [] }))
    else compoundEntry rec entries
  else compoundEntry rec entries

def compound (handle : Node) : P (Opcode × Node) := do
  match ← loop .outOfFuel (compoundTurn rec) rec.fuel ⟨none, none, 0⟩ with
  | none => pure (.eof, handle)
  | some entries =>
    match entries.array, entries.dictionary with
    | some array, _ => pure (.eof, .compound .array array)
    | none, some dictionary => pure (.eof, .compound .dictionary dictionary)
    | none, none => pure (.eof, emitASTNodeCompound .array)

/-! ### Groups and operators -/

def grouping (handle : Node) : P (Opcode × Node) := do
  let p ← get
  if p.previous.type = .parenLeft then
    let node ← rec.parsePrecedence handle .ternary
    consume .parenRight "Expected ')' at end of grouping"
    pure (.eof, .grouping node)
  else
    error p.previous "Unexpected token passed to grouping precedence rule"
    pure (.eof, handle)

/-- The level at which an operator's right side is parsed, and its opcode. -/
def binaryOperator : TokenType → Option (PrecedenceRule × Opcode)
  -- arithmetic
  | .plus => some (.term, .addition)
  | .minus => some (.term, .subtraction)
  | .multiply => some (.factor, .multiplication)
  | .divide => some (.factor, .division)
  | .modulo => some (.factor, .modulo)
  -- assignment
  | .assign => some (.assignment, .varAssign)
  | .plusAssign => some (.assignment, .varAdditionAssign)
  | .minusAssign => some (.assignment, .varSubtractionAssign)
  | .multiplyAssign => some (.assignment, .varMultiplicationAssign)
  | .divideAssign => some (.assignment, .varDivisionAssign)
  | .moduloAssign => some (.assignment, .varModuloAssign)
  -- comparison
  | .equal => some (.comparison, .compareEqual)
  | .notEqual => some (.comparison, .compareNotEqual)
  | .less => some (.comparison, .compareLess)
  | .lessEqual => some (.comparison, .compareLessEqual)
  | .greater => some (.comparison, .compareGreater)
  | .greaterEqual => some (.comparison, .compareGreaterEqual)
  | .and => some (.and, .and)
  | .or => some (.or, .or)
  | _ => none

def binary (handle : Node) : P (Opcode × Node) := do
  advance
  let p ← get
  match binaryOperator p.previous.type with
  | some (rule, opcode) =>
    let node ← rec.parsePrecedence handle rule
    pure (opcode, node)
  | none =>
    error p.previous "Unexpected token passed to binary precedence rule"
    pure (.eof, handle)

/-- `-`: a number is negated at once, a boolean is refused. -/
def unaryMinus (handle : Node) : P (Opcode × Node) := do
  let node ← rec.parsePrecedence .null .term
  match node with
  | .literal l =>
    if l.isInteger || l.isFloat then pure (.eof, .literal (negateLiteral l))
    else if l.isBoolean then
      let p ← get
      error p.previous "Negative booleans are not allowed"
      pure (.eof, handle)
    else pure (.eof, .unary .negate node)
  | _ => pure (.eof, .unary .negate node)

def unaryNot : P (Opcode × Node) := do
  let node ← rec.parsePrecedence .null .call
  match node with
  | .literal (.boolean b) => pure (.eof, .literal (.boolean !b))
  | _ => pure (.eof, .unary .invert node)

def unary (handle : Node) : P (Opcode × Node) := do
  let p ← get
  if p.previous.type = .minus then unaryMinus rec handle
  else if p.previous.type = .not then unaryNot rec
  else
    error p.previous "Unexpected token passed to unary precedence rule"
    pure (.eof, handle)

/-! ### Casts and steps -/

/-- `type(expression)`, or the type itself. -/
def castingPrefix (handle : Node) : P (Opcode × Node) := do
  let p ← get
  let literalType := getTypeFromToken p.previous.type
  if p.current.type = .parenLeft then
    consume .parenLeft "Expected '(' after type"
    let expr ← expression rec .null
    let p ← get
    if p.panic || expr.isNull then
      freeIf (!expr.isNull) expr
      pure (.eof, handle)
    else
      consume .parenRight "Expected ')' after expression"
      pure (.cast, emitASTNodeCast (.type literalType false []) expr)
  else if literalType = .null then
    error p.previous "Unexpected token passed to casting precedence rule"
    pure (.eof, handle)
  else pure (.eof, emitASTNodeLiteral (.type literalType false []))

/-- The operand's own answer is dropped. -/
def castingInfix (handle : Node) : P (Opcode × Node) := do
  advance
  let p ← get
  match p.previous.type with
  | .identifier => do
    let (_, node) ← identifier handle
    pure (.typeCast, node)
  | .literalTrue | .literalFalse | .literalInteger | .literalFloat | .literalString => do
    let (_, node) ← atomic handle
    pure (.typeCast, node)
  | _ =>
    error p.previous "Unexpected token passed to casting infix precedence rule"
    pure (.eof, handle)

/-- The name `++` or `--` stands beside, read from the previous token. -/
def steppedIdentifier : P (Option Literal) := do
  let (_, node) ← identifier .null
  let p ← get
  if p.panic || node.isNull then
    freeIf (!node.isNull) node
    pure none
  else
    match node with
    | .literal l => pure (some l)
    | _ => throw .noNode

/-- `++` or `--` before a name. -/
def stepPrefix (emit : Literal → Node) (handle : Node) : P (Opcode × Node) := do
  advance
  match ← steppedIdentifier with
  | none => pure (.eof, handle)
  | some l =>
    freeASTNode (.literal l)
    pure (.eof, emit l)

/-- `++` or `--` after a name: the operator is stepped over only when the name was one. -/
def stepInfix (emit : Literal → Node) (handle : Node) : P (Opcode × Node) := do
  match ← steppedIdentifier with
  | none => pure (.eof, handle)
  | some l =>
    advance
    freeASTNode (.literal l)
    pure (.eof, emit l)

def incrementPrefix : ParseFn := stepPrefix emitASTNodePrefixIncrement
def incrementInfix : ParseFn := stepInfix emitASTNodePostfixIncrement
def decrementPrefix : ParseFn := stepPrefix emitASTNodePrefixDecrement
def decrementInfix : ParseFn := stepInfix emitASTNodePostfixDecrement

/-! ### Calls, indices, ternaries and dots -/

/-- One argument: `none` ends the call with an error. -/
def argumentTurn (arguments : List Node) : P (List Node ⊕ Option (List Node)) := do
  let node ← rec.parsePrecedence .null .ternary
  if node.isNull then
    let p ← get
    error p.previous "[internal] No token found in fnCall"
    pure (.inr none)
  else
    deref node
    if ← matchToken .comma then pure (.inl (arguments ++ [node]))
    else
      consume .parenRight "Expected ')' at end of argument list"
      pure (.inr (some (arguments ++ [node])))

def fnCall (handle : Node) : P (Opcode × Node) := do
  advance
  let p ← get
  if p.previous.type = .parenLeft then
    if ← matchToken .parenRight then pure (.fnCall, emitASTNodeFnCall (.fnCollection []))
    else
      match ← loop .outOfFuel (argumentTurn rec) rec.fuel [] with
      | none => pure (.eof, handle)
      | some arguments => pure (.fnCall, emitASTNodeFnCall (.fnCollection arguments))
  else
    error p.previous "Unexpected token passed to function call precedence rule"
    pure (.eof, handle)

def indexBlank : Node := .literal .indexBlank

/-- One part of an index: its blank is freed, the rest of the handle's life is the
    expression's, which may leave the stale pointer in it. -/
def indexPart : P Node := do
  freeASTNode indexBlank
  rec.parsePrecedence .wild .ternary

/-- The parts behind the first one. -/
def indexRest (first : Node) (readFirst : Bool) : P (Opcode × Node) := do
  if ← matchToken .bracketRight then
    freeIf readFirst indexBlank
    freeASTNode indexBlank
    pure (.index, .index first (if readFirst then .null else indexBlank) .null)
  else
    let second ← (do
      if ← matchToken .colon then pure indexBlank
      else
        let second ← indexPart rec
        let _ ← matchToken .colon
        pure second)
    if ← matchToken .bracketRight then
      freeASTNode indexBlank
      pure (.index, .index first second .null)
    else
      let third ← indexPart rec
      consume .bracketRight "Expected ']' in index notation"
      pure (.index, .index first second third)

/-- `val[first : second : third]`. -/
def indexAccess (_ : Node) : P (Opcode × Node) := do
  advance
  if ← matchToken .colon then indexRest rec indexBlank false
  else
    let first ← indexPart rec
    let _ ← matchToken .colon
    indexRest rec first true

def question (_ : Node) : P (Opcode × Node) := do
  advance
  let thenPath ← rec.parsePrecedence .null .ternary
  consume .colon "Expected ':' in ternary expression"
  let elsePath ← rec.parsePrecedence .null .ternary
  pure (.ternary, .ternary .null thenPath elsePath)

/-- `tmpNode->binary.right == NULL`, whatever type the node has. -/
def rightIsNull (p : Parser) : Node → Bool
  | .binary _ _ right => right.isNull
  | node => rec.rightWordIsZero p node

def dot (handle : Node) : P (Opcode × Node) := do
  advance
  let node ← rec.parsePrecedence .null .call
  let p ← get
  if node.isNull || rightIsNull rec p node then
    error p.previous "Expected function call after dot operator"
    pure (.eof, handle)
  else pure (.dot, node)

def ifExpression (handle : Node) : P (Opcode × Node) := do
  let ifNode ← rec.parseIfChain
  pure (.eof, if ifNode.isNull then handle else ifNode)

/-! ### The table -/

/-- A token without rules. -/
def noRule : ParseRule := ⟨none, none, .none⟩

/-- `parseRules`, read by `getRule`. -/
def getRule : TokenType → ParseRule
  -- types
  | .null | .void => ⟨some atomic, none, .primary⟩
  | .boolean | .integer | .float | .string => ⟨some (castingPrefix rec), none, .call⟩
  | .array | .dictionary | .function | .opaquePtr | .any => noRule
  | .int8 | .int16 | .int32 | .int64 | .uint8 | .uint16 | .uint32 | .uint64 | .float16 | .float32 | .float64 =>
    ⟨some (castingPrefix rec), none, .call⟩
  -- keywords and reserved words
  | .as_ | .assert_ | .break_ | .class_ | .const_ | .continue_ | .do_ | .else_ | .export_ | .for_ | .foreach_ =>
    noRule
  | .if_ => ⟨some (ifExpression rec), none, .assignment⟩
  | .import_ | .in_ | .of_ => noRule
  | .print_ => ⟨some identifierOrKeyword, some (fnCall rec), .call⟩
  | .return_ => noRule
  | .type_ => ⟨some atomic, none, .primary⟩
  | .astype_ => ⟨some (asType rec), none, .call⟩
  | .typeof_ => ⟨some (typeOf rec), none, .call⟩
  | .var_ | .while_ => noRule
  -- literal values
  | .identifier => ⟨some identifier, some castingInfix, .primary⟩
  | .literalTrue | .literalFalse | .literalInteger | .literalFloat => ⟨some atomic, some castingInfix, .primary⟩
  | .literalString => ⟨some string, some castingInfix, .primary⟩
  | .literalInt8 | .literalInt16 | .literalInt32 | .literalInt64 | .literalUint8 | .literalUint16 | .literalUint32
  | .literalUint64 | .literalFloat16 | .literalFloat32 | .literalFloat64 =>
    ⟨some atomic, some castingInfix, .primary⟩
  -- math operators
  | .plus => ⟨none, some (binary rec), .term⟩
  | .minus => ⟨some (unary rec), some (binary rec), .term⟩
  | .multiply | .divide | .modulo => ⟨none, some (binary rec), .factor⟩
  | .plusAssign | .minusAssign | .multiplyAssign | .divideAssign | .moduloAssign =>
    ⟨none, some (binary rec), .assignment⟩
  | .plusPlus => ⟨some incrementPrefix, some incrementInfix, .call⟩
  | .minusMinus => ⟨some decrementPrefix, some decrementInfix, .call⟩
  | .assign => ⟨none, some (binary rec), .assignment⟩
  -- logical operators
  | .parenLeft => ⟨some (grouping rec), some (fnCall rec), .call⟩
  | .parenRight => noRule
  | .bracketLeft => ⟨some (compound rec), some (indexAccess rec), .call⟩
  | .bracketRight | .braceLeft | .braceRight => noRule
  | .not => ⟨some (unary rec), none, .call⟩
  | .notEqual | .equal | .less | .greater | .lessEqual | .greaterEqual => ⟨none, some (binary rec), .comparison⟩
  | .and => ⟨none, some (binary rec), .and⟩
  | .or => ⟨none, some (binary rec), .or⟩
  -- other operators
  | .question => ⟨none, some (question rec), .ternary⟩
  | .colon => noRule
  | .colonColon => ⟨none, some (dot rec), .call⟩
  | .semicolon | .comma => noRule
  | .dot => ⟨none, some (dot rec), .call⟩
  | .pipe | .rest => noRule
  -- meta tokens
  | .pass | .error | .eof => noRule

/-- The prefix rules of the table. -/
inductive PrefixOf : ParseFn → Prop where
  | atomic : PrefixOf atomic
  | castingPrefix : PrefixOf (castingPrefix rec)
  | ifExpression : PrefixOf (ifExpression rec)
  | identifierOrKeyword : PrefixOf identifierOrKeyword
  | asType : PrefixOf (asType rec)
  | typeOf : PrefixOf (typeOf rec)
  | identifier : PrefixOf identifier
  | string : PrefixOf string
  | unary : PrefixOf (unary rec)
  | increment : PrefixOf incrementPrefix
  | decrement : PrefixOf decrementPrefix
  | grouping : PrefixOf (grouping rec)
  | compound : PrefixOf (compound rec)

/-- The infix rules of the table. -/
inductive InfixOf : ParseFn → Prop where
  | fnCall : InfixOf (fnCall rec)
  | castingInfix : InfixOf castingInfix
  | binary : InfixOf (binary rec)
  | increment : InfixOf incrementInfix
  | decrement : InfixOf decrementInfix
  | indexAccess : InfixOf (indexAccess rec)
  | question : InfixOf (question rec)
  | dot : InfixOf (dot rec)

theorem getRule_prefixOf {rec : Rec} {t : TokenType} {f : ParseFn} (h : (getRule rec t).prefixRule = some f) :
    PrefixOf rec f := by
  unfold getRule at h
  split at h <;> cases h <;> constructor

theorem getRule_infixOf {rec : Rec} {t : TokenType} {f : ParseFn} (h : (getRule rec t).infixRule = some f) :
    InfixOf rec f := by
  unfold getRule at h
  split at h <;> cases h <;> constructor

/-! ### The Pratt loop -/

/-- How the Pratt loop goes on behind an infix rule: with the next operator, at its end,
    or out of the function. -/
inductive PrattEnd where
  | loopEnd (node : Node)
  | returned (node : Node)

/-- The index node's parts move one place to the right. -/
def shiftIndex (lhs : Node) : Node → Node
  | .index first second _ => .index lhs first second
  | node => node

def setCondition (condition : Node) : Node → Node
  | .ternary _ thenPath elsePath => .ternary condition thenPath elsePath
  | node => node

/-- The new BINARY node, folded when nothing is wrong. -/
def binaryTurn (lhs rhs : Node) (opcode : Opcode) : P (Node ⊕ PrattEnd) := do
  let node := emitASTNodeBinary lhs rhs opcode
  let p ← get
  if p.panic then pure (.inl node)
  else
    let (ok, node) ← calcStaticBinaryArithmetic node
    if ok then pure (.inl (calcStaticMathFn node)) else pure (.inr (.returned node))

/-- What becomes of the left side and the infix rule's answer. -/
def combine (lhs : Node) (opcode : Opcode) (rhs : Node) : P (Node ⊕ PrattEnd) :=
  match opcode with
  | .eof => do
    freeASTNode lhs
    pure (.inr (.returned rhs))
  | .dot => do
    let rhs ← dottify rhs
    binaryTurn lhs rhs .dot
  | .ternary => pure (.inl (setCondition lhs rhs))
  | .index => pure (.inl (shiftIndex lhs rhs))
  | opcode => binaryTurn lhs rhs opcode

/-- One turn of the loop of `parsePrecedence`. -/
def prattTurn (rule : PrecedenceRule) (node : Node) : P (Node ⊕ PrattEnd) := do
  let p ← get
  if rule ≤ (getRule rec p.current.type).precedence then
    match (getRule rec p.current.type).infixRule with
    | none =>
      error p.current "Expected operator"
      pure (.inr (.returned .null))
    | some infixRule =>
      let (opcode, rhs) ← infixRule .null
      combine node opcode rhs
  else pure (.inr (.loopEnd node))

/-- `canBeAssigned && match(parser, XVR_TOKEN_ASSIGN)`. -/
def checkAssignment (rule : PrecedenceRule) : P Unit := do
  if rule ≤ .assignment then
    if ← matchToken .assign then
      let p ← get
      error p.current "Invalid assignment target"
    else pure ()
  else pure ()

/-- What follows the loop. -/
def endExpression (rule : PrecedenceRule) : PrattEnd → P Node
  | .returned node => pure node
  | .loopEnd node => do
    checkAssignment rule
    pure node

def parsePrecedence (handle : Node) (rule : PrecedenceRule) : P Node := do
  advance
  let p ← get
  match (getRule rec p.previous.type).prefixRule with
  | none =>
    error p.previous "Expected expression"
    pure .null
  | some prefixRule =>
    let (_, node) ← prefixRule handle
    let result ← loop .outOfFuel (prattTurn rec rule) rec.fuel node
    endExpression rule result

end Rules

end Xvr.Frontend.Parse
