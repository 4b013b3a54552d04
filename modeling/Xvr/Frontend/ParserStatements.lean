/-
  Xvr.Frontend.ParserStatements — statements, declarations and the exposed functions
  (`blockStmt` to `Xvr_scanParser` of `xvr_parser.cpp`).

  Every statement's handle starts as the null pointer, and the function answers what it
  leaves there. `recAt n` closes the recursion with `n` levels of fuel; `scanParser` takes
  as much as the tokens left can use up. `printStmt` is never called and left out.
-/

import Xvr.Frontend.ParserRules

namespace Xvr.Frontend.Parse

open Xvr.Runtime Xvr.Lib

section Statements

variable (rec : Rec)

/-! ## Blocks -/

/-- One statement of a block: `false` is an early return. -/
def blockTurn (nodes : List Node) : P (List Node ⊕ (Bool × List Node)) := do
  if ← matchToken .braceRight then pure (.inr (true, nodes))
  else
    let node ← rec.declaration
    let p ← get
    if p.panic then pure (.inr (false, nodes))
    else
      deref node
      pure (.inl (nodes ++ [node]))

/-- Whether the closing brace was reached, and the statements up to it. -/
def blockNodes : P (Bool × List Node) := loop .outOfFuel (blockTurn rec) rec.fuel []

def blockStmt : P Node := do
  let (_, nodes) ← blockNodes rec
  pure (.block nodes)

/-! ## Control flow -/

/-- A branch: `none` is the early return out of the chain. -/
def branch : P (Option Node) := do
  if ← matchToken .braceLeft then
    let (closed, nodes) ← blockNodes rec
    pure (if closed then some (.block nodes) else none)
  else
    let node ← rec.declaration
    pure (some node)

def elseBranch : P (Option Node) := do
  if ← matchToken .else_ then
    if ← matchToken .if_ then
      let node ← rec.parseIfChain
      pure (some node)
    else branch rec
  else pure (some .null)

def parseIfChain : P Node := do
  consume .parenLeft "Expected '(' at beginning of if clause"
  let condition ← rec.parsePrecedence .null .ternary
  consume .parenRight "Expected ')' at end of if clause"
  match ← branch rec with
  | none => pure .null
  | some thenPath =>
    match ← elseBranch rec with
    | none => pure .null
    | some elsePath => pure (emitASTNodeIf condition thenPath elsePath)

def whileStmt : P Node := do
  consume .parenLeft "Expected '(' at beginning of while clause"
  let condition ← rec.parsePrecedence .null .ternary
  consume .parenRight "Expected ')' at end of while clause"
  let thenPath ← rec.declaration
  pure (.pathWhile condition thenPath)

/-- A declaration brings its own semicolon. -/
def forPreClause : P Node := do
  let p ← get
  if p.current.type ≠ .semicolon then rec.declaration
  else
    consume .semicolon "Expected `;` after empty declaration of for clause"
    pure .pass

def forCondition : P Node := do
  let p ← get
  if p.current.type ≠ .semicolon then
    let condition ← rec.parsePrecedence .null .ternary
    consume .semicolon "Expected ';' after condition of for clause"
    pure condition
  else
    consume .semicolon "Expected `;` after empty condition of for clause"
    pure (emitASTNodeLiteral (.boolean true))

def forPostClause : P Node := do
  let p ← get
  if p.current.type ≠ .parenRight then
    let postClause ← rec.parsePrecedence .null .assignment
    consume .parenRight "Expected ')' at end of for clause"
    pure postClause
  else
    consume .parenRight "Expected `)` after empty increment of for clause"
    pure .pass

def forStmt : P Node := do
  consume .parenLeft "Expected '(' at beginning of for clause"
  let preClause ← forPreClause rec
  let condition ← forCondition rec
  let postClause ← forPostClause rec
  let thenPath ← rec.declaration
  pure (.pathFor preClause condition postClause thenPath)

/-! ## Simple statements -/

/-- The children of the new node are not set before they are parsed. -/
def assertStmt : P Node := do
  let left ← rec.parsePrecedence .wild .ternary
  consume .comma "Expected ',' in assert statement"
  let right ← rec.parsePrecedence .wild .ternary
  consumeSemicolon
  pure (.binary .assert left right)

def breakStmt : P Node := do
  consumeSemicolon
  pure .pathBreak

def continueStmt : P Node := do
  consumeSemicolon
  pure .pathContinue

/-- One returned value: `none` is an early return. -/
def returnTurn (values : List Node) : P (List Node ⊕ Option (List Node)) := do
  let node ← rec.parsePrecedence .null .ternary
  if node.isNull then
    let p ← get
    error p.previous "[internal] No token found in return"
    pure (.inr none)
  else
    deref node
    if ← matchToken .comma then pure (.inl (values ++ [node]))
    else pure (.inr (some (values ++ [node])))

def returnStmt : P Node := do
  if ← matchToken .semicolon then pure (.fnReturn (.fnCollection []))
  else
    match ← loop .outOfFuel (returnTurn rec) rec.fuel [] with
    | none => pure .null
    | some values =>
      consumeSemicolon
      pure (.fnReturn (.fnCollection values))

/-- `identifier` after a step, and the literal of the node it built. -/
def namedLiteral : P (Option Literal) := do
  advance
  let (_, node) ← identifier .null
  match node with
  | .literal l => pure (some l)
  | _ => pure none

/-- The alias is read through its node without a test. -/
def importAlias : P Literal := do
  if ← matchToken .as_ then
    let alias_ ← namedLiteral
    let p ← get
    access (.aliasNode p.previous)
    let l := alias_.getD .null
    freeASTNode (.literal l)
    pure l
  else pure .null

def importStmt : P Node := do
  match ← namedLiteral with
  | none => pure .null
  | some idn =>
    freeASTNode (.literal idn)
    let alias_ ← importAlias
    consumeSemicolon
    pure (emitASTNodeImport idn alias_)

def expressionStmt : P Node := do
  if ← matchToken .semicolon then pure (emitASTNodeLiteral .null)
  else
    let node ← expression rec .null
    consumeSemicolon
    pure node

def statement : P Node := do
  if ← matchToken .braceLeft then blockStmt rec
  else if ← matchToken .assert_ then assertStmt rec
  else if ← matchToken .if_ then rec.parseIfChain
  else if ← matchToken .while_ then whileStmt rec
  else if ← matchToken .for_ then forStmt rec
  else if ← matchToken .break_ then breakStmt
  else if ← matchToken .continue_ then continueStmt
  else if ← matchToken .return_ then returnStmt rec
  else if ← matchToken .import_ then importStmt
  else expressionStmt rec

/-! ## Types -/

/-- The type a token names by itself. -/
def simpleType : TokenType → Option LiteralType
  | .null => some .null
  | .void => some .void
  | .boolean => some .boolean
  | .integer => some .integer
  | .int8 => some .int8
  | .int16 => some .int16
  | .int32 => some .int32
  | .int64 => some .int64
  | .uint8 => some .uint8
  | .uint16 => some .uint16
  | .uint32 => some .uint32
  | .uint64 => some .uint64
  | .float => some .float
  | .float16 => some .float16
  | .float32 => some .float32
  | .float64 => some .float64
  | .string => some .string
  | .function => some .function
  | .opaquePtr => some .opaquePtr
  | .any => some .any
  | .type_ => some .type
  | _ => none

/-- The sub-types of an array or a dictionary. -/
def compoundType : P Literal := do
  let l ← rec.readTypeToLiteral
  let literal ← (do
    if ← matchToken .colon then
      let r ← rec.readTypeToLiteral
      pure (Literal.type .dictionary false [l, r])
    else pure (Literal.type .array false [l]))
  consume .bracketRight "Expected ']' at end of type definition"
  pure literal

/-- The flag is a byte of the union that an identifier does not use. -/
def setConstant : Literal → Literal
  | .type typeOf _ subtypes => .type typeOf true subtypes
  | l => l

def typeToken : P (Option Literal) := do
  let p ← get
  match simpleType p.previous.type with
  | some typeOf => pure (some (.type typeOf false []))
  | none =>
    if p.previous.type = .bracketLeft then
      let literal ← compoundType rec
      pure (some literal)
    else if p.previous.type = .identifier then
      let literal ← identifierLiteral p.previous
      pure (some literal)
    else
      error p.previous "Bad type signature"
      pure none

def readTypeToLiteral : P Literal := do
  advance
  match ← typeToken rec with
  | none => pure .null
  | some literal =>
    -- const follows the type
    if ← matchToken .const_ then pure (setConstant literal)
    else pure literal

/-- `: type`, or non-const any. -/
def declaredType : P Literal := do
  if ← matchToken .colon then rec.readTypeToLiteral
  else pure (.type .any false [])

/-- The 32-bit word `as.type.typeOf` lies in. -/
def typeWord : Literal → BitVec 32
  | .type typeOf _ _ => BitVec.ofNat 32 typeOf.ctorIdx
  | .identifier name => hashString name
  | _ => 0

/-! ## Declarations -/

/-- The name behind a keyword, with its token. -/
def declaredName (msg : String) : P (Token × Literal) := do
  consume .identifier msg
  let p ← get
  let identifier ← identifierLiteral p.previous
  pure (p.previous, identifier)

def varDecl : P Node := do
  let (identifierToken, identifier) ← declaredName "Expected identifier after var keyword"
  let typeLiteral ← declaredType rec
  let expressionNode ← (do
    if ← matchToken .assign then
      let node ← expression rec .null
      pure (markIfAsExpression (typeWord typeLiteral) node)
    else pure (emitASTNodeLiteral .null))
  consumeSemicolon
  pure (.varDecl identifier typeLiteral expressionNode identifierToken.line)

/-- One parameter; a rest parameter is the last. -/
def parameterTurn (parameters : List Node) : P (List Node ⊕ List Node) := do
  if ← matchToken .rest then
    let (token, identifier) ← declaredName "Expected identifier as function argument"
    pure (.inr (parameters ++ [.varDecl identifier (.type .functionArgRest false []) .null token.line]))
  else
    let (token, identifier) ← declaredName "Expected identifier as function argument"
    let typeLiteral ← declaredType rec
    let parameters := parameters ++ [.varDecl identifier typeLiteral .null token.line]
    if ← matchToken .comma then pure (.inl parameters) else pure (.inr parameters)

def parameterList : P (List Node) := do
  if ← matchToken .parenRight then pure []
  else
    let parameters ← loop .outOfFuel (parameterTurn rec) rec.fuel []
    consume .parenRight "Expected ')' after function argument list"
    pure parameters

/-- One return type. -/
def returnTypeTurn (returns : List Node) : P (List Node ⊕ List Node) := do
  let literal ← rec.readTypeToLiteral
  let returns := returns ++ [emitASTNodeLiteral literal]
  if ← matchToken .comma then pure (.inl returns) else pure (.inr returns)

def returnTypes : P (List Node) := do
  if ← matchToken .colon then loop .outOfFuel (returnTypeTurn rec) rec.fuel []
  else pure []

def fnDecl : P Node := do
  let (identifierToken, identifier) ← declaredName "Expected identifier after fn keyword"
  consume .parenLeft "Expected '(' after function identifier"
  let parameters ← parameterList rec
  let returns ← returnTypes rec
  consume .braceLeft "Expected '\x7b' after return list"
  let block ← blockStmt rec
  pure (.fnDecl identifier (.fnCollection parameters) (.fnCollection returns) block identifierToken.line)

def declaration : P Node := do
  if ← matchToken .var_ then varDecl rec
  else if ← matchToken .function then fnDecl rec
  else statement rec

end Statements

/-! ## The exposed functions -/

/-- The functions with `n` levels of recursion. -/
def recAt (rightWordIsZero : Parser → Node → Bool) : Nat → Rec
  | 0 =>
    { parsePrecedence := fun _ _ => throw .outOfFuel
      declaration := throw .outOfFuel
      parseIfChain := throw .outOfFuel
      readTypeToLiteral := throw .outOfFuel
      fuel := 0
      rightWordIsZero }
  | n + 1 =>
    { parsePrecedence := parsePrecedence (recAt rightWordIsZero n)
      declaration := declaration (recAt rightWordIsZero n)
      parseIfChain := parseIfChain (recAt rightWordIsZero n)
      readTypeToLiteral := readTypeToLiteral (recAt rightWordIsZero n)
      fuel := n + 1
      rightWordIsZero }

/-- The tokens before EOF that have not been stepped over. -/
def remaining (p : Parser) : Nat := p.lexer.tokens.length + if p.current.type = .eof then 0 else 1

/-- The parser over a lexer, before its first step. -/
def blankParser (lexer : TokenStream) : Parser :=
  { lexer, current := ⟨.null, [], 0⟩, previous := ⟨.null, [], 0⟩, error := false, panic := false, errors := [],
    accesses := [] }

/-- `Xvr_initParser`. -/
def initParser (lexer : TokenStream) : Parser :=
  match advance (blankParser lexer) with
  | .ok _ p => p
  | .error _ p => p

/-- A panicking call recovers, and gives an error node for what it read. -/
def finishCall (rec : Rec) (node : Node) : P (Option Node) := do
  let p ← get
  if p.panic then
    synchronize rec.fuel
    freeASTNode node
    pure (some .error)
  else pure (some node)

/-- `Xvr_scanParser`, over the functions it calls. -/
def scanParserWith (rec : Rec) : P (Option Node) := do
  let p ← get
  if p.current.type = .eof then pure none
  else
    let node ← rec.declaration
    finishCall rec node

/-- More levels of recursion and turns of a loop than the tokens left can use up. -/
def fuelFor (p : Parser) : Nat := 8 * remaining p + 8

/-- `Xvr_scanParser`. -/
def scanParser (rightWordIsZero : Parser → Node → Bool) : P (Option Node) := fun p =>
  scanParserWith (recAt rightWordIsZero (fuelFor p)) p

end Xvr.Frontend.Parse
