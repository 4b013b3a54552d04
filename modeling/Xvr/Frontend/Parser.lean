/-
  Xvr.Frontend.Parser — the parser's state and its helpers (`Xvr_Parser`, `error` to
  `synchronize` of `xvr_parser.cpp`).

  The lexer is the stream of tokens it answers; behind its last token it answers EOF for
  ever. `errors` and `accesses` are history: the errors raised, and the accesses whose
  outcome the language leaves undefined unless the state is right. An access that is not
  defined stops the run. What is printed is not modelled.
-/

import Xvr.Frontend.AstNode
import Xvr.Frontend.Token
import Xvr.Lib.Meets

namespace Xvr.Frontend.Parse

open Xvr.Runtime Xvr.Lib

structure TokenStream where
  tokens : List Token
  eof : Token
  isEof : eof.type = .eof

/-- `Xvr_private_scanLexer`. -/
def scanLexer (lexer : TokenStream) : Token × TokenStream :=
  match lexer.tokens with
  | [] => (lexer.eof, lexer)
  | token :: tokens => (token, { lexer with tokens })

structure RaisedError where
  token : Token
  message : String

/-- The accesses that are defined only in some states. -/
inductive Access where
  /-- `importStmt` reads the node of the alias, which `identifier` built from this token. -/
  | aliasNode (token : Token)
  /-- `dottify` reads the node its handle points to. -/
  | dotted (node : Node)
  /-- Folding divides two 32-bit integers. -/
  | divide (lhs rhs : BitVec 32)
  /-- A node is freed with all its children. -/
  | free (node : Node)

/-- A quotient of 32-bit integers fits 32 bits. -/
def quotientFits (lhs rhs : BitVec 32) : Bool := !(lhs == BitVec.intMin 32 && rhs == -1)

def Access.defined : Access → Bool
  | .aliasNode token => token.type == .identifier
  | .dotted node => node.isNode
  | .divide lhs rhs => quotientFits lhs rhs
  | .free node => node.freeable

/-- `Xvr_Parser`. -/
structure Parser where
  lexer : TokenStream
  current : Token
  previous : Token
  error : Bool
  panic : Bool
  errors : List RaisedError
  accesses : List Access

/-- Why a call did not return. -/
inductive Stop where
  | outOfFuel
  | undefined
  /-- A pointer that must point to a node did not. -/
  | noNode

abbrev P := EStateM Stop Parser

/-! ## Accesses -/

def access (a : Access) : P Unit := do
  modify fun p => { p with accesses := a :: p.accesses }
  if a.defined then pure () else throw .undefined

/-- `*node`. -/
def deref (node : Node) : P Unit := if node.isNode then pure () else throw .noNode

def freeASTNode (node : Node) : P Unit := access (.free node)

def freeIf (c : Bool) (node : Node) : P Unit := if c then freeASTNode node else pure ()

/-! ## Helpers -/

/-- Nothing is raised while panicking. -/
def raise (token : Token) (message : String) (p : Parser) : Parser :=
  if p.panic then p else { p with error := true, panic := true, errors := ⟨token, message⟩ :: p.errors }

def error (token : Token) (message : String) : P Unit := modify (raise token message)

def errorIf (c : Bool) (token : Token) (message : String) : P Unit := if c then error token message else pure ()

/-- The parser behind the next token. -/
def shift (p : Parser) : Parser :=
  { p with previous := p.current, current := (scanLexer p.lexer).1, lexer := (scanLexer p.lexer).2 }

def advance : P Unit := do
  modify shift
  let p ← get
  if p.current.type = .error then error p.current "Xvr_Lexer error" else pure ()

/-- `match`. -/
def matchToken (tokenType : TokenType) : P Bool := do
  let p ← get
  if p.current.type = tokenType then
    advance
    pure true
  else pure false

def consumeSemicolon : P Unit := do
  if ← matchToken .semicolon then pure ()
  else
    let p ← get
    if p.current.type = .braceRight ∨ p.current.type = .eof then pure ()
    else error p.current "Expected ';'"

def consume (tokenType : TokenType) (msg : String) : P Unit := do
  let p ← get
  if p.current.type ≠ tokenType then error p.current msg else advance

/-- The tokens that can start a line. -/
def startsLine : TokenType → Bool
  | .assert_ | .break_ | .class_ | .continue_ | .do_ | .else_ | .export_ | .for_ | .foreach_ | .if_ | .import_
  | .print_ | .return_ | .var_ | .while_ => true
  | _ => false

/-- One turn of the loop of `synchronize`. -/
def synchronizeTurn (_ : Unit) : P (Unit ⊕ Unit) := do
  let p ← get
  if p.current.type = .eof then pure (.inr ())
  else if startsLine p.current.type then
    modify fun p => { p with panic := false }
    pure (.inr ())
  else
    advance
    pure (.inl ())

def synchronize (fuel : Nat) : P Unit := loop .outOfFuel synchronizeTurn fuel ()

end Xvr.Frontend.Parse
