/-
  Xvr.Frontend.AstNode — the opcodes (`xvr_opcodes.h`) and the syntax tree
  (`core/ast/xvr_ast_node.cpp`).

  A node pointer is a `Node`: `null` is the null pointer, `wild` one that was never set or
  whose node was freed. A growing array of nodes is a list.
-/

import Xvr.Runtime.LiteralFns

namespace Xvr.Frontend

open Xvr.Runtime

/-- `Xvr_Opcode`. -/
inductive Opcode where
  | eof | pass | assert | print | printf | cast
  | literal | literalLong | literalRaw
  | negate | addition | subtraction | multiplication | division | modulo | groupingBegin | groupingEnd
  | scopeBegin | scopeEnd | typeDecl | typeDeclLong | varDecl | varDeclLong | fnDecl | fnDeclLong
  | varAssign | varAdditionAssign | varSubtractionAssign | varMultiplicationAssign | varDivisionAssign
  | varModuloAssign | typeCast | typeOf | importOp | exportRemoved
  | index | indexAssign | indexAssignIntermediate | dot
  | compareEqual | compareNotEqual | compareLess | compareLessEqual | compareGreater | compareGreaterEqual | invert
  | and | or | jump | ifFalseJump | fnCall | fnReturn | popStack | ternary | fnEnd | sectionEnd
  deriving DecidableEq, Repr

/-- `Xvr_ASTNode`, one constructor per node type. `typeWord` of an if node is the enum
    value stored in `returnType`, whatever it was read from. -/
inductive Node where
  | null
  | wild
  | error
  | literal (literal : Literal)
  | unary (opcode : Opcode) (child : Node)
  | binary (opcode : Opcode) (left right : Node)
  | ternary (condition thenPath elsePath : Node)
  | grouping (child : Node)
  | block (nodes : List Node)
  | compound (literalType : LiteralType) (nodes : List Node)
  | pair (left right : Node)
  | index (first second third : Node)
  | varDecl (identifier typeLiteral : Literal) (expression : Node) (line : Nat)
  | fnDecl (identifier : Literal) (arguments returns block : Node) (line : Nat)
  | fnCollection (nodes : List Node)
  | fnCall (arguments : Node) (argumentCount : Nat)
  | fnReturn (returns : Node)
  | pathIf (condition thenPath elsePath : Node) (typeWord : BitVec 32) (isExpression : Bool)
  | pathWhile (condition thenPath : Node)
  | pathFor (preClause condition postClause thenPath : Node)
  | pathBreak
  | pathContinue
  | prefixIncrement (identifier : Literal)
  | postfixIncrement (identifier : Literal)
  | prefixDecrement (identifier : Literal)
  | postfixDecrement (identifier : Literal)
  | cast (targetType : Literal) (expression : Node)
  | importNode (identifier alias_ : Literal)
  | pass
  deriving Repr

namespace Node

/-- The pointer points to a node. -/
def isNode : Node → Bool
  | .null | .wild => false
  | _ => true

def isNull : Node → Bool
  | .null => true
  | _ => false

def isBinary : Node → Bool
  | .binary _ _ _ => true
  | _ => false

def isError : Node → Bool
  | .error => true
  | _ => false

mutual

/-- Freeing the node goes through no stale pointer: it frees every child. -/
def freeable : Node → Bool
  | .wild => false
  | .unary _ child | .grouping child => child.freeable
  | .binary _ left right | .pair left right => left.freeable && right.freeable
  | .ternary condition thenPath elsePath => condition.freeable && thenPath.freeable && elsePath.freeable
  | .block nodes | .compound _ nodes | .fnCollection nodes => freeableAll nodes
  | .index first second third => first.freeable && second.freeable && third.freeable
  | .varDecl _ _ expression _ | .cast _ expression => expression.freeable
  | .fnDecl _ arguments returns body _ => arguments.freeable && returns.freeable && body.freeable
  | .fnCall arguments _ => arguments.freeable
  | .fnReturn returns => returns.freeable
  | .pathIf condition thenPath elsePath _ _ => condition.freeable && thenPath.freeable && elsePath.freeable
  | .pathWhile condition thenPath => condition.freeable && thenPath.freeable
  | .pathFor preClause condition postClause thenPath =>
    preClause.freeable && postClause.freeable && condition.freeable && thenPath.freeable
  | _ => true

def freeableAll : List Node → Bool
  | [] => true
  | node :: nodes => node.freeable && freeableAll nodes

end

end Node

/-! ## Building nodes -/

def emitASTNodeLiteral (literal : Literal) : Node := .literal (copyLiteral literal)

/-- The new node takes the old content of the handle as its left child. -/
def emitASTNodeBinary (node rhs : Node) (opcode : Opcode) : Node := .binary opcode node rhs

def emitASTNodeCompound (literalType : LiteralType) : Node := .compound literalType []

def emitASTNodePrefixIncrement (identifier : Literal) : Node := .prefixIncrement (copyLiteral identifier)

def emitASTNodePrefixDecrement (identifier : Literal) : Node := .prefixDecrement (copyLiteral identifier)

def emitASTNodePostfixIncrement (identifier : Literal) : Node := .postfixIncrement (copyLiteral identifier)

def emitASTNodePostfixDecrement (identifier : Literal) : Node := .postfixDecrement (copyLiteral identifier)

def emitASTNodeImport (identifier alias_ : Literal) : Node := .importNode (copyLiteral identifier) (copyLiteral alias_)

def emitASTNodeCast (targetType : Literal) (expression : Node) : Node := .cast (copyLiteral targetType) expression

/-- The number of elements an argument list holds. -/
def collectionCount : Node → Nat
  | .fnCollection nodes => nodes.length
  | _ => 0

def emitASTNodeFnCall (arguments : Node) : Node := .fnCall arguments (collectionCount arguments)

/-- An if node starts as a statement. -/
def emitASTNodeIf (condition thenPath elsePath : Node) : Node :=
  .pathIf condition thenPath elsePath (BitVec.ofNat 32 LiteralType.type.ctorIdx) false

def markIfAsExpression (typeWord : BitVec 32) : Node → Node
  | .pathIf condition thenPath elsePath _ _ => .pathIf condition thenPath elsePath typeWord true
  | node => node

end Xvr.Frontend
