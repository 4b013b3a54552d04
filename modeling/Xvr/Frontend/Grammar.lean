/-
  Xvr.Frontend.Grammar — the language's grammar, with the tree of every text.

  `Derives phrase tokens nodes`: the tokens are a phrase of the kind, and these are its
  nodes. It says nothing of the parser's state, its loops or its fuel; from the parser it
  takes the tables (levels, operators, literals) and what folding leaves of an operator.

  An operator's right side is read at the operator's own level, so operators group to the
  right. What an expression's right end would still take is its `reach`: it may stand only
  in front of tokens below that level. A statement is open when an `else` behind it would
  be its own.

  What the parser also takes and the grammar leaves out: a statement without its semicolon
  in front of a closing brace or EOF, `astype`, the keyword `type` as a value, and an `if`
  without a final `else` as an expression.
-/

import Xvr.Frontend.FoldedNodes

namespace Xvr.Frontend.Parse

open Xvr.Runtime Xvr.Lib

/-! ## Levels -/

def PrecedenceRule.level (rule : PrecedenceRule) : Nat := rule.ctorIdx

/-- The reach of an expression that takes nothing more, whatever follows. -/
def endless : Nat := 11

/-- The next token is below the level. -/
def Below (reach : Nat) (tail : TokenStream) : Prop := (levelOf (scanLexer tail).1.type).level < reach

theorem stops_iff (rule : PrecedenceRule) (tail : TokenStream) : Stops rule tail ↔ Below rule.level tail := Nat.not_le

theorem Below.mono {reach reach' : Nat} {tail : TokenStream} (h : Below reach tail) (hle : reach ≤ reach') : Below reach' tail :=
  Nat.lt_of_lt_of_le h hle

/-! ## Types -/

/-- A type's tokens: bare, or with a `const` behind it. -/
inductive TypeText : Bool → List Token → Literal → Prop
  | simple {t : Token} {typeOf : LiteralType} : simpleType t.type = some typeOf → TypeText true [t] (.type typeOf false [])
  | named {t : Token} : t.type = .identifier → t.lexeme.length ≤ maxIdentifierLength → TypeText true [t] (.identifier t.lexeme)
  | array (left : Mark .bracketLeft) {bare : Bool} {xs : List Token} {l : Literal} (right : Mark .bracketRight) :
      TypeText bare xs l → TypeText true (left.token :: (xs ++ [right.token])) (.type .array false [l])
  | dictionary (left : Mark .bracketLeft) {bare bare' : Bool} {xs ys : List Token} {l r : Literal} (colon : Mark .colon)
      (right : Mark .bracketRight) : TypeText bare xs l → TypeText bare' ys r →
      TypeText true (left.token :: (xs ++ colon.token :: (ys ++ [right.token]))) (.type .dictionary false [l, r])
  | const {xs : List Token} {l : Literal} (const : Mark .const_) : TypeText true xs l →
      TypeText false (xs ++ [const.token]) (setConstant l)

/-- `: type`, or nothing, which is any. -/
inductive Annotation : List Token → Literal → Prop
  | any : Annotation [] (.type .any false [])
  | typed (colon : Mark .colon) {bare : Bool} {xs : List Token} {l : Literal} : TypeText bare xs l →
      Annotation (colon.token :: xs) l

/-- A name a declaration may have. -/
structure NameToken extends Mark .identifier where
  fits : token.lexeme.length ≤ maxIdentifierLength

def NameToken.literal (name : NameToken) : Literal := .identifier name.token.lexeme

/-- Parameters between commas; a rest parameter is the last. -/
inductive Parameters : List Token → List Node → Prop
  | last (name : NameToken) {xs : List Token} {l : Literal} : Annotation xs l →
      Parameters (name.token :: xs) [.varDecl name.literal l .null name.token.line]
  | rest (rest : Mark .rest) (name : NameToken) :
      Parameters [rest.token, name.token] [.varDecl name.literal (.type .functionArgRest false []) .null name.token.line]
  | more (name : NameToken) {xs ys : List Token} {l : Literal} {nodes : List Node} (comma : Mark .comma) : Annotation xs l →
      Parameters ys nodes →
      Parameters (name.token :: (xs ++ comma.token :: ys)) (.varDecl name.literal l .null name.token.line :: nodes)

inductive ParameterList : List Token → List Node → Prop
  | none : ParameterList [] []
  | some {xs : List Token} {nodes : List Node} : Parameters xs nodes → ParameterList xs nodes

/-- Types between commas. -/
inductive Types : List Token → List Node → Prop
  | last {bare : Bool} {xs : List Token} {l : Literal} : TypeText bare xs l → Types xs [emitASTNodeLiteral l]
  | more {bare : Bool} {xs ys : List Token} {l : Literal} {nodes : List Node} (comma : Mark .comma) : TypeText bare xs l →
      Types ys nodes → Types (xs ++ comma.token :: ys) (emitASTNodeLiteral l :: nodes)

inductive ReturnTypes : List Token → List Node → Prop
  | none : ReturnTypes [] []
  | some (colon : Mark .colon) {xs : List Token} {nodes : List Node} : Types xs nodes → ReturnTypes (colon.token :: xs) nodes

/-! ## Nodes -/

/-- The text of a string's lexeme, unless it has an escape there is not. -/
def unescaped : List Char → Option (List Char)
  | [] => some []
  | '\\' :: c :: cs => do return (← unescapeChar c) :: (← unescaped cs)
  | ['\\'] => some ['"']
  | c :: cs => do return c :: (← unescaped cs)

/-- What `-` makes of its operand; a boolean is refused. -/
def minusNode : Node → Option Node
  | .literal l =>
    if l.isInteger || l.isFloat then some (.literal (negateLiteral l))
    else if l.isBoolean then none
    else some (.unary .negate (.literal l))
  | node => some (.unary .negate node)

/-- What `!` makes of its operand. -/
def notNode : Node → Node
  | .literal (.boolean b) => .literal (.boolean !b)
  | node => .unary .invert node

/-- A missing part of an index. -/
def givenOr (parts : List Node) : Node := parts.head?.getD indexBlank

/-- The second part of `[a : b]`; without one there is a blank only if there is no first part. -/
def secondOf (first second : List Node) : Node :=
  match second with
  | b :: _ => b
  | [] => if first.isEmpty then indexBlank else .null

/-- A word or number may stand behind an operand, as a type it is cast to. -/
inductive Juxtaposed : Token → Node → Prop
  | name (name : NameToken) : Juxtaposed name.token (.literal name.literal)
  | literal {t : Token} {l : Literal} : t.type = .literalTrue ∨ t.type = .literalFalse ∨ t.type = .literalInteger ∨
      t.type = .literalFloat → tokenLiteral t = some l → Juxtaposed t (emitASTNodeLiteral l)

/-! ## Phrases -/

inductive Phrase where
  /-- An expression the Pratt loop at the rule has come to the end of, and goes on from. -/
  | operand (rule : PrecedenceRule) (reach : Nat)
  /-- An expression read at the rule. -/
  | expression (rule : PrecedenceRule) (reach : Nat)
  /-- Expressions between commas. -/
  | list
  | arguments
  /-- Array elements. -/
  | elements
  /-- Dictionary entries. -/
  | entries
  /-- A part of an index, or none. -/
  | optional
  /-- An index: the two parts its node keeps. -/
  | index
  | statement (isOpen : Bool)
  /-- What stands behind `if`. -/
  | chain (isOpen : Bool)
  /-- A path of an if. -/
  | branch (isOpen : Bool)
  | statements
  | preClause
  | condition
  | postClause
  | initializer

/-- The tokens do not start with one of this type. -/
def NotStarting (type : TokenType) (tokens : List Token) : Prop := ∀ t ∈ tokens.head?, t.type ≠ type

inductive Derives : Phrase → List Token → List Node → Prop
  -- operands of one token
  | literal (rule : PrecedenceRule) {t : Token} {l : Literal} : tokenLiteral t = some l →
      Derives (.operand rule endless) [t] [emitASTNodeLiteral l]
  | string (rule : PrecedenceRule) (m : Mark .literalString) {text : List Char} : unescaped m.token.lexeme = some text →
      text.length ≤ maxStringLength → Derives (.operand rule endless) [m.token] [emitASTNodeLiteral (.string text)]
  | name (rule : PrecedenceRule) (name : NameToken) : Derives (.operand rule endless) [name.token] [.literal name.literal]
  | keyword (rule : PrecedenceRule) (m : Mark .print_) :
      Derives (.operand rule endless) [m.token] [.literal (.identifier (m.token.lexeme.take maxIdentifierLength))]
  | typeName (rule : PrecedenceRule) {t : Token} : getTypeFromToken t.type ≠ .null →
      Derives (.operand rule PrecedenceRule.call.level) [t] [.literal (.type (getTypeFromToken t.type) false [])]
  -- operands of several tokens
  | cast (rule : PrecedenceRule) {t : Token} (left : Mark .parenLeft) {reach : Nat} {xs : List Token} {x : Node}
      (right : Mark .parenRight) : getTypeFromToken t.type ≠ .null → Derives (.expression .assignment reach) xs [x] →
      Derives (.operand rule endless) (t :: left.token :: (xs ++ [right.token]))
        [emitASTNodeCast (.type (getTypeFromToken t.type) false []) x]
  | group (rule : PrecedenceRule) (left : Mark .parenLeft) {reach : Nat} {xs : List Token} {x : Node}
      (right : Mark .parenRight) : Derives (.expression .ternary reach) xs [x] →
      Derives (.operand rule endless) (left.token :: (xs ++ [right.token])) [.grouping x]
  | minus (rule : PrecedenceRule) (m : Mark .minus) {reach : Nat} {xs : List Token} {x node : Node} :
      Derives (.expression .term reach) xs [x] → minusNode x = some node → Derives (.operand rule reach) (m.token :: xs) [node]
  | not (rule : PrecedenceRule) (m : Mark .not) {reach : Nat} {xs : List Token} {x : Node} :
      Derives (.expression .call reach) xs [x] → Derives (.operand rule reach) (m.token :: xs) [notNode x]
  | typeOf (rule : PrecedenceRule) (m : Mark .typeof_) {reach : Nat} {xs : List Token} {x : Node} :
      Derives (.expression .ternary reach) xs [x] → Derives (.operand rule reach) (m.token :: xs) [.unary .typeOf x]
  | increment (rule : PrecedenceRule) (m : Mark .plusPlus) (name : NameToken) :
      Derives (.operand rule endless) [m.token, name.token] [emitASTNodePrefixIncrement name.literal]
  | decrement (rule : PrecedenceRule) (m : Mark .minusMinus) (name : NameToken) :
      Derives (.operand rule endless) [m.token, name.token] [emitASTNodePrefixDecrement name.literal]
  | emptyArray (rule : PrecedenceRule) (left : Mark .bracketLeft) (right : Mark .bracketRight) :
      Derives (.operand rule endless) [left.token, right.token] [.compound .array []]
  | array (rule : PrecedenceRule) (left : Mark .bracketLeft) {xs : List Token} {nodes : List Node} (right : Mark .bracketRight) :
      Derives .elements xs nodes → Derives (.operand rule endless) (left.token :: (xs ++ [right.token])) [.compound .array nodes]
  | emptyDictionary (rule : PrecedenceRule) (left : Mark .bracketLeft) (colon : Mark .colon) (right : Mark .bracketRight) :
      Derives (.operand rule endless) [left.token, colon.token, right.token] [.compound .dictionary []]
  | dictionary (rule : PrecedenceRule) (left : Mark .bracketLeft) {xs : List Token} {nodes : List Node}
      (right : Mark .bracketRight) : Derives .entries xs nodes →
      Derives (.operand rule endless) (left.token :: (xs ++ [right.token])) [.compound .dictionary nodes]
  | ifExpression (rule : PrecedenceRule) (m : Mark .if_) {xs : List Token} {x : Node} : Derives (.chain false) xs [x] →
      Derives (.operand rule endless) (m.token :: xs) [x]
  -- what goes on behind an operand
  | operator {rule level : PrecedenceRule} {reach reach' : Nat} {xs ys : List Token} {x y node : Node} {t : Token}
      {opcode : Opcode} : Derives (.operand rule reach) xs [x] → binaryOperator t.type = some (level, opcode) →
      rule.level ≤ level.level → level.level < reach → Derives (.expression level reach') ys [y] →
      folded opcode x y = some node → Derives (.operand rule reach') (xs ++ t :: ys) [node]
  | ternary {rule : PrecedenceRule} {reach reach₁ reach₂ : Nat} {xs ys zs : List Token} {c x y : Node}
      (question : Mark .question) (colon : Mark .colon) : Derives (.operand rule reach) xs [c] →
      rule.level ≤ PrecedenceRule.ternary.level → PrecedenceRule.ternary.level < reach →
      Derives (.expression .ternary reach₁) ys [x] → Derives (.expression .ternary reach₂) zs [y] →
      Derives (.operand rule reach₂) (xs ++ question.token :: (ys ++ colon.token :: zs)) [.ternary c x y]
  | call {rule : PrecedenceRule} {reach : Nat} {xs ys : List Token} {x : Node} {nodes : List Node} (left : Mark .parenLeft)
      (right : Mark .parenRight) : Derives (.operand rule reach) xs [x] → rule.level ≤ PrecedenceRule.call.level →
      PrecedenceRule.call.level < reach → Derives .arguments ys nodes →
      Derives (.operand rule endless) (xs ++ left.token :: (ys ++ [right.token]))
        [.binary .fnCall x (.fnCall (.fnCollection nodes) nodes.length)]
  | indexed {rule : PrecedenceRule} {reach : Nat} {xs ys : List Token} {x first second : Node} :
      Derives (.operand rule reach) xs [x] → rule.level ≤ PrecedenceRule.call.level → PrecedenceRule.call.level < reach →
      Derives .index ys [first, second] → Derives (.operand rule endless) (xs ++ ys) [.index x first second]
  | dot {rule : PrecedenceRule} {reach reach' : Nat} {xs ys : List Token} {x left right : Node} {opcode : Opcode} {t : Token} :
      Derives (.operand rule reach) xs [x] → t.type = .dot ∨ t.type = .colonColon →
      rule.level ≤ PrecedenceRule.call.level → PrecedenceRule.call.level < reach →
      Derives (.expression .call reach') ys [.binary opcode left right] →
      Derives (.operand rule reach') (xs ++ t :: ys) [.binary .dot x (dotted (.binary opcode left right))]
  | juxtaposed {rule : PrecedenceRule} {xs : List Token} {x y : Node} {t : Token} : Derives (.operand rule endless) xs [x] →
      rule.level ≤ PrecedenceRule.primary.level → Juxtaposed t y →
      Derives (.operand rule endless) (xs ++ [t]) [.binary .typeCast x y]
  -- whole expressions
  | ended {rule : PrecedenceRule} {reach : Nat} {xs : List Token} {x : Node} : Derives (.operand rule reach) xs [x] →
      Derives (.expression rule (min rule.level reach)) xs [x]
  | incremented (rule : PrecedenceRule) (name : NameToken) (m : Mark .plusPlus) : rule.level ≤ PrecedenceRule.call.level →
      Derives (.expression rule endless) [name.token, m.token] [emitASTNodePostfixIncrement name.literal]
  | decremented (rule : PrecedenceRule) (name : NameToken) (m : Mark .minusMinus) : rule.level ≤ PrecedenceRule.call.level →
      Derives (.expression rule endless) [name.token, m.token] [emitASTNodePostfixDecrement name.literal]
  -- lists of expressions
  | one {reach : Nat} {xs : List Token} {x : Node} : Derives (.expression .ternary reach) xs [x] → Derives .list xs [x]
  | more {reach : Nat} {xs ys : List Token} {x : Node} {nodes : List Node} (comma : Mark .comma) :
      Derives (.expression .ternary reach) xs [x] → Derives .list ys nodes → Derives .list (xs ++ comma.token :: ys) (x :: nodes)
  | noArguments : Derives .arguments [] []
  | someArguments {xs : List Token} {nodes : List Node} : Derives .list xs nodes → Derives .arguments xs nodes
  | lastElement {reach : Nat} {xs : List Token} {x : Node} : Derives (.expression .primary reach) xs [x] →
      Derives .elements xs [x]
  | moreElements {reach : Nat} {xs ys : List Token} {x : Node} {nodes : List Node} (comma : Mark .comma) :
      Derives (.expression .primary reach) xs [x] → Derives .elements ys nodes →
      Derives .elements (xs ++ comma.token :: ys) (x :: nodes)
  | lastEntry {reach reach' : Nat} {xs ys : List Token} {x y : Node} (colon : Mark .colon) :
      Derives (.expression .primary reach) xs [x] → Derives (.expression .primary reach') ys [y] →
      Derives .entries (xs ++ colon.token :: ys) [.pair x y]
  | moreEntries {reach reach' : Nat} {xs ys zs : List Token} {x y : Node} {nodes : List Node} (colon : Mark .colon)
      (comma : Mark .comma) : Derives (.expression .primary reach) xs [x] → Derives (.expression .primary reach') ys [y] →
      Derives .entries zs nodes →
      Derives .entries (xs ++ colon.token :: (ys ++ comma.token :: zs)) (.pair x y :: nodes)
  -- indices
  | noPart : Derives .optional [] []
  | part {reach : Nat} {xs : List Token} {x : Node} : Derives (.expression .ternary reach) xs [x] → Derives .optional xs [x]
  | single (left : Mark .bracketLeft) {reach : Nat} {xs : List Token} {x : Node} (right : Mark .bracketRight) :
      Derives (.expression .ternary reach) xs [x] → Derives .index (left.token :: (xs ++ [right.token])) [x, .null]
  | double (left : Mark .bracketLeft) {xs ys : List Token} {a b : List Node} (colon : Mark .colon) (right : Mark .bracketRight) :
      Derives .optional xs a → Derives .optional ys b →
      Derives .index (left.token :: (xs ++ colon.token :: (ys ++ [right.token]))) [givenOr a, secondOf a b]
  | triple (left : Mark .bracketLeft) {xs ys zs : List Token} {a b c : List Node} (colon colon' : Mark .colon)
      (right : Mark .bracketRight) : Derives .optional xs a → Derives .optional ys b → Derives .optional zs c →
      Derives .index (left.token :: (xs ++ colon.token :: (ys ++ colon'.token :: (zs ++ [right.token]))))
        [givenOr a, givenOr b]
  -- statements
  | block (left : Mark .braceLeft) {xs : List Token} {nodes : List Node} (right : Mark .braceRight) :
      Derives .statements xs nodes → Derives (.statement false) (left.token :: (xs ++ [right.token])) [.block nodes]
  | assertStmt (m : Mark .assert_) {reach reach' : Nat} {xs ys : List Token} {x y : Node} (comma : Mark .comma)
      (semicolon : Mark .semicolon) : Derives (.expression .ternary reach) xs [x] →
      Derives (.expression .ternary reach') ys [y] →
      Derives (.statement false) (m.token :: (xs ++ comma.token :: (ys ++ [semicolon.token]))) [.binary .assert x y]
  | ifStmt (m : Mark .if_) {isOpen : Bool} {xs : List Token} {x : Node} : Derives (.chain isOpen) xs [x] →
      Derives (.statement isOpen) (m.token :: xs) [x]
  | whileStmt (m : Mark .while_) (left : Mark .parenLeft) {isOpen : Bool} {reach : Nat} {xs ys : List Token} {x y : Node}
      (right : Mark .parenRight) : Derives (.expression .ternary reach) xs [x] → Derives (.statement isOpen) ys [y] →
      Derives (.statement isOpen) (m.token :: left.token :: (xs ++ right.token :: ys)) [.pathWhile x y]
  | forStmt (m : Mark .for_) (left : Mark .parenLeft) {isOpen : Bool} {ws xs ys zs : List Token} {w x y s : Node} :
      Derives .preClause ws [w] → Derives .condition xs [x] → Derives .postClause ys [y] → Derives (.statement isOpen) zs [s] →
      Derives (.statement isOpen) (m.token :: left.token :: (ws ++ (xs ++ (ys ++ zs)))) [.pathFor w x y s]
  | breakStmt (m : Mark .break_) (semicolon : Mark .semicolon) :
      Derives (.statement false) [m.token, semicolon.token] [.pathBreak]
  | continueStmt (m : Mark .continue_) (semicolon : Mark .semicolon) :
      Derives (.statement false) [m.token, semicolon.token] [.pathContinue]
  | returnNothing (m : Mark .return_) (semicolon : Mark .semicolon) :
      Derives (.statement false) [m.token, semicolon.token] [.fnReturn (.fnCollection [])]
  | returnStmt (m : Mark .return_) {xs : List Token} {nodes : List Node} (semicolon : Mark .semicolon) : Derives .list xs nodes →
      Derives (.statement false) (m.token :: (xs ++ [semicolon.token])) [.fnReturn (.fnCollection nodes)]
  | importStmt (m : Mark .import_) (name : NameToken) (semicolon : Mark .semicolon) :
      Derives (.statement false) [m.token, name.token, semicolon.token] [emitASTNodeImport name.literal .null]
  | importAs (m : Mark .import_) (name : NameToken) (as : Mark .as_) (other : NameToken) (semicolon : Mark .semicolon) :
      Derives (.statement false) [m.token, name.token, as.token, other.token, semicolon.token]
        [emitASTNodeImport name.literal other.literal]
  | emptyStmt (semicolon : Mark .semicolon) : Derives (.statement false) [semicolon.token] [emitASTNodeLiteral .null]
  | expressionStmt {reach : Nat} {xs : List Token} {x : Node} (semicolon : Mark .semicolon) :
      Derives (.expression .assignment reach) xs [x] → NotStarting .if_ xs →
      Derives (.statement false) (xs ++ [semicolon.token]) [x]
  | varDecl (m : Mark .var_) (name : NameToken) {xs ys : List Token} {l : Literal} {x : Node} (semicolon : Mark .semicolon) :
      Annotation xs l → Derives .initializer ys [x] →
      Derives (.statement false) (m.token :: name.token :: (xs ++ (ys ++ [semicolon.token])))
        [.varDecl name.literal l (markIfAsExpression (typeWord l) x) name.token.line]
  | fnDecl (m : Mark .function) (name : NameToken) (left : Mark .parenLeft) {xs ys zs : List Token}
      {parameters returns nodes : List Node} (right : Mark .parenRight) (open_ : Mark .braceLeft) (close : Mark .braceRight) :
      ParameterList xs parameters → ReturnTypes ys returns → Derives .statements zs nodes →
      Derives (.statement false)
        (m.token :: name.token :: left.token :: (xs ++ right.token :: (ys ++ open_.token :: (zs ++ [close.token]))))
        [.fnDecl name.literal (.fnCollection parameters) (.fnCollection returns) (.block nodes) name.token.line]
  -- the parts of statements
  | initialized (assign : Mark .assign) {reach : Nat} {xs : List Token} {x : Node} :
      Derives (.expression .assignment reach) xs [x] → Derives .initializer (assign.token :: xs) [x]
  | uninitialized : Derives .initializer [] [emitASTNodeLiteral .null]
  | noElse (left : Mark .parenLeft) {isOpen : Bool} {reach : Nat} {xs ys : List Token} {x y : Node} (right : Mark .parenRight) :
      Derives (.expression .ternary reach) xs [x] → Derives (.branch isOpen) ys [y] →
      Derives (.chain true) (left.token :: (xs ++ right.token :: ys)) [emitASTNodeIf x y .null]
  | elsePath (left : Mark .parenLeft) {isOpen : Bool} {reach : Nat} {xs ys zs : List Token} {x y s : Node}
      (right : Mark .parenRight) (m : Mark .else_) : Derives (.expression .ternary reach) xs [x] →
      Derives (.branch false) ys [y] → Derives (.branch isOpen) zs [s] → NotStarting .if_ zs →
      Derives (.chain isOpen) (left.token :: (xs ++ right.token :: (ys ++ m.token :: zs))) [emitASTNodeIf x y s]
  | elseIf (left : Mark .parenLeft) {isOpen : Bool} {reach : Nat} {xs ys zs : List Token} {x y s : Node}
      (right : Mark .parenRight) (m : Mark .else_) (m' : Mark .if_) : Derives (.expression .ternary reach) xs [x] →
      Derives (.branch false) ys [y] → Derives (.chain isOpen) zs [s] →
      Derives (.chain isOpen) (left.token :: (xs ++ right.token :: (ys ++ m.token :: m'.token :: zs))) [emitASTNodeIf x y s]
  | braces (left : Mark .braceLeft) {xs : List Token} {nodes : List Node} (right : Mark .braceRight) :
      Derives .statements xs nodes → Derives (.branch false) (left.token :: (xs ++ [right.token])) [.block nodes]
  | single_ {isOpen : Bool} {xs : List Token} {x : Node} : Derives (.statement isOpen) xs [x] → NotStarting .braceLeft xs →
      Derives (.branch isOpen) xs [x]
  | noClause (semicolon : Mark .semicolon) : Derives .preClause [semicolon.token] [.pass]
  | clause {isOpen : Bool} {xs : List Token} {x : Node} : Derives (.statement isOpen) xs [x] → NotStarting .semicolon xs →
      Derives .preClause xs [x]
  | noCondition (semicolon : Mark .semicolon) : Derives .condition [semicolon.token] [emitASTNodeLiteral (.boolean true)]
  | condition {reach : Nat} {xs : List Token} {x : Node} (semicolon : Mark .semicolon) :
      Derives (.expression .ternary reach) xs [x] → Derives .condition (xs ++ [semicolon.token]) [x]
  | noPost (right : Mark .parenRight) : Derives .postClause [right.token] [.pass]
  | post {reach : Nat} {xs : List Token} {x : Node} (right : Mark .parenRight) :
      Derives (.expression .assignment reach) xs [x] → Derives .postClause (xs ++ [right.token]) [x]
  | nothing : Derives .statements [] []
  | next {isOpen : Bool} {xs ys : List Token} {x : Node} {nodes : List Node} : Derives (.statement isOpen) xs [x] →
      Derives .statements ys nodes → Derives .statements (xs ++ ys) (x :: nodes)

end Xvr.Frontend.Parse
