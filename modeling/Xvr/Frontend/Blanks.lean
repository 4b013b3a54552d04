/-
  Xvr.Frontend.Blanks — the placeholder of a missing index part (`indexAccess` of
  `xvr_parser.cpp`) stands only there: no expression is read as one.

  Proved:
  - `parse_given`: `parsePrecedence` answers no placeholder.
-/

import Xvr.Frontend.ParserStatements
import Xvr.Lib.Answers

namespace Xvr.Frontend.Parse

open Xvr.Runtime Xvr.Lib

/-- The node is no placeholder. -/
def Given (node : Node) : Prop := node ≠ indexBlank

theorem given_literal {l : Literal} (h : l.kind ≠ .indexBlank) : Given (.literal l) := by
  intro heq
  cases heq
  exact h rfl

theorem given_emitted {l : Literal} (h : l.kind ≠ .indexBlank) : Given (emitASTNodeLiteral l) :=
  given_literal (by rwa [copyLiteral_kind])

theorem tokenLiteral_kind {t : Token} {l : Literal} (h : tokenLiteral t = some l) : l.kind ≠ .indexBlank := by
  unfold tokenLiteral at h
  split at h <;> cases h <;> simp [toFloatLiteral, Literal.kind]

/-! ## Folding -/

theorem foldError_answers (message : String) {Q : Option Literal → Prop} (h : Q none) : Answers (foldError message) Q :=
  .after fun _ => .after fun _ => .pure h

/-- A folded literal is no placeholder. -/
def GivenResult (r : Option Literal) : Prop := ∀ l, r = some l → l.kind ≠ .indexBlank

theorem GivenResult.none : GivenResult .none := nofun

theorem GivenResult.some {l : Literal} (h : l.kind ≠ .indexBlank) : GivenResult (.some l) := by
  intro l' heq
  cases heq
  exact h

theorem foldIntegers_given (opcode : Opcode) (lhs rhs : BitVec 32) : Answers (foldIntegers opcode lhs rhs) GivenResult := by
  unfold foldIntegers
  split
  case h_4 | h_5 =>
    refine .ite (fun _ => foldError_answers _ .none) fun _ => ?_
    exact .after fun _ => .pure (.some (by simp [Literal.kind]))
  all_goals first
    | exact .pure (.some (by simp [Literal.kind]))
    | exact foldError_answers _ .none

theorem foldFloats_given (opcode : Opcode) (lhs rhs : Float32) : Answers (foldFloats opcode lhs rhs) GivenResult := by
  unfold foldFloats
  split
  case h_4 =>
    refine .ite (fun _ => foldError_answers _ .none) fun _ => ?_
    exact .pure (.some (by simp [toFloatLiteral, Literal.kind]))
  all_goals first
    | exact .pure (.some (by simp [toFloatLiteral, Literal.kind]))
    | exact foldError_answers _ .none

theorem foldLiterals_given (opcode : Opcode) (lhs rhs : Literal) : Answers (foldLiterals opcode lhs rhs) GivenResult := by
  unfold foldLiterals
  refine .ite (fun _ => ?_) fun _ => ?_
  · refine .ite (fun _ => foldError_answers _ .none) fun _ => ?_
    exact .pure (.some (by simp [Literal.kind]))
  · refine .ite (fun _ => foldIntegers_given _ _ _) fun _ => ?_
    refine .ite (fun _ => foldError_answers _ .none) fun _ => ?_
    refine .ite (fun _ => foldFloats_given _ _ _) fun _ => ?_
    exact .pure (.some (by simp [Literal.kind]))

theorem foldNode_given (opcode : Opcode) (left right : Node) : Answers (foldNode opcode left right) fun r => Given r.2 := by
  unfold foldNode
  split
  · refine .bind (foldLiterals_given _ _ _) fun r hr => ?_
    cases r with
    | none => exact .pure nofun
    | some result =>
      refine .ite (fun _ => .pure nofun) fun _ => ?_
      exact .after fun _ => .after fun _ => .pure (given_literal (hr result rfl))
  · exact .pure nofun

theorem calcStatic_given {opcode : Opcode} (left right : Node) :
    Answers (calcStaticBinaryArithmetic (.binary opcode left right)) fun r => Given r.2 := by
  unfold calcStaticBinaryArithmetic
  refine .ite (fun _ => ?_) fun _ => .pure nofun
  exact .after fun _ => .after fun _ => .after fun _ => .after fun _ => foldNode_given _ _ _

/-! ## Rules -/

/-- A rule that starts from no placeholder answers none. -/
def KeepsGiven (f : ParseFn) : Prop := ∀ handle, Given handle → Answers (f handle) fun r => Given r.2

theorem refused_given {handle : Node} (h : Given handle) (token : Token) (message : String) :
    Answers (do error token message; pure (.eof, handle) : P (Opcode × Node)) fun r => Given r.2 := .after fun _ => .pure h

theorem string_given : KeepsGiven string := by
  intro handle h
  unfold string
  refine .after fun _ => .ite (fun _ => ?_) fun _ => refused_given h _ _
  exact .after fun _ => .after fun _ => .pure (given_emitted (by simp [Literal.kind]))

theorem atomic_given : KeepsGiven atomic := by
  intro handle h
  unfold atomic
  refine .after fun p => ?_
  split
  · exact .pure (given_emitted (tokenLiteral_kind ‹_›))
  · refine .ite (fun _ => ?_) fun _ => refused_given h _ _
    exact .after fun _ => .pure (given_emitted (by simp [Literal.kind]))

theorem identifierLiteral_answers (token : Token) : Answers (identifierLiteral token) fun l => l.kind = .identifier := by
  unfold identifierLiteral
  exact .after fun _ => .after fun _ => .pure rfl

theorem identifier_given : KeepsGiven identifier := by
  intro handle h
  unfold identifier
  refine .after fun _ => .ite (fun _ => refused_given h _ _) fun _ => ?_
  exact .bind (identifierLiteral_answers _) fun l hl => .pure (given_emitted (by simp [hl]))

theorem identifierOrKeyword_given : KeepsGiven identifierOrKeyword :=
  fun _ _ => .after fun _ => .pure (given_emitted (by simp [Literal.kind]))

theorem stepPrefix_given {emit : Literal → Node} (he : ∀ l, Given (emit l)) : KeepsGiven (stepPrefix emit) := by
  intro handle h
  unfold stepPrefix
  refine .after fun _ => .after fun r => ?_
  cases r with
  | none => exact .pure h
  | some l => exact .after fun _ => .pure (he l)

theorem stepInfix_given {emit : Literal → Node} (he : ∀ l, Given (emit l)) : KeepsGiven (stepInfix emit) := by
  intro handle h
  unfold stepInfix
  refine .after fun r => ?_
  cases r with
  | none => exact .pure h
  | some l => exact .after fun _ => .after fun _ => .pure (he l)

theorem castingInfix_given : KeepsGiven castingInfix := by
  intro handle h
  unfold castingInfix
  refine .after fun _ => .after fun _ => ?_
  split
  · exact .bind (identifier_given handle h) fun _ hr => .pure hr
  all_goals first
    | exact .bind (atomic_given handle h) fun _ hr => .pure hr
    | exact refused_given h _ _

section Rules

/-- The calls back into the parser answer no placeholder. -/
structure RecGiven (rec : Rec) : Prop where
  parsePrecedence : ∀ handle rule, Given handle → Answers (rec.parsePrecedence handle rule) Given
  parseIfChain : Answers rec.parseIfChain Given

variable {rec : Rec} (R : RecGiven rec)

theorem asType_given : KeepsGiven (asType rec) := by
  intro handle h
  unfold asType
  refine .after fun literal => .ite (fun _ => ?_) fun hkind => ?_
  · exact .after fun _ => refused_given h _ _
  · exact .pure (given_emitted (by rw [not_not.mp hkind]; nofun))

theorem typeOf_given : KeepsGiven (typeOf rec) := fun _ _ => .after fun _ => .pure nofun

theorem compound_given : KeepsGiven (compound rec) := by
  intro handle h
  unfold compound
  refine .after fun r => ?_
  cases r with
  | none => exact .pure h
  | some entries =>
    obtain ⟨array, dictionary, -⟩ := entries
    cases array <;> cases dictionary <;> exact .pure nofun

theorem grouping_given : KeepsGiven (grouping rec) := by
  intro handle h
  unfold grouping
  refine .after fun _ => .ite (fun _ => ?_) fun _ => refused_given h _ _
  exact .after fun _ => .after fun _ => .pure nofun

theorem castingPrefix_given : KeepsGiven (castingPrefix rec) := by
  intro handle h
  unfold castingPrefix
  refine .after fun p => .ite (fun _ => ?_) fun _ => ?_
  · refine .after fun _ => .after fun expr => .after fun q => .ite (fun _ => ?_) fun _ => ?_
    · exact .after fun _ => .pure h
    · exact .after fun _ => .pure nofun
  · refine .ite (fun _ => refused_given h _ _) fun _ => ?_
    exact .pure (given_emitted (by simp [Literal.kind]))

theorem fnCall_given : KeepsGiven (fnCall rec) := by
  intro handle h
  unfold fnCall
  refine .after fun _ => .after fun _ => .ite (fun _ => ?_) fun _ => refused_given h _ _
  refine .after fun empty => .ite (fun _ => .pure nofun) fun _ => .after fun r => ?_
  cases r with
  | none => exact .pure h
  | some arguments => exact .pure nofun

theorem indexRest_given (first : Node) (readFirst : Bool) : Answers (indexRest rec first readFirst) fun r => Given r.2 := by
  unfold indexRest
  refine .after fun closed => .ite (fun _ => ?_) fun _ => ?_
  · exact .after fun _ => .after fun _ => .pure nofun
  · refine .after fun second => .after fun closed => .ite (fun _ => ?_) fun _ => ?_
    · exact .after fun _ => .pure nofun
    · exact .after fun _ => .after fun _ => .pure nofun

theorem indexAccess_given : KeepsGiven (indexAccess rec) := by
  intro handle h
  unfold indexAccess
  refine .after fun _ => .after fun blank => .ite (fun _ => indexRest_given _ _) fun _ => ?_
  exact .after fun _ => .after fun _ => indexRest_given _ _

theorem question_given : KeepsGiven (question rec) :=
  fun _ _ => .after fun _ => .after fun _ => .after fun _ => .after fun _ => .pure nofun

theorem unary_given : KeepsGiven (unary rec) := by
  intro handle h
  unfold unary
  refine .after fun _ => .ite (fun _ => ?_) fun _ => .ite (fun _ => ?_) fun _ => refused_given h _ _
  · unfold unaryMinus
    refine .after fun node => ?_
    split
    · refine .ite (fun _ => .pure (given_literal ?_)) fun _ => .ite (fun _ => ?_) fun _ => .pure (by rintro ⟨⟩)
      · unfold negateLiteral
        split <;> simp [toFloatLiteral, Literal.kind]
      · exact .after fun _ => refused_given h _ _
    · exact .pure (by rintro ⟨⟩)
  · unfold unaryNot
    refine .after fun node => ?_
    split
    · exact .pure (given_literal (by simp [Literal.kind]))
    · exact .pure (by rintro ⟨⟩)

include R

theorem ifExpression_given : KeepsGiven (ifExpression rec) := by
  intro handle h
  unfold ifExpression
  refine .bind R.parseIfChain fun node hnode => .pure ?_
  show Given (if node.isNull then handle else node)
  split
  · exact h
  · exact hnode

theorem binary_given : KeepsGiven (binary rec) := by
  intro handle h
  unfold binary
  refine .after fun _ => .after fun p => ?_
  split
  · exact .bind (R.parsePrecedence _ _ h) fun _ hnode => .pure hnode
  · exact refused_given h _ _

theorem dot_given : KeepsGiven (dot rec) := by
  intro handle h
  unfold dot
  refine .after fun _ => .bind (R.parsePrecedence _ _ nofun) fun node hnode => .after fun p => ?_
  exact .ite (fun _ => refused_given h _ _) fun _ => .pure hnode

/-! ## The Pratt loop -/

theorem prefixRule_given {t : TokenType} {f : ParseFn} (h : (getRule rec t).prefixRule = some f) : KeepsGiven f := by
  cases getRule_prefixOf h with
  | atomic => exact atomic_given
  | castingPrefix => exact castingPrefix_given
  | ifExpression => exact ifExpression_given R
  | identifierOrKeyword => exact identifierOrKeyword_given
  | asType => exact asType_given
  | typeOf => exact typeOf_given
  | identifier => exact identifier_given
  | string => exact string_given
  | unary => exact unary_given
  | increment => exact stepPrefix_given nofun
  | decrement => exact stepPrefix_given nofun
  | grouping => exact grouping_given
  | compound => exact compound_given

theorem infixRule_given {t : TokenType} {f : ParseFn} (h : (getRule rec t).infixRule = some f) : KeepsGiven f := by
  cases getRule_infixOf h with
  | fnCall => exact fnCall_given
  | castingInfix => exact castingInfix_given
  | binary => exact binary_given R
  | increment => exact stepInfix_given nofun
  | decrement => exact stepInfix_given nofun
  | indexAccess => exact indexAccess_given
  | question => exact question_given
  | dot => exact dot_given R

omit R

/-- A turn leaves no placeholder, whether the loop goes on or ends. -/
def GivenTurn : Node ⊕ PrattEnd → Prop
  | .inl node => Given node
  | .inr (.loopEnd node) => Given node
  | .inr (.returned node) => Given node

theorem binaryTurn_given (lhs rhs : Node) (opcode : Opcode) : Answers (binaryTurn lhs rhs opcode) GivenTurn := by
  unfold binaryTurn
  refine .after fun p => .ite (fun _ => .pure nofun) fun _ => ?_
  refine .bind (calcStatic_given lhs rhs) fun r hr => .ite (fun _ => .pure hr) fun _ => .pure hr

theorem combine_given {lhs rhs : Node} (opcode : Opcode) (h : Given rhs) : Answers (combine lhs opcode rhs) GivenTurn := by
  unfold combine
  split
  · exact .after fun _ => .pure h
  · exact .after fun _ => binaryTurn_given _ _ _
  · refine .pure ?_
    show Given (setCondition lhs rhs)
    unfold setCondition
    split
    · nofun
    · exact h
  · refine .pure ?_
    show Given (shiftIndex lhs rhs)
    unfold shiftIndex
    split
    · nofun
    · exact h
  · exact binaryTurn_given _ _ _

include R

theorem prattTurn_given {rule : PrecedenceRule} {node : Node} (h : Given node) : Answers (prattTurn rec rule node) GivenTurn := by
  unfold prattTurn
  refine .after fun p => .ite (fun _ => ?_) fun _ => .pure h
  split
  · exact .after fun _ => .pure nofun
  · rename_i infixRule hrule
    exact .bind (infixRule_given R hrule .null nofun) fun r hr => combine_given r.1 hr

theorem parsePrecedence_given {handle : Node} (rule : PrecedenceRule) (h : Given handle) :
    Answers (parsePrecedence rec handle rule) Given := by
  unfold parsePrecedence
  refine .after fun _ => .after fun p => ?_
  split
  · exact .after fun _ => .pure nofun
  · rename_i prefixRule hrule
    refine .bind (prefixRule_given R hrule handle h) fun r hr => ?_
    have hloop : Answers (loop .outOfFuel (prattTurn rec rule) rec.fuel r.2) fun e => GivenTurn (.inr e) := by
      refine Answers.loop Given (fun node hnode => ?_) rec.fuel hr
      refine (prattTurn_given R hnode).mono fun r hr => ?_
      cases r with
      | inl node => exact hr
      | inr e => exact hr
    refine .bind hloop fun e he => ?_
    cases e with
    | returned node => exact .pure he
    | loopEnd node => exact .after fun _ => .pure he

end Rules

theorem parseIfChain_given (rec : Rec) : Answers (parseIfChain rec) Given := by
  unfold parseIfChain
  refine .after fun _ => .after fun condition => .after fun _ => .after fun thenPath => ?_
  cases thenPath with
  | none => exact .pure nofun
  | some thenPath =>
    refine .after fun elsePath => ?_
    cases elsePath with
    | none => exact .pure nofun
    | some elsePath => exact .pure nofun

theorem recAt_given (z : Parser → Node → Bool) (n : Nat) : RecGiven (recAt z n) := by
  induction n with
  | zero => exact ⟨fun _ _ _ => .throw _, .throw _⟩
  | succ n ih => exact ⟨fun _ rule h => parsePrecedence_given ih rule h, parseIfChain_given _⟩

/-- `parsePrecedence` answers no placeholder. -/
theorem parse_given (z : Parser → Node → Bool) (n : Nat) {handle node : Node} {rule : PrecedenceRule} {p q : Parser}
    (h : Given handle) (hrun : parsePrecedence (recAt z n) handle rule p = .ok node q) : Given node :=
  parsePrecedence_given (recAt_given z n) rule h p node q hrun

end Xvr.Frontend.Parse
