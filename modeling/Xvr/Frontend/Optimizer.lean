/-
  Xvr.Frontend.Optimizer — the optimizer of the syntax tree
  (`optimizer/xvr_ast_optimizer.cpp`): its standard passes, constant folding and the removal
  of dead branches, run on the root of each node of a list.

  The folding knows an opcode by a number. The removal frees the if node, and with it both
  branches, before it puts the branch it keeps in the node's place, so what it leaves there
  is a stale pointer.

  Not modelled: the type and the context of a pass, which no pass reads.
-/

import Xvr.Frontend.AstNode
import Mathlib.Data.List.Sort

namespace Xvr.Frontend.Optimizer

open Xvr.Runtime

inductive OptimizationLevel where
  | none | o1 | o2 | o3 | os
  deriving DecidableEq, Repr

inductive OptResultCode where
  | success | error | noChange
  deriving DecidableEq, Repr

/-- `Xvr_ASTOptimizerResult`. -/
structure ASTOptimizerResult where
  code : OptResultCode
  changesMade : Nat
  errorMessage : Option String
  deriving DecidableEq, Repr

def unchanged : ASTOptimizerResult := ⟨.success, 0, Option.none⟩

/-- `Xvr_ASTOptimizerPass`. -/
structure ASTOptimizerPass where
  name : String
  run : Node → Node × ASTOptimizerResult
  priority : Int
  enabled : Bool

structure ASTOptimizer where
  level : OptimizationLevel
  passes : List ASTOptimizerPass

/-! ## Constant folding -/

def isIntegerLiteral : Node → Bool
  | .literal l =>
    l.kind == .integer || l.kind == .int8 || l.kind == .int16 || l.kind == .int32 || l.kind == .int64
  | _ => false

def isBoolLiteral : Node → Bool
  | .literal l => l.kind == .boolean
  | _ => false

/-- The `int` member, whatever kind the literal is of. -/
def getIntegerValue : Node → Int
  | .literal l => l.asInteger.toInt
  | _ => 0

def getBoolValue : Node → Bool
  | .literal (.boolean b) => b
  | _ => false

/-- The numbers are the opcodes PASS, ASSERT, PRINT, PRINTF and CAST. -/
def foldValues (opcode : Nat) (leftVal rightVal : Int) : Option Int :=
  match opcode with
  | 1 => some (leftVal + rightVal)
  | 2 => some (leftVal - rightVal)
  | 3 => some (leftVal * rightVal)
  | 4 => if rightVal ≠ 0 then some (leftVal.tdiv rightVal) else none
  | 5 => if rightVal ≠ 0 then some (leftVal.tmod rightVal) else none
  | _ => none

def foldBinaryArithmetic : Node → Option Node
  | .binary opcode left right =>
    if isIntegerLiteral left && isIntegerLiteral right then
      (foldValues opcode.ctorIdx (getIntegerValue left) (getIntegerValue right)).map fun resultVal =>
        emitASTNodeLiteral (.integer (BitVec.ofInt 32 resultVal))
    else none
  | _ => none

def runConstantFolding (node : Node) : Node × ASTOptimizerResult :=
  match foldBinaryArithmetic node with
  | some folded => (folded, { unchanged with changesMade := 1 })
  | none => (node, unchanged)

/-! ## Dead branches -/

mutual

def hasSideEffectsNode : Node → Bool
  | .literal _ => false
  | .unary _ child => hasSideEffectsNode child
  | .binary _ left right => hasSideEffectsNode left || hasSideEffectsNode right
  | .varDecl _ _ expression _ => hasSideEffectsNode expression
  | .fnCall _ _ => true
  | .block nodes => anySideEffects nodes
  | .pathIf condition thenPath elsePath _ _ =>
    hasSideEffectsNode condition || hasSideEffectsNode thenPath || hasSideEffectsNode elsePath
  | .pathWhile _ _ | .pathFor _ _ _ _ => true
  | .pathBreak | .pathContinue => true
  | .prefixIncrement _ | .postfixIncrement _ | .prefixDecrement _ | .postfixDecrement _ => true
  | .fnReturn returns => hasSideEffectsNode returns
  | _ => false

def anySideEffects : List Node → Bool
  | [] => false
  | node :: nodes => hasSideEffectsNode node || anySideEffects nodes

end

def runDeadCodeElimination (node : Node) : Node × ASTOptimizerResult :=
  match node with
  | .pathIf condition thenPath elsePath _ _ =>
    if isBoolLiteral condition then
      let keep := if getBoolValue condition then thenPath else elsePath
      let discard := if getBoolValue condition then elsePath else thenPath
      if !discard.isNull && !hasSideEffectsNode discard then
        -- the branch kept is freed with its node; an empty block is a new one
        (if keep.isNull then .block [] else .wild, { unchanged with changesMade := 1 })
      else (node, unchanged)
    else (node, unchanged)
  | _ => (node, unchanged)

/-! ## The optimizer -/

def astOptimizerCreate : ASTOptimizer := ⟨.o2, []⟩

def astOptimizerSetLevel (opt : ASTOptimizer) (level : OptimizationLevel) : ASTOptimizer := { opt with level }

def astOptimizerAddPass (opt : ASTOptimizer) (pass : ASTOptimizerPass) : ASTOptimizer :=
  { opt with passes := opt.passes ++ [pass] }

def astOptimizerAddStandardPasses (opt : ASTOptimizer) : ASTOptimizer :=
  astOptimizerAddPass (astOptimizerAddPass opt ⟨"constant_folding", runConstantFolding, 1, true⟩)
    ⟨"dead_code_elimination", runDeadCodeElimination, 2, true⟩

/-- One pass over the list: an error ends it where it is. -/
def runPass (pass : ASTOptimizerPass) (changes : Nat) : List Node → List Node × ASTOptimizerResult
  | [] => ([], { unchanged with changesMade := changes })
  | node :: nodes =>
    let (node, passResult) := pass.run node
    if passResult.code = .error then (node :: nodes, { passResult with changesMade := changes })
    else
      let (nodes, result) := runPass pass (changes + passResult.changesMade) nodes
      (node :: nodes, result)

def runPasses : List ASTOptimizerPass → Nat → List Node → List Node × ASTOptimizerResult
  | [], changes, nodes => (nodes, { unchanged with changesMade := changes })
  | pass :: passes, changes, nodes =>
    if pass.enabled then
      let (nodes, result) := runPass pass changes nodes
      if result.code = .error then (nodes, result) else runPasses passes result.changesMade nodes
    else runPasses passes changes nodes

/-- The nodes after the passes, in the order of their priorities, and the result. -/
def astOptimizerRun (opt : ASTOptimizer) (nodes : List Node) : List Node × ASTOptimizerResult :=
  if nodes = [] then (nodes, ⟨.error, 0, some "invalid arguments"⟩)
  else if opt.level = .none then (nodes, unchanged)
  else
    let sorted := opt.passes.mergeSort fun a b => a.priority ≤ b.priority
    let (nodes, result) := runPasses sorted 0 nodes
    if result.code = .success ∧ result.changesMade = 0 then (nodes, { result with code := .noChange })
    else (nodes, result)

/-- The optimizer as the compiler sets it up. -/
def standardOptimizer (level : OptimizationLevel) : ASTOptimizer :=
  astOptimizerAddStandardPasses (astOptimizerSetLevel astOptimizerCreate level)

end Xvr.Frontend.Optimizer
