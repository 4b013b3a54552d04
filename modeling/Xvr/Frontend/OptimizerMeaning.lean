/-
  Xvr.Frontend.OptimizerMeaning — when the optimizer keeps the meaning of a program.

  - The folding takes the opcodes PASS, ASSERT, PRINT, PRINTF and CAST for the five
    arithmetic operators, and so replaces an assertion or a print of two integer literals
    by a number. The operators themselves it never sees.
  - The removal of a dead branch leaves a freed node where it keeps a branch.

  Proved:
  - `optimizer_preserves_iff`: exactly when every node keeps its meaning.
  - `assertion_deleted`: the assertion `assert 0, 1`.
-/

import Xvr.Frontend.Meaning
import Xvr.Frontend.Optimizer

namespace Xvr.Frontend.Optimizer

open Xvr.Runtime Meaning

/-! ## The nodes it changes -/

/-- Two integer literals under an opcode whose number the folding takes for an operator. -/
def TakenForArithmetic : Node → Prop
  | .binary opcode left right =>
    isIntegerLiteral left = true ∧ isIntegerLiteral right = true ∧
      (opcode ∈ [.pass, .assert, .print] ∨ opcode ∈ [.printf, .cast] ∧ getIntegerValue right ≠ 0)
  | _ => False

/-- An if node on a boolean literal with both branches, of which the dead one has no effects. -/
def FreesKept : Node → Prop
  | .pathIf (.literal (.boolean b)) thenPath elsePath _ _ =>
    thenPath.isNull = false ∧ elsePath.isNull = false ∧ hasSideEffectsNode (if b then elsePath else thenPath) = false
  | _ => False

/-- What both passes make of a node. -/
def optimized (node : Node) : Node := (runDeadCodeElimination (runConstantFolding node).1).1

theorem runConstantFolding_code (node : Node) : (runConstantFolding node).2.code = .success := by
  unfold runConstantFolding
  cases foldBinaryArithmetic node <;> rfl

theorem runDeadCodeElimination_code (node : Node) : (runDeadCodeElimination node).2.code = .success := by
  unfold runDeadCodeElimination
  cases node with
  | pathIf condition thenPath elsePath typeWord isExpression =>
    simp only [unchanged]
    by_cases hcond : isBoolLiteral condition = true
    · rw [if_pos hcond, apply_ite Prod.snd, apply_ite ASTOptimizerResult.code]
      simp
    · rw [if_neg hcond]
  | _ => rfl

theorem runPass_nodes {pass : ASTOptimizerPass} (h : ∀ node, (pass.run node).2.code = .success) (changes : Nat)
    (nodes : List Node) :
    (runPass pass changes nodes).1 = nodes.map (fun node => (pass.run node).1) ∧
      (runPass pass changes nodes).2.code = .success := by
  induction nodes generalizing changes with
  | nil => exact ⟨rfl, rfl⟩
  | cons node nodes ih => simp [runPass, h, ih]

theorem standardPasses_sorted (level : OptimizationLevel) :
    (standardOptimizer level).passes.mergeSort (fun a b => a.priority ≤ b.priority) =
      [⟨"constant_folding", runConstantFolding, 1, true⟩, ⟨"dead_code_elimination", runDeadCodeElimination, 2, true⟩] := by
  refine List.mergeSort_of_pairwise ?_
  simp [standardOptimizer, astOptimizerAddStandardPasses, astOptimizerAddPass, astOptimizerSetLevel, astOptimizerCreate]

/-- Passes without errors run one after the other. -/
theorem runPasses_cons (pass : ASTOptimizerPass) (henabled : pass.enabled = true)
    (h : ∀ node, (pass.run node).2.code = .success) (passes : List ASTOptimizerPass) (changes : Nat) (nodes : List Node) :
    ∃ changes', runPasses (pass :: passes) changes nodes =
      runPasses passes changes' (nodes.map fun node => (pass.run node).1) := by
  obtain ⟨hnodes, hcode⟩ := runPass_nodes h changes nodes
  refine ⟨(runPass pass changes nodes).2.changesMade, ?_⟩
  rw [runPasses, if_pos henabled, ← hnodes]
  simp [hcode]

/-- The optimizer changes each node by itself. -/
theorem astOptimizerRun_nodes {level : OptimizationLevel} (h : level ≠ .none) (nodes : List Node) :
    (astOptimizerRun (standardOptimizer level) nodes).1 = nodes.map optimized := by
  have hlevel : (standardOptimizer level).level ≠ .none := h
  unfold astOptimizerRun
  by_cases hnil : nodes = []
  · subst hnil
    rfl
  · rw [if_neg hnil, if_neg hlevel, standardPasses_sorted]
    obtain ⟨_, hfold⟩ := runPasses_cons ⟨"constant_folding", runConstantFolding, 1, true⟩ rfl runConstantFolding_code
      [⟨"dead_code_elimination", runDeadCodeElimination, 2, true⟩] 0 nodes
    obtain ⟨_, hdead⟩ := runPasses_cons ⟨"dead_code_elimination", runDeadCodeElimination, 2, true⟩ rfl
      runDeadCodeElimination_code [] _ (nodes.map fun node => (runConstantFolding node).1)
    dsimp only at hfold ⊢
    rw [hfold, hdead, runPasses, List.map_map]
    dsimp only
    split <;> rfl

/-! ## One node -/

theorem isIntegerLiteral_cases {node : Node} (h : isIntegerLiteral node = true) : ∃ l, node = .literal l := by
  cases node with
  | literal l => exact ⟨l, rfl⟩
  | _ => cases h

/-- The folding replaces just these nodes, each by a number. -/
theorem fold_iff (node : Node) :
    (TakenForArithmetic node → ∃ v, foldBinaryArithmetic node = some (.literal (.integer v))) ∧
      (¬ TakenForArithmetic node → foldBinaryArithmetic node = none) := by
  cases node with
  | binary opcode left right =>
    unfold TakenForArithmetic foldBinaryArithmetic
    by_cases hleft : isIntegerLiteral left = true
    · by_cases hright : isIntegerLiteral right = true
      · by_cases hzero : getIntegerValue right = 0
        · cases opcode <;>
            simp [hleft, hright, hzero, foldValues, Opcode.ctorIdx, emitASTNodeLiteral, copyLiteral, literalFns, copyBody]
        · cases opcode <;>
            simp [hleft, hright, hzero, foldValues, Opcode.ctorIdx, emitASTNodeLiteral, copyLiteral, literalFns, copyBody]
      · simp [hright]
    · simp [hleft]
  | _ => simp [TakenForArithmetic, foldBinaryArithmetic]

/-- The removal leaves a stale pointer for just these nodes, and for the others the node or,
    where nothing is kept, an empty block. -/
theorem dead_iff (node : Node) :
    (FreesKept node → (runDeadCodeElimination node).1 = .wild) ∧
      (¬ FreesKept node → (runDeadCodeElimination node).1 = node ∨
        ∃ b thenPath elsePath typeWord isExpression, node = .pathIf (.literal (.boolean b)) thenPath elsePath typeWord isExpression ∧
          (if b then thenPath else elsePath).isNull = true ∧ (runDeadCodeElimination node).1 = .block []) := by
  cases node with
  | pathIf test thenPath elsePath typeWord isExpression =>
    by_cases htest : isBoolLiteral test = true
    · obtain ⟨b, rfl⟩ : ∃ b, test = .literal (.boolean b) := by
        cases test with
        | literal l =>
          cases l with
          | boolean b => exact ⟨b, rfl⟩
          | _ => cases htest
        | _ => cases htest
      unfold runDeadCodeElimination FreesKept
      cases b with
      | true =>
        cases hkeep : thenPath.isNull <;> cases hdead : elsePath.isNull <;>
          cases heffects : hasSideEffectsNode elsePath <;> simp_all [getBoolValue]
      | false =>
        cases hkeep : elsePath.isNull <;> cases hdead : thenPath.isNull <;>
          cases heffects : hasSideEffectsNode thenPath <;> simp_all [getBoolValue]
    · have hsame : (runDeadCodeElimination (.pathIf test thenPath elsePath typeWord isExpression)).1 =
          .pathIf test thenPath elsePath typeWord isExpression := by
        simp [runDeadCodeElimination, htest]
      refine ⟨fun hfrees => ?_, fun _ => .inl hsame⟩
      unfold FreesKept at hfrees
      split at hfrees
      · rename_i heq
        cases heq
        exact absurd rfl htest
      · exact hfrees.elim
  | _ => exact ⟨False.elim, fun _ => .inl rfl⟩

/-! ## Meanings -/

/-- The host of a program that does nothing with its values. -/
def quietHost : Host Unit where
  truth v := match v with | .boolean b => b | _ => true
  unary _ _ := .null
  binary _ _ _ := .null
  index _ _ _ := .null
  compound _ _ := .null
  cast _ _ := .null
  load _ _ := .null
  assign _ _ _ _ := ()
  declare _ _ _ _ := ()
  step _ _ _ _ := (.null, ())
  call _ _ _ := (.null, ())
  enter _ := ()
  leave _ := ()
  truth_boolean _ := rfl
  leave_enter _ := rfl

theorem perform_emptyBlock {σ : Type} (host : Host σ) (limit : Nat) : perform host limit (.block []) = ret .null := by
  funext r
  simp [perform, performEach, inScope, ret, host.leave_enter]

theorem isNull_eq {node : Node} (h : node.isNull = true) : node = .null := by
  cases node with
  | null => rfl
  | _ => cases h

/-- A branch that is not there is an empty block. -/
theorem perform_deadIf {σ : Type} (host : Host σ) (limit : Nat) {b : Bool} {thenPath elsePath : Node}
    (hnull : (if b then thenPath else elsePath).isNull = true) (typeWord : BitVec 32) (isExpression : Bool) :
    perform host limit (.pathIf (.literal (.boolean b)) thenPath elsePath typeWord isExpression) = ret .null := by
  have hkeep := isNull_eq hnull
  funext r
  simp only [perform, andThen, literalValue, ret, condition, host.truth_boolean]
  cases b with
  | true =>
    simp only [if_true] at hkeep
    subst hkeep
    rfl
  | false =>
    simp only [Bool.false_eq_true, if_false] at hkeep
    subst hkeep
    rfl

theorem optimized_same {node : Node} (hfolds : ¬ TakenForArithmetic node) (hfrees : ¬ FreesKept node)
    (hnode : node.freeable = true) {σ : Type} (host : Host σ) (limit : Nat) :
    nodeMeaning host limit (optimized node) = nodeMeaning host limit node := by
  have hkept : (runConstantFolding node).1 = node := by
    rw [runConstantFolding, (fold_iff node).2 hfolds]
  unfold optimized
  rw [hkept]
  rcases (dead_iff node).2 hfrees with heq | ⟨b, thenPath, elsePath, typeWord, isExpression, rfl, hnull, heq⟩
  · rw [heq]
  · rw [heq]
    have hempty : (Node.block []).freeable = true := rfl
    simp only [nodeMeaning, hnode, hempty, if_true, perform_emptyBlock, perform_deadIf host limit hnull]

theorem perform_integer {σ : Type} (host : Host σ) (limit : Nat) {l : Literal} (h : isIntegerLiteral (.literal l) = true) :
    perform host limit (.literal l) = ret l := by
  cases l with
  | identifier name => cases h
  | _ => rfl

theorem perform_literals {σ : Type} (host : Host σ) (limit : Nat) {l r : Literal}
    (hleft : isIntegerLiteral (.literal l) = true) (hright : isIntegerLiteral (.literal r) = true) {opcode : Opcode}
    (hopcode : opcode ∈ [.assert, .print, .printf, .cast]) :
    perform host limit (.binary opcode (.literal l) (.literal r)) = binaryMeaning host opcode l r := by
  have hboth : andThen (perform host limit (.literal l)) (fun a =>
      andThen (perform host limit (.literal r)) (binaryMeaning host opcode a)) = binaryMeaning host opcode l r := by
    rw [perform_integer host limit hleft, perform_integer host limit hright]
    rfl
  simp only [List.mem_cons, List.not_mem_nil, or_false] at hopcode
  rcases hopcode with rfl | rfl | rfl | rfl <;> exact hboth

/-- An assertion or a print shows; a number does not, and it is no null. -/
theorem folded_differs {node : Node} (hfolds : TakenForArithmetic node) (v : BitVec 32) :
    perform quietHost 0 node ≠ perform quietHost 0 (.literal (.integer v)) := by
  cases node with
  | binary opcode left right =>
    obtain ⟨hleft, hright, hopcode⟩ := hfolds
    obtain ⟨l, rfl⟩ := isIntegerLiteral_cases hleft
    obtain ⟨r, rfl⟩ := isIntegerLiteral_cases hright
    intro heq
    have hrun := congrFun heq ((), [])
    have hnumber : perform quietHost 0 (.literal (.integer v)) ((), []) = (.value (.integer v), (), []) := rfl
    rw [hnumber] at hrun
    simp only [List.mem_cons, List.not_mem_nil, or_false] at hopcode
    rcases hopcode with (rfl | rfl | rfl) | ⟨rfl | rfl, -⟩
    · simp [perform, ret] at hrun
    · rw [perform_literals quietHost 0 hleft hright (by decide)] at hrun
      have htrace := congrArg (fun run => run.2.2) hrun
      by_cases htruth : quietHost.truth l = true
      · simp [binaryMeaning, andThen, emit, condition, htruth, ret] at htrace
      · simp [binaryMeaning, andThen, emit, condition, htruth] at htrace
    · rw [perform_literals quietHost 0 hleft hright (by decide)] at hrun
      simp [binaryMeaning, emit] at hrun
    · rw [perform_literals quietHost 0 hleft hright (by decide)] at hrun
      simp [binaryMeaning, emit] at hrun
    · rw [perform_literals quietHost 0 hleft hright (by decide)] at hrun
      simp [binaryMeaning, ret, quietHost] at hrun
  | _ => exact hfolds.elim

/-- A node changed in one of the two ways means something else, or nothing. -/
theorem optimized_differs {node : Node} (h : TakenForArithmetic node ∨ FreesKept node) (hnode : node.freeable = true) :
    nodeMeaning quietHost 0 (optimized node) ≠ nodeMeaning quietHost 0 node := by
  unfold optimized
  rcases h with hfolds | hfrees
  · obtain ⟨v, hfold⟩ := (fold_iff node).1 hfolds
    have hnumber : (runConstantFolding node).1 = .literal (.integer v) := by rw [runConstantFolding, hfold]
    have hfree : (Node.literal (.integer v)).freeable = true := rfl
    rw [hnumber]
    intro heq
    simp only [runDeadCodeElimination, nodeMeaning, hfree, hnode, if_true, Option.some.injEq] at heq
    exact folded_differs hfolds v heq.symm
  · have hkept : ¬ TakenForArithmetic node := by
      cases node with
      | binary => exact hfrees.elim
      | _ => exact id
    have hsame : (runConstantFolding node).1 = node := by rw [runConstantFolding, (fold_iff node).2 hkept]
    rw [hsame, (dead_iff node).1 hfrees]
    simp [nodeMeaning, Node.freeable, hnode]

/-- Every node keeps its meaning exactly when none has two integer literals under one of the
    opcodes taken for operators, and none is an if on a boolean literal with two branches of
    which the dead one has no effects; then so does the program. -/
theorem optimizer_preserves_iff (level : OptimizationLevel) {nodes : List Node} (h : Node.freeableAll nodes = true) :
    (SameMeaning nodes (astOptimizerRun (standardOptimizer level) nodes).1 ↔
        level = .none ∨ ∀ node ∈ nodes, ¬ TakenForArithmetic node ∧ ¬ FreesKept node) ∧
      (level = .none ∨ (∀ node ∈ nodes, ¬ TakenForArithmetic node ∧ ¬ FreesKept node) →
        ∀ (σ : Type) (host : Host σ) (limit : Nat),
          meaning host limit (astOptimizerRun (standardOptimizer level) nodes).1 = meaning host limit nodes) := by
  have hfree : ∀ node ∈ nodes, node.freeable = true := by
    induction nodes with
    | nil => simp
    | cons node nodes ih =>
      rw [Node.freeableAll, Bool.and_eq_true] at h
      simp only [List.forall_mem_cons]
      exact ⟨h.1, ih h.2⟩
  have hiff : SameMeaning nodes (astOptimizerRun (standardOptimizer level) nodes).1 ↔
      level = .none ∨ ∀ node ∈ nodes, ¬ TakenForArithmetic node ∧ ¬ FreesKept node := by
    by_cases hlevel : level = .none
    · subst hlevel
      have hsame : (astOptimizerRun (standardOptimizer .none) nodes).1 = nodes := by
        unfold astOptimizerRun
        by_cases hnil : nodes = []
        · rw [if_pos hnil]
        · rw [if_neg hnil]
          rfl
      rw [hsame]
      exact ⟨fun _ => .inl rfl, fun _ σ host limit => List.forall₂_same.mpr fun _ _ => rfl⟩
    · rw [astOptimizerRun_nodes hlevel]
      simp only [hlevel, false_or]
      constructor
      · intro hsame node hmem
        have hnode := List.forall₂_map_right_iff.mp (hsame Unit quietHost 0)
        have heq := List.forall₂_same.mp hnode node hmem
        refine ⟨fun hfolds => ?_, fun hfrees => ?_⟩
        · exact optimized_differs (.inl hfolds) (hfree node hmem) heq
        · exact optimized_differs (.inr hfrees) (hfree node hmem) heq
      · intro hnone σ host limit
        refine List.forall₂_map_right_iff.mpr (List.forall₂_same.mpr fun node hmem => ?_)
        exact optimized_same (hnone node hmem).1 (hnone node hmem).2 (hfree node hmem) host limit
  exact ⟨hiff, fun hnone σ host limit => (hiff.mpr hnone).program host limit⟩

theorem optimizer_preserves_iff_sum :
    SameMeaning [.binary .addition (.literal (.integer 1)) (.literal (.integer 2))]
        (astOptimizerRun (standardOptimizer .o2) [.binary .addition (.literal (.integer 1)) (.literal (.integer 2))]).1 ↔
      OptimizationLevel.o2 = .none ∨
        ∀ node ∈ [Node.binary .addition (.literal (.integer 1)) (.literal (.integer 2))],
          ¬ TakenForArithmetic node ∧ ¬ FreesKept node :=
  (optimizer_preserves_iff .o2 rfl).1

/-- `assert 0, 1` at O1: the number -1 stands in the place of the assertion. -/
theorem assertion_deleted :
    ¬ ∀ (level : OptimizationLevel) (nodes : List Node), Node.freeableAll nodes = true →
      ∀ (σ : Type) (host : Host σ) (limit : Nat),
        meaning host limit (astOptimizerRun (standardOptimizer level) nodes).1 = meaning host limit nodes := by
  intro h
  have heq := h .o1 [.binary .assert (.literal (.integer 0)) (.literal (.integer 1))] rfl Unit quietHost 0
  have hafter : (astOptimizerRun (standardOptimizer .o1) [.binary .assert (.literal (.integer 0)) (.literal (.integer 1))]).1 =
      [.literal (.integer (BitVec.ofInt 32 (-1)))] := by rw [astOptimizerRun_nodes (by decide)]; rfl
  rw [hafter] at heq
  have htrace := congrArg (fun m => m.map fun c => (c ((), [])).2.2.length) heq
  exact absurd htrace (by decide)

end Xvr.Frontend.Optimizer
