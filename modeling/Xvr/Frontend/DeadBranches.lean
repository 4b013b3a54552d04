/-
  Xvr.Frontend.DeadBranches — which nodes the removal of a dead branch releases
  (`freeASTNodeCustom` of `core/ast/xvr_ast_node.cpp`, `run_dead_code_elimination`).

  A tree lies in memory: its layout gives every node an address, by the path that leads to
  it from the root. The pass answers a tree, where that lies, and the addresses it
  released; what is read through a pointer to a released node is stale.

  Not modelled: the literals a released node held.

  Proved:
  - `reachable_released`: releasing a node releases every node below it.
  - `runAt_reads`: what is left in memory is what `runDeadCodeElimination` answers.
  - `branch_kept_iff`: exactly when the branch the condition selects survives.
  - `kept_branch_released`: `if (true) { } else { }`.
-/

import Xvr.Frontend.OptimizerMeaning

namespace Xvr.Frontend.Optimizer

open Xvr.Runtime

abbrev Address := Nat

/-- Where the nodes of a tree lie, by the places of the children on the way to them. -/
abbrev Layout := List Nat → Address

def Layout.child (l : Layout) (place : Nat) : Layout := fun path => l (place :: path)

/-! ## Releasing -/

/-- `XVR_FREE_ARRAY` on the nodes of an array. -/
def freeArray (l : Layout) (count : Nat) : List Address := (List.range count).map fun i => l [i]

/-- `if (freeSelf) XVR_FREE(Xvr_ASTNode, node)`. -/
def freeNode (l : Layout) (freeSelf : Bool) : List Address := if freeSelf then [l []] else []

mutual

/-- The addresses `freeASTNodeCustom` releases; the nodes of an array go with the array. -/
def freeASTNodeCustom (l : Layout) (freeSelf : Bool) : Node → List Address
  | .null => []
  | .unary _ child | .grouping child => freeASTNodeCustom (l.child 0) true child ++ freeNode l freeSelf
  | .binary _ left right | .pair left right =>
    freeASTNodeCustom (l.child 0) true left ++ freeASTNodeCustom (l.child 1) true right ++ freeNode l freeSelf
  | .ternary condition thenPath elsePath =>
    freeASTNodeCustom (l.child 0) true condition ++ freeASTNodeCustom (l.child 1) true thenPath ++
      freeASTNodeCustom (l.child 2) true elsePath ++ freeNode l freeSelf
  | .block nodes | .compound _ nodes | .fnCollection nodes =>
    freeElements l 0 nodes ++ freeArray l nodes.length ++ freeNode l freeSelf
  | .index first second third =>
    freeASTNodeCustom (l.child 0) true first ++ freeASTNodeCustom (l.child 1) true second ++
      freeASTNodeCustom (l.child 2) true third ++ freeNode l freeSelf
  | .varDecl _ _ expression _ | .cast _ expression =>
    freeASTNodeCustom (l.child 0) true expression ++ freeNode l freeSelf
  | .fnDecl _ arguments returns body _ =>
    freeASTNodeCustom (l.child 0) true arguments ++ freeASTNodeCustom (l.child 1) true returns ++
      freeASTNodeCustom (l.child 2) true body ++ freeNode l freeSelf
  | .fnCall arguments _ => freeASTNodeCustom (l.child 0) true arguments ++ freeNode l freeSelf
  | .fnReturn returns => freeASTNodeCustom (l.child 0) true returns ++ freeNode l freeSelf
  | .pathIf condition thenPath elsePath _ _ =>
    freeASTNodeCustom (l.child 0) true condition ++ freeASTNodeCustom (l.child 1) true thenPath ++
      freeASTNodeCustom (l.child 2) true elsePath ++ freeNode l freeSelf
  | .pathWhile condition thenPath =>
    freeASTNodeCustom (l.child 0) true condition ++ freeASTNodeCustom (l.child 1) true thenPath ++ freeNode l freeSelf
  | .pathFor preClause condition postClause thenPath =>
    freeASTNodeCustom (l.child 0) true preClause ++ freeASTNodeCustom (l.child 2) true postClause ++
      freeASTNodeCustom (l.child 1) true condition ++ freeASTNodeCustom (l.child 3) true thenPath ++ freeNode l freeSelf
  | _ => freeNode l freeSelf

/-- The loop over an array, from the element at `place` on. -/
def freeElements (l : Layout) (place : Nat) : List Node → List Address
  | [] => []
  | node :: nodes => freeASTNodeCustom (l.child place) false node ++ freeElements l (place + 1) nodes

end

def freeASTNode (l : Layout) (node : Node) : List Address := freeASTNodeCustom l true node

/-! ## Reading -/

mutual

/-- The addresses of the nodes a pointer leads to. -/
def reachable (l : Layout) : Node → List Address
  | .null => []
  | .unary _ child | .grouping child => l [] :: reachable (l.child 0) child
  | .binary _ left right | .pair left right => l [] :: (reachable (l.child 0) left ++ reachable (l.child 1) right)
  | .ternary first second third | .index first second third =>
    l [] :: (reachable (l.child 0) first ++ reachable (l.child 1) second ++ reachable (l.child 2) third)
  | .block nodes | .compound _ nodes | .fnCollection nodes => l [] :: reachableElements l 0 nodes
  | .varDecl _ _ expression _ | .cast _ expression => l [] :: reachable (l.child 0) expression
  | .fnDecl _ arguments returns body _ =>
    l [] :: (reachable (l.child 0) arguments ++ reachable (l.child 1) returns ++ reachable (l.child 2) body)
  | .fnCall child _ | .fnReturn child => l [] :: reachable (l.child 0) child
  | .pathIf condition thenPath elsePath _ _ =>
    l [] :: (reachable (l.child 0) condition ++ reachable (l.child 1) thenPath ++ reachable (l.child 2) elsePath)
  | .pathWhile condition thenPath => l [] :: (reachable (l.child 0) condition ++ reachable (l.child 1) thenPath)
  | .pathFor preClause condition postClause thenPath =>
    l [] :: (reachable (l.child 0) preClause ++ reachable (l.child 1) condition ++ reachable (l.child 2) postClause ++
      reachable (l.child 3) thenPath)
  | _ => [l []]

def reachableElements (l : Layout) (place : Nat) : List Node → List Address
  | [] => []
  | node :: nodes => reachable (l.child place) node ++ reachableElements l (place + 1) nodes

end

/-- The node at `l []`, or a stale pointer when that was released. -/
def readAt (gone : List Address) (l : Layout) (node : Node) : Node := if l [] ∈ gone then .wild else node

mutual

/-- The tree read again when the nodes at `gone` have been released. -/
def reread (gone : List Address) (l : Layout) : Node → Node
  | .null => .null
  | .unary opcode child => readAt gone l (.unary opcode (reread gone (l.child 0) child))
  | .grouping child => readAt gone l (.grouping (reread gone (l.child 0) child))
  | .binary opcode left right =>
    readAt gone l (.binary opcode (reread gone (l.child 0) left) (reread gone (l.child 1) right))
  | .pair left right => readAt gone l (.pair (reread gone (l.child 0) left) (reread gone (l.child 1) right))
  | .ternary condition thenPath elsePath =>
    readAt gone l (.ternary (reread gone (l.child 0) condition) (reread gone (l.child 1) thenPath)
      (reread gone (l.child 2) elsePath))
  | .block nodes => readAt gone l (.block (rereadElements gone l 0 nodes))
  | .compound literalType nodes => readAt gone l (.compound literalType (rereadElements gone l 0 nodes))
  | .fnCollection nodes => readAt gone l (.fnCollection (rereadElements gone l 0 nodes))
  | .index first second third =>
    readAt gone l (.index (reread gone (l.child 0) first) (reread gone (l.child 1) second)
      (reread gone (l.child 2) third))
  | .varDecl identifier typeLiteral expression line =>
    readAt gone l (.varDecl identifier typeLiteral (reread gone (l.child 0) expression) line)
  | .cast targetType expression => readAt gone l (.cast targetType (reread gone (l.child 0) expression))
  | .fnDecl identifier arguments returns body line =>
    readAt gone l (.fnDecl identifier (reread gone (l.child 0) arguments) (reread gone (l.child 1) returns)
      (reread gone (l.child 2) body) line)
  | .fnCall arguments count => readAt gone l (.fnCall (reread gone (l.child 0) arguments) count)
  | .fnReturn returns => readAt gone l (.fnReturn (reread gone (l.child 0) returns))
  | .pathIf condition thenPath elsePath typeWord isExpression =>
    readAt gone l (.pathIf (reread gone (l.child 0) condition) (reread gone (l.child 1) thenPath)
      (reread gone (l.child 2) elsePath) typeWord isExpression)
  | .pathWhile condition thenPath =>
    readAt gone l (.pathWhile (reread gone (l.child 0) condition) (reread gone (l.child 1) thenPath))
  | .pathFor preClause condition postClause thenPath =>
    readAt gone l (.pathFor (reread gone (l.child 0) preClause) (reread gone (l.child 1) condition)
      (reread gone (l.child 2) postClause) (reread gone (l.child 3) thenPath))
  | node => readAt gone l node

def rereadElements (gone : List Address) (l : Layout) (place : Nat) : List Node → List Node
  | [] => []
  | node :: nodes => reread gone (l.child place) node :: rereadElements gone l (place + 1) nodes

end

/-! ## The pass in memory -/

/-- What the pass leaves: the node in the handle, where it lies, and what was released. -/
structure Rewrite where
  node : Node
  layout : Layout
  released : List Address
  result : ASTOptimizerResult

/-- `run_dead_code_elimination` on a tree that lies at `l`; a new block gets the address
    `fresh`. -/
def runDeadCodeEliminationAt (l : Layout) (fresh : Address) (node : Node) : Rewrite :=
  match node with
  | .pathIf condition thenPath elsePath _ _ =>
    if isBoolLiteral condition then
      let keep := if getBoolValue condition then thenPath else elsePath
      let keepAt := if getBoolValue condition then l.child 1 else l.child 2
      let discard := if getBoolValue condition then elsePath else thenPath
      if !discard.isNull && !hasSideEffectsNode discard then
        if !keep.isNull then ⟨keep, keepAt, freeASTNode l node, { unchanged with changesMade := 1 }⟩
        else ⟨.block [], fun _ => fresh, [], { unchanged with changesMade := 1 }⟩
      else ⟨node, l, [], unchanged⟩
    else ⟨node, l, [], unchanged⟩
  | _ => ⟨node, l, [], unchanged⟩

/-- The result is the kept branch or an empty block, unchanged, and nothing it leads to was
    released. -/
structure KeepsBranch (kept : Node) (r : Rewrite) : Prop where
  branch : reread r.released r.layout r.node = if kept.isNull then .block [] else kept
  alive : ∀ a ∈ reachable r.layout r.node, a ∉ r.released

/-! ## What a release takes -/

@[simp] theorem readAt_nothing (l : Layout) (node : Node) : readAt [] l node = node := by simp [readAt]

mutual

/-- Where nothing was released everything is as it was. -/
theorem reread_nothing (l : Layout) : (node : Node) → reread [] l node = node
  | .null => rfl
  | .unary _ child | .grouping child => by simp [reread, reread_nothing _ child]
  | .binary _ left right | .pair left right => by simp [reread, reread_nothing _ left, reread_nothing _ right]
  | .ternary first second third | .index first second third => by
    simp [reread, reread_nothing _ first, reread_nothing _ second, reread_nothing _ third]
  | .block nodes | .compound _ nodes | .fnCollection nodes => by simp [reread, rereadElements_nothing l 0 nodes]
  | .varDecl _ _ child _ | .cast _ child | .fnCall child _ | .fnReturn child => by simp [reread, reread_nothing _ child]
  | .fnDecl _ arguments returns body _ => by
    simp [reread, reread_nothing _ arguments, reread_nothing _ returns, reread_nothing _ body]
  | .pathIf condition thenPath elsePath _ _ => by
    simp [reread, reread_nothing _ condition, reread_nothing _ thenPath, reread_nothing _ elsePath]
  | .pathWhile condition thenPath => by simp [reread, reread_nothing _ condition, reread_nothing _ thenPath]
  | .pathFor preClause condition postClause thenPath => by
    simp [reread, reread_nothing _ preClause, reread_nothing _ condition, reread_nothing _ postClause,
      reread_nothing _ thenPath]
  | .wild | .error | .literal _ | .pathBreak | .pathContinue | .prefixIncrement _ | .postfixIncrement _
  | .prefixDecrement _ | .postfixDecrement _ | .importNode _ _ | .pass => by simp [reread]

theorem rereadElements_nothing (l : Layout) (place : Nat) : (nodes : List Node) → rereadElements [] l place nodes = nodes
  | [] => rfl
  | node :: nodes => by
    rw [rereadElements, reread_nothing (l.child place) node, rereadElements_nothing l (place + 1) nodes]

end

/-- A node released is a stale pointer. -/
theorem reread_gone {gone : List Address} {l : Layout} {node : Node} (hnode : node.isNull = false) (h : l [] ∈ gone) :
    reread gone l node = .wild := by
  cases node <;> simp_all [reread, readAt, Node.isNull]

/-- With itself a node releases what it releases without, and its own address. -/
theorem free_self {node : Node} (h : node.isNull = false) (l : Layout) :
    freeASTNodeCustom l true node = freeASTNodeCustom l false node ++ [l []] := by
  cases node <;> simp_all [freeASTNodeCustom, freeNode, Node.isNull]

mutual

/-- Releasing a node releases every node below it. -/
theorem reachable_released (l : Layout) : (node : Node) → ∀ a ∈ reachable l node, a ∈ freeASTNode l node
  | .null => by simp [reachable]
  | .unary _ child | .grouping child | .varDecl _ _ child _ | .cast _ child | .fnCall child _ | .fnReturn child => by
    intro a ha
    have hchild := reachable_released (l.child 0) child a
    simp only [reachable, freeASTNode, freeASTNodeCustom, freeNode, if_true, List.mem_cons, List.mem_append,
      List.not_mem_nil, or_false] at ha hchild ⊢
    exact ha.elim Or.inr fun ha => Or.inl (hchild ha)
  | .binary _ left right | .pair left right | .pathWhile left right => by
    intro a ha
    have hleft := reachable_released (l.child 0) left a
    have hright := reachable_released (l.child 1) right a
    simp only [reachable, freeASTNode, freeASTNodeCustom, freeNode, if_true, List.mem_cons, List.mem_append,
      List.not_mem_nil, or_false] at ha hleft hright ⊢
    rcases ha with ha | ha | ha
    · exact Or.inr ha
    · exact Or.inl (Or.inl (hleft ha))
    · exact Or.inl (Or.inr (hright ha))
  | .ternary first second third | .index first second third | .fnDecl _ first second third _
  | .pathIf first second third _ _ => by
    intro a ha
    have hfirst := reachable_released (l.child 0) first a
    have hsecond := reachable_released (l.child 1) second a
    have hthird := reachable_released (l.child 2) third a
    simp only [reachable, freeASTNode, freeASTNodeCustom, freeNode, if_true, List.mem_cons, List.mem_append,
      List.not_mem_nil, or_false] at ha hfirst hsecond hthird ⊢
    rcases ha with ha | (ha | ha) | ha
    · exact Or.inr ha
    · exact Or.inl (Or.inl (Or.inl (hfirst ha)))
    · exact Or.inl (Or.inl (Or.inr (hsecond ha)))
    · exact Or.inl (Or.inr (hthird ha))
  | .block nodes | .compound _ nodes | .fnCollection nodes => by
    intro a ha
    have hnodes := elements_released l 0 nodes a
    simp only [reachable, freeASTNode, freeASTNodeCustom, freeNode, freeArray, if_true, List.mem_cons, List.mem_append,
      List.not_mem_nil, or_false, List.mem_map, List.mem_range, Nat.zero_add] at ha hnodes ⊢
    rcases ha with ha | ha
    · exact Or.inr ha
    · rcases hnodes ha with h | ⟨i, hi, rfl⟩
      · exact Or.inl (Or.inl h)
      · exact Or.inl (Or.inr ⟨i, hi, rfl⟩)
  | .pathFor preClause condition postClause thenPath => by
    intro a ha
    have hpre := reachable_released (l.child 0) preClause a
    have hcondition := reachable_released (l.child 1) condition a
    have hpost := reachable_released (l.child 2) postClause a
    have hthen := reachable_released (l.child 3) thenPath a
    simp only [reachable, freeASTNode, freeASTNodeCustom, freeNode, if_true, List.mem_cons, List.mem_append,
      List.not_mem_nil, or_false] at ha hpre hcondition hpost hthen ⊢
    rcases ha with ha | ((ha | ha) | ha) | ha
    · exact Or.inr ha
    · exact Or.inl (Or.inl (Or.inl (Or.inl (hpre ha))))
    · exact Or.inl (Or.inl (Or.inr (hcondition ha)))
    · exact Or.inl (Or.inl (Or.inl (Or.inr (hpost ha))))
    · exact Or.inl (Or.inr (hthen ha))
  | .wild | .error | .literal _ | .pathBreak | .pathContinue | .prefixIncrement _ | .postfixIncrement _
  | .prefixDecrement _ | .postfixDecrement _ | .importNode _ _ | .pass => by
    simp [reachable, freeASTNode, freeASTNodeCustom, freeNode]

/-- An element goes with its children, and with the array it stands in. -/
theorem elements_released (l : Layout) (place : Nat) : (nodes : List Node) → ∀ a ∈ reachableElements l place nodes,
    a ∈ freeElements l place nodes ∨ ∃ i < nodes.length, a = l [place + i]
  | [] => by simp [reachableElements]
  | node :: nodes => by
    intro a ha
    rw [reachableElements, List.mem_append] at ha
    rw [freeElements, List.mem_append]
    rcases ha with ha | ha
    · have hnode := reachable_released (l.child place) node a ha
      have hreal : node.isNull = false := by
        cases node <;> first | rfl | simp [reachable] at ha
      rw [freeASTNode, free_self hreal, List.mem_append, List.mem_singleton] at hnode
      rcases hnode with hnode | rfl
      · exact Or.inl (Or.inl hnode)
      · exact Or.inr ⟨0, Nat.zero_lt_succ _, rfl⟩
    · rcases elements_released l (place + 1) nodes a ha with h | ⟨i, hi, rfl⟩
      · exact Or.inl (Or.inr h)
      · exact Or.inr ⟨i + 1, Nat.succ_lt_succ hi, by rw [Nat.add_right_comm, Nat.add_assoc]⟩

end

/-! ## The kept branch -/

theorem root_reachable {node : Node} (h : node.isNull = false) (l : Layout) : l [] ∈ reachable l node := by
  cases node <;> simp_all [reachable, Node.isNull]

theorem isBoolLiteral_cases {node : Node} (h : isBoolLiteral node = true) : ∃ b, node = .literal (.boolean b) := by
  cases node with
  | literal l => cases l <;> simp_all [isBoolLiteral, Literal.kind]
  | _ => cases h

section

variable (l : Layout) (fresh : Address) {kept other : Node} (b : Bool) (typeWord : BitVec 32) (isExpression : Bool)

/-- An if node on a boolean, with the branch it selects and the other one. -/
def selecting (kept other : Node) : Node :=
  .pathIf (.literal (.boolean b)) (if b then kept else other) (if b then other else kept) typeWord isExpression

theorem selecting_branches (thenPath elsePath : Node) :
    selecting b typeWord isExpression (if b then thenPath else elsePath) (if b then elsePath else thenPath) =
      .pathIf (.literal (.boolean b)) thenPath elsePath typeWord isExpression := by
  cases b <;> rfl

/-- A branch with effects stays, and so does the node. -/
theorem runAt_unchanged (h : (!other.isNull && !hasSideEffectsNode other) = false) :
    runDeadCodeEliminationAt l fresh (selecting b typeWord isExpression kept other) =
      ⟨selecting b typeWord isExpression kept other, l, [], unchanged⟩ := by
  cases b <;> simp [runDeadCodeEliminationAt, selecting, isBoolLiteral, Literal.kind, getBoolValue, h]

theorem runAt_emptied (h : (!other.isNull && !hasSideEffectsNode other) = true) (hkept : kept.isNull = true) :
    runDeadCodeEliminationAt l fresh (selecting b typeWord isExpression kept other) =
      ⟨.block [], fun _ => fresh, [], { unchanged with changesMade := 1 }⟩ := by
  cases b <;> simp [runDeadCodeEliminationAt, selecting, isBoolLiteral, Literal.kind, getBoolValue, h, hkept]

theorem runAt_freed (h : (!other.isNull && !hasSideEffectsNode other) = true) (hkept : kept.isNull = false) :
    runDeadCodeEliminationAt l fresh (selecting b typeWord isExpression kept other) =
      ⟨kept, if b then l.child 1 else l.child 2, freeASTNode l (selecting b typeWord isExpression kept other),
        { unchanged with changesMade := 1 }⟩ := by
  cases b <;> simp [runDeadCodeEliminationAt, selecting, isBoolLiteral, Literal.kind, getBoolValue, h, hkept]

/-- What the kept branch leads to is released with the if node. -/
theorem kept_released : ∀ a ∈ reachable (if b then l.child 1 else l.child 2) kept,
    a ∈ freeASTNode l (selecting b typeWord isExpression kept other) := by
  intro a ha
  refine reachable_released l _ a ?_
  cases b <;> simp_all [selecting, reachable]

end

/-- What is left in memory is what the pass answers. -/
theorem runAt_reads (l : Layout) (fresh : Address) (node : Node) :
    (reread (runDeadCodeEliminationAt l fresh node).released (runDeadCodeEliminationAt l fresh node).layout
        (runDeadCodeEliminationAt l fresh node).node, (runDeadCodeEliminationAt l fresh node).result) =
      runDeadCodeElimination node := by
  cases node with
  | pathIf condition thenPath elsePath typeWord isExpression =>
    by_cases hcond : isBoolLiteral condition = true
    · obtain ⟨b, rfl⟩ := isBoolLiteral_cases hcond
      rw [← selecting_branches]
      generalize (if b then thenPath else elsePath) = kept
      generalize (if b then elsePath else thenPath) = other
      cases h : !other.isNull && !hasSideEffectsNode other with
      | false =>
        rw [runAt_unchanged l fresh b typeWord isExpression h, reread_nothing]
        cases b <;> simp [runDeadCodeElimination, selecting, isBoolLiteral, Literal.kind, getBoolValue, h]
      | true =>
        cases hkept : kept.isNull with
        | true =>
          rw [runAt_emptied l fresh b typeWord isExpression h hkept, reread_nothing]
          cases b <;> simp [runDeadCodeElimination, selecting, isBoolLiteral, Literal.kind, getBoolValue, h, hkept]
        | false =>
          rw [runAt_freed l fresh b typeWord isExpression h hkept,
            reread_gone hkept (kept_released l b typeWord isExpression _ (root_reachable hkept _))]
          cases b <;> simp [runDeadCodeElimination, selecting, isBoolLiteral, Literal.kind, getBoolValue, h, hkept]
    · simp only [runDeadCodeEliminationAt, runDeadCodeElimination, if_neg hcond, reread_nothing]
  | _ => exact congrArg (·, unchanged) (reread_nothing l _)

/-- When the pass rewrites an if node on a boolean, the branch the condition selects
    survives exactly when there is none. -/
theorem branch_kept_iff (l : Layout) (fresh : Address) (b : Bool) (thenPath elsePath : Node) (typeWord : BitVec 32)
    (isExpression : Bool) :
    ((runDeadCodeEliminationAt l fresh
          (.pathIf (.literal (.boolean b)) thenPath elsePath typeWord isExpression)).result.changesMade ≠ 0 →
        KeepsBranch (if b then thenPath else elsePath)
          (runDeadCodeEliminationAt l fresh (.pathIf (.literal (.boolean b)) thenPath elsePath typeWord isExpression))) ↔
      ¬ FreesKept (.pathIf (.literal (.boolean b)) thenPath elsePath typeWord isExpression) := by
  have hfrees : FreesKept (.pathIf (.literal (.boolean b)) thenPath elsePath typeWord isExpression) ↔
      (if b then thenPath else elsePath).isNull = false ∧
        (!(if b then elsePath else thenPath).isNull && !hasSideEffectsNode (if b then elsePath else thenPath)) = true := by
    cases b <;> simp [FreesKept]
    tauto
  rw [hfrees, ← selecting_branches]
  generalize (if b then thenPath else elsePath) = kept
  generalize (if b then elsePath else thenPath) = other
  cases h : !other.isNull && !hasSideEffectsNode other with
  | false => simp [runAt_unchanged l fresh b typeWord isExpression h, unchanged]
  | true =>
    cases hkept : kept.isNull with
    | true =>
      rw [runAt_emptied l fresh b typeWord isExpression h hkept]
      refine iff_of_true (fun _ => ⟨?_, by simp⟩) (by simp)
      rw [reread_nothing, if_pos hkept]
    | false =>
      rw [runAt_freed l fresh b typeWord isExpression h hkept]
      refine iff_of_false (fun hkeeps => ?_) (by simp)
      have hroot := root_reachable hkept (if b then l.child 1 else l.child 2)
      exact (hkeeps Nat.one_ne_zero).alive _ hroot (kept_released l b typeWord isExpression _ hroot)

/-- Addresses for trees whose nodes have less than ten children. -/
def tenfold : Layout := fun path => path.foldl (fun a place => 10 * a + place + 1) 0

/-- `if (true) { } else { }`: the block that stays was released. -/
theorem kept_branch_released :
    ¬ ((runDeadCodeEliminationAt tenfold 100
          (.pathIf (.literal (.boolean true)) (.block []) (.block []) 0 false)).result.changesMade ≠ 0 →
        KeepsBranch (.block [])
          (runDeadCodeEliminationAt tenfold 100 (.pathIf (.literal (.boolean true)) (.block []) (.block []) 0 false))) := by
  intro h
  exact (h (by decide)).alive 2 (by decide) (by decide)

end Xvr.Frontend.Optimizer
