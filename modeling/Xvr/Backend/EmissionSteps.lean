/-
  Xvr.Backend.EmissionSteps — what every step of the emission preserves, the emission of a
  node preserves.

  The steps that are told apart: an instruction other than a return, a new block, an entry in
  the table of variables, and a scope around a part. How deep a node nests its scopes, and
  whether it declares a variable outside all of them, is its `ScopeUse`.

  Proved:
  - `emit_within`: a relation closed under these steps holds from the state before any node to
    the state behind it.
-/

import Mathlib.Order.Lattice
import Mathlib.Data.Bool.Basic
import Xvr.Backend.Emission

namespace Xvr.Backend

open Xvr.Runtime
open Xvr.Frontend (Opcode Node)

/-! ## The use of scopes -/

/-- How deep the scopes are nested, and whether a variable is declared outside all of them. -/
abbrev ScopeUse := Nat × Bool

namespace ScopeUse

def none : ScopeUse := (0, false)

/-- A declaration beside the rest. -/
def declaring (u : ScopeUse) : ScopeUse := (u.1, true)

/-- The rest in a scope of its own. -/
def inScope (u : ScopeUse) : ScopeUse := (u.1 + 1, false)

theorem le_declaring (u : ScopeUse) : u ≤ u.declaring := ⟨Nat.le_refl _, Bool.le_true _⟩

end ScopeUse

/-- An arm of an if expression: a block's statements without a scope. -/
def armUse (node : Node) (parts whole : ScopeUse) : ScopeUse :=
  match node with
  | .block _ => parts
  | _ => whole

mutual

/-- What is emitted for the node does this with the table. -/
def scopeUse : Node → ScopeUse
  | .pathIf condition thenPath elsePath _ isExpression =>
    if isExpression then
      scopeUse condition ⊔ (armUse thenPath (statementsUse thenPath) (scopeUse thenPath) ⊔
        (elseIfUse elsePath).getD (armUse elsePath (statementsUse elsePath) (scopeUse elsePath)))
    else scopeUse condition ⊔ (scopeUse thenPath ⊔ scopeUse elsePath)
  | .pathWhile condition thenPath => scopeUse condition ⊔ scopeUse thenPath
  | .pathFor preClause condition postClause thenPath =>
    (scopeUse preClause ⊔ scopeUse condition) ⊔ (scopeUse postClause ⊔ scopeUse thenPath)
  | .block nodes => if nodes.isEmpty then .none else (scopeUseAll nodes).inScope
  | .ternary condition thenPath elsePath => scopeUse condition ⊔ (scopeUse thenPath ⊔ scopeUse elsePath)
  | .unary _ child | .grouping child | .cast _ child => scopeUse child
  | .binary _ left right => (scopeUse left ⊔ scopeUse right) ⊔ (argumentsUse left ⊔ argumentsUse right)
  | .varDecl _ _ expression _ => (scopeUse expression ⊔ argumentsUse expression).declaring
  | .index first second third => scopeUse first ⊔ (scopeUse second ⊔ scopeUse third)
  | .compound _ nodes => scopeUseAll nodes
  | .fnCall args _ => argumentsUse args
  | _ => .none

def scopeUseAll : List Node → ScopeUse
  | [] => .none
  | node :: nodes => scopeUse node ⊔ scopeUseAll nodes

def statementsUse : Node → ScopeUse
  | .block nodes => scopeUseAll nodes
  | _ => .none

def elseIfUse : Node → Option ScopeUse
  | .pathIf condition thenPath elsePath _ _ =>
    some (scopeUse condition ⊔ (armUse thenPath (statementsUse thenPath) (scopeUse thenPath) ⊔
      (elseIfUse elsePath).getD (armUse elsePath (statementsUse elsePath) (scopeUse elsePath))))
  | _ => .none

def argumentsUse : Node → ScopeUse
  | .compound _ nodes | .fnCollection nodes => scopeUseAll nodes
  | .fnCall args _ => argumentsUse args
  | .binary _ left right => argumentsUse left ⊔ argumentsUse right
  | .index first second third => scopeUse first ⊔ (scopeUse second ⊔ scopeUse third)
  | _ => .none

end

/-- The plan declares no variable. -/
def Plan.Undeclaring {V : Type} : Plan V → Prop
  | .done _ => True
  | .operand _ next | .lookup _ next | .getFunction _ next => ∀ found, (next found).Undeclaring
  | .build _ next => ∀ value, (next value).Undeclaring
  | .declare _ _ _ _ _ => False
  | .setError _ next => next.Undeclaring

/-- The nodes that are not modelled declare no variable. -/
structure Library.Undeclaring {V : Type} (library : Library V) : Prop where
  node : ∀ node, (library.node node).Undeclaring
  cast : ∀ targetType value, (library.cast targetType value).Undeclaring
  stringConcat : ∀ lhs rhs, (library.stringConcat lhs rhs).Undeclaring
  print : ∀ value, (library.print value).Undeclaring

/-! ## Relations closed under the steps -/

/-- An entry in the table is in the relation. -/
def Declares (R : ScopeUse → Codegen → Codegen → Prop) (u : ScopeUse) : Prop :=
  ∀ s name alloca varType arrayCount,
    R u s { s with fnEmitter := s.fnEmitter.addLocalVar (some name) (some alloca) varType arrayCount }

/-- Every step of the emission is in the relation, which may depend on the use of scopes. -/
structure Stable (R : ScopeUse → Codegen → Codegen → Prop) : Prop where
  trans : ∀ {u s t w}, R u s t → R u t w → R u s w
  widen : ∀ {u v s t}, u ≤ v → R u s t → R v s t
  /-- The builder moves, an error is set, a loop is opened or closed. -/
  quiet : ∀ {u s t}, t.blocks = s.blocks → t.functions = s.functions → t.fnEmitter = s.fnEmitter →
    t.mainCreated = s.mainCreated → R u s t
  append : ∀ {u s i}, i.isRet = false → R u s (s.append i)
  createBlock : ∀ {u s fn name}, R u s (s.createBlock fn name)
  declare : Declares R ScopeUse.none.declaring
  scope : ∀ {u s t}, R u { s with fnEmitter := s.fnEmitter.enterScope } t →
    R u.inScope s { t with fnEmitter := t.fnEmitter.exitScope }

/-- The action stays in the relation. -/
def Action.Within (R : ScopeUse → Codegen → Codegen → Prop) (u : ScopeUse) (action : Action) : Prop :=
  ∀ s, R u s (action s).2

section

variable {R : ScopeUse → Codegen → Codegen → Prop} (hR : Stable R) {u : ScopeUse} {s t : Codegen}

namespace Stable

include hR

theorem refl (u : ScopeUse) (s : Codegen) : R u s s := hR.quiet rfl rfl rfl rfl

theorem build (u : ScopeUse) (s : Codegen) (op : Op Value) : R u s (s.build op).2 :=
  hR.trans (hR.append (i := .op ⟨s.nextId, op⟩) rfl) (hR.quiet rfl rfl rfl rfl)

theorem setError (h : R u s t) (message : String) (hint : Option String) : R u s (t.setError message hint) :=
  hR.trans h (hR.quiet rfl rfl rfl rfl)

theorem clearError (u : ScopeUse) (s : Codegen) : R u s s.clearError := hR.quiet rfl rfl rfl rfl

theorem popLoop (h : R u s t) : R u s t.popLoop := hR.trans h (hR.quiet rfl rfl rfl rfl)

theorem closePart (h : R u s t) (target next : Nat) : R u s (t.closePart target next) :=
  hR.trans h (hR.trans (hR.append (i := .br target) rfl) (hR.quiet rfl rfl rfl rfl))

theorem testLoop (h : R u s t) (condition : Value) (bodyBlock endBlock : Nat) :
    R u s (t.testLoop condition bodyBlock endBlock) :=
  hR.trans h (hR.trans (hR.append (i := .condBr condition bodyBlock endBlock) rfl) (hR.quiet rfl rfl rfl rfl))

theorem openIf (h : R u s t) (fn condition : Value) (names : String × String × String) :
    R u s (t.openIf fn condition names) := by
  have hblocks : R u t (((t.createBlock fn names.1).createBlock fn names.2.1).createBlock fn names.2.2) :=
    hR.trans (hR.trans hR.createBlock hR.createBlock) hR.createBlock
  exact hR.trans h (hR.trans hblocks (hR.trans (hR.append (i := .condBr condition t.blocks.length _) rfl)
    (hR.quiet rfl rfl rfl rfl)))

theorem openWhile (h : R u s t) (fn : Value) : R u s (t.openWhile fn) := by
  have hblocks : R u t (((t.createBlock fn "while_cond").createBlock fn "while_body").createBlock fn "while_end") :=
    hR.trans (hR.trans hR.createBlock hR.createBlock) hR.createBlock
  have hpush : R u t ((((t.createBlock fn "while_cond").createBlock fn "while_body").createBlock fn "while_end").pushLoop
      (t.blocks.length + 2) t.blocks.length) :=
    hR.trans hblocks (hR.quiet rfl rfl rfl rfl)
  exact hR.trans h (hR.closePart hpush _ _)

theorem openFor (h : R u s t) (fn : Value) : R u s (t.openFor fn) := by
  have hblocks : R u t ((((t.createBlock fn "for_cond").createBlock fn "for_body").createBlock fn "for_inc").createBlock fn
      "for_end") :=
    hR.trans (hR.trans (hR.trans hR.createBlock hR.createBlock) hR.createBlock) hR.createBlock
  exact hR.trans h (hR.trans hblocks (hR.quiet rfl rfl rfl rfl))

end Stable

/-! ## Actions -/

section

variable {action condition thenPath elsePath preClause postClause whole : Action} {actions : List Action}

include hR

theorem null_within : Action.null.Within R u := hR.refl u

theorem Action.Within.widen {v : ScopeUse} (h : action.Within R u) (hle : u ≤ v) : action.Within R v :=
  fun s => hR.widen hle (h s)

theorem plan_within (ho : ∀ a ∈ actions, a.Within R u) (plan : Plan Value)
    (hp : Declares R u ∨ plan.Undeclaring) : (plan.emit actions).Within R u := by
  intro s
  induction plan generalizing s with
  | done value => exact hR.refl u s
  | operand index next ih =>
    have ha : (actions[index]?.getD .null).Within R u := by
      cases hop : actions[index]? with
      | none => exact null_within hR
      | some a => exact ho a (List.mem_of_getElem? hop)
    exact hR.trans (ha s) (ih _ (hp.imp_right fun h => h _) _)
  | build op next ih => exact hR.trans (hR.build u s op) (ih _ (hp.imp_right fun h => h _) _)
  | lookup name next ih => exact ih _ (hp.imp_right fun h => h _) s
  | declare name alloca varType count next ih =>
    rcases hp with hp | hp
    · exact hR.trans (hp s name alloca varType count) (ih (.inl hp) _)
    · exact hp.elim
  | getFunction name next ih => exact ih _ (hp.imp_right fun h => h _) s
  | setError message next ih =>
    exact hR.trans (hR.quiet (t := s.setContextError message) rfl rfl rfl rfl) (ih (hp.imp_right fun h => h) _)

theorem runAll_within (ha : ∀ a ∈ actions, a.Within R u) (s : Codegen) : R u s (runAll actions s) := by
  induction actions generalizing s with
  | nil => exact hR.refl u s
  | cons a rest ih =>
    exact hR.trans (ha a (List.mem_cons_self ..) s) (ih (fun b hb => ha b (List.mem_cons_of_mem _ hb)) _)

theorem runLast_within (ha : ∀ a ∈ actions, a.Within R u) : (runLast actions).Within R u := by
  induction actions with
  | nil => exact null_within hR
  | cons a rest ih =>
    have hfirst := ha a (List.mem_cons_self ..)
    have hrest := ih fun b hb => ha b (List.mem_cons_of_mem _ hb)
    cases rest with
    | nil => exact hfirst
    | cons b rest =>
      intro s
      exact hR.trans (hfirst s) (hrest _)

theorem emitBlock_within (ha : ∀ a ∈ actions, a.Within R u) : (emitBlock actions).Within R u.inScope := by
  intro s
  unfold emitBlock
  split
  · exact hR.refl _ s
  · exact hR.scope (runAll_within hR ha _)

theorem emitCondition_within (h : condition.Within R u) (what : String) : (emitCondition what condition).Within R u := by
  intro s
  have hs := h s
  unfold emitCondition
  generalize condition s = r at *
  rcases r with ⟨_ | value, s₁⟩
  · exact hR.setError hs _ _
  · dsimp only
    split
    · exact hs
    · exact hR.setError hs _ _

theorem emitForCondition_within (h : condition.Within R u) : (emitForCondition condition).Within R u := by
  intro s
  have hs := h s
  unfold emitForCondition
  generalize condition s = r at *
  rcases r with ⟨_ | value, s₁⟩
  · exact hs
  · dsimp only
    split
    · exact hs
    · exact hR.setError hs _ _

/-- The two arms behind the branch. -/
theorem arms_within (ht : thenPath.Within R u) (he : elsePath.Within R u) (fn value : Value)
    (names : String × String × String) (h : R u s t) :
    R u s ((elsePath ((thenPath (t.openIf fn value names)).2.closePart (t.blocks.length + 2) (t.blocks.length + 1))).2.closePart
      (t.blocks.length + 2) (t.blocks.length + 2)) := by
  have hthen := hR.trans (hR.openIf h fn value names) (ht _)
  exact hR.closePart (hR.trans (hR.closePart hthen _ _) (he _)) _ _

theorem emitIfStatement_within (hc : condition.Within R u) (ht : thenPath.Within R u) (he : elsePath.Within R u) :
    (emitStatement (emitIfStatement condition thenPath elsePath)).Within R u := by
  intro s
  unfold emitStatement emitIfStatement
  split
  · exact hR.setError (hR.refl u s) _ _
  · have h := emitCondition_within hR hc "if statement" s
    generalize emitCondition "if statement" condition s = r at *
    rcases r with ⟨_ | value, s₁⟩
    · exact h
    · exact arms_within hR ht he _ value ifNames h

theorem emitIfExpression_within (hc : condition.Within R u) (ht : thenPath.Within R u) (he : elsePath.Within R u)
    (typeWord : BitVec 32) : (emitIfExpression condition thenPath elsePath typeWord).Within R u := by
  intro s
  unfold emitIfExpression
  split
  · exact hR.refl u s
  · rename_i fn _
    have h := emitCondition_within hR hc "if expression" s
    generalize emitCondition "if expression" condition s = r at *
    rcases r with ⟨_ | value, s₁⟩
    · exact h
    · have harms := arms_within hR ht he fn value ifNames h
      exact hR.trans harms (hR.trans (hR.build u _ _) (hR.quiet rfl rfl rfl rfl))

theorem emitIf_within {statement : Codegen → Bool × Codegen} {isExpression : Bool}
    (hs : isExpression = false → (emitStatement statement).Within R u) (he : isExpression = true → action.Within R u) :
    (emitStatement (emitIf isExpression statement action)).Within R u := by
  intro s
  unfold emitStatement emitIf
  split
  · rename_i h
    exact hR.trans (hR.clearError u s) (he h _)
  · rename_i h
    exact hR.trans (hR.clearError u s) (hs (eq_false_of_ne_true h) _)

theorem emitTernary_within (hc : condition.Within R u) (ht : thenPath.Within R u) (he : elsePath.Within R u) :
    (emitTernary condition thenPath elsePath).Within R u := by
  intro s
  have h := hc s
  unfold emitTernary
  generalize condition s = r at *
  rcases r with ⟨_ | value, s₁⟩
  · exact h
  · dsimp only
    split
    · have hall := hR.trans (hR.trans h (ht s₁)) (he _)
      split
      · exact hR.trans (hR.closePart (hR.closePart (hR.openIf hall _ value ternaryNames) _ _) _ _) (hR.build u _ _)
      · exact hall
    · exact h

theorem emitLoop_within {loop : Value → Codegen → Bool × Codegen} (what : String) (hl : ∀ fn s, R u s (loop fn s).2) :
    (emitStatement (emitLoop what loop)).Within R u := by
  intro s
  have h := hR.clearError u s
  unfold emitStatement emitLoop
  dsimp only
  split
  · exact hR.setError h _ _
  · split
    · exact hR.setError h _ _
    · exact hR.trans h (hl _ _)

theorem emitWhile_within (hc : condition.Within R u) (ht : thenPath.Within R u) :
    (emitStatement (emitWhile condition thenPath)).Within R u := by
  refine emitLoop_within hR "while" ?_
  intro fn s
  have h := hR.trans (hR.openWhile (hR.refl u s) fn) (emitCondition_within hR hc "while statement" _)
  dsimp only
  generalize emitCondition "while statement" condition (s.openWhile fn) = r at *
  rcases r with ⟨_ | value, s₁⟩
  · exact hR.popLoop h
  · exact hR.popLoop (hR.closePart (hR.trans (hR.testLoop h value _ _) (ht _)) _ _)

theorem emitFor_within (hp : preClause.Within R u) (hc : condition.Within R u) (hpost : postClause.Within R u)
    (ht : thenPath.Within R u) : (emitStatement (emitFor preClause condition postClause thenPath)).Within R u := by
  refine emitLoop_within hR "for" ?_
  intro fn s
  have hpre := hR.closePart (hR.trans (hR.openFor (hR.refl u s) fn) (hp _)) s.blocks.length s.blocks.length
  have h := hR.trans hpre (emitForCondition_within hR hc _)
  dsimp only
  generalize emitForCondition condition ((preClause (s.openFor fn)).2.closePart s.blocks.length s.blocks.length) = r at *
  rcases r with ⟨_ | value, s₁⟩
  · exact hR.popLoop h
  · have hbody := hR.closePart (hR.trans (hR.testLoop h value (s.blocks.length + 1) (s.blocks.length + 3)) (ht _))
      (s.blocks.length + 2) (s.blocks.length + 2)
    exact hR.popLoop (hR.closePart (hR.trans hbody (hpost _)) _ _)

theorem emitBreak_within : (emitStatement emitBreak).Within R u := by
  intro s
  have h := hR.clearError u s
  unfold emitStatement emitBreak
  dsimp only
  split
  · exact hR.setError h _ _
  · exact hR.trans h (hR.append rfl)

theorem emitContinue_within : (emitStatement emitContinue).Within R u := by
  intro s
  have h := hR.clearError u s
  unfold emitStatement emitContinue
  dsimp only
  split
  · exact hR.setError h _ _
  · exact hR.trans h (hR.append rfl)

end

end

/-! ## The plans of the nodes -/

section

variable {V : Type} {values : Values V} {library : Library V}

theorem needVariable_undeclaring {name : List Char} {next : V → LiteralType → Plan V}
    (h : ∀ pointer varType, (next pointer varType).Undeclaring) : (Plan.needVariable name next).Undeclaring := by
  intro found
  dsimp only
  split
  · split
    · exact h _ _
    · exact True.intro
  · exact True.intro

theorem need_undeclaring {index : Nat} {next : V → Plan V} (h : ∀ value, (next value).Undeclaring) :
    (Plan.need index next).Undeclaring := by
  intro found
  cases found with
  | none => exact True.intro
  | some value => exact h value

theorem identifierPlan_undeclaring (name : List Char) : (identifierPlan values name).Undeclaring := by
  refine needVariable_undeclaring ?_
  intro pointer varType
  dsimp only
  split
  · exact True.intro
  · exact fun _ => True.intro

theorem binaryPlan_undeclaring (hl : library.Undeclaring) (opcode : Opcode) (left right : Node) :
    (binaryPlan values library opcode left right).Undeclaring := by
  unfold binaryPlan
  split
  · exact hl.node _
  · split
    · split
      · refine needVariable_undeclaring fun pointer _ => need_undeclaring fun rhs => ?_
        split
        · exact fun _ => True.intro
        · exact fun _ _ _ => True.intro
      · exact True.intro
    · refine need_undeclaring fun lhs => need_undeclaring fun rhs => ?_
      unfold binaryOp
      dsimp only
      split
      · exact hl.stringConcat _ _
      · split
        · exact fun _ => True.intro
        · exact True.intro

theorem incrementPlan_undeclaring (instruction : Instruction) (isPrefix : Bool) (identifier : Literal) :
    (incrementPlan values instruction isPrefix identifier).Undeclaring := by
  unfold incrementPlan
  split
  · refine needVariable_undeclaring fun pointer _ => ?_
    split
    · exact True.intro
    · exact fun _ _ _ => True.intro
  · exact True.intro

/-- Only a declaration declares. -/
theorem nodePlan_undeclaring (hl : library.Undeclaring) (node : Node)
    (h : ∀ identifier typeLiteral expression line, node ≠ .varDecl identifier typeLiteral expression line) :
    (nodePlan values library node).Undeclaring := by
  cases node with
  | literal literal =>
    unfold nodePlan literalPlan
    dsimp only
    split
    · exact identifierPlan_undeclaring _
    · exact True.intro
  | unary opcode child =>
    refine need_undeclaring fun operand => ?_
    unfold unaryOp
    split
    · exact fun _ => True.intro
    · exact fun _ => True.intro
    · exact hl.print _
    · exact True.intro
  | binary opcode left right => exact binaryPlan_undeclaring hl opcode left right
  | grouping child => exact fun _ => True.intro
  | cast targetType expression => exact need_undeclaring fun value => hl.cast _ value
  | varDecl identifier typeLiteral expression line => exact absurd rfl (h identifier typeLiteral expression line)
  | prefixIncrement identifier => exact incrementPlan_undeclaring ..
  | postfixIncrement identifier => exact incrementPlan_undeclaring ..
  | prefixDecrement identifier => exact incrementPlan_undeclaring ..
  | postfixDecrement identifier => exact incrementPlan_undeclaring ..
  | index first second third => exact hl.node _
  | compound literalType nodes => exact hl.node _
  | fnCall args count => exact hl.node _
  | _ => exact True.intro

end

/-! ## Every node -/

section

variable {R : ScopeUse → Codegen → Codegen → Prop} {library : Library Value}

theorem one_within {action : Action} {u : ScopeUse} (h : action.Within R u) : ∀ a ∈ [action], a.Within R u := by
  intro a ha
  rw [List.mem_singleton.mp ha]
  exact h

theorem else_within (node : Node) {u : ScopeUse}
    (harm : (emitArm (statements library node) (emit library node)).Within R u)
    (hi : ∀ action, elseIf library node = some action → ∃ v, elseIfUse node = some v ∧ action.Within R v) :
    ((elseIf library node).getD (emitArm (statements library node) (emit library node))).Within R
      ((elseIfUse node).getD u) := by
  cases node with
  | pathIf condition thenPath elsePath typeWord isExpression =>
    rw [elseIf] at hi ⊢
    obtain ⟨v, hv, hw⟩ := hi _ rfl
    rw [hv]
    exact hw
  | _ => exact harm

section

variable (hR : Stable R)

include hR

theorem cons_within {action : Action} {actions : List Action} {u v : ScopeUse} (h : action.Within R u)
    (ha : ∀ a ∈ actions, a.Within R v) : ∀ a ∈ action :: actions, a.Within R (u ⊔ v) := by
  intro a hmem
  rcases List.mem_cons.mp hmem with rfl | hmem
  · exact h.widen hR le_sup_left
  · exact (ha a hmem).widen hR le_sup_right

theorem append_within {first second : List Action} {u v : ScopeUse} (h₁ : ∀ a ∈ first, a.Within R u)
    (h₂ : ∀ a ∈ second, a.Within R v) : ∀ a ∈ first ++ second, a.Within R (u ⊔ v) := by
  intro a hmem
  rcases List.mem_append.mp hmem with hmem | hmem
  · exact (h₁ a hmem).widen hR le_sup_left
  · exact (h₂ a hmem).widen hR le_sup_right

theorem three_within {a b c : Action} {u v w : ScopeUse} (ha : a.Within R u) (hb : b.Within R v) (hc : c.Within R w) :
    ∀ x ∈ [a, b, c], x.Within R (u ⊔ (v ⊔ w)) :=
  cons_within hR ha (cons_within hR hb (one_within hc))

/-- An arm is its statements, or emitted whole. -/
theorem arm_within (node : Node) {parts whole : ScopeUse} (hw : (emit library node).Within R whole)
    (hs : ∀ a ∈ statements library node, a.Within R parts) :
    (emitArm (statements library node) (emit library node)).Within R (armUse node parts whole) := by
  cases node with
  | block nodes =>
    cases nodes with
    | nil =>
      rw [emit]
      exact fun s => hR.refl _ s
    | cons node nodes =>
      rw [statements, emitAll] at hs ⊢
      exact runLast_within hR hs
  | _ => exact hw

theorem node_within (hl : (∀ u, Declares R u) ∨ library.Undeclaring) {actions : List Action} {u : ScopeUse} (node : Node)
    (h : ∀ identifier typeLiteral expression line, node ≠ .varDecl identifier typeLiteral expression line)
    (ha : ∀ a ∈ actions, a.Within R u) : ((nodePlan Value.values library node).emit actions).Within R u :=
  plan_within hR ha _ (hl.imp (fun hd => hd u) fun hl => nodePlan_undeclaring hl node h)

theorem leaf_within (hl : (∀ u, Declares R u) ∨ library.Undeclaring) (u : ScopeUse) (node : Node)
    (h : ∀ identifier typeLiteral expression line, node ≠ .varDecl identifier typeLiteral expression line) :
    ((nodePlan Value.values library node).emit []).Within R u :=
  node_within hR hl node h fun _ ha => absurd ha List.not_mem_nil

end

mutual

/-- The states before and behind the node are in the relation. -/
theorem emit_within (hR : Stable R) (hl : (∀ u, Declares R u) ∨ library.Undeclaring) (node : Node) :
    (emit library node).Within R (scopeUse node) := by
  cases node with
  | pathIf condition thenPath elsePath typeWord isExpression =>
    have hc := emit_within hR hl condition
    have ht := emit_within hR hl thenPath
    have he := emit_within hR hl elsePath
    have hs := statements_within hR hl thenPath
    have hse := statements_within hR hl elsePath
    have hi := elseIf_within hR hl elsePath
    have harm := arm_within hR thenPath ht hs
    have helse := else_within elsePath (arm_within hR elsePath he hse) hi
    rw [emit, scopeUse]
    refine emitIf_within hR ?_ ?_
    · rintro rfl
      exact emitIfStatement_within hR (hc.widen hR le_sup_left) (ht.widen hR (le_sup_left.trans le_sup_right))
        (he.widen hR (le_sup_right.trans le_sup_right))
    · rintro rfl
      exact emitIfExpression_within hR (hc.widen hR le_sup_left) (harm.widen hR (le_sup_left.trans le_sup_right))
        (helse.widen hR (le_sup_right.trans le_sup_right)) typeWord
  | pathWhile condition thenPath =>
    have hc := emit_within hR hl condition
    have ht := emit_within hR hl thenPath
    rw [emit, scopeUse]
    exact emitWhile_within hR (hc.widen hR le_sup_left) (ht.widen hR le_sup_right)
  | pathFor preClause condition postClause thenPath =>
    have hp := emit_within hR hl preClause
    have hc := emit_within hR hl condition
    have hpost := emit_within hR hl postClause
    have ht := emit_within hR hl thenPath
    rw [emit, scopeUse]
    exact emitFor_within hR (hp.widen hR (le_sup_left.trans le_sup_left)) (hc.widen hR (le_sup_right.trans le_sup_left))
      (hpost.widen hR (le_sup_left.trans le_sup_right)) (ht.widen hR (le_sup_right.trans le_sup_right))
  | pathBreak =>
    rw [emit]
    exact emitBreak_within hR
  | pathContinue =>
    rw [emit]
    exact emitContinue_within hR
  | block nodes =>
    have hall := all_within hR hl nodes
    rw [emit, scopeUse]
    cases nodes with
    | nil => exact fun s => hR.refl _ s
    | cons node nodes => exact emitBlock_within hR hall
  | ternary condition thenPath elsePath =>
    have hc := emit_within hR hl condition
    have ht := emit_within hR hl thenPath
    have he := emit_within hR hl elsePath
    rw [emit, scopeUse]
    split
    · exact null_within hR
    · exact emitTernary_within hR (hc.widen hR le_sup_left) (ht.widen hR (le_sup_left.trans le_sup_right))
        (he.widen hR (le_sup_right.trans le_sup_right))
  | unary opcode child =>
    have h := emit_within hR hl child
    rw [emit, scopeUse]
    exact node_within hR hl _ nofun (one_within h)
  | grouping child =>
    have h := emit_within hR hl child
    rw [emit, scopeUse]
    exact node_within hR hl _ nofun (one_within h)
  | cast targetType expression =>
    have h := emit_within hR hl expression
    rw [emit, scopeUse]
    exact node_within hR hl _ nofun (one_within h)
  | binary opcode left right =>
    have h₁ := emit_within hR hl left
    have h₂ := emit_within hR hl right
    have h₃ := arguments_within hR hl left
    have h₄ := arguments_within hR hl right
    rw [emit, scopeUse, sup_assoc]
    exact node_within hR hl _ nofun (cons_within hR h₁ (cons_within hR h₂ (append_within hR h₃ h₄)))
  | varDecl identifier typeLiteral expression line =>
    have h := emit_within hR hl expression
    have ha := arguments_within hR hl expression
    rw [emit, scopeUse]
    have hall := cons_within hR h ha
    refine plan_within hR (fun a hmem => (hall a hmem).widen hR (ScopeUse.le_declaring _)) _ (.inl ?_)
    intro s name alloca varType arrayCount
    exact hR.widen ⟨Nat.zero_le _, Bool.le_true _⟩ (hR.declare s name alloca varType arrayCount)
  | index first second third =>
    have h₁ := emit_within hR hl first
    have h₂ := emit_within hR hl second
    have h₃ := emit_within hR hl third
    rw [emit, scopeUse]
    exact node_within hR hl _ nofun (three_within hR h₁ h₂ h₃)
  | compound literalType nodes =>
    have h := all_within hR hl nodes
    rw [emit, scopeUse]
    exact node_within hR hl _ nofun h
  | fnCall args count =>
    have h := arguments_within hR hl args
    rw [emit, scopeUse]
    exact node_within hR hl _ nofun h
  | _ => first | exact null_within hR | exact leaf_within hR hl _ _ nofun

theorem all_within (hR : Stable R) (hl : (∀ u, Declares R u) ∨ library.Undeclaring) (nodes : List Node) :
    ∀ a ∈ emitAll library nodes, a.Within R (scopeUseAll nodes) := by
  cases nodes with
  | nil =>
    rw [emitAll]
    nofun
  | cons node nodes =>
    have h := emit_within hR hl node
    have hall := all_within hR hl nodes
    rw [emitAll, scopeUseAll]
    exact cons_within hR h hall

theorem statements_within (hR : Stable R) (hl : (∀ u, Declares R u) ∨ library.Undeclaring) (node : Node) :
    ∀ a ∈ statements library node, a.Within R (statementsUse node) := by
  cases node with
  | block nodes =>
    have hall := all_within hR hl nodes
    rw [statements, statementsUse]
    exact hall
  | _ => exact fun a ha => absurd (show a ∈ ([] : List Action) from ha) List.not_mem_nil

theorem elseIf_within (hR : Stable R) (hl : (∀ u, Declares R u) ∨ library.Undeclaring) (node : Node) :
    ∀ action, elseIf library node = some action → ∃ v, elseIfUse node = some v ∧ action.Within R v := by
  cases node with
  | pathIf condition thenPath elsePath typeWord isExpression =>
    have hc := emit_within hR hl condition
    have ht := emit_within hR hl thenPath
    have he := emit_within hR hl elsePath
    have hs := statements_within hR hl thenPath
    have hse := statements_within hR hl elsePath
    have hi := elseIf_within hR hl elsePath
    have harm := arm_within hR thenPath ht hs
    have helse := else_within elsePath (arm_within hR elsePath he hse) hi
    intro action haction
    rw [elseIf] at haction
    cases haction
    rw [elseIfUse]
    exact ⟨_, rfl, emitIfExpression_within hR (hc.widen hR le_sup_left) (harm.widen hR (le_sup_left.trans le_sup_right))
      (helse.widen hR (le_sup_right.trans le_sup_right)) typeWord⟩
  | _ => nofun

theorem arguments_within (hR : Stable R) (hl : (∀ u, Declares R u) ∨ library.Undeclaring) (node : Node) :
    ∀ a ∈ arguments library node, a.Within R (argumentsUse node) := by
  cases node with
  | compound literalType nodes =>
    have h := all_within hR hl nodes
    rw [arguments, argumentsUse]
    exact h
  | fnCollection nodes =>
    have h := all_within hR hl nodes
    rw [arguments, argumentsUse]
    exact h
  | fnCall args count =>
    have h := arguments_within hR hl args
    rw [arguments, argumentsUse]
    exact h
  | binary opcode left right =>
    have hleft := arguments_within hR hl left
    have hright := arguments_within hR hl right
    rw [arguments, argumentsUse]
    exact append_within hR hleft hright
  | index first second third =>
    have h₁ := emit_within hR hl first
    have h₂ := emit_within hR hl second
    have h₃ := emit_within hR hl third
    rw [arguments, argumentsUse]
    exact three_within hR h₁ h₂ h₃
  | _ => exact fun a ha => absurd (show a ∈ ([] : List Action) from ha) List.not_mem_nil

end

end

end Xvr.Backend
