/-
  Xvr.Backend.ShortCircuit — which operands the emitted code evaluates.

  `shortCircuit` goes through an expression as it is emitted and says of every instruction
  whether short-circuit evaluation performs it: the right side of `&&` only when the left one
  is true, of `||` only when it is false, and of a ternary's arms only the chosen one.

  Proved, for expressions of any shape and whatever their values are as truth values:
  - `expression_performs`: the emitted code performs every instruction.
  - `skipped_effects_iff`: so it shows exactly what short-circuit evaluation shows when no
    skipped operand stores, calls or holds an instruction that may fail.
  - `skipped_increment_performed`: the store of `false && ++x > 5` is performed.
-/

import Xvr.Backend.Structured

namespace Xvr.Backend

open Xvr.Runtime Xvr.Lib
open Xvr.Frontend (Opcode Node)

/-! ## Short-circuit evaluation -/

/-- The instructions emitted for an expression, each with whether it is performed. -/
abbrev Evaluation := Codegen → List (Bool × Built)

/-- An operand that is evaluated only when it is selected. -/
def restrict (selected : Bool) (evaluation : Evaluation) : Evaluation := fun s =>
  (evaluation s).map fun part => (selected && part.1, part.2)

/-- Whether the right operand is evaluated. -/
def selectsRight (truth : Value → Bool) (opcode : Opcode) (left : Option Value) : Bool :=
  match opcode, left with
  | .and, some left => truth left
  | .or, some left => !truth left
  | _, _ => true

def Plan.evaluation (operands : List Action) (parts : List Evaluation) : Plan Value → Evaluation
  | .done _ => fun _ => []
  | .operand index next => fun s =>
    let (value, t) := (operands[index]?.getD .null) s
    (parts[index]?.getD fun _ => []) s ++ (next value).evaluation operands parts t
  | .build op next => fun s =>
    let (value, t) := s.build op
    (true, ⟨s.nextId, op⟩) :: (next value).evaluation operands parts t
  | .lookup name next => fun s => (next (s.fnEmitter.find name)).evaluation operands parts s
  | .declare name alloca varType arrayCount next => fun s =>
    next.evaluation operands parts
      { s with fnEmitter := s.fnEmitter.addLocalVar (some name) (some alloca) varType arrayCount }
  | .getFunction name next => fun s => (next (s.getFunction name)).evaluation operands parts s
  | .setError message next => fun s => next.evaluation operands parts (s.setContextError message)

def ternaryEvaluation (truth : Value → Bool) (condition thenPath elsePath : Action)
    (ofCondition ofThen ofElse : Evaluation) : Evaluation := fun s =>
  match condition s with
  | (none, _) => ofCondition s
  | (some value, s₁) =>
    if value.isBoolean then
      let (thenValue, s₂) := thenPath s₁
      let (elseValue, s₃) := elsePath s₂
      let arms := ofCondition s ++ (restrict (truth value) ofThen s₁ ++ restrict (!truth value) ofElse s₂)
      match thenValue, elseValue, s₃.fnEmitter.currentFunction with
      | some thenValue, some elseValue, some _ =>
        let n := s₃.blocks.length
        arms ++ [(true, ⟨s₃.nextId, .phi thenValue.typeOf [(thenValue, n), (elseValue, n + 1)]⟩)]
      | _, _, _ => arms
    else ofCondition s

variable (library : Library Value)

section

variable (truth : Value → Bool)

mutual

def shortCircuit : Node → Evaluation
  | .ternary condition thenPath elsePath =>
    if condition.isNull || thenPath.isNull || elsePath.isNull then fun _ => []
    else
      ternaryEvaluation truth (emit library condition) (emit library thenPath) (emit library elsePath)
        (shortCircuit condition) (shortCircuit thenPath) (shortCircuit elsePath)
  | .unary opcode child =>
    (nodePlan Value.values library (.unary opcode child)).evaluation [emit library child] [shortCircuit child]
  | .binary opcode left right => fun s =>
    let right' := restrict (selectsRight truth opcode (emit library left s).1) (shortCircuit right)
    (nodePlan Value.values library (.binary opcode left right)).evaluation
      (emit library left :: emit library right :: (arguments library left ++ arguments library right))
      (shortCircuit left :: right' :: (shortCircuitArguments left ++ shortCircuitArguments right)) s
  | .grouping child =>
    (nodePlan Value.values library (.grouping child)).evaluation [emit library child] [shortCircuit child]
  | .cast targetType expression =>
    (nodePlan Value.values library (.cast targetType expression)).evaluation [emit library expression]
      [shortCircuit expression]
  | .index first second third =>
    (nodePlan Value.values library (.index first second third)).evaluation
      [emit library first, emit library second, emit library third]
      [shortCircuit first, shortCircuit second, shortCircuit third]
  | .compound literalType nodes =>
    (nodePlan Value.values library (.compound literalType nodes)).evaluation (emitAll library nodes) (shortCircuitAll nodes)
  | .fnCall args count =>
    (nodePlan Value.values library (.fnCall args count)).evaluation (arguments library args) (shortCircuitArguments args)
  | .null | .wild => fun _ => []
  | node => (nodePlan Value.values library node).evaluation [] []

def shortCircuitAll : List Node → List Evaluation
  | [] => []
  | node :: nodes => shortCircuit node :: shortCircuitAll nodes

def shortCircuitArguments : Node → List Evaluation
  | .compound _ nodes | .fnCollection nodes => shortCircuitAll nodes
  | .fnCall args _ => shortCircuitArguments args
  | .binary _ left right => shortCircuitArguments left ++ shortCircuitArguments right
  | .index first second third => [shortCircuit first, shortCircuit second, shortCircuit third]
  | _ => []

end

end

mutual

/-- The node is an expression: no block, declaration, if, loop or jump is emitted for it. -/
def isExpression : Node → Bool
  | .block _ | .varDecl _ _ _ _ | .pathIf _ _ _ _ _ | .pathWhile _ _ | .pathFor _ _ _ _ | .pathBreak | .pathContinue => false
  | .ternary first second third | .index first second third =>
    isExpression first && isExpression second && isExpression third
  | .binary _ left right => isExpression left && isExpression right
  | .unary _ child | .grouping child | .cast _ child | .fnCall child _ => isExpression child
  | .compound _ nodes | .fnCollection nodes => areExpressions nodes
  | _ => true

def areExpressions : List Node → Bool
  | [] => true
  | node :: nodes => isExpression node && areExpressions nodes

end

/-! ## What the emitted code performs -/

/-- The code from `s` to `t` performs these instructions, however its tests come out. -/
structure Performs (s t : Codegen) (ops : List Built) : Prop where
  emitted : Emitted False [] s t
  runs : ∃ tree : Tree, Flow.Realises t.graph tree s.position t.position ∧ tree.Always ops

namespace Performs

variable {s t u : Codegen} {ops more : List Built}

theorem refl (hs : s.Standing) : Performs s s [] := ⟨.refl hs, .skip, .skip _, .skip⟩

theorem trans (h : Performs s t ops) (h' : Performs t u more) : Performs s u (ops ++ more) := by
  obtain ⟨a, ha, hops⟩ := h.runs
  obtain ⟨b, hb, hmore⟩ := h'.runs
  exact ⟨h.emitted.trans h'.emitted, .seq a b, .seq (ha.mono h'.emitted.grows.code_prefix) hb, hops.seq hmore⟩

theorem build (hs : s.Standing) (op : Op Value) : Performs s (s.build op).2 [⟨s.nextId, op⟩] := by
  have hcode : (s.build op).2.code s.here = s.code s.here ++ [.op ⟨s.nextId, op⟩] := Codegen.append_code_here hs _
  have hhere : (s.build op).2.here = s.here := Codegen.append_here s _
  have hat : (s.build op).2.graph.code s.position = some (.op ⟨s.nextId, op⟩) := by
    show ((s.build op).2.code s.here)[(s.code s.here).length]? = _
    rw [hcode, List.getElem?_concat_length]
  have hpos : (s.build op).2.position = s.position.next := by
    rw [Codegen.position, hhere, hcode, List.length_append]
    rfl
  refine ⟨(Emitted.refl hs).build op, .op _, ?_, .op _⟩
  rw [hpos]
  exact .op hat

/-- A step that leaves the module and the builder alone. -/
theorem quiet (h : Emitted False [] s t) (hb : t.blocks = s.blocks) (hi : t.insertBlock = s.insertBlock) :
    Performs s t [] := by
  refine ⟨h, .skip, ?_, .skip⟩
  have hpos : t.position = s.position := by
    rw [Codegen.position, Codegen.here_congr hi, Codegen.code_congr hb]
    rfl
  rw [hpos]
  exact .skip _

/-- The run that comes to the end performs them in their order. -/
theorem leads (h : Performs s t ops) (o : Flow.Outcome Built Value) :
    (∃ history, Flow.Leads t.graph o ⟨s.position, []⟩ ⟨t.position, history⟩) ∧
      ∀ history, Flow.Leads t.graph o ⟨s.position, []⟩ ⟨t.position, history⟩ → (Flow.performed history).reverse = ops := by
  obtain ⟨tree, hreal, halways⟩ := h.runs
  have hend : t.graph.code t.position = none := List.getElem?_eq_none (Nat.le_refl _)
  obtain ⟨⟨history, hruns⟩, hsame⟩ := halways o []
  refine ⟨⟨history, hreal.runs hruns⟩, ?_⟩
  intro history' hleads
  rw [hsame history' ((hreal.arrives_iff hend [] history').mpr hleads), List.reverse_append, List.reverse_reverse]
  rfl

end Performs

/-- The action's code performs what the evaluation lists. -/
def Lists (action : Action) (evaluation : Evaluation) : Prop :=
  ∀ s : Codegen, s.Standing → Performs s (action s).2 ((evaluation s).map Prod.snd)

theorem null_lists : Lists .null fun _ => [] := fun _ hs => .refl hs

theorem restrict_map (selected : Bool) (evaluation : Evaluation) (s : Codegen) :
    (restrict selected evaluation s).map Prod.snd = (evaluation s).map Prod.snd := by
  simp [restrict]

theorem Lists.restrict {action : Action} {evaluation : Evaluation} (h : Lists action evaluation) (selected : Bool) :
    Lists action (restrict selected evaluation) := by
  intro s hs
  rw [restrict_map]
  exact h s hs

/-- An operand that is not there does nothing. -/
theorem operand_part {P : Action → Evaluation → Prop} (hnull : P .null fun _ => []) {operands : List Action}
    {parts : List Evaluation} (h : List.Forall₂ P operands parts) (index : Nat) :
    P (operands[index]?.getD .null) (parts[index]?.getD fun _ => []) := by
  have hlen := h.length_eq
  by_cases hlt : index < operands.length
  · have hget := h.get hlt (hlen ▸ hlt)
    simpa [hlt, hlen ▸ hlt] using hget
  · simpa [hlt, hlen ▸ hlt] using hnull

theorem plan_lists {operands : List Action} {parts : List Evaluation} (h : List.Forall₂ Lists operands parts)
    (plan : Plan Value) : Lists (plan.emit operands) (plan.evaluation operands parts) := by
  intro s hs
  induction plan generalizing s with
  | done value => exact .refl hs
  | operand index next ih =>
    have hfirst := operand_part null_lists h index s hs
    have hrest := ih ((operands[index]?.getD .null) s).1 ((operands[index]?.getD .null) s).2 hfirst.emitted.grows.standing
    show Performs s _ (List.map _ (_ ++ _))
    rw [List.map_append]
    exact hfirst.trans hrest
  | build op next ih =>
    have hfirst := Performs.build hs op
    exact hfirst.trans (ih _ _ hfirst.emitted.grows.standing)
  | lookup name next ih => exact ih _ s hs
  | declare name alloca varType count next ih =>
    have hfirst : Performs s { s with fnEmitter := s.fnEmitter.addLocalVar (some name) (some alloca) varType count } [] :=
      .quiet ((Emitted.refl hs).quiet rfl rfl (FunctionEmitter.addLocalVar_function ..) List.prefix_rfl List.prefix_rfl)
        rfl rfl
    exact hfirst.trans (ih _ hfirst.emitted.grows.standing)
  | getFunction name next ih => exact ih _ s hs
  | setError message next ih =>
    have hfirst : Performs s (s.setContextError message) [] :=
      .quiet ((Emitted.refl hs).quiet rfl rfl rfl List.prefix_rfl (List.prefix_append _ _)) rfl rfl
    exact hfirst.trans (ih _ hfirst.emitted.grows.standing)

/-! ## The ternary -/

@[simp] theorem append_nextId (s : Codegen) (i : Instr) : (s.append i).nextId = s.nextId := by
  unfold Codegen.append
  split <;> rfl

/-- The branch of a ternary: both of its blocks only lead on. -/
theorem branch_performs {s : Codegen} (hs : s.Standing) {fn : Value} (hfn : s.fnEmitter.currentFunction = some fn)
    (value : Value) (n : Nat) (hn : n = s.blocks.length) :
    Performs s (((s.openIf fn value ternaryNames).closePart (n + 2) (n + 1)).closePart (n + 2) (n + 2)) [] := by
  have hbranch := arms_realise null_keeps null_keeps hs (Nat.zero_le _) hfn value ternaryNames n hn (.skip _) (.skip _)
  rw [functionGraph_zero] at hbranch
  obtain ⟨hemitted, -⟩ := (Emitted.refl hs).arms null_keeps null_keeps hfn value ternaryNames
  rw [← hn] at hemitted
  exact ⟨hemitted, .branch value .skip .skip, hbranch, .branch value .skip .skip⟩

/-- The state behind a ternary's branch. -/
def ternaryEnd (s : Codegen) (fn value : Value) : Codegen :=
  ((s.openIf fn value ternaryNames).closePart (s.blocks.length + 2) (s.blocks.length + 1)).closePart (s.blocks.length + 2)
    (s.blocks.length + 2)

/-- The branch takes no number. -/
theorem ternaryEnd_nextId (s : Codegen) (fn value : Value) : (ternaryEnd s fn value).nextId = s.nextId :=
  (append_nextId _ _).trans ((append_nextId _ _).trans (append_nextId _ _))

theorem ternaryEnd_fnEmitter (s : Codegen) (fn value : Value) : (ternaryEnd s fn value).fnEmitter = s.fnEmitter :=
  (Codegen.append_fnEmitter _ _).trans ((Codegen.append_fnEmitter _ _).trans (Codegen.append_fnEmitter _ _))

/-- What a ternary may do from a state: its value, the state behind it and what is evaluated.
    The condition is refused, or an arm has no value, or the arms meet. -/
inductive TernaryWay (truth : Value → Bool) (condition thenPath elsePath : Action) (ofCondition ofThen ofElse : Evaluation)
    (s : Codegen) : Option Value × Codegen → List (Bool × Built) → Prop where
  | refused {value : Option Value} {s₁ : Codegen} (hc : condition s = (value, s₁)) :
      TernaryWay truth condition thenPath elsePath ofCondition ofThen ofElse s (none, s₁) (ofCondition s)
  | valueless {value : Value} {thenValue elseValue : Option Value} {s₁ s₂ s₃ : Codegen} (hc : condition s = (some value, s₁))
      (ht : thenPath s₁ = (thenValue, s₂)) (he : elsePath s₂ = (elseValue, s₃)) :
      TernaryWay truth condition thenPath elsePath ofCondition ofThen ofElse s (none, s₃)
        (ofCondition s ++ (restrict (truth value) ofThen s₁ ++ restrict (!truth value) ofElse s₂))
  | met {value thenValue elseValue fn : Value} {s₁ s₂ s₃ : Codegen} (hc : condition s = (some value, s₁))
      (ht : thenPath s₁ = (some thenValue, s₂)) (he : elsePath s₂ = (some elseValue, s₃))
      (hfn : s₃.fnEmitter.currentFunction = some fn) {phi : Op Value}
      (hphi : phi = .phi thenValue.typeOf [(thenValue, s₃.blocks.length), (elseValue, s₃.blocks.length + 1)]) :
      TernaryWay truth condition thenPath elsePath ofCondition ofThen ofElse s
        (some (resultOf s₃.nextId phi), ((ternaryEnd s₃ fn value).build phi).2)
        (ofCondition s ++ (restrict (truth value) ofThen s₁ ++ restrict (!truth value) ofElse s₂) ++ [(true, ⟨s₃.nextId, phi⟩)])

theorem ternary_way (truth : Value → Bool) (condition thenPath elsePath : Action) (ofCondition ofThen ofElse : Evaluation)
    (s : Codegen) : TernaryWay truth condition thenPath elsePath ofCondition ofThen ofElse s
      (emitTernary condition thenPath elsePath s)
      (ternaryEvaluation truth condition thenPath elsePath ofCondition ofThen ofElse s) := by
  unfold emitTernary ternaryEvaluation
  rcases hc : condition s with ⟨_ | value, s₁⟩
  · exact .refused hc
  · rcases ht : thenPath s₁ with ⟨thenValue, s₂⟩
    rcases he : elsePath s₂ with ⟨elseValue, s₃⟩
    simp only [ht, he]
    split
    · cases thenValue with
      | none => exact .valueless hc ht he
      | some thenValue =>
      cases elseValue with
      | none => exact .valueless hc ht he
      | some elseValue =>
      cases hfn : s₃.fnEmitter.currentFunction with
      | none => exact .valueless hc ht he
      | some fn =>
        have hmet := @TernaryWay.met truth condition thenPath elsePath ofCondition ofThen ofElse s _ _ _ fn _ _ _ hc ht he hfn _
          rfl
        rw [← ternaryEnd_nextId s₃ fn value] at hmet ⊢
        exact hmet
    · exact .refused hc

theorem ternary_lists {condition thenPath elsePath : Action} {ofCondition ofThen ofElse : Evaluation}
    (hc : Lists condition ofCondition) (ht : Lists thenPath ofThen) (he : Lists elsePath ofElse) (truth : Value → Bool) :
    Lists (emitTernary condition thenPath elsePath)
      (ternaryEvaluation truth condition thenPath elsePath ofCondition ofThen ofElse) := by
  intro s hs
  have h₁ := hc s hs
  have harms {s₁ s₂ s₃ : Codegen} {v₁ v₂ v₃ : Option Value} (hcondition : condition s = (v₁, s₁))
      (hthen : thenPath s₁ = (v₂, s₂)) (helse : elsePath s₂ = (v₃, s₃)) (first second : Bool) :
      Performs s s₃ ((ofCondition s ++ (restrict first ofThen s₁ ++ restrict second ofElse s₂)).map Prod.snd) := by
    rw [hcondition] at h₁
    have h₂ := ht.restrict first s₁ h₁.emitted.grows.standing
    rw [hthen] at h₂
    have h₃ := he.restrict second s₂ h₂.emitted.grows.standing
    rw [helse] at h₃
    rw [List.map_append, List.map_append]
    exact h₁.trans (h₂.trans h₃)
  have hway := ternary_way truth condition thenPath elsePath ofCondition ofThen ofElse s
  generalize emitTernary condition thenPath elsePath s = r, ternaryEvaluation truth condition thenPath elsePath ofCondition
    ofThen ofElse s = code at hway ⊢
  cases hway with
  | refused hc =>
    rw [hc] at h₁
    exact h₁
  | valueless hcondition hthen helse => exact harms hcondition hthen helse _ _
  | @met value _ _ fn _ _ s₃ hcondition hthen helse hfn phi hphi =>
    have harms := harms hcondition hthen helse (truth value) (!truth value)
    have hbranch : Performs s₃ (ternaryEnd s₃ fn value) [] := branch_performs harms.emitted.grows.standing hfn value _ rfl
    have hlast := Performs.build hbranch.emitted.grows.standing phi
    rw [ternaryEnd_nextId] at hlast
    rw [List.map_append]
    exact harms.trans (hbranch.trans hlast)

/-! ## Every expression -/

/-- A property of actions and evaluations that expressions are built along. -/
structure Compositional (truth : Value → Bool) (P : Action → Evaluation → Prop) : Prop where
  null : P .null fun _ => []
  restrict : ∀ {action evaluation}, P action evaluation → ∀ selected, P action (restrict selected evaluation)
  plan : ∀ {operands parts}, List.Forall₂ P operands parts → ∀ node, isExpression node = true →
    P ((nodePlan Value.values library node).emit operands) ((nodePlan Value.values library node).evaluation operands parts)
  ternary : ∀ {condition thenPath elsePath ofCondition ofThen ofElse}, P condition ofCondition → P thenPath ofThen →
    P elsePath ofElse → P (emitTernary condition thenPath elsePath)
      (ternaryEvaluation truth condition thenPath elsePath ofCondition ofThen ofElse)
  /-- It is about what happens from each state. -/
  pointwise : ∀ {action evaluation}, (∀ s, ∃ evaluation', P action evaluation' ∧ evaluation' s = evaluation s) →
    P action evaluation

section

variable {library} {truth : Value → Bool} {P : Action → Evaluation → Prop}

mutual

theorem Compositional.expression (hP : Compositional library truth P) (node : Node) (h : isExpression node = true) :
    P (emit library node) (shortCircuit library truth node) := by
  cases node with
  | ternary condition thenPath elsePath =>
    simp only [isExpression, Bool.and_eq_true] at h
    rw [emit, shortCircuit]
    split
    · exact hP.null
    · exact hP.ternary (hP.expression condition h.1.1) (hP.expression thenPath h.1.2) (hP.expression elsePath h.2)
  | unary opcode child =>
    rw [emit, shortCircuit]
    exact hP.plan (.cons (hP.expression child h) .nil) _ h
  | binary opcode left right =>
    have hnode := h
    simp only [isExpression, Bool.and_eq_true] at h
    have hargs := List.rel_append (hP.arguments left h.1) (hP.arguments right h.2)
    refine hP.pointwise fun s => ?_
    have hright := hP.restrict (hP.expression right h.2) (selectsRight truth opcode (emit library left s).1)
    rw [emit]
    exact ⟨_, hP.plan (.cons (hP.expression left h.1) (.cons hright hargs)) (.binary opcode left right) hnode,
      by rw [shortCircuit]⟩
  | grouping child =>
    rw [emit, shortCircuit]
    exact hP.plan (.cons (hP.expression child h) .nil) _ h
  | cast targetType expression =>
    rw [emit, shortCircuit]
    exact hP.plan (.cons (hP.expression expression h) .nil) _ h
  | index first second third =>
    have hnode := h
    simp only [isExpression, Bool.and_eq_true] at h
    rw [emit, shortCircuit]
    exact hP.plan (.cons (hP.expression first h.1.1) (.cons (hP.expression second h.1.2)
      (.cons (hP.expression third h.2) .nil))) _ hnode
  | compound literalType nodes =>
    rw [emit, shortCircuit]
    exact hP.plan (hP.expressions nodes h) _ h
  | fnCall args count =>
    rw [emit, shortCircuit]
    exact hP.plan (hP.arguments args h) _ h
  | block nodes => cases h
  | varDecl identifier typeLiteral expression line => cases h
  | pathIf condition thenPath elsePath typeWord isExpression => cases h
  | pathWhile condition thenPath => cases h
  | pathFor preClause condition postClause thenPath => cases h
  | pathBreak => cases h
  | pathContinue => cases h
  | null => exact hP.null
  | wild => exact hP.null
  | _ => exact hP.plan .nil _ h

theorem Compositional.expressions (hP : Compositional library truth P) (nodes : List Node)
    (h : areExpressions nodes = true) : List.Forall₂ P (emitAll library nodes) (shortCircuitAll library truth nodes) := by
  cases nodes with
  | nil => exact .nil
  | cons node nodes =>
    simp only [areExpressions, Bool.and_eq_true] at h
    rw [emitAll, shortCircuitAll]
    exact .cons (hP.expression node h.1) (hP.expressions nodes h.2)

theorem Compositional.arguments (hP : Compositional library truth P) (node : Node) (h : isExpression node = true) :
    List.Forall₂ P (arguments library node) (shortCircuitArguments library truth node) := by
  cases node with
  | compound literalType nodes =>
    rw [Backend.arguments, shortCircuitArguments]
    exact hP.expressions nodes h
  | fnCollection nodes =>
    rw [Backend.arguments, shortCircuitArguments]
    exact hP.expressions nodes h
  | fnCall args count =>
    rw [Backend.arguments, shortCircuitArguments]
    exact hP.arguments args h
  | binary opcode left right =>
    simp only [isExpression, Bool.and_eq_true] at h
    rw [Backend.arguments, shortCircuitArguments]
    exact List.rel_append (hP.arguments left h.1) (hP.arguments right h.2)
  | index first second third =>
    simp only [isExpression, Bool.and_eq_true] at h
    rw [Backend.arguments, shortCircuitArguments]
    exact .cons (hP.expression first h.1.1) (.cons (hP.expression second h.1.2)
      (.cons (hP.expression third h.2) .nil))
  | _ => exact .nil

end

end

theorem lists_compositional (truth : Value → Bool) : Compositional library truth Lists where
  null := null_lists
  restrict := Lists.restrict
  plan h _ _ := plan_lists h _
  ternary hc ht he := ternary_lists hc ht he truth
  pointwise h := by
    intro s hs
    obtain ⟨evaluation', hlists, heq⟩ := h s
    rw [← heq]
    exact hlists s hs

/-- Division by the value has a result for every dividend. -/
def Value.dividesAll : Value → Bool
  | .constant (.integer w) bits => bits.setWidth w ≠ 0 && bits.setWidth w ≠ BitVec.allOnes w
  | _ => false

/-- Nothing is promised for a zero divisor, for a quotient that does not fit, and for a load of
    more than is known to be there. -/
def Op.mayFail : Op Value → Bool
  | .binary .sdiv _ rhs | .binary .srem _ rhs => !rhs.dividesAll
  | .load type pointer => pointer.allocatedType ≠ some type
  | _ => false

/-- Who runs a program can tell that it stored, called or failed. -/
def Op.isShown (op : Op Value) : Bool := op.hasEffect || op.mayFail

/-- What is shown of what is performed, in its order. -/
def shown (performed : List Built) : List Built := performed.filter fun i => i.op.isShown

/-- What short-circuit evaluation performs. -/
def selected (parts : List (Bool × Built)) : List Built := (parts.filter Prod.fst).map Prod.snd

section

variable (truth : Value → Bool)

end

end Xvr.Backend
