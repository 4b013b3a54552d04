/-
  Xvr.Backend.ArrayInitializers — how often the elements of an array literal are evaluated by
  the declaration it initializes.

  The declaration first emits the literal as a value, for nothing but its being there, and
  then emits every element again to insert it. `InitializedOnce` is what it should do.

  Proved:
  - `initialized_once_iff`: it does exactly when the elements have values, those inserted are
    `i32`, and their first evaluation stores nothing and calls nothing, or there are none and
    the type says array.
  - `increment_initialized_twice`: the stores of `[++x, 5]`.
-/

import Xvr.Backend.Arrays
import Xvr.Backend.FreshValues

namespace Xvr.Backend

open Xvr.Runtime Xvr.Lib
open Xvr.Frontend (Opcode Node)

/-! ## Elements -/

/-- Statements have no value, an if expression included, and what needs a value of one has
    none. -/
def valueless : Node → Bool
  | .block _ | .varDecl _ _ _ _ | .pathIf _ _ _ _ _ | .pathWhile _ _ | .pathFor _ _ _ _ | .pathBreak | .pathContinue => true
  | .grouping child | .unary _ child | .cast _ child => valueless child
  | .ternary condition thenPath elsePath => valueless condition || valueless thenPath || valueless elsePath
  | .binary opcode left right => !isLibraryBinary opcode left && !isAssignment opcode && (valueless left || valueless right)
  | _ => false

/-- `var name: type = [elements];` -/
structure ArrayDeclaration where
  name : List Char
  typeLiteral : Literal
  literalType : LiteralType
  elements : List Node
  line : Nat
  isArray : literalType = .array ∨ literalType = .any
  /-- An if expression is no argument of a call. -/
  areElements : ∀ node ∈ elements, (isExpression node || valueless node) = true

namespace ArrayDeclaration

def literal (d : ArrayDeclaration) : Node := .compound d.literalType d.elements

def node (d : ArrayDeclaration) : Node := .varDecl (.identifier d.name) d.typeLiteral d.literal d.line

end ArrayDeclaration

/-! ## One evaluation -/

/-- An element evaluated: what that performs, and the value. -/
structure Part where
  code : List Built
  value : Option Value
  deriving DecidableEq, Repr

variable (library : Library Value)

/-- What evaluating an expression performs. -/
def evaluated (node : Node) (s : Codegen) : List Built := (shortCircuit library (fun _ => true) node s).map Prod.snd

/-- Each element once, one after the other. -/
def evaluateEach : List Node → Codegen → List Part × Codegen
  | [], s => ([], s)
  | node :: nodes, s =>
    let rest := evaluateEach nodes (emit library node s).2
    (⟨evaluated library node s, (emit library node s).1⟩ :: rest.1, rest.2)

/-- The same, with every value inserted into the array. -/
def insertEach (array : Value) : List Node → Codegen → List Part × Codegen
  | [], s => ([], s)
  | node :: nodes, s =>
    match emit library node s with
    | (none, t) =>
      let rest := insertEach array nodes t
      (⟨evaluated library node s, none⟩ :: rest.1, rest.2)
    | (some value, t) =>
      let insertion := Op.call insertName [array, value] .void
      let rest := insertEach array nodes (t.build insertion).2
      (⟨evaluated library node s ++ [⟨t.nextId, insertion⟩], some value⟩ :: rest.1, rest.2)

/-- The stores and calls, in their order. -/
def effects (performed : List Built) : List Built := performed.filter fun i => i.op.hasEffect

/-- What the declaration performs from `s`, each element being evaluated once: an array is
    created, filled and stored. -/
def initialization (elements : List Node) (s : Codegen) : List Part × List Built :=
  let array := Value.result s.nextId .pointer
  let filled := insertEach library array elements (s.build (.call createName [] .pointer)).2
  (filled.1, ⟨s.nextId, .call createName [] .pointer⟩ :: filled.1.flatMap Part.code ++
    [⟨filled.2.nextId, .alloca .pointer⟩, ⟨filled.2.nextId + 1, .store array (.alloca filled.2.nextId .pointer)⟩])

/-- `xvr_array_insert_int` takes an `i32`. -/
def isInt (value : Value) : Bool := value.typeOf = .integer 32

/-- The value inserted into the array by an instruction. A call with anything but an `i32` is
    ill-typed and inserts nothing to rely on. -/
def insertedValue (array : Value) (i : Built) : Option Value :=
  match i.op with
  | .call name [a, value] _ => if name = insertName ∧ a = array ∧ isInt value then some value else none
  | _ => none

/-- An array that was created empty, after what was inserted into it: values of type `i32`. -/
def contents (array : Value) (performed : List Built) : ArrayInt Value :=
  (performed.filterMap (insertedValue array)).foldl .insert .create

/-- The declaration shows the effects of one evaluation of each element, in their order, and
    the array then holds their values. -/
def InitializedOnce (d : ArrayDeclaration) (s : Codegen) : Prop :=
  let t := (emit library d.node s).2
  let first := (emit library d.literal s).2
  let once := initialization library d.elements first
  ∃ values : List Value, once.1.map Part.value = values.map some ∧ ∀ o : Flow.Outcome Built Value,
    (∃ history, Flow.Leads t.graph o ⟨s.position, []⟩ ⟨t.position, history⟩) ∧
    ∀ history, Flow.Leads t.graph o ⟨s.position, []⟩ ⟨t.position, history⟩ →
      effects (Flow.performed history).reverse = effects once.2 ∧
      (contents (.result first.nextId .pointer) (Flow.performed history).reverse).data = values

/-! ## What is emitted for the literal -/

section

variable {library} {constArray : LlvmType → List Value → Value}

theorem need_emit {operands : List Action} {index : Nat} {action : Action} (h : operands[index]? = some action)
    (next : Value → Plan Value) (s : Codegen) :
    (Plan.need index next).emit operands s =
      match action s with
      | (none, t) => (none, t)
      | (some value, t) => (next value).emit operands t := by
  rw [Plan.need, Plan.emit, h]
  dsimp only [Option.getD_some]
  rcases action s with ⟨_ | value, t⟩ <;> rfl

theorem need_evaluation {operands : List Action} {parts : List Evaluation} {index : Nat} {action : Action}
    {evaluation : Evaluation} (h : operands[index]? = some action) (hp : parts[index]? = some evaluation)
    (next : Value → Plan Value) (s : Codegen) :
    (Plan.need index next).evaluation operands parts s = evaluation s ++
      match action s with
      | (none, _) => []
      | (some value, t) => (next value).evaluation operands parts t := by
  rw [Plan.need, Plan.evaluation, h, hp]
  dsimp only [Option.getD_some]
  rcases action s with ⟨_ | value, t⟩ <;> rfl

theorem declareVariable_value (name : List Char) (varType : LiteralType) (count : Nat) (init : Option Value)
    (operands : List Action) (s : Codegen) :
    ((declareVariable Value.values name varType count init).emit operands s).1 = none := by
  cases init <;> rfl

theorem insertElements_value {array : Value} {next : Plan Value} {operands : List Action}
    (hnext : ∀ s, (next.emit operands s).1 = none) (i n : Nat) (s : Codegen) :
    ((insertElements array i n next).emit operands s).1 = none := by
  induction n generalizing i s with
  | zero => exact hnext s
  | succ n ih =>
    rw [insertElements, Plan.emit]
    dsimp only
    split
    · exact ih _ _
    · exact ih _ _

theorem varDecl_value (identifier typeLiteral : Literal) (expression : Node) (operands : List Action) (s : Codegen) :
    ((varDeclPlan Value.values identifier typeLiteral expression).emit operands s).1 = none := by
  cases identifier with
  | identifier name =>
    rw [varDeclPlan, Plan.emit]
    dsimp only
    generalize (if Option.isSome _ = true then arrayLiteralCount expression else none) = count
    generalize (if count.isSome = true then LiteralType.array else _) = varType
    split
    · exact insertElements_value (fun s => declareVariable_value ..) _ _ _
    · exact declareVariable_value ..
  | _ => rfl

/-- An operand without a value is where a node without one ends. -/
theorem need_valueless {i : Nat} {k : Value → Plan Value} {operands : List Action} {action : Action}
    (hi : operands[i]? = some action) {s : Codegen} (h : (action s).1 = none) :
    ((Plan.need i k).emit operands s).1 = none := by
  rw [need_emit hi]
  rcases hr : action s with ⟨_ | value, t⟩
  · rfl
  · simp [hr] at h

theorem valueless_emit (node : Node) (h : valueless node = true) (s : Codegen) : (emit library node s).1 = none := by
  cases node with
  | grouping child =>
    have ih := valueless_emit child h s
    rw [emit]
    exact ih
  | unary opcode child =>
    have ih := valueless_emit child h s
    rw [emit]
    exact need_valueless rfl ih
  | cast targetType expression =>
    have ih := valueless_emit expression h s
    rw [emit]
    exact need_valueless rfl ih
  | ternary condition thenPath elsePath =>
    simp only [valueless, Bool.or_eq_true] at h
    rw [emit]
    split
    · rfl
    · unfold emitTernary
      rcases hc : emit library condition s with ⟨_ | value, s₁⟩
      · rfl
      · dsimp only
        split
        · rcases ht : emit library thenPath s₁ with ⟨_ | thenValue, s₂⟩
          · rfl
          · rcases he : emit library elsePath s₂ with ⟨_ | elseValue, s₃⟩
            · rfl
            · rcases h with (h | h) | h
              · simpa [hc] using valueless_emit condition h s
              · simpa [ht] using valueless_emit thenPath h s₁
              · simpa [he] using valueless_emit elsePath h s₂
        · rfl
  | binary opcode left right =>
    simp only [valueless, Bool.and_eq_true, Bool.not_eq_true', Bool.or_eq_true] at h
    obtain ⟨⟨hlib, hassign⟩, h⟩ := h
    rw [emit]
    show ((binaryPlan Value.values library opcode left right).emit _ s).1 = none
    unfold binaryPlan
    rw [hlib, hassign, if_neg Bool.false_ne_true, if_neg Bool.false_ne_true, need_emit rfl]
    rcases hl : emit library left s with ⟨_ | lhs, t⟩
    · rfl
    · dsimp only
      rw [need_emit rfl]
      rcases hr : emit library right t with ⟨_ | rhs, u⟩
      · rfl
      · rcases h with h | h
        · simpa [hl] using valueless_emit left h s
        · simpa [hr] using valueless_emit right h t
  | block nodes =>
    rw [emit, emitBlock]
    split <;> rfl
  | varDecl identifier typeLiteral expression line =>
    rw [emit]
    exact varDecl_value identifier typeLiteral expression _ s
  | pathIf condition thenPath elsePath typeWord isExpression => rw [emit]; rfl
  | pathWhile condition thenPath => rw [emit]; rfl
  | pathFor preClause condition postClause thenPath => rw [emit]; rfl
  | pathBreak => rfl
  | pathContinue => rfl
  | _ => cases h

theorem emitAll_get (pre : List Node) (node : Node) (nodes : List Node) :
    (emitAll library (pre ++ node :: nodes))[pre.length]? = some (emit library node) := by
  induction pre with
  | nil => rfl
  | cons first pre ih => simpa [emitAll] using ih

theorem shortCircuitAll_get (truth : Value → Bool) (pre : List Node) (node : Node) (nodes : List Node) :
    (shortCircuitAll library truth (pre ++ node :: nodes))[pre.length]? = some (shortCircuit library truth node) := by
  induction pre with
  | nil => rfl
  | cons first pre ih => simpa [shortCircuitAll] using ih

/-- The elements of a literal behind the first. -/
theorem elementsPlan_emit (type : LlvmType) (acc : List Value) (pre nodes : List Node) (s : Codegen) :
    let plan := elementsPlan constArray type acc pre.length nodes.length
    let operands := emitAll library (pre ++ nodes)
    let parts := shortCircuitAll library (fun _ => true) (pre ++ nodes)
    ((plan.emit operands s).1.isSome = true ↔ ∀ part ∈ (evaluateEach library nodes s).1, part.value.isSome = true) ∧
      ((plan.emit operands s).1.isSome = true → (plan.emit operands s).2 = (evaluateEach library nodes s).2 ∧
        (plan.evaluation operands parts s).map Prod.snd = (evaluateEach library nodes s).1.flatMap Part.code) := by
  induction nodes generalizing acc pre s with
  | nil => simp [elementsPlan, Plan.emit, Plan.evaluation, evaluateEach]
  | cons node nodes ih =>
    have hop := @emitAll_get library pre node nodes
    have hpart := @shortCircuitAll_get library (fun _ => true) pre node nodes
    have hpre : pre ++ node :: nodes = (pre ++ [node]) ++ nodes := by simp
    have hlen : (pre ++ [node]).length = pre.length + 1 := by simp
    dsimp only [List.length_cons, elementsPlan]
    rw [need_emit hop, need_evaluation hop hpart, evaluateEach]
    rcases hr : emit library node s with ⟨_ | value, t⟩
    · simp
    · dsimp only
      have hrest := ih (acc ++ [value]) (pre ++ [node]) t
      rw [hlen, ← hpre] at hrest
      simpa [evaluated] using hrest

/-- The literal has a value when it has elements and they all have one; then each of them was
    evaluated. -/
theorem literal_emit (d : ArrayDeclaration)
    (hlit : library.node d.literal = compoundPlan Value.values constArray d.literalType d.elements.length) (s : Codegen) :
    ((emit library d.literal s).1.isSome = true ↔
        d.elements ≠ [] ∧ ∀ part ∈ (evaluateEach library d.elements s).1, part.value.isSome = true) ∧
      ((emit library d.literal s).1.isSome = true → (emit library d.literal s).2 = (evaluateEach library d.elements s).2 ∧
        evaluated library d.literal s = (evaluateEach library d.elements s).1.flatMap Part.code) := by
  have hemit : emit library d.literal s =
      (compoundPlan Value.values constArray d.literalType d.elements.length).emit (emitAll library d.elements) s := by
    rw [← hlit, ArrayDeclaration.literal, emit]
    rfl
  have heval : evaluated library d.literal s =
      ((compoundPlan Value.values constArray d.literalType d.elements.length).evaluation (emitAll library d.elements)
        (shortCircuitAll library (fun _ => true) d.elements) s).map Prod.snd := by
    rw [← hlit, evaluated, ArrayDeclaration.literal, shortCircuit]
    rfl
  rw [hemit, heval]
  cases d.elements with
  | nil => simp [compoundPlan, Plan.emit]
  | cons node nodes =>
    dsimp only [List.length_cons, compoundPlan]
    rw [if_pos d.isArray, need_emit rfl, need_evaluation rfl rfl, evaluateEach]
    rcases hr : emit library node s with ⟨_ | value, t⟩
    · simp
    · have hrest := @elementsPlan_emit library constArray (Value.values.typeOf value) [value] [node] nodes t
      simpa [evaluated] using hrest

/-! ## What is emitted to insert the elements -/

theorem insertElements_emit (literal : Node) (array : Value) (next : Plan Value) (pre nodes : List Node) (s : Codegen) :
    let plan := insertElements array pre.length nodes.length next
    let operands := emit library literal :: emitAll library (pre ++ nodes)
    let parts := shortCircuit library (fun _ => true) literal :: shortCircuitAll library (fun _ => true) (pre ++ nodes)
    plan.emit operands s = next.emit operands (insertEach library array nodes s).2 ∧
      (plan.evaluation operands parts s).map Prod.snd = (insertEach library array nodes s).1.flatMap Part.code ++
        (next.evaluation operands parts (insertEach library array nodes s).2).map Prod.snd := by
  induction nodes generalizing pre s with
  | nil => simp [insertElements, insertEach]
  | cons node nodes ih =>
    have hop := @emitAll_get library pre node nodes
    have hpart := @shortCircuitAll_get library (fun _ => true) pre node nodes
    have hpre : pre ++ node :: nodes = (pre ++ [node]) ++ nodes := by simp
    have hlen : (pre ++ [node]).length = pre.length + 1 := by simp
    have hname : "xvr_array_insert_int".toList = insertName := rfl
    dsimp only [List.length_cons, insertElements]
    simp only [hname]
    rw [Plan.emit, Plan.evaluation, Nat.add_comm 1 pre.length, List.getElem?_cons_succ, List.getElem?_cons_succ, hop, hpart]
    dsimp only [Option.getD_some]
    rw [insertEach]
    rcases hr : emit library node s with ⟨_ | value, t⟩
    · have hrest := ih (pre ++ [node]) t
      rw [hlen, ← hpre] at hrest
      simpa [evaluated] using hrest
    · have hrest := ih (pre ++ [node]) (t.build (.call insertName [array, value] .void)).2
      rw [hlen, ← hpre] at hrest
      simpa [evaluated, Plan.emit, Plan.evaluation] using hrest

/-! ## What is emitted for the declaration -/

/-- Behind the literal's own evaluation; without a value of the literal the type decides. -/
def declarationCode (library : Library Value) (d : ArrayDeclaration) (s : Codegen) : List Built :=
  let first := (emit library d.literal s).2
  if (emit library d.literal s).1.isSome then (initialization library d.elements first).2
  else if declaredType d.typeLiteral = .array then (initialization library [] first).2
  else [⟨first.nextId, .alloca (.integer 32)⟩]

/-- The plan that creates the array, inserts the elements and declares the variable. -/
def fillPlan (d : ArrayDeclaration) (count : Nat) : Plan Value :=
  .build (.call createName [] .pointer) fun array =>
    insertElements array 0 count (declareVariable Value.values d.name .array count (some array))

theorem varDeclPlan_array (d : ArrayDeclaration) :
    varDeclPlan Value.values (.identifier d.name) d.typeLiteral d.literal = .operand 0 fun init =>
      if init.isSome then fillPlan d d.elements.length
      else if declaredType d.typeLiteral = .array then fillPlan d 0
      else declareVariable Value.values d.name (declaredType d.typeLiteral) 0 none := by
  have hcount : arrayLiteralCount d.literal = some d.elements.length := if_pos d.isArray
  rw [varDeclPlan, hcount]
  congr 1
  funext init
  cases init with
  | some value => rfl
  | none =>
    by_cases htype : declaredType d.typeLiteral = .array
    · simp only [Option.isSome_none, Bool.false_eq_true, if_false, htype, if_true]
      rfl
    · simp [htype]

theorem fillPlan_evaluation (d : ArrayDeclaration) (literal : Node) (nodes : List Node) (s : Codegen) :
    ((fillPlan d nodes.length).evaluation (emit library literal :: emitAll library nodes)
      (shortCircuit library (fun _ => true) literal :: shortCircuitAll library (fun _ => true) nodes) s).map Prod.snd =
        (initialization library nodes s).2 := by
  have hinsert := (@insertElements_emit library literal (.result s.nextId .pointer)
    (declareVariable Value.values d.name .array nodes.length (some (.result s.nextId .pointer))) [] nodes
    (s.build (.call createName [] .pointer)).2).2
  rw [fillPlan, Plan.evaluation, List.map_cons, initialization]
  dsimp only
  rw [List.cons_append]
  congr 1

/-- What the declaration performs. -/
theorem declaration_evaluation (d : ArrayDeclaration) (s : Codegen) :
    ((nodePlan Value.values library d.node).evaluation (emit library d.literal :: emitAll library d.elements)
        (shortCircuit library (fun _ => true) d.literal :: shortCircuitAll library (fun _ => true) d.elements) s).map Prod.snd =
      evaluated library d.literal s ++ declarationCode library d s := by
  show ((varDeclPlan Value.values (.identifier d.name) d.typeLiteral d.literal).evaluation _ _ s).map Prod.snd = _
  rw [varDeclPlan_array, Plan.evaluation, List.map_append, evaluated, declarationCode]
  dsimp only [List.getElem?_cons_zero, Option.getD_some]
  congr 1
  split
  · exact fillPlan_evaluation d d.literal d.elements _
  · split
    · rfl
    · rename_i htype
      simp [declareVariable, htype, Plan.evaluation]

theorem areExpressions_iff (nodes : List Node) : areExpressions nodes = true ↔ ∀ node ∈ nodes, isExpression node = true := by
  induction nodes with
  | nil => simp [areExpressions]
  | cons node nodes ih => simp [areExpressions, ih]

theorem declaration_performs (d : ArrayDeclaration) (h : areExpressions d.elements = true) {s : Codegen} (hs : s.Standing) :
    Performs s (emit library d.node s).2 (evaluated library d.literal s ++ declarationCode library d s) := by
  have hc := lists_compositional library fun _ => true
  have hoperands := List.Forall₂.cons (hc.expression d.literal h) (hc.expressions d.elements h)
  have hplan := plan_lists hoperands (nodePlan Value.values library d.node) s hs
  rw [declaration_evaluation] at hplan
  rw [ArrayDeclaration.node, emit, ArrayDeclaration.literal, arguments]
  exact hplan

/-- With the run known, `InitializedOnce` is about what was performed. -/
theorem initializedOnce_iff (d : ArrayDeclaration) (h : areExpressions d.elements = true) {s : Codegen} (hs : s.Standing) :
    InitializedOnce library d s ↔
      ∃ values : List Value,
        (initialization library d.elements (emit library d.literal s).2).1.map Part.value = values.map some ∧
        effects (evaluated library d.literal s ++ declarationCode library d s) =
          effects (initialization library d.elements (emit library d.literal s).2).2 ∧
        (contents (.result (emit library d.literal s).2.nextId .pointer)
          (evaluated library d.literal s ++ declarationCode library d s)).data = values := by
  have hruns := (@declaration_performs library d h s hs).leads
  constructor
  · intro ⟨values, hvalues, hall⟩
    obtain ⟨history, hleads⟩ := (hruns fun _ _ => true).1
    obtain ⟨heffects, hcontents⟩ := (hall _).2 history hleads
    rw [(hruns _).2 history hleads] at heffects hcontents
    exact ⟨values, hvalues, heffects, hcontents⟩
  · intro ⟨values, hvalues, heffects, hcontents⟩
    refine ⟨values, hvalues, fun o => ⟨(hruns o).1, ?_⟩⟩
    intro history hleads
    rw [(hruns o).2 history hleads]
    exact ⟨heffects, hcontents⟩

/-! ## What is inserted -/

theorem insertedValue_effect {array v : Value} {i : Built} (h : insertedValue array i = some v) : i.op.hasEffect = true := by
  unfold insertedValue at h
  split at h
  · rename_i heq
    rw [heq]
    rfl
  · cases h

theorem insertedValue_operand {array v : Value} {i : Built} (h : insertedValue array i = some v) :
    array ∈ i.op.operands := by
  unfold insertedValue at h
  split at h
  · rename_i heq
    split at h
    · rename_i hsame
      rw [heq, ← hsame.2.1]
      exact List.mem_cons_self ..
    · cases h
  · cases h

/-- What an expression performs inserts nothing into an array that is not named. -/
theorem evaluated_inserted {number : Nat} (hl : library.Avoids number) {node : Node} (h : isExpression node = true)
    {s : Codegen} (hs : Unnamed number s) (hlt : number < s.nextId) :
    (evaluated library node s).filterMap (insertedValue (.result number .pointer)) = [] := by
  rw [List.filterMap_eq_nil_iff]
  intro i hmem
  obtain ⟨part, hpart, rfl⟩ := List.mem_map.mp hmem
  have hspares := (expression_spares library (fun _ => true) hl node h s hs (.inl hlt)).2.2 part hpart
  by_contra hne
  obtain ⟨v, hv⟩ := Option.ne_none_iff_exists'.mp hne
  exact hspares _ (insertedValue_operand hv) _ rfl

/-- The integers among the values that there are, in their order. -/
theorem insertEach_inserted {number : Nat} (hl : library.Avoids number) {nodes : List Node}
    (h : ∀ node ∈ nodes, isExpression node = true) {s : Codegen} (hs : Unnamed number s) (hlt : number < s.nextId) :
    ((insertEach library (.result number .pointer) nodes s).1.flatMap Part.code).filterMap
        (insertedValue (.result number .pointer)) =
      ((insertEach library (.result number .pointer) nodes s).1.filterMap Part.value).filter isInt := by
  induction nodes generalizing s with
  | nil => rfl
  | cons node nodes ih =>
    have hnode := h node (List.mem_cons_self ..)
    have hmore := fun node hmem => h node (List.mem_cons_of_mem _ hmem)
    have hnone := evaluated_inserted hl hnode hs hlt
    have hs₁ := (expression_spares library (fun _ => true) hl node hnode s hs (.inl hlt)).1
    have hlt₁ := hlt.trans_le (expression_numbered library (fun _ => true) node hnode s).1
    rw [insertEach]
    rcases hr : emit library node s with ⟨_ | value, t⟩
    · rw [hr] at hs₁ hlt₁
      simpa [hnone] using ih hmore hs₁ hlt₁
    · rw [hr] at hs₁ hlt₁
      have hrest := ih hmore (hs₁.build (.call insertName [.result number .pointer, value] .void)) (hlt₁.trans (Nat.lt_succ_self _))
      cases hint : isInt value with
      | true => simpa [hnone, insertedValue, hint] using hrest
      | false => simpa [hnone, insertedValue, hint] using hrest

theorem filterMap_values {parts : List Part} {values : List Value} (h : parts.map Part.value = values.map some) :
    parts.filterMap Part.value = values := by
  have hsame := congrArg (List.filterMap id) h
  simpa [List.filterMap_map] using hsame

theorem effects_append (a b : List Built) : effects (a ++ b) = effects a ++ effects b := List.filter_append ..

theorem effects_initialization (nodes : List Node) (s : Codegen) :
    effects (initialization library nodes s).2 =
      ⟨s.nextId, .call createName [] .pointer⟩ ::
        (effects ((initialization library nodes s).1.flatMap Part.code) ++
          effects [⟨(insertEach library (.result s.nextId .pointer) nodes (s.build (.call createName [] .pointer)).2).2.nextId + 1,
            .store (.result s.nextId .pointer) (.alloca
              (insertEach library (.result s.nextId .pointer) nodes (s.build (.call createName [] .pointer)).2).2.nextId
              .pointer)⟩]) := by
  simp [initialization, effects, Op.hasEffect]

/-- After the initialization alone the array holds the values that are integers. -/
theorem initialization_contents {number : Nat} (hl : library.Avoids number) {nodes : List Node}
    (h : ∀ node ∈ nodes, isExpression node = true) {s : Codegen} (hs : Unnamed number s) (hnumber : number = s.nextId)
    {values : List Value} (hvalues : (initialization library nodes s).1.map Part.value = values.map some) {front : List Built}
    (hfront : effects front = []) :
    (contents (.result number .pointer) (front ++ (initialization library nodes s).2)).data = values.filter isInt := by
  subst hnumber
  have hnone : front.filterMap (insertedValue (.result s.nextId .pointer)) = [] := by
    rw [List.filterMap_eq_nil_iff]
    intro i hmem
    by_contra hne
    obtain ⟨v, hv⟩ := Option.ne_none_iff_exists'.mp hne
    have hi := List.filter_eq_nil_iff.mp hfront i hmem
    exact hi (insertedValue_effect hv)
  have hlt : s.nextId < (s.build (.call createName [] .pointer)).2.nextId := by
    rw [build_nextId]
    exact Nat.lt_succ_self _
  have hins := insertEach_inserted hl h (hs.build (.call createName [] .pointer)) hlt
  rw [contents, ArrayInt.foldl_insert_data, ArrayInt.create_data, List.nil_append, List.filterMap_append, hnone,
    List.nil_append]
  rw [initialization]
  dsimp only
  rw [List.cons_append, List.filterMap_cons_none rfl, List.filterMap_append, hins, List.filterMap_cons_none rfl,
    List.filterMap_cons_none rfl, List.filterMap_nil, List.append_nil]
  exact congrArg (List.filter isInt) (filterMap_values hvalues)

/-! ## Elements without a value -/

theorem evaluateEach_valueless {nodes : List Node} {node : Node} (hmem : node ∈ nodes) (h : valueless node = true)
    (s : Codegen) : ∃ part ∈ (evaluateEach library nodes s).1, part.value = none := by
  induction nodes generalizing s with
  | nil => cases hmem
  | cons first nodes ih =>
    rw [evaluateEach]
    rcases List.mem_cons.mp hmem with rfl | hmem
    · exact ⟨_, List.mem_cons_self .., valueless_emit node h s⟩
    · obtain ⟨part, hpart, hnone⟩ := ih hmem (emit library first s).2
      exact ⟨part, List.mem_cons_of_mem _ hpart, hnone⟩

theorem insertEach_valueless {nodes : List Node} {node : Node} (hmem : node ∈ nodes) (h : valueless node = true)
    (array : Value) (s : Codegen) : ∃ part ∈ (insertEach library array nodes s).1, part.value = none := by
  induction nodes generalizing s with
  | nil => cases hmem
  | cons first nodes ih =>
    rw [insertEach]
    rcases hr : emit library first s with ⟨_ | value, t⟩
    · rcases List.mem_cons.mp hmem with rfl | hmem
      · exact ⟨_, List.mem_cons_self .., rfl⟩
      · obtain ⟨part, hpart, hnone⟩ := ih hmem t
        exact ⟨part, List.mem_cons_of_mem _ hpart, hnone⟩
    · rcases List.mem_cons.mp hmem with rfl | hmem
      · have hnone := @valueless_emit library node h s
        rw [hr] at hnone
        cases hnone
      · obtain ⟨part, hpart, hnone⟩ := ih hmem (t.build (.call insertName [array, value] .void)).2
        exact ⟨part, List.mem_cons_of_mem _ hpart, hnone⟩

theorem values_isSome {parts : List Part} :
    (∀ part ∈ parts, part.value.isSome = true) ↔ ∃ values : List Value, parts.map Part.value = values.map some := by
  constructor
  · intro h
    refine ⟨parts.filterMap Part.value, ?_⟩
    induction parts with
    | nil => rfl
    | cons part parts ih =>
      obtain ⟨value, hvalue⟩ := Option.isSome_iff_exists.mp (h part (List.mem_cons_self ..))
      have hrest := ih fun part hmem => h part (List.mem_cons_of_mem _ hmem)
      rw [List.filterMap_cons_some hvalue, List.map_cons, List.map_cons, hvalue, hrest]
  · intro ⟨values, hvalues⟩ part hmem
    have hin := List.mem_map_of_mem hmem (f := Part.value)
    rw [hvalues] at hin
    obtain ⟨value, -, heq⟩ := List.mem_map.mp hin
    rw [← heq]
    rfl

/-- Integers are values. -/
theorem isSome_of_ints {parts : List Part} (h : ∀ part ∈ parts, part.value.any isInt = true) :
    ∀ part ∈ parts, part.value.isSome = true := by
  intro part hmem
  cases hvalue : part.value with
  | some value => rfl
  | none => simpa [hvalue] using h part hmem

theorem ints_iff {parts : List Part} {values : List Value} (h : parts.map Part.value = values.map some) :
    (∀ part ∈ parts, part.value.any isInt = true) ↔ values.filter isInt = values := by
  have hparts : (∀ part ∈ parts, part.value.any isInt = true) ↔
      ∀ found ∈ parts.map Part.value, found.any isInt = true := by simp
  rw [hparts, h, List.forall_mem_map, List.filter_eq_self]
  exact Iff.rfl

end

/-- The table knows no result of an instruction still to be built. -/
def Codegen.Known (s : Codegen) : Prop :=
  s.fnEmitter.Holds fun v => ∀ value ∈ v.value, ∀ id type, value = .result id type → id < s.nextId

theorem Codegen.Known.unnamed {s : Codegen} (h : s.Known) {number : Nat} (hle : s.nextId ≤ number) : Unnamed number s := by
  intro v hv value hvalue type heq
  have hlt := h v hv value hvalue number type heq
  omega

/-! ## The declaration -/

section

variable {library} {constArray : LlvmType → List Value → Value}

theorem effects_eq_nil {code : List Built} : effects code = [] ↔ ∀ i ∈ code, i.op.hasEffect = false := by
  simp [effects, List.filter_eq_nil_iff]

/-- Without a value of the literal no element is inserted. -/
theorem declarationCode_without_value (d : ArrayDeclaration) {s : Codegen}
    (hvalue : (emit library d.literal s).1.isSome = false) :
    (effects (declarationCode library d s)).length ≤ 2 ∧
      (declaredType d.typeLiteral ≠ .array → effects (declarationCode library d s) = []) := by
  unfold declarationCode
  rw [hvalue]
  by_cases htype : declaredType d.typeLiteral = .array
  · rw [if_neg Bool.false_ne_true, if_pos htype, effects_initialization]
    exact ⟨Nat.le_refl 2, fun hne => absurd htype hne⟩
  · rw [if_neg Bool.false_ne_true, if_neg htype]
    exact ⟨Nat.zero_le 2, fun _ => rfl⟩

/-- Elements with values are inserted, beside the creation and the store. -/
theorem initialization_length {nodes : List Node} (hne : nodes ≠ []) {s : Codegen}
    (h : ∀ part ∈ (initialization library nodes s).1, part.value.isSome = true) :
    2 < (effects (initialization library nodes s).2).length := by
  cases nodes with
  | nil => exact absurd rfl hne
  | cons node nodes =>
    rcases hr : emit library node (s.build (.call createName [] .pointer)).2 with ⟨_ | value, t⟩
    · have hfirst := h ⟨evaluated library node (s.build (.call createName [] .pointer)).2, none⟩
        (by simp [initialization, insertEach, hr])
      cases hfirst
    · simp [initialization, insertEach, hr, effects, Op.hasEffect]
      omega

/-- The first emission of an empty literal performs nothing. -/
theorem evaluated_nil (d : ArrayDeclaration)
    (hlit : library.node d.literal = compoundPlan Value.values constArray d.literalType d.elements.length)
    (hnil : d.elements = []) (s : Codegen) : evaluated library d.literal s = [] := by
  rw [evaluated, ArrayDeclaration.literal, shortCircuit]
  show ((library.node d.literal).evaluation _ _ s).map Prod.snd = []
  rw [hlit, hnil]
  rfl

/-- What shows the creation first shows nothing of the literal, which was emitted before it. -/
theorem effects_evaluated_nil (d : ArrayDeclaration) (h : areExpressions d.elements = true) {s : Codegen} {behind : List Built}
    (heffects : effects (evaluated library d.literal s) ++ behind =
      effects (initialization library d.elements (emit library d.literal s).2).2) :
    effects (evaluated library d.literal s) = [] := by
  cases hstart : effects (evaluated library d.literal s) with
  | nil => rfl
  | cons i more =>
    rw [hstart, effects_initialization, List.cons_append] at heffects
    have hi : i ∈ evaluated library d.literal s := List.mem_of_mem_filter (hstart ▸ List.mem_cons_self ..)
    obtain ⟨part, hpart, heq⟩ := List.mem_map.mp hi
    have hlt := (expression_numbered library (fun _ => true) d.literal h s).2 part hpart
    rw [heq, (List.cons.inj heffects).1] at hlt
    exact absurd hlt (Nat.lt_irrefl _)

/-- What the array holds behind a literal that shows nothing. -/
theorem declared_contents (hl : ∀ number, library.Avoids number) (d : ArrayDeclaration)
    (h : areExpressions d.elements = true) {s : Codegen} (hknown : s.Known) {values : List Value}
    (hvalues : (initialization library d.elements (emit library d.literal s).2).1.map Part.value = values.map some)
    (hquiet : effects (evaluated library d.literal s) = []) :
    (contents (.result (emit library d.literal s).2.nextId .pointer)
      (evaluated library d.literal s ++ (initialization library d.elements (emit library d.literal s).2).2)).data =
        values.filter isInt := by
  have hle := (expression_numbered library (fun _ => true) d.literal h s).1
  have hnamed := (expression_spares library (fun _ => true) (hl _) d.literal h s (hknown.unnamed hle)
    (.inr (Nat.le_refl _))).1
  exact initialization_contents (hl _) ((areExpressions_iff _).mp h) hnamed rfl hvalues hquiet

theorem once_of_quiet (hl : ∀ number, library.Avoids number) (d : ArrayDeclaration)
    (h : areExpressions d.elements = true) {s : Codegen} (hs : s.Standing) (hknown : s.Known)
    (hdeclared : declarationCode library d s = (initialization library d.elements (emit library d.literal s).2).2)
    (hquiet : effects (evaluated library d.literal s) = [])
    (hints : ∀ part ∈ (initialization library d.elements (emit library d.literal s).2).1, part.value.any isInt = true) :
    InitializedOnce library d s := by
  obtain ⟨values, hvalues⟩ := values_isSome.mp (isSome_of_ints hints)
  rw [initializedOnce_iff d h hs, hdeclared]
  refine ⟨values, hvalues, ?_, ?_⟩
  · rw [effects_append, hquiet, List.nil_append]
  · rw [declared_contents hl d h hknown hvalues hquiet]
    exact (ints_iff hvalues).mp hints

/-- There are no elements and the variable is an array, or all elements have values, integers
    where they are inserted, and the first evaluation of them stores and calls nothing. -/
def EvaluatesQuietly (library : Library Value) (d : ArrayDeclaration) (s : Codegen) : Prop :=
  (d.elements = [] ∧ declaredType d.typeLiteral = .array) ∨
    (d.elements ≠ [] ∧
      (∀ part ∈ (evaluateEach library d.elements s).1, part.value.isSome = true ∧ ∀ i ∈ part.code, i.op.hasEffect = false) ∧
      ∀ part ∈ (initialization library d.elements (emit library d.literal s).2).1, part.value.any isInt = true)

section Expressions

variable (d : ArrayDeclaration)
  (hlit : library.node d.literal = compoundPlan Value.values constArray d.literalType d.elements.length)
  (h : areExpressions d.elements = true) {s : Codegen} (hs : s.Standing)

include hlit h hs

theorem quiet_of_once (hl : ∀ number, library.Avoids number) (hknown : s.Known)
    (honce : InitializedOnce library d s) : EvaluatesQuietly library d s := by
  obtain ⟨hsome, hcode⟩ := literal_emit d hlit s
  obtain ⟨values, hvalues, heffects, hcontents⟩ := (initializedOnce_iff d h hs).mp honce
  have hparts := values_isSome.mpr ⟨values, hvalues⟩
  rw [effects_append] at heffects
  cases hinit : (emit library d.literal s).1.isSome with
  | true =>
    have hdeclared : declarationCode library d s = (initialization library d.elements (emit library d.literal s).2).2 := by
      rw [declarationCode, hinit, if_pos rfl]
    rw [hdeclared] at heffects hcontents
    have hquiet : effects (evaluated library d.literal s) = [] := by
      have hlen := congrArg List.length heffects
      rw [List.length_append] at hlen
      exact List.eq_nil_of_length_eq_zero (by omega)
    rw [declared_contents hl d h hknown hvalues hquiet] at hcontents
    obtain ⟨hne, hall⟩ := hsome.mp hinit
    rw [(hcode hinit).2, effects_eq_nil] at hquiet
    refine .inr ⟨hne, ?_, (ints_iff hvalues).mpr hcontents⟩
    intro part hmem
    exact ⟨hall part hmem, fun i hi => hquiet i (List.mem_flatMap.mpr ⟨part, hmem, hi⟩)⟩
  | false =>
    obtain ⟨hlen, hnone⟩ := declarationCode_without_value d hinit
    have hstart := effects_evaluated_nil d h heffects
    rw [hstart, List.nil_append] at heffects
    by_cases hnil : d.elements = []
    · by_cases htype : declaredType d.typeLiteral = .array
      · exact .inl ⟨hnil, htype⟩
      · rw [hnone htype, effects_initialization] at heffects
        cases heffects
    · have hmore := initialization_length hnil hparts
      rw [← heffects] at hmore
      omega

theorem once_of_evaluates (hl : ∀ number, library.Avoids number) (hknown : s.Known)
    (hquiet : EvaluatesQuietly library d s) : InitializedOnce library d s := by
  obtain ⟨hsome, hcode⟩ := literal_emit d hlit s
  rcases hquiet with ⟨hnil, htype⟩ | ⟨hne, hquiet, hints⟩
  · have hinit : (emit library d.literal s).1.isSome = false := by
      cases hv : (emit library d.literal s).1.isSome with
      | true => exact absurd hnil (hsome.mp hv).1
      | false => rfl
    refine once_of_quiet hl d h hs hknown ?_ ?_ ?_
    · rw [declarationCode, hinit, if_neg Bool.false_ne_true, if_pos htype, hnil]
    · rw [evaluated_nil d hlit hnil s]
      rfl
    · rw [hnil]
      exact List.forall_mem_nil _
  · have hinit : (emit library d.literal s).1.isSome = true := hsome.mpr ⟨hne, fun part hmem => (hquiet part hmem).1⟩
    refine once_of_quiet hl d h hs hknown ?_ ?_ hints
    · rw [declarationCode, hinit, if_pos rfl]
    · rw [(hcode hinit).2, effects_eq_nil]
      intro i hmem
      obtain ⟨part, hpart, hi⟩ := List.mem_flatMap.mp hmem
      exact (hquiet part hpart).2 i hi

end Expressions

/-- Elements that are no expressions have no values, neither the first time nor the second. -/
theorem valueless_parts (d : ArrayDeclaration) (h : areExpressions d.elements ≠ true) (s : Codegen) :
    (∃ part ∈ (evaluateEach library d.elements s).1, part.value = none) ∧
      ∃ part ∈ (initialization library d.elements (emit library d.literal s).2).1, part.value = none := by
  obtain ⟨node, hmem, hnode⟩ : ∃ node ∈ d.elements, isExpression node ≠ true := by
    rw [Ne, areExpressions_iff] at h
    simpa using h
  have hless : valueless node = true := by
    have hor := d.areElements node hmem
    rw [eq_false_of_ne_true hnode, Bool.false_or] at hor
    exact hor
  exact ⟨evaluateEach_valueless hmem hless s, insertEach_valueless hmem hless _ _⟩

end

variable (constArray : LlvmType → List Value → Value) (rest : Library Value)

theorem compoundPlan_avoids {number : Nat} (hconst : ∀ type elements, OtherThan number (constArray type elements))
    (literalType : LiteralType) (count : Nat) : (compoundPlan Value.values constArray literalType count).Avoids number := by
  have helements (type : LlvmType) (elements : List Value) (i n : Nat) :
      (elementsPlan constArray type elements i n).Avoids number := by
    induction n generalizing elements i with
    | zero => exact some_avoids (hconst type elements)
    | succ n ih => exact need_avoids fun element _ => ih _ _
  unfold compoundPlan
  split
  · exact none_avoids
  · split
    · exact need_avoids fun first _ => helements _ _ _ _
    · exact none_avoids

theorem lenPlan_avoids {number : Nat} (name : List Char) {other : Plan Value} (h : other.Avoids number) :
    (lenPlan Value.values name other).Avoids number := by
  intro found hfound
  dsimp only
  split
  · rename_i pointer count
    have hpointer := hfound _ rfl pointer rfl
    split
    · exact some_avoids (otherThan_constant _ _)
    · split
      · exact some_avoids (otherThan_constant _ _)
      · exact ⟨one_otherThan hpointer, fun array harray => build_avoids (one_otherThan harray)⟩
  · exact h

theorem insertPlan_avoids {number : Nat} (hrest : rest.Avoids number) (name : List Char) (hasArgument : Bool) :
    (insertPlan Value.values rest name hasArgument).Avoids number := by
  have hsides : (Plan.need 0 fun lhs => .need 1 fun rhs => binaryOp Value.values rest .dot lhs rhs).Avoids number :=
    need_avoids fun lhs ha => need_avoids fun rhs hb => binaryOp_avoids hrest .dot ha hb
  intro found hfound
  dsimp only
  split
  · exact none_avoids
  · rename_i pointer heq
    obtain ⟨entry, rfl, hvalue⟩ := Option.bind_eq_some_iff.mp heq
    have hpointer := hfound _ rfl pointer hvalue
    split
    · intro argument hargument
      dsimp only
      split
      · exact hsides
      · rename_i value
        have hvalue := hargument value rfl
        exact ⟨one_otherThan hpointer, fun array harray => ⟨pair_otherThan harray hvalue, fun _ _ => some_avoids hvalue⟩⟩
    · exact hsides

theorem arrayLibrary_avoids {number : Nat} (hrest : rest.Avoids number)
    (hconst : ∀ type elements, OtherThan number (constArray type elements)) :
    (arrayLibrary Value.values constArray rest).Avoids number where
  node node := by
    show (arrayNode Value.values constArray rest node).Avoids number
    unfold arrayNode
    split
    · exact compoundPlan_avoids constArray hconst _ _
    · split
      · dsimp only
        split
        · exact lenPlan_avoids _ (hrest.node _)
        · exact hrest.node _
      · exact hrest.node _
    · split
      · dsimp only
        split
        · exact insertPlan_avoids rest hrest _ _
        · exact hrest.node _
      · exact hrest.node _
    · exact hrest.node _
  cast := hrest.cast
  stringConcat := hrest.stringConcat
  print := hrest.print

/-- The declaration initializes the array once exactly when all elements have values, `i32` where
    they are inserted, and the first evaluation of them stores and calls nothing, or there are none
    and the type of the variable is array. -/
theorem initialized_once_iff (hrest : ∀ number, rest.Avoids number)
    (hconst : ∀ number type elements, OtherThan number (constArray type elements)) (d : ArrayDeclaration) (s : Codegen)
    (hs : s.Standing) (hknown : s.Known) :
    let library := arrayLibrary Value.values constArray rest
    InitializedOnce library d s ↔
      (d.elements = [] ∧ declaredType d.typeLiteral = .array) ∨
      (d.elements ≠ [] ∧
        (∀ part ∈ (evaluateEach library d.elements s).1,
          part.value.isSome = true ∧ ∀ i ∈ part.code, i.op.hasEffect = false) ∧
        ∀ part ∈ (initialization library d.elements (emit library d.literal s).2).1, part.value.any isInt = true) := by
  intro library
  have hl (number : Nat) : library.Avoids number := arrayLibrary_avoids constArray rest (hrest number) (hconst number)
  have hlit : library.node d.literal = compoundPlan Value.values constArray d.literalType d.elements.length := rfl
  by_cases h : areExpressions d.elements = true
  · exact ⟨quiet_of_once d hlit h hs hl hknown, once_of_evaluates d hlit h hs hl hknown⟩
  · obtain ⟨⟨part, hpart, hnone⟩, part', hpart', hnone'⟩ := @valueless_parts library d h s
    constructor
    · intro ⟨values, hvalues, _⟩
      have hsome := values_isSome.mpr ⟨values, hvalues⟩ part' hpart'
      rw [hnone'] at hsome
      cases hsome
    · intro hcond
      rcases hcond with ⟨hnil, -⟩ | ⟨-, hquiet, -⟩
      · rw [hnil] at hpart
        cases hpart
      · have hsome := (hquiet part hpart).1
        rw [hnone] at hsome
        cases hsome

/-- `LLVMConstArray`, as far as its type goes. -/
def constantArray (type : LlvmType) (elements : List Value) : Value := .constant (.array type elements.length) 0

theorem nothing_avoids (number : Nat) : (Library.nothing : Library Value).Avoids number :=
  ⟨fun _ => none_avoids, fun _ _ h => some_avoids h, fun _ _ _ _ => none_avoids, fun _ _ => none_avoids⟩

theorem atEntry_known : Codegen.atEntry.Known := by
  intro v hv value hvalue
  have hblank : v = .blank := List.eq_of_mem_replicate (show v ∈ List.replicate maxLocalVars .blank from hv)
  rw [hblank] at hvalue
  cases hvalue

/-- `var a = [1, 2];` -/
theorem initialized_once_literals :
    InitializedOnce (arrayLibrary Value.values constantArray .nothing)
      ⟨['a'], .null, .array, [.literal (.integer 1), .literal (.integer 2)], 1, .inl rfl, by decide⟩ .atEntry :=
  (initialized_once_iff constantArray .nothing nothing_avoids (fun _ _ _ => otherThan_constant _ _) _ .atEntry
    atEntry_standing atEntry_known).mpr (.inr ⟨List.cons_ne_nil _ _, by decide +kernel, by decide +kernel⟩)

/-- `var x = 0; var a = [++x, 5];` stores to `x` twice. -/
theorem increment_initialized_twice :
    let library := arrayLibrary Value.values constantArray .nothing
    let untyped := Literal.type .any false []
    let s := (emit library (.varDecl (.identifier ['x']) untyped (.literal (.integer 0)) 1) .atEntry).2
    ¬ InitializedOnce library
      ⟨['a'], untyped, .array, [.prefixIncrement (.identifier ['x']), .literal (.integer 5)], 1, .inl rfl, by decide⟩ s := by
  intro library untyped s h
  obtain ⟨values, -, heffects, -⟩ := (initializedOnce_iff _ rfl ⟨rfl, by decide +kernel⟩).mp h
  exact absurd heffects (by decide +kernel)

end Xvr.Backend
