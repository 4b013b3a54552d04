/-
  Xvr.Backend.FreshValues — the numbers of emitted instructions and the values they are about.

  Proved, of every expression:
  - `expression_numbered`: its instructions get numbers that were not given out before.
  - `expression_spares`: they are about no value but those the emitter was given or built; a
    value built before and put nowhere is not among them.
-/

import Xvr.Backend.ShortCircuit

namespace Xvr.Backend

open Xvr.Runtime Xvr.Lib
open Xvr.Frontend (Opcode Node)

/-! ## Numbers -/

/-- What is emitted is numbered from where the emitter stands. -/
def Numbered (action : Action) (evaluation : Evaluation) : Prop :=
  ∀ s, s.nextId ≤ (action s).2.nextId ∧ ∀ part ∈ evaluation s, part.2.id < (action s).2.nextId

@[simp] theorem build_nextId (s : Codegen) (op : Op Value) : (s.build op).2.nextId = s.nextId + 1 := rfl

@[simp] theorem build_value (s : Codegen) (op : Op Value) : (s.build op).1 = resultOf s.nextId op := rfl

theorem null_numbered : Numbered .null fun _ => [] := fun _ => ⟨Nat.le_refl _, fun _ h => (List.not_mem_nil h).elim⟩

theorem mem_restrict {selected : Bool} {evaluation : Evaluation} {s : Codegen} {part : Bool × Built}
    (h : part ∈ restrict selected evaluation s) : ∃ part' ∈ evaluation s, part'.2 = part.2 := by
  obtain ⟨part', hmem, rfl⟩ := List.mem_map.mp h
  exact ⟨part', hmem, rfl⟩

theorem plan_numbered {operands : List Action} {parts : List Evaluation} (h : List.Forall₂ Numbered operands parts)
    (plan : Plan Value) : Numbered (plan.emit operands) (plan.evaluation operands parts) := by
  intro s
  induction plan generalizing s with
  | done value => exact null_numbered s
  | operand index next ih =>
    obtain ⟨hle, hfirst⟩ := operand_part null_numbered h index s
    obtain ⟨hle', hrest⟩ := ih ((operands[index]?.getD .null) s).1 ((operands[index]?.getD .null) s).2
    refine ⟨hle.trans hle', ?_⟩
    intro part hmem
    rcases List.mem_append.mp hmem with hmem | hmem
    · exact (hfirst part hmem).trans_le hle'
    · exact hrest part hmem
  | build op next ih =>
    obtain ⟨hle, hrest⟩ := ih (s.build op).1 (s.build op).2
    rw [build_nextId] at hle
    refine ⟨(Nat.le_succ _).trans hle, ?_⟩
    intro part hmem
    rcases List.mem_cons.mp hmem with rfl | hmem
    · exact hle
    · exact hrest part hmem
  | lookup name next ih => exact ih _ s
  | declare name alloca varType count next ih =>
    exact ih { s with fnEmitter := s.fnEmitter.addLocalVar (some name) (some alloca) varType count }
  | getFunction name next ih => exact ih _ s
  | setError message next ih => exact ih (s.setContextError message)

/-- The arms behind the condition, whether they meet or not. -/
theorem arms_numbered {condition thenPath elsePath : Action} {ofCondition ofThen ofElse : Evaluation}
    (hc : Numbered condition ofCondition) (ht : Numbered thenPath ofThen) (he : Numbered elsePath ofElse)
    {s s₁ s₂ s₃ : Codegen} {v₁ v₂ v₃ : Option Value} (hcondition : condition s = (v₁, s₁)) (hthen : thenPath s₁ = (v₂, s₂))
    (helse : elsePath s₂ = (v₃, s₃)) (first second : Bool) : s.nextId ≤ s₃.nextId ∧
      ∀ part ∈ ofCondition s ++ (restrict first ofThen s₁ ++ restrict second ofElse s₂), part.2.id < s₃.nextId := by
  have h₁ := hc s
  have h₂ := ht s₁
  have h₃ := he s₂
  rw [hcondition] at h₁
  rw [hthen] at h₂
  rw [helse] at h₃
  refine ⟨h₁.1.trans (h₂.1.trans h₃.1), ?_⟩
  intro part hmem
  rcases List.mem_append.mp hmem with hmem | hmem
  · exact (h₁.2 part hmem).trans_le (h₂.1.trans h₃.1)
  · rcases List.mem_append.mp hmem with hmem | hmem
    · obtain ⟨part', hmem, heq⟩ := mem_restrict hmem
      rw [← heq]
      exact (h₂.2 part' hmem).trans_le h₃.1
    · obtain ⟨part', hmem, heq⟩ := mem_restrict hmem
      rw [← heq]
      exact h₃.2 part' hmem

theorem ternary_numbered {condition thenPath elsePath : Action} {ofCondition ofThen ofElse : Evaluation}
    (hc : Numbered condition ofCondition) (ht : Numbered thenPath ofThen) (he : Numbered elsePath ofElse)
    (truth : Value → Bool) : Numbered (emitTernary condition thenPath elsePath)
      (ternaryEvaluation truth condition thenPath elsePath ofCondition ofThen ofElse) := by
  intro s
  have hway := ternary_way truth condition thenPath elsePath ofCondition ofThen ofElse s
  generalize emitTernary condition thenPath elsePath s = r, ternaryEvaluation truth condition thenPath elsePath ofCondition
    ofThen ofElse s = code at hway ⊢
  cases hway with
  | refused hcondition =>
    have h₁ := hc s
    rw [hcondition] at h₁
    exact h₁
  | valueless hcondition hthen helse => exact arms_numbered hc ht he hcondition hthen helse _ _
  | @met value _ _ fn _ _ s₃ hcondition hthen helse hfn phi hphi =>
    obtain ⟨hle, hcode⟩ := arms_numbered hc ht he hcondition hthen helse (truth value) (!truth value)
    rw [build_nextId, ternaryEnd_nextId]
    refine ⟨hle.trans (Nat.le_succ _), ?_⟩
    intro part hmem
    rcases List.mem_append.mp hmem with hmem | hmem
    · exact (hcode part hmem).trans (Nat.lt_succ_self _)
    · rw [List.mem_singleton.mp hmem]
      exact Nat.lt_succ_self _

variable (library : Library Value) (truth : Value → Bool)

theorem numbered_compositional : Compositional library truth Numbered where
  null := null_numbered
  restrict h selected := by
    intro s
    refine ⟨(h s).1, ?_⟩
    intro part hmem
    obtain ⟨part', hmem, heq⟩ := mem_restrict hmem
    rw [← heq]
    exact (h s).2 part' hmem
  plan h _ _ := plan_numbered h _
  ternary hc ht he := ternary_numbered hc ht he truth
  pointwise h := by
    intro s
    obtain ⟨evaluation', hnumbered, heq⟩ := h s
    rw [← heq]
    exact hnumbered s

theorem expression_numbered (node : Node) (h : isExpression node = true) :
    Numbered (emit library node) (shortCircuit library truth node) :=
  (numbered_compositional library truth).expression node h

/-! ## Values -/

def Op.operands {V : Type} : Op V → List V
  | .alloca _ => []
  | .load _ pointer => [pointer]
  | .store value pointer => [value, pointer]
  | .binary _ lhs rhs => [lhs, rhs]
  | .call _ arguments _ => arguments
  | .convert value _ => [value]
  | .phi _ incoming => incoming.map Prod.fst

/-- Not the result of the instruction with this number. -/
def OtherThan (number : Nat) (value : Value) : Prop := ∀ type, value ≠ .result number type

/-- Given other values the plan is about other values only. -/
def Plan.Avoids (number : Nat) : Plan Value → Prop
  | .done value => ∀ v ∈ value, OtherThan number v
  | .operand _ next | .getFunction _ next => ∀ value, (∀ v ∈ value, OtherThan number v) → (next value).Avoids number
  | .build op next =>
    (∀ v ∈ op.operands, OtherThan number v) ∧ ∀ value, OtherThan number value → (next value).Avoids number
  | .lookup _ next =>
    ∀ found, (∀ entry ∈ found, ∀ v ∈ entry.value, OtherThan number v) → (next found).Avoids number
  | .declare _ alloca _ _ next => OtherThan number alloca ∧ next.Avoids number
  | .setError _ next => next.Avoids number

/-- What is not modelled is only about values it is given, and constants. -/
structure Library.Avoids (number : Nat) (library : Library Value) : Prop where
  node : ∀ node, (library.node node).Avoids number
  cast : ∀ targetType value, OtherThan number value → (library.cast targetType value).Avoids number
  stringConcat : ∀ lhs rhs, OtherThan number lhs → OtherThan number rhs → (library.stringConcat lhs rhs).Avoids number
  print : ∀ value, OtherThan number value → (library.print value).Avoids number

/-- The table does not know the result. -/
def Unnamed (number : Nat) (s : Codegen) : Prop := s.fnEmitter.Holds fun v => ∀ value ∈ v.value, OtherThan number value

/-- The instruction is not built on the way from `s` to `t`. -/
def Apart (number : Nat) (s t : Codegen) : Prop := number < s.nextId ∨ t.nextId ≤ number

section

variable {number : Nat} {library : Library Value}

theorem otherThan_constant (type : LlvmType) (bits : BitVec 64) : OtherThan number (.constant type bits) :=
  fun _ => Value.noConfusion

theorem otherThan_globalString (text : List Char) : OtherThan number (.globalString text) := fun _ => Value.noConfusion

theorem otherThan_resultOf {id : Nat} (h : number ≠ id) (op : Op Value) : OtherThan number (resultOf id op) := by
  intro type heq
  have hid : id = number := by
    cases op with
    | binary instruction lhs rhs => cases instruction <;> injection heq
    | alloca type => cases heq
    | _ => injection heq
  omega

theorem literalValue_otherThan (literal : Literal) : OtherThan number (literalValue Value.values literal) := by
  cases literal with
  | string text => exact otherThan_globalString text
  | _ => exact otherThan_constant _ _

/-! ## The plans -/

theorem none_avoids : (Plan.done none : Plan Value).Avoids number := nofun

theorem some_avoids {value : Value} (h : OtherThan number value) : (Plan.done (some value)).Avoids number := by
  intro v hv
  cases hv
  exact h

theorem need_avoids {index : Nat} {next : Value → Plan Value}
    (h : ∀ value, OtherThan number value → (next value).Avoids number) : (Plan.need index next).Avoids number := by
  intro value hvalue
  cases value with
  | none => exact none_avoids
  | some value => exact h value (hvalue value rfl)

theorem needVariable_avoids {name : List Char} {next : Value → LiteralType → Plan Value}
    (h : ∀ pointer varType, OtherThan number pointer → (next pointer varType).Avoids number) :
    (Plan.needVariable name next).Avoids number := by
  intro found hfound
  cases found with
  | none => exact none_avoids
  | some entry =>
    obtain ⟨name, value, varType, count⟩ := entry
    cases value with
    | none => exact none_avoids
    | some pointer => exact h pointer varType (hfound _ rfl pointer rfl)

/-- An instruction whose result is the value. -/
theorem build_avoids {op : Op Value} (h : ∀ v ∈ op.operands, OtherThan number v) :
    (Plan.build op fun value => .done (some value)).Avoids number :=
  ⟨h, fun _ hvalue => some_avoids hvalue⟩

theorem pair_otherThan {a b : Value} (ha : OtherThan number a) (hb : OtherThan number b) :
    ∀ v ∈ [a, b], OtherThan number v := by
  intro v hv
  rcases List.mem_cons.mp hv with rfl | hv
  · exact ha
  · rw [List.mem_singleton.mp hv]
    exact hb

theorem one_otherThan {a : Value} (ha : OtherThan number a) : ∀ v ∈ [a], OtherThan number v := by
  intro v hv
  rw [List.mem_singleton.mp hv]
  exact ha

theorem binaryOp_avoids (hl : library.Avoids number) (opcode : Opcode) {lhs rhs : Value} (ha : OtherThan number lhs)
    (hb : OtherThan number rhs) : (binaryOp Value.values library opcode lhs rhs).Avoids number := by
  unfold binaryOp
  dsimp only
  split
  · exact hl.stringConcat lhs rhs ha hb
  · split
    · exact build_avoids (pair_otherThan ha hb)
    · exact none_avoids

theorem literalPlan_avoids (literal : Literal) : (literalPlan Value.values literal).Avoids number := by
  cases literal with
  | identifier name =>
    rw [literalPlan, identifierPlan]
    refine needVariable_avoids fun pointer varType hpointer => ?_
    dsimp only
    split
    · exact some_avoids hpointer
    · exact build_avoids (one_otherThan hpointer)
  | _ => exact some_avoids (literalValue_otherThan _)

theorem unaryPlan_avoids (hl : library.Avoids number) (opcode : Opcode) :
    (unaryPlan Value.values library opcode).Avoids number := by
  refine need_avoids fun operand hoperand => ?_
  unfold unaryOp
  split
  · exact build_avoids (pair_otherThan hoperand (otherThan_constant _ _))
  · exact build_avoids (pair_otherThan (otherThan_constant _ _) hoperand)
  · exact hl.print operand hoperand
  · exact none_avoids

theorem assignPlan_avoids (opcode : Opcode) (name : List Char) : (assignPlan opcode name : Plan Value).Avoids number := by
  refine needVariable_avoids fun pointer _ hpointer => need_avoids fun rhs hrhs => ?_
  split
  · exact ⟨pair_otherThan hrhs hpointer, fun _ _ => some_avoids hrhs⟩
  · refine ⟨one_otherThan hpointer, fun current hcurrent => ⟨pair_otherThan hcurrent hrhs, fun value hvalue => ?_⟩⟩
    exact ⟨pair_otherThan hvalue hpointer, fun _ _ => some_avoids hvalue⟩

theorem binaryPlan_avoids (hl : library.Avoids number) (opcode : Opcode) (left right : Node) :
    (binaryPlan Value.values library opcode left right).Avoids number := by
  unfold binaryPlan
  split
  · exact hl.node _
  · split
    · split
      · exact assignPlan_avoids opcode _
      · exact none_avoids
    · exact need_avoids fun lhs ha => need_avoids fun rhs hb => binaryOp_avoids hl opcode ha hb

theorem incrementPlan_avoids (instruction : Instruction) (isPrefix : Bool) (identifier : Literal) :
    (incrementPlan Value.values instruction isPrefix identifier).Avoids number := by
  cases identifier with
  | identifier name =>
    rw [incrementPlan]
    refine needVariable_avoids fun pointer _ hpointer => ?_
    split
    · exact none_avoids
    · refine ⟨one_otherThan hpointer, fun oldValue hold => ⟨pair_otherThan hold (otherThan_constant _ _), fun newValue hnew => ?_⟩⟩
      refine ⟨pair_otherThan hnew hpointer, fun _ _ => some_avoids ?_⟩
      cases isPrefix with
      | true => exact hnew
      | false => exact hold
  | _ => exact none_avoids

theorem nodePlan_avoids (hl : library.Avoids number) (node : Node) (h : isExpression node = true) :
    (nodePlan Value.values library node).Avoids number := by
  cases node with
  | literal literal => exact literalPlan_avoids literal
  | unary opcode child => exact unaryPlan_avoids hl opcode
  | binary opcode left right => exact binaryPlan_avoids hl opcode left right
  | grouping child => exact fun _ hvalue => hvalue
  | cast targetType expression => exact need_avoids fun value hvalue => hl.cast targetType value hvalue
  | prefixIncrement identifier => exact incrementPlan_avoids .add true identifier
  | postfixIncrement identifier => exact incrementPlan_avoids .add false identifier
  | prefixDecrement identifier => exact incrementPlan_avoids .sub true identifier
  | postfixDecrement identifier => exact incrementPlan_avoids .sub false identifier
  | index first second third => exact hl.node _
  | compound literalType nodes => exact hl.node _
  | fnCall args count => exact hl.node _
  | varDecl identifier typeLiteral expression line => cases h
  | _ => exact none_avoids

end

/-! ## Every expression -/

/-- What is emitted is not about a result that the table does not know. -/
def Spares (number : Nat) (action : Action) (evaluation : Evaluation) : Prop :=
  ∀ s, Unnamed number s → Apart number s (action s).2 → Unnamed number (action s).2 ∧
    (∀ v ∈ (action s).1, OtherThan number v) ∧ ∀ part ∈ evaluation s, ∀ v ∈ part.2.op.operands, OtherThan number v

section

variable {number : Nat} {s t u : Codegen}

theorem Apart.first (h : Apart number s u) (hle : t.nextId ≤ u.nextId) : Apart number s t := by
  rcases h with h | h
  · exact .inl h
  · exact .inr (hle.trans h)

theorem Apart.second (h : Apart number s u) (hle : s.nextId ≤ t.nextId) : Apart number t u := by
  rcases h with h | h
  · exact .inl (h.trans_le hle)
  · exact .inr h

theorem Unnamed.build (h : Unnamed number s) (op : Op Value) : Unnamed number (s.build op).2 := by
  show (s.append _).fnEmitter.Holds _
  rw [Codegen.append_fnEmitter]
  exact h

theorem Apart.result (h : Apart number s t) (hlt : s.nextId < t.nextId) (op : Op Value) :
    OtherThan number (resultOf s.nextId op) := by
  refine otherThan_resultOf ?_ op
  rcases h with h | h
  · exact h.ne
  · exact (hlt.trans_le h).ne'

theorem null_spares : Spares number .null fun _ => [] :=
  fun _ h _ => ⟨h, none_avoids, fun _ hp => (List.not_mem_nil hp).elim⟩

theorem plan_spares {operands : List Action} {parts : List Evaluation}
    (hn : List.Forall₂ Numbered operands parts) (h : List.Forall₂ (Spares number) operands parts)
    {plan : Plan Value} (hp : plan.Avoids number) : Spares number (plan.emit operands) (plan.evaluation operands parts) := by
  intro s hs hapart
  induction plan generalizing s with
  | done value => exact ⟨hs, hp, fun _ hmem => (List.not_mem_nil hmem).elim⟩
  | operand index next ih =>
    have hle := (operand_part null_numbered hn index s).1
    have hle' := (plan_numbered hn (next ((operands[index]?.getD .null) s).1) ((operands[index]?.getD .null) s).2).1
    obtain ⟨hs₁, hvalue, hfirst⟩ := operand_part null_spares h index s hs (hapart.first hle')
    obtain ⟨hs₂, hresult, hrest⟩ := ih _ (hp _ hvalue) _ hs₁ (hapart.second hle)
    refine ⟨hs₂, hresult, ?_⟩
    intro part hmem
    rcases List.mem_append.mp hmem with hmem | hmem
    · exact hfirst part hmem
    · exact hrest part hmem
  | build op next ih =>
    have hle := (plan_numbered hn (next (s.build op).1) (s.build op).2).1
    have hvalue := hapart.result hle op
    obtain ⟨hs₂, hresult, hrest⟩ := ih _ (hp.2 _ hvalue) _ (hs.build op) (hapart.second (Nat.le_succ _))
    refine ⟨hs₂, hresult, ?_⟩
    intro part hmem
    rcases List.mem_cons.mp hmem with rfl | hmem
    · exact hp.1
    · exact hrest part hmem
  | lookup name next ih => exact ih _ (hp _ fun entry hentry => hs.find hentry) s hs hapart
  | declare name alloca varType count next ih =>
    refine ih hp.2 { s with fnEmitter := s.fnEmitter.addLocalVar (some name) (some alloca) varType count } ?_ hapart
    exact hs.addLocalVar name alloca varType count fun value hvalue => some_avoids hp.1 value hvalue
  | getFunction name next ih =>
    refine ih _ (hp _ fun v hv => ?_) s hs hapart
    obtain ⟨index, -, rfl⟩ := Option.map_eq_some_iff.mp hv
    exact fun _ => Value.noConfusion
  | setError message next ih => exact ih hp (s.setContextError message) hs hapart

theorem ternary_spares {condition thenPath elsePath : Action} {ofCondition ofThen ofElse : Evaluation}
    (nc : Numbered condition ofCondition) (nt : Numbered thenPath ofThen) (ne : Numbered elsePath ofElse)
    (hc : Spares number condition ofCondition) (ht : Spares number thenPath ofThen) (he : Spares number elsePath ofElse)
    (truth : Value → Bool) : Spares number (emitTernary condition thenPath elsePath)
      (ternaryEvaluation truth condition thenPath elsePath ofCondition ofThen ofElse) := by
  intro s hs hapart
  have hle₁ := (nc s).1
  have h₁ := hc s hs
  have harms {s₁ s₂ s₃ : Codegen} {v₁ v₂ v₃ : Option Value} (hcondition : condition s = (v₁, s₁))
      (hthen : thenPath s₁ = (v₂, s₂)) (helse : elsePath s₂ = (v₃, s₃)) (first second : Bool) (hapart : Apart number s s₃) :
      Unnamed number s₃ ∧ (∀ v ∈ v₂, OtherThan number v) ∧ (∀ v ∈ v₃, OtherThan number v) ∧
        ∀ part ∈ ofCondition s ++ (restrict first ofThen s₁ ++ restrict second ofElse s₂),
          ∀ v ∈ part.2.op.operands, OtherThan number v := by
    have hle₂ := (nt s₁).1
    have hle₃ := (ne s₂).1
    have h₂ := ht s₁
    have h₃ := he s₂
    rw [hcondition] at hle₁ h₁
    rw [hthen] at hle₂ h₂
    rw [helse] at hle₃ h₃
    obtain ⟨hs₁, -, hcode₁⟩ := h₁ (hapart.first (hle₂.trans hle₃))
    obtain ⟨hs₂, hvalue₂, hcode₂⟩ := h₂ hs₁ ((hapart.second hle₁).first hle₃)
    obtain ⟨hs₃, hvalue₃, hcode₃⟩ := h₃ hs₂ ((hapart.second hle₁).second hle₂)
    refine ⟨hs₃, hvalue₂, hvalue₃, ?_⟩
    intro part hmem
    rcases List.mem_append.mp hmem with hmem | hmem
    · exact hcode₁ part hmem
    · rcases List.mem_append.mp hmem with hmem | hmem
      · obtain ⟨part', hmem, heq⟩ := mem_restrict hmem
        rw [← heq]
        exact hcode₂ part' hmem
      · obtain ⟨part', hmem, heq⟩ := mem_restrict hmem
        rw [← heq]
        exact hcode₃ part' hmem
  have hway := ternary_way truth condition thenPath elsePath ofCondition ofThen ofElse s
  generalize emitTernary condition thenPath elsePath s = r, ternaryEvaluation truth condition thenPath elsePath ofCondition
    ofThen ofElse s = code at hway hapart ⊢
  cases hway with
  | refused hcondition =>
    rw [hcondition] at h₁
    obtain ⟨hs₁, -, hcode₁⟩ := h₁ hapart
    exact ⟨hs₁, none_avoids, hcode₁⟩
  | valueless hcondition hthen helse =>
    obtain ⟨hs₃, -, -, hcode⟩ := harms hcondition hthen helse _ _ hapart
    exact ⟨hs₃, none_avoids, hcode⟩
  | @met value _ _ fn _ _ s₃ hcondition hthen helse hfn phi hphi =>
    have hid : ((ternaryEnd s₃ fn value).build phi).2.nextId = s₃.nextId + 1 := by rw [build_nextId, ternaryEnd_nextId]
    have hle := (arms_numbered nc nt ne hcondition hthen helse true true).1
    obtain ⟨hs₃, hvalue₂, hvalue₃, hcode⟩ :=
      harms hcondition hthen helse (truth value) (!truth value) (hapart.first (by rw [hid]; exact Nat.le_succ _))
    refine ⟨Unnamed.build ?_ _, some_avoids ?_, ?_⟩
    · rw [Unnamed, ternaryEnd_fnEmitter]
      exact hs₃
    · exact (hapart.second hle).result (by rw [hid]; exact Nat.lt_succ_self _) _
    · intro part hmem
      rcases List.mem_append.mp hmem with hmem | hmem
      · exact hcode part hmem
      · rw [List.mem_singleton.mp hmem, hphi]
        exact pair_otherThan (hvalue₂ _ rfl) (hvalue₃ _ rfl)

end

theorem spares_compositional {number : Nat} (hl : library.Avoids number) :
    Compositional library truth fun action evaluation => Numbered action evaluation ∧ Spares number action evaluation where
  null := ⟨null_numbered, null_spares⟩
  restrict h selected := by
    refine ⟨(numbered_compositional library truth).restrict h.1 selected, ?_⟩
    intro s hs hapart
    obtain ⟨hs₁, hvalue, hcode⟩ := h.2 s hs hapart
    refine ⟨hs₁, hvalue, ?_⟩
    intro part hmem
    obtain ⟨part', hmem, heq⟩ := mem_restrict hmem
    rw [← heq]
    exact hcode part' hmem
  plan h node hnode := by
    have hn := h.imp fun _ _ h => h.1
    exact ⟨plan_numbered hn _, plan_spares hn (h.imp fun _ _ h => h.2) (nodePlan_avoids hl node hnode)⟩
  ternary hc ht he :=
    ⟨ternary_numbered hc.1 ht.1 he.1 truth, ternary_spares hc.1 ht.1 he.1 hc.2 ht.2 he.2 truth⟩
  pointwise h := by
    refine ⟨(numbered_compositional library truth).pointwise fun s => ?_, ?_⟩
    · obtain ⟨evaluation', hspares, heq⟩ := h s
      exact ⟨evaluation', hspares.1, heq⟩
    · intro s
      obtain ⟨evaluation', hspares, heq⟩ := h s
      rw [← heq]
      exact hspares.2 s

theorem expression_spares {number : Nat} (hl : library.Avoids number) (node : Node) (h : isExpression node = true) :
    Spares number (emit library node) (shortCircuit library truth node) :=
  ((spares_compositional library truth hl).expression node h).2

end Xvr.Backend
