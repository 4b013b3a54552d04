/-
  Xvr.Backend.IfExpressions — a variable declared with an if expression.

  The emitter of control flow builds the phi of an if expression and returns it; the
  expression emitter drops it and answers NULL, which a declaration takes for no value.

  Proved:
  - `phi_edges`: the phi's incoming edges name the blocks that branch to the merge block.
  - `if_expression_not_stored`: no run that comes behind the declaration has stored anything
    to the variable's storage.
-/

import Xvr.Backend.Structured

namespace Xvr.Backend

open Xvr.Runtime Xvr.Lib
open Xvr.Frontend (Opcode Node)

abbrev History := Flow.History Built Value

/-! ## The storage of a variable -/

/-- The storage allocated last. -/
def newestStorage : History → Option Nat
  | [] => none
  | .did ⟨id, .alloca _⟩ :: _ => some id
  | _ :: history => newestStorage history

/-- What was stored last since the storage was allocated. -/
def stored (storage : Nat) : History → Option Value
  | [] => none
  | .did ⟨id, .alloca _⟩ :: history => if id = storage then none else stored storage history
  | .did ⟨_, .store value (.alloca id _)⟩ :: history => if id = storage then some value else stored storage history
  | _ :: history => stored storage history

/-- What the variable that was declared last holds: its declaration allocates its storage. -/
def declaredValue (history : History) : Option Value := (newestStorage history).bind (stored · history)

/-- `var x = 5;` -/
example : declaredValue [.did ⟨1, .store (.constant (.integer 32) 5) (.alloca 0 (.integer 32))⟩,
    .did ⟨0, .alloca (.integer 32)⟩] = some (.constant (.integer 32) 5) := rfl

/-! ## The phi -/

section

variable {s t : Codegen}

/-- The arms come in from the blocks that branch to the block of the phi. -/
theorem phi_edges {condition thenPath elsePath : Action} (hc : condition.Keeps False) (hkt : thenPath.Keeps False)
    (hke : elsePath.Keeps False) (hs : s.Standing) (typeWord : BitVec 32) {value : Value}
    (h : emitIfExpression condition thenPath elsePath typeWord s = (some value, t)) :
    ∃ id type thenValue elseValue thenEnd elseEnd,
      t.code t.here = [.op ⟨id, .phi type [(thenValue, thenEnd), (elseValue, elseEnd)]⟩] ∧
        (t.code thenEnd).getLast? = some (.br t.here) ∧ (t.code elseEnd).getLast? = some (.br t.here) := by
  unfold emitIfExpression at h
  split at h
  · cases h
  · rename_i fn hfn
    have e₁ := (emitCondition_keeps hc "if expression" s hs).1
    generalize emitCondition "if expression" condition s = r at *
    rcases r with ⟨_ | test, s₁⟩
    · cases h
    · dsimp only at h e₁
      have hfn₁ := e₁.grows.function.trans hfn
      have e₂ := e₁.openIf hfn₁ test ifNames
      have e₃ := e₂.run hkt
      generalize thenPath (s₁.openIf fn test ifNames) = r at *
      rcases r with ⟨thenValue, s₃⟩
      dsimp only at h e₃
      have e₄ := e₃.closePart (s₁.blocks.length + 2)
      have hg₅ := (hke _ e₄.grows.standing).1.grows
      have e₅ := e₄.run hke
      generalize hr : elsePath (s₃.closePart (s₁.blocks.length + 2) (s₁.blocks.length + 1)) = r at *
      rcases r with ⟨elseValue, s₅⟩
      dsimp only at h e₅ hg₅
      have e₆ := e₅.closePart (s₁.blocks.length + 2)
      generalize hn : s₁.blocks.length = n at *
      obtain ⟨-, -, hthenElse, -⟩ := e₃.waits.2 (n + 1) (List.mem_cons_self ..)
      obtain ⟨-, -, hthenMerge, -⟩ := e₃.waits.2 (n + 2) (List.mem_cons_of_mem _ (List.mem_cons_self ..))
      obtain ⟨-, -, helseMerge, hempty⟩ := e₅.waits.2 (n + 2) (List.mem_cons_self ..)
      have hs₃ := e₃.grows.standing
      have hs₅ := e₅.grows.standing
      have hs₆ := e₆.grows.standing
      have hlt₃ : s₃.here < (s₃.closePart (n + 2) (n + 1)).blocks.length := by
        rw [show (s₃.closePart (n + 2) (n + 1)).blocks.length = s₃.blocks.length from Codegen.append_length s₃ _]
        exact hs₃.2
      have hthen : (s₃.closePart (n + 2) (n + 1)).code s₃.here = s₃.code s₃.here ++ [.br (n + 2)] :=
        Codegen.append_code_here hs₃ _
      have hfar : s₃.here ≠ s₅.here := by
        rcases hg₅.place with hp | hp
        · rw [hp]
          exact Ne.symm hthenElse
        · omega
      have hthen₅ : s₅.code s₃.here = s₃.code s₃.here ++ [.br (n + 2)] := by
        rw [hg₅.others _ hlt₃ (Ne.symm hthenElse), hthen]
      have hthen₆ : (s₅.closePart (n + 2) (n + 2)).code s₃.here = s₃.code s₃.here ++ [.br (n + 2)] :=
        (Codegen.append_code_ne s₅ _ hfar).trans hthen₅
      have helse₆ : (s₅.closePart (n + 2) (n + 2)).code s₅.here = s₅.code s₅.here ++ [.br (n + 2)] :=
        Codegen.append_code_here hs₅ _
      have hmerge₆ : (s₅.closePart (n + 2) (n + 2)).code (n + 2) = [] :=
        (Codegen.append_code_ne s₅ _ helseMerge).trans hempty
      rw [hs₃.1, hs₅.1] at h
      cases h
      have hcode {b : Nat} (hb : b ≠ n + 2) (i : Instr) :
          ((s₅.closePart (n + 2) (n + 2)).append i).code b = (s₅.closePart (n + 2) (n + 2)).code b :=
        Codegen.append_code_ne _ i hb
      let null := Value.constant (resultType typeWord) 0
      refine ⟨(s₅.closePart (n + 2) (n + 2)).nextId, resultType typeWord, thenValue.getD null, elseValue.getD null, s₃.here,
        s₅.here, ?_, ?_, ?_⟩
      · exact (Codegen.append_code_here hs₆ _).trans (congrArg (· ++ [_]) hmerge₆)
      · exact (congrArg List.getLast? ((hcode (Ne.symm hthenMerge) _).trans hthen₆)).trans List.getLast?_concat
      · exact (congrArg List.getLast? ((hcode (Ne.symm helseMerge) _).trans helse₆)).trans List.getLast?_concat

end

/-! ## The declaration -/

section

variable (library : Library Value)

/-- An if never yields a value. -/
theorem emit_if_value (condition thenPath elsePath : Node) (typeWord : BitVec 32) (isExpression : Bool) (s : Codegen) :
    (emit library (.pathIf condition thenPath elsePath typeWord isExpression) s).1 = none := by
  rw [emit]
  rfl

/-- Without a value a declaration allocates, and that is all. -/
theorem emit_varDecl_no_value {name : List Char} {typeLiteral : Literal} {expression : Node} {line : Nat}
    (htype : declaredType typeLiteral ≠ .array) {s : Codegen} (hvalue : (emit library expression s).1 = none) :
    ∃ table, (emit library (.varDecl (.identifier name) typeLiteral expression line) s).2 =
      { ((emit library expression s).2.build (.alloca (.integer 32))).2 with fnEmitter := table } := by
  rw [emit, nodePlan, varDeclPlan, Plan.emit]
  simp only [List.getElem?_cons_zero, Option.getD_some, hvalue, Option.isSome_none, Bool.false_eq_true, if_false,
    if_neg htype, declareVariable, Plan.emit]
  exact ⟨_, rfl⟩

/-- No run that comes behind `var x = if ..` has stored anything to the storage of `x`. -/
theorem if_expression_not_stored (name : List Char) (typeLiteral : Literal) (htype : declaredType typeLiteral ≠ .array)
    (condition thenPath elsePath : Node) (typeWord : BitVec 32) (isExpression : Bool) (line : Nat) (s : Codegen)
    (hs : s.Standing) (o : Flow.Outcome Built Value) (before history : History)
    (hrun :
      let t := (emit library (.varDecl (.identifier name) typeLiteral
        (.pathIf condition thenPath elsePath typeWord isExpression) line) s).2
      Flow.Leads t.graph o ⟨s.position, before⟩ ⟨t.position, history⟩) :
    declaredValue history = none := by
  let expression := Node.pathIf condition thenPath elsePath typeWord isExpression
  have hvalue : (emit library expression s).1 = none := emit_if_value library ..
  have hg := (emit_frame library expression s hs).1.grows
  obtain ⟨table, htable⟩ := emit_varDecl_no_value library htype hvalue
  dsimp only at hrun
  rw [htable] at hrun
  generalize (emit library expression s).2 = t at hg hrun
  have hcode : (t.append (.op ⟨t.nextId, .alloca (.integer 32)⟩)).code t.here =
    t.code t.here ++ [.op ⟨t.nextId, .alloca (.integer 32)⟩] := Codegen.append_code_here hg.standing _
  have hpos : Codegen.position (t.append (.op ⟨t.nextId, .alloca (.integer 32)⟩)) = t.position.next := by
    rw [Codegen.position, Codegen.append_here, hcode, List.length_append]
    rfl
  change Flow.Leads (Codegen.graph (t.append (.op ⟨t.nextId, .alloca (.integer 32)⟩))) o ⟨s.position, before⟩
    ⟨Codegen.position (t.append (.op ⟨t.nextId, .alloca (.integer 32)⟩)), history⟩ at hrun
  rw [hpos] at hrun
  have hmoved : s.position ≠ t.position.next := by
    intro heq
    have hhere : s.here = t.here := congrArg Flow.Pos.block heq
    have hoffset : (s.code s.here).length = (t.code t.here).length + 1 := congrArg Flow.Pos.offset heq
    have hle := hg.current.length_le
    rw [hhere] at hle hoffset
    omega
  obtain ⟨c, -, hlast⟩ := hrun.last fun heq => hmoved (congrArg Flow.Config.pos heq)
  obtain ⟨-, i, hi, hhist⟩ := Flow.step_inside hlast
  have hat : Flow.Graph.code (Codegen.graph (t.append (.op ⟨t.nextId, .alloca (.integer 32)⟩))) t.position =
      some (.op ⟨t.nextId, .alloca (.integer 32)⟩) := by
    show ((t.append _).code t.here)[(t.code t.here).length]? = _
    rw [hcode, List.getElem?_concat_length]
  rw [hat] at hi
  cases hi
  rw [hhist, declaredValue, newestStorage, Option.bind_some, stored, if_pos rfl]

end

/-- `var x = if (true) { 1; } else { 2; }` as parsed. -/
def choice : Node :=
  .varDecl (.identifier "x".toList) (.type .any false [])
    (.pathIf (.literal (.boolean true)) (.block [.literal (.integer 1)]) (.block [.literal (.integer 2)])
      (BitVec.ofNat 32 LiteralType.any.ctorIdx) true) 1

def choiceHistory : History :=
  [.did ⟨1, .alloca (.integer 32)⟩,
    .did ⟨0, .phi .pointer [(.constant (.integer 32) 1, 1), (.constant (.integer 32) 2, 2)]⟩,
    .tested (.constant (.integer 1) 1) true]

theorem choice_runs :
    Flow.Leads (emit .nothing choice .atEntry).2.graph (fun _ _ => true) ⟨Codegen.atEntry.position, []⟩
      ⟨(emit .nothing choice .atEntry).2.position, choiceHistory⟩ :=
  ⟨4, .head (by rfl) (.head (by rfl) (.head (by rfl) (.head (by rfl) (.refl _))))⟩

theorem if_expression_not_stored_choice : declaredValue choiceHistory = none :=
  if_expression_not_stored .nothing "x".toList (.type .any false []) (by decide) _ _ _ _ true 1 .atEntry atEntry_standing
    (fun _ _ => true) [] choiceHistory choice_runs

/-- The first arm is chosen and `x` does not hold its 1. -/
theorem choice_leaves_unset :
    ∃ history, Flow.Leads (emit .nothing choice .atEntry).2.graph (fun _ _ => true) ⟨Codegen.atEntry.position, []⟩
        ⟨(emit .nothing choice .atEntry).2.position, history⟩ ∧
      .tested (.constant (.integer 1) 1) true ∈ history ∧ declaredValue history ≠ some (.constant (.integer 32) 1) :=
  ⟨choiceHistory, choice_runs, by decide, by decide⟩

end Xvr.Backend
