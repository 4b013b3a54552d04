/-
  Xvr.Frontend.FoldedNodes — folding and counting receivers as functions of the node.

  Both run inside the parser, but where they end quietly the answer is the same in every
  state, and only accesses are added. So the grammar can name the node they leave:
  `folded` for an operator, `dotted` for the right side of a dot.

  Proved:
  - `calcStatic_uniform`: folding that ends quietly does not depend on the state.
  - `binaryTurn_folded`: a turn of the Pratt loop leaves the folded node.
  - `dottify_dotted`: `dottify` leaves the dotted node of a solid one.
-/

import Xvr.Frontend.MethodChains

namespace Xvr.Frontend.Parse

open Xvr.Runtime Xvr.Lib

/-! ## The same in every state -/

def accessedAll (accesses : List Access) (p : Parser) : Parser := { p with accesses := accesses ++ p.accesses }

/-- Where the computation ends quietly it began quietly, answers the same in every state,
    and only makes accesses. -/
def Uniform {α : Type} (m : P α) : Prop :=
  ∀ p x q, m p = .ok x q → q.panic = false → p.panic = false ∧ ∃ accesses, ∀ p', m p' = .ok x (accessedAll accesses p')

theorem Uniform.pure {α : Type} (x : α) : Uniform (pure x : P α) := by
  intro p y q h hq
  cases h
  exact ⟨hq, [], fun _ => rfl⟩

theorem Uniform.bind {α β : Type} {m : P α} {f : α → P β} (hm : Uniform m) (hf : ∀ x, Uniform (f x)) :
    Uniform (m >>= f) := by
  intro p y q h hq
  cases hrun : m p with
  | error e p₁ =>
    simp only [Bind.bind, EStateM.bind, hrun] at h
    cases h
  | ok x p₁ =>
    rw [bind_ok hrun] at h
    obtain ⟨hp₁, as, has⟩ := hf x p₁ y q h hq
    obtain ⟨hp, bs, hbs⟩ := hm p x p₁ hrun hp₁
    refine ⟨hp, as ++ bs, fun p' => ?_⟩
    rw [bind_ok (hbs p'), has]
    simp [accessedAll, List.append_assoc]

theorem Uniform.ite {α : Type} {c : Prop} [Decidable c] {a b : P α} (ha : Uniform a) (hb : Uniform b) :
    Uniform (if c then a else b) := by
  split
  · exact ha
  · exact hb

/-- A computation that raises never ends quietly. -/
theorem Uniform.raises {α : Type} {m : P α} (h : ∀ p, ∃ x q, m p = .ok x q ∧ q.panic = true) : Uniform m := by
  intro p x q hrun hq
  obtain ⟨y, q', hrun', hpanic⟩ := h p
  cases hrun.symm.trans hrun'
  rw [hpanic] at hq
  cases hq

theorem access_uniform (a : Access) : Uniform (access a) := by
  intro p x q h hq
  cases hdef : a.defined with
  | true =>
    have hrun (p : Parser) : access a p = .ok () (accessed a p) := access_defined hdef
    cases h.symm.trans (hrun p)
    exact ⟨hq, [a], hrun⟩
  | false => cases h.symm.trans (access_undefined hdef)

theorem deref_uniform (node : Node) : Uniform (deref node) := by
  intro p x q h hq
  unfold deref at h ⊢
  by_cases hnode : node.isNode = true
  · rw [if_pos hnode] at h
    cases h
    exact ⟨hq, [], fun _ => by rw [if_pos hnode]; rfl⟩
  · rw [if_neg hnode] at h
    cases h

theorem foldError_uniform (message : String) : Uniform (foldError message) :=
  .raises fun p => ⟨none, raise p.previous message p, rfl, raise_panic _ _ _⟩

/-! ## Folding -/

theorem foldIntegers_uniform (opcode : Opcode) (lhs rhs : BitVec 32) : Uniform (foldIntegers opcode lhs rhs) := by
  unfold foldIntegers
  split
  case h_4 | h_5 => exact .ite (foldError_uniform _) (.bind (access_uniform _) fun _ => .pure _)
  all_goals first | exact .pure _ | exact foldError_uniform _

theorem foldFloats_uniform (opcode : Opcode) (lhs rhs : Float32) : Uniform (foldFloats opcode lhs rhs) := by
  unfold foldFloats
  split
  case h_4 => exact .ite (foldError_uniform _) (.pure _)
  all_goals first | exact .pure _ | exact foldError_uniform _

theorem foldLiterals_uniform (opcode : Opcode) (lhs rhs : Literal) : Uniform (foldLiterals opcode lhs rhs) := by
  unfold foldLiterals
  refine .ite (.ite (foldError_uniform _) (.pure _)) ?_
  exact .ite (foldIntegers_uniform _ _ _) (.ite (foldError_uniform _) (.ite (foldFloats_uniform _ _ _) (.pure _)))

theorem foldNode_uniform (opcode : Opcode) (left right : Node) : Uniform (foldNode opcode left right) := by
  unfold foldNode
  split
  · refine .bind (foldLiterals_uniform _ _ _) fun r => ?_
    cases r with
    | none => exact .pure _
    | some result =>
      exact .ite (.pure _) (.bind (access_uniform _) fun _ => .bind (access_uniform _) fun _ => .pure _)
  · exact .pure _

theorem calcStatic_uniform (node : Node) : Uniform (calcStaticBinaryArithmetic node) := by
  cases node with
  | binary opcode left right =>
    unfold calcStaticBinaryArithmetic
    have child (n : Node) (h : Uniform (calcStaticBinaryArithmetic n)) :
        Uniform (if n.isBinary then do pure (← calcStaticBinaryArithmetic n).2 else pure n) :=
      .ite (.bind h fun _ => .pure _) (.pure _)
    refine .ite (.bind (deref_uniform _) fun _ => ?_) (.pure _)
    refine .bind (child left (calcStatic_uniform left)) fun _ => ?_
    refine .bind (deref_uniform _) fun _ => ?_
    exact .bind (child right (calcStatic_uniform right)) fun _ => foldNode_uniform _ _ _
  | _ => exact .pure _

/-- What folding leaves of an operator's node, unless it refuses. -/
def folded (opcode : Opcode) (lhs rhs : Node) : Option Node :=
  match calcStaticBinaryArithmetic (.binary opcode lhs rhs) (standing (tokensOf [])) with
  | .ok (true, node) q => if q.panic then none else some node
  | _ => none

theorem folded_eq {opcode : Opcode} {lhs rhs node : Node} (h : folded opcode lhs rhs = some node) :
    ∃ q, calcStaticBinaryArithmetic (.binary opcode lhs rhs) (standing (tokensOf [])) = .ok (true, node) q ∧ q.panic = false := by
  unfold folded at h
  split at h
  · rename_i node' q hrun
    split at h
    · cases h
    · rename_i hq
      cases h
      exact ⟨q, hrun, by simpa using hq⟩
  · cases h

theorem Poised.accessedAll {p : Parser} {s : TokenStream} (h : Poised p s) (accesses : List Access) :
    Poised (accessedAll accesses p) s := ⟨⟨h.before.current, h.before.lexer⟩, h.quiet⟩

/-- A turn of the loop leaves the folded node. -/
theorem binaryTurn_folded {opcode : Opcode} {lhs rhs node : Node} (h : folded opcode lhs rhs = some node) {p : Parser}
    {s : TokenStream} (hp : Poised p s) : ∃ q, binaryTurn lhs rhs opcode p = .ok (.inl node) q ∧ Poised q s := by
  obtain ⟨q, hrun, hq⟩ := folded_eq h
  obtain ⟨-, accesses, hall⟩ := calcStatic_uniform _ _ _ _ hrun hq
  exact ⟨_, binaryTurn_quiet hp.quiet (hall p), hp.accessedAll accesses⟩

/-! ## Receivers -/

/-- What `dottify` leaves of a node. -/
def dotted : Node → Node
  | .binary opcode left right =>
    if opcode = .fnCall then .binary .dot (dotted left) (countArgument (dotted right))
    else .binary opcode (dotted left) (dotted right)
  | node => node

theorem dottify_dotted (node : Node) (h : Solid node) : Dottified node (dotted node) := by
  cases node with
  | binary opcode left right =>
    rw [dotted]
    exact dottified_binary opcode (dottify_dotted left h.1) (dottify_dotted right h.2)
  | null | wild | error => exact h.elim
  | _ => exact dottified_leaf rfl rfl

end Xvr.Frontend.Parse
