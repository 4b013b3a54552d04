/-
  Xvr.Frontend.FormedStatements — the statements and declarations of quiet calls are well
  formed, and so is every tree a run of the parser hands out.

  Proved:
  - `declaration_formed`, `parseIfChain_formed`: with the calls one level down as promised.
  - `recAt_formed`: what the functions of the parser answer where they end quietly.
  - `returned_formed`: every node a call returns is the error node or well formed.
-/

import Xvr.Frontend.FormedTrees
import Xvr.Frontend.ParserRuns

namespace Xvr.Frontend.Parse

open Xvr.Runtime Xvr.Lib

section Statements

variable {rec : Rec} (R : RecFormed rec)

include R

/-! ## Blocks and branches -/

/-- A block is left quietly only behind its brace. -/
theorem blockNodes_formed : Unraised (blockNodes rec) fun r => r.1 = true ∧ ∀ node ∈ r.2, Formed .child node := by
  have turn (nodes : List Node) : Unraised (blockTurn rec nodes) fun r => (∀ node ∈ nodes, Formed .child node) →
      r.elim (fun nodes => ∀ node ∈ nodes, Formed .child node) fun r => r.1 = true ∧ ∀ node ∈ r.2, Formed .child node := by
    unfold blockTurn
    refine .after (matchToken_quietly _) fun _ => .ite (fun _ => .pure fun h => ⟨rfl, h⟩) fun _ => ?_
    refine .bind R.declaration fun node => .get fun p => .ite (fun hp => .pure fun hq => ?_) fun _ => ?_
    · rw [show p.panic = false from hq] at hp
      cases hp
    · exact .after (deref_quietly _) fun _ => .pure fun _ hnode h => formed_snoc h hnode
  refine (Unbroken.loop (fun nodes => ∀ node ∈ nodes, Formed .child node) (fun nodes => ?_) rec.fuel []).mono fun _ h => h nofun
  exact (turn nodes).mono fun r hr h => by cases r <;> exact hr h

/-- A block as the parser builds it. -/
def FormedBlock (node : Node) : Prop := ∃ nodes, node = .block nodes ∧ ∀ n ∈ nodes, Formed .child n

omit R in
theorem FormedBlock.child {node : Node} (h : FormedBlock node) : Formed .child node := by
  obtain ⟨_, rfl, hnodes⟩ := h
  exact .block hnodes

theorem blockStmt_formed : Unraised (blockStmt rec) FormedBlock :=
  .bind (blockNodes_formed R) fun r => .pure fun h => ⟨r.2, rfl, h.2⟩

theorem branch_formed : Unraised (branch rec) fun r => ∃ node, r = some node ∧ Formed .child node := by
  unfold branch
  refine .after (matchToken_quietly _) fun _ => .ite (fun _ => ?_) fun _ => .bind R.declaration fun node => ?_
  · refine .bind (blockNodes_formed R) fun r => .pure fun h => ⟨.block r.2, ?_, .block h.2⟩
    show (if r.1 = true then _ else _) = _
    rw [if_pos h.1]
  · exact .pure fun h => ⟨node, rfl, h⟩

theorem elseBranch_formed : Unraised (elseBranch rec) fun r => ∃ node, r = some node ∧ Formed .optional node := by
  unfold elseBranch
  refine .after (matchToken_quietly _) fun _ => .ite (fun _ => ?_) fun _ => .pure ⟨.null, rfl, .missing⟩
  refine .after (matchToken_quietly _) fun _ => .ite (fun _ => .bind R.parseIfChain fun node => ?_) fun _ => ?_
  · exact .pure fun h => ⟨node, rfl, .given h⟩
  · exact (branch_formed R).mono fun _ ⟨node, heq, h⟩ => ⟨node, heq, .given h⟩

theorem parseIfChain_formed : Unraised (parseIfChain rec) (Formed .child) := by
  unfold parseIfChain
  refine .after (consume_quietly _ _) fun _ => .bind (R.parsePrecedence _ _) fun condition => ?_
  refine .after (consume_quietly _ _) fun _ => .bind (branch_formed R) fun thenPath => ?_
  cases thenPath with
  | none => exact .pure fun h _ => by obtain ⟨_, heq, _⟩ := h; cases heq
  | some thenPath =>
    refine .bind (elseBranch_formed R) fun elsePath => ?_
    cases elsePath with
    | none => exact .pure fun h => by obtain ⟨_, heq, _⟩ := h; cases heq
    | some elsePath =>
      refine .pure fun helse hthen hcondition => ?_
      obtain ⟨_, heq, hthen⟩ := hthen
      cases heq
      obtain ⟨_, heq, helse⟩ := helse
      cases heq
      exact .pathIf _ _ hcondition hthen helse

/-! ## Loops -/

theorem whileStmt_formed : Unraised (whileStmt rec) (Formed .child) := by
  unfold whileStmt
  refine .after (consume_quietly _ _) fun _ => .bind (R.parsePrecedence _ _) fun _ => .after (consume_quietly _ _) fun _ => ?_
  exact .bind R.declaration fun _ => .pure fun hthen hcondition => .pathWhile hcondition hthen

theorem forPreClause_formed : Unraised (forPreClause rec) (Formed .child) := by
  unfold forPreClause
  refine .get fun _ => .ite (fun _ => R.declaration.mono fun _ h _ => h) fun _ => ?_
  exact .after (consume_quietly _ _) fun _ => .pure fun _ => .pass

theorem forCondition_formed : Unraised (forCondition rec) (Formed .child) := by
  unfold forCondition
  refine .get fun _ => .ite (fun _ => .bind (R.parsePrecedence _ _) fun _ => ?_) fun _ => ?_
  · exact .after (consume_quietly _ _) fun _ => .pure fun h _ => h
  · exact .after (consume_quietly _ _) fun _ => .pure fun _ => .literal _

theorem forPostClause_formed : Unraised (forPostClause rec) (Formed .child) := by
  unfold forPostClause
  refine .get fun _ => .ite (fun _ => .bind (R.parsePrecedence _ _) fun _ => ?_) fun _ => ?_
  · exact .after (consume_quietly _ _) fun _ => .pure fun h _ => h
  · exact .after (consume_quietly _ _) fun _ => .pure fun _ => .pass

theorem forStmt_formed : Unraised (forStmt rec) (Formed .child) := by
  unfold forStmt
  refine .after (consume_quietly _ _) fun _ => .bind (forPreClause_formed R) fun _ => ?_
  refine .bind (forCondition_formed R) fun _ => .bind (forPostClause_formed R) fun _ => ?_
  exact .bind R.declaration fun _ => .pure fun hthen hpost hcondition hpre => .pathFor hpre hcondition hpost hthen

/-! ## Simple statements -/

theorem assertStmt_formed : Unraised (assertStmt rec) (Formed .child) := by
  unfold assertStmt
  refine .bind (R.parsePrecedence _ _) fun _ => .after (consume_quietly _ _) fun _ => ?_
  refine .bind (R.parsePrecedence _ _) fun _ => .after consumeSemicolon_quietly fun _ => ?_
  exact .pure fun hright hleft => .binary nofun hleft hright

theorem returnTurn_formed (values : List Node) :
    Unraised (returnTurn rec values) fun r => (∀ node ∈ values, Formed .child node) → ListFormed r := by
  unfold returnTurn
  refine .bind (R.parsePrecedence _ _) fun node => .ite (fun _ => .get fun _ => refused_quietly _ _ _) fun _ => ?_
  refine .after (deref_quietly _) fun _ => .after (matchToken_quietly _) fun _ => ?_
  exact .ite (fun _ => .pure fun hnode h => formed_snoc h hnode) fun _ => .pure fun hnode h => formed_snoc h hnode

theorem returnStmt_formed : Unraised (returnStmt rec) (Formed .child) := by
  unfold returnStmt
  refine .after (matchToken_quietly _) fun _ => .ite (fun _ => .pure (.fnReturn nofun)) fun _ => ?_
  refine .bind (listLoop_formed (returnTurn_formed R) rec.fuel) fun r => ?_
  cases r with
  | none => exact .pure fun h => h.elim
  | some values => exact .after consumeSemicolon_quietly fun _ => .pure fun h => .fnReturn h

omit R in
theorem namedLiteral_quietly : Unraised namedLiteral fun r => r ≠ none := by
  unfold namedLiteral
  refine .after advance_quietly fun _ => .bind (identifier_quietly .null) fun (_, node) => ?_
  cases node with
  | literal l => exact .pure fun _ => nofun
  | _ => exact .pure fun ⟨_, h⟩ => by cases h

omit R in
theorem importAlias_quietly : Unraised importAlias fun _ => True := by
  unfold importAlias
  refine .after (matchToken_quietly _) fun _ => .ite (fun _ => ?_) fun _ => .pure trivial
  refine .after (namedLiteral_quietly.mono fun _ _ => trivial) fun _ => .get fun _ => ?_
  exact .after (access_quietly _) fun _ => .after (access_quietly _) fun _ => .pure fun _ => trivial

omit R in
theorem importStmt_formed : Unraised importStmt (Formed .child) := by
  unfold importStmt
  refine .bind namedLiteral_quietly fun r => ?_
  cases r with
  | none => exact .pure fun h => absurd rfl h
  | some idn =>
    refine .after (access_quietly _) fun _ => .after importAlias_quietly fun _ => .after consumeSemicolon_quietly fun _ => ?_
    exact .pure fun _ => .importNode _ _

omit R in
/-- A token of its own is enough of a statement. -/
theorem keyword_formed {node : Node} (h : Formed .child node) :
    Unraised (do consumeSemicolon; pure node) (Formed .child) :=
  .after consumeSemicolon_quietly fun _ => .pure h

theorem expressionStmt_formed : Unraised (expressionStmt rec) (Formed .child) := by
  unfold expressionStmt
  refine .after (matchToken_quietly _) fun _ => .ite (fun _ => .pure (.literal _)) fun _ => ?_
  exact .bind (R.parsePrecedence _ _) fun _ => .after consumeSemicolon_quietly fun _ => .pure id

theorem statement_formed : Unraised (statement rec) (Formed .child) := by
  have behind {t : TokenType} {m m' : P Node} (h : Unraised m (Formed .child)) (h' : Unraised m' (Formed .child)) :
      Unraised (do if ← matchToken t then m else m') (Formed .child) :=
    .after (matchToken_quietly t) fun _ => .ite (fun _ => h) fun _ => h'
  unfold statement
  refine behind ((blockStmt_formed R).mono fun _ h => h.child) (behind (assertStmt_formed R) (behind R.parseIfChain ?_))
  refine behind (whileStmt_formed R) (behind (forStmt_formed R) (behind (keyword_formed .pathBreak) ?_))
  exact behind (keyword_formed .pathContinue) (behind (returnStmt_formed R) (behind importStmt_formed (expressionStmt_formed R)))

/-! ## Types -/

theorem compoundType_quietly : Unraised (compoundType rec) fun _ => True := by
  unfold compoundType
  refine .after R.readTypeToLiteral fun l => .after (.after (matchToken_quietly _) fun _ => ?_) fun _ => ?_
  · exact .ite (fun _ => .after R.readTypeToLiteral fun _ => .pure trivial) fun _ => .pure trivial
  · exact .after (consume_quietly _ _) fun _ => .pure trivial

theorem typeToken_quietly : Unraised (typeToken rec) fun _ => True := by
  unfold typeToken
  refine .get fun _ => ?_
  split
  · exact .pure fun _ => trivial
  · refine .ite (fun _ => .after (compoundType_quietly R) fun _ => .pure fun _ => trivial) fun _ => .ite (fun _ => ?_) fun _ => ?_
    · exact .after (identifierLiteral_quietly _) fun _ => .pure fun _ => trivial
    · exact refused_quietly _ _ _

theorem readTypeToLiteral_quietly : Unraised (readTypeToLiteral rec) fun _ => True := by
  unfold readTypeToLiteral
  refine .after advance_quietly fun _ => .after (typeToken_quietly R) fun r => ?_
  cases r with
  | none => exact .pure trivial
  | some literal => exact .after (matchToken_quietly _) fun _ => .ite (fun _ => .pure trivial) fun _ => .pure trivial

theorem declaredType_quietly : Unraised (declaredType rec) fun _ => True :=
  .after (matchToken_quietly _) fun _ => .ite (fun _ => R.readTypeToLiteral) fun _ => .pure trivial

/-! ## Declarations -/

omit R in
theorem declaredName_quietly (msg : String) : Unraised (declaredName msg) fun _ => True := by
  unfold declaredName
  exact .after (consume_quietly _ _) fun _ => .get fun _ => .after (identifierLiteral_quietly _) fun _ => .pure fun _ => trivial

omit R in
theorem Formed.markIf {node : Node} (word : BitVec 32) (h : Formed .child node) : Formed .child (markIfAsExpression word node) := by
  have hnode := h
  cases h with
  | pathIf _ _ hcondition hthen helse => exact .pathIf _ _ hcondition hthen helse
  | _ => exact hnode

theorem varDecl_formed : Unraised (varDecl rec) (Formed .child) := by
  unfold varDecl
  refine .after (declaredName_quietly _) fun _ => .after (declaredType_quietly R) fun typeLiteral => ?_
  refine .bind (P := Formed .child) (.after (matchToken_quietly _) fun _ => .ite (fun _ => ?_) fun _ => .pure (.literal _)) ?_
  · exact .bind (R.parsePrecedence _ _) fun _ => .pure (.markIf _)
  · exact fun _ => .after consumeSemicolon_quietly fun _ => .pure (.varDecl _ _ _)

theorem parameterTurn_formed (parameters : List Node) :
    Unraised (parameterTurn rec parameters) fun r => (∀ node ∈ parameters, Formed .parameter node) →
      ∀ node ∈ r.elim id id, Formed .parameter node := by
  unfold parameterTurn
  refine .after (matchToken_quietly _) fun _ => .ite (fun _ => .after (declaredName_quietly _) fun _ => ?_) fun _ => ?_
  · exact .pure fun h => formed_snoc h (.parameter _ _ _)
  · refine .after (declaredName_quietly _) fun _ => .after (declaredType_quietly R) fun _ => .after (matchToken_quietly _) fun _ => ?_
    exact .ite (fun _ => .pure fun h => formed_snoc h (.parameter _ _ _)) fun _ => .pure fun h => formed_snoc h (.parameter _ _ _)

omit R in
/-- A list that every turn of a loop keeps well formed. -/
theorem grown_formed {role : Role} {body : List Node → P (List Node ⊕ List Node)}
    (h : ∀ nodes, Unraised (body nodes) fun r => (∀ node ∈ nodes, Formed role node) → ∀ node ∈ r.elim id id, Formed role node)
    (fuel : Nat) : Unraised (loop .outOfFuel body fuel []) fun nodes => ∀ node ∈ nodes, Formed role node := by
  refine (Unbroken.loop (fun nodes => ∀ node ∈ nodes, Formed role node) (fun nodes => ?_) fuel []).mono fun _ hr => hr nofun
  exact (h nodes).mono fun r hr hnodes => by cases r <;> exact hr hnodes

theorem parameterList_formed : Unraised (parameterList rec) fun nodes => ∀ node ∈ nodes, Formed .parameter node := by
  unfold parameterList
  refine .after (matchToken_quietly _) fun _ => .ite (fun _ => .pure nofun) fun _ => ?_
  exact .bind (grown_formed (parameterTurn_formed R) rec.fuel) fun _ => .after (consume_quietly _ _) fun _ => .pure id

theorem returnTypeTurn_formed (returns : List Node) :
    Unraised (returnTypeTurn rec returns) fun r => (∀ node ∈ returns, Formed .returnType node) →
      ∀ node ∈ r.elim id id, Formed .returnType node := by
  unfold returnTypeTurn
  refine .after R.readTypeToLiteral fun _ => .after (matchToken_quietly _) fun _ => ?_
  exact .ite (fun _ => .pure fun h => formed_snoc h (.returnType _)) fun _ => .pure fun h => formed_snoc h (.returnType _)

theorem returnTypes_formed : Unraised (returnTypes rec) fun nodes => ∀ node ∈ nodes, Formed .returnType node :=
  .after (matchToken_quietly _) fun _ => .ite (fun _ => grown_formed (returnTypeTurn_formed R) rec.fuel) fun _ => .pure nofun

theorem fnDecl_formed : Unraised (fnDecl rec) (Formed .child) := by
  unfold fnDecl
  refine .after (declaredName_quietly _) fun _ => .after (consume_quietly _ _) fun _ => .bind (parameterList_formed R) fun _ => ?_
  refine .bind (returnTypes_formed R) fun _ => .after (consume_quietly _ _) fun _ => .bind (blockStmt_formed R) fun _ => ?_
  refine .pure fun hblock hreturns hparameters => ?_
  obtain ⟨nodes, rfl, hnodes⟩ := hblock
  exact .fnDecl _ _ hparameters hreturns hnodes

theorem declaration_formed : Unraised (declaration rec) (Formed .child) := by
  unfold declaration
  refine .after (matchToken_quietly _) fun _ => .ite (fun _ => varDecl_formed R) fun _ => ?_
  exact .after (matchToken_quietly _) fun _ => .ite (fun _ => fnDecl_formed R) fun _ => statement_formed R

end Statements

/-! ## Runs -/

variable (z : Parser → Node → Bool)

/-- By induction on the levels of recursion. -/
theorem recAt_formed : ∀ n, RecFormed (recAt z n)
  | 0 => ⟨fun _ _ => .throw _, .throw _, .throw _, .throw _⟩
  | n + 1 =>
    have R := recAt_formed n
    ⟨parsePrecedence_formed R, declaration_formed R, parseIfChain_formed R, readTypeToLiteral_quietly R⟩

/-- A call that ends in panic answers the error node, any other what was declared. -/
theorem finish_answers {rec : Rec} {node answer : Node} {q p' : Parser} (h : finishCall rec node q = .ok (some answer) p') :
    answer = .error ∨ q.panic = false ∧ answer = node := by
  cases hq : q.panic with
  | false =>
    have hquiet : finishCall rec node q = .ok (some node) q := finish_quiet hq
    cases hquiet.symm.trans h
    exact .inr ⟨rfl, rfl⟩
  | true =>
    left
    unfold finishCall at h
    have hget : (get : P Parser) q = .ok q q := rfl
    simp only [bind, EStateM.bind, hget, hq, if_true] at h
    cases hs : synchronize rec.fuel q with
    | error e q' =>
      rw [hs] at h
      cases h
    | ok _ q' =>
      rw [hs] at h
      dsimp only at h
      cases hf : freeASTNode node q' with
      | error e q'' =>
        rw [hf] at h
        cases h
      | ok _ q'' =>
        rw [hf] at h
        cases h
        rfl

/-- A call that answers a node answers the error node or a well formed tree, in whatever
    state the parser was. -/
theorem scan_formed {p p' : Parser} {node : Node} (h : Returns z p (some node) p') : node = .error ∨ Formed .child node := by
  by_cases he : p.current.type = .eof
  · cases (returns_unique z h (scan_eof z he)).1
  have hrun := (scan_declares z he).symm.trans h
  simp only [bind, EStateM.bind] at hrun
  cases hd : (recAt z (fuelFor p)).declaration p with
  | error e q =>
    rw [hd] at hrun
    cases hrun
  | ok node' q =>
    rw [hd] at hrun
    refine (finish_answers hrun).imp id fun ⟨hq, heq⟩ => ?_
    rw [heq]
    exact ((recAt_formed z _).declaration p node' q hd hq).2

/-- Every node a call answers can be freed, and where it is no error node no child of it is
    missing that a reader of the tree takes for granted. -/
theorem returned_formed {p p' : Parser} {node : Node} (h : Returns z p (some node) p') :
    node.freeable = true ∧ (node = .error ∨ Formed .child node) := by
  rcases scan_formed z h with rfl | hformed
  · exact ⟨rfl, .inl rfl⟩
  · exact ⟨hformed.freeable, .inr hformed⟩

/-- `a.f(b[:]);` -/
def methodTokens : TokenStream := tokensOf [.identifier, .dot, .identifier, .parenLeft, .identifier, .bracketLeft, .colon,
  .bracketRight, .parenRight, .semicolon]

theorem returned_formed_method : ∃ node p', Returns neverZero (initParser methodTokens) (some node) p' ∧
    node.freeable = true ∧ Formed .child node :=
  have h : Returns neverZero (initParser methodTokens) (some (.binary .dot (.literal (.identifier []))
      (.binary .dot (.literal (.identifier [])) (.fnCall (.fnCollection
        [.index (.literal (.identifier [])) indexBlank indexBlank]) 2)))) _ := rfl
  have hformed := returned_formed neverZero h
  ⟨_, _, h, hformed.1, hformed.2.resolve_left nofun⟩

end Xvr.Frontend.Parse
