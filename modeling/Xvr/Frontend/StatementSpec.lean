/-
  Xvr.Frontend.StatementSpec — the contracts of statements, types and declarations, and of
  the whole recursion.

  Proved:
  - `declaration_meets`, `parseIfChain_meets`, `readTypeToLiteral_meets`: with the calls
    one level down as promised, so is the function.
  - `recAt_spec`: `recAt n` keeps its promises with `n` levels, by induction on `n`.
-/

import Xvr.Frontend.PrattSpec

namespace Xvr.Frontend.Parse

open Xvr.Runtime Xvr.Lib

section Statements

variable {rec : Rec} {b : Nat} (R : RecSpec rec b) {p : Parser}

include R

/-! ## Blocks and branches -/

theorem blockTurn_meets (nodes : List Node) (hb : 8 * remaining p + 2 ≤ b) :
    Meets (blockTurn rec nodes) p fun r p' =>
      match r with
      | .inl _ => remaining p' < remaining p
      | .inr result => result.1 = false → p'.panic = true := by
  unfold blockTurn
  refine match_bind (by decide) (fun _ _ _ _ => Meets.pure nofun) fun _ => ?_
  refine Meets.bind (R.declaration _ hb) fun node q hs hnode => Meets.get ?_
  refine Meets.ite (fun hp => Meets.pure fun _ => hp) fun hp => ?_
  have hp : q.panic = false := by simpa using hp
  refine Meets.bind (deref_meets (hnode.solid hp).isNode) fun _ q₁ _ hq₁ => Meets.pure ?_
  subst hq₁
  exact hnode.consumes fun he => by rw [hnode.atEof he] at hp; cases hp

/-- A block left before its brace panics. -/
theorem blockNodes_meets (hb : 8 * remaining p + 2 ≤ b) :
    Meets (blockNodes rec) p fun r p' => r.1 = false → p'.panic = true := by
  have := R.fuel
  refine Meets.loop (fun _ q => 8 * remaining q + 2 ≤ b) remaining (fun nodes q hq => ?_) hb (by omega)
  refine Meets.mono (blockTurn_meets R nodes hq) fun r q' hs hr => ?_
  cases r with
  | inl nodes =>
    have : remaining q' < remaining q := hr
    exact ⟨by omega, this⟩
  | inr result => exact hr

theorem blockStmt_meets (hb : 8 * remaining p + 2 ≤ b) : Meets (blockStmt rec) p fun r _ => Solid r := by
  unfold blockStmt
  exact Meets.bind (blockNodes_meets R hb) fun _ _ _ _ => Meets.pure trivial

theorem branch_meets (hb : 8 * remaining p + 2 ≤ b) :
    Meets (branch rec) p fun r p' => r = none → p'.panic = true := by
  unfold branch
  refine match_bind (by decide) (fun q hs _ _ => ?_) fun _ => ?_
  · have := hs.remaining
    refine Meets.bind (blockNodes_meets R (by omega)) fun r q₁ _ hr => Meets.pure fun h => hr ?_
    cases hc : r.1 with
    | false => rfl
    | true => rw [hc] at h; cases h
  · exact Meets.bind (R.declaration _ hb) fun _ _ _ _ => Meets.pure nofun

theorem elseBranch_meets (hb : 8 * remaining p + 3 ≤ b + 1) :
    Meets (elseBranch rec) p fun r p' => r = none → p'.panic = true := by
  unfold elseBranch
  refine match_bind (by decide) (fun q _ hlt _ => ?_) fun _ => Meets.pure nofun
  refine match_bind (by decide) (fun q₁ _ hlt₁ _ => ?_) fun _ => branch_meets R (by omega)
  exact Meets.bind (R.parseIfChain _ (by omega)) fun _ _ _ _ => Meets.pure nofun

theorem parseIfChain_meets (hb : 8 * remaining p + 3 ≤ b + 1) : Meets (parseIfChain rec) p (Ruled .null) := by
  unfold parseIfChain
  refine Meets.bind (consume_meets _ _) fun _ q h₁ _ => ?_
  have := h₁.remaining
  refine Meets.bind (R.parsePrecedence _ _ _ (by omega)) fun condition q₁ h₂ _ => ?_
  have := h₂.remaining
  refine Meets.bind (consume_meets _ _) fun _ q₂ h₃ _ => ?_
  have := h₃.remaining
  refine Meets.bind (branch_meets R (by omega)) fun thenPath q₃ h₄ hthen => ?_
  have := h₄.remaining
  cases thenPath with
  | none => exact Meets.pure (.untouched (hthen rfl))
  | some thenPath =>
    refine Meets.bind (elseBranch_meets R (by omega)) fun elsePath q₄ _ helse => ?_
    cases elsePath with
    | none => exact Meets.pure (.untouched (helse rfl))
    | some elsePath => exact Meets.pure (.built trivial)

/-! ## Loops -/

theorem whileStmt_meets (hb : 8 * remaining p + 2 ≤ b) : Meets (whileStmt rec) p fun r _ => Solid r := by
  unfold whileStmt
  refine Meets.bind (consume_meets _ _) fun _ q h₁ _ => ?_
  have := h₁.remaining
  refine Meets.bind (R.parsePrecedence _ _ _ (by omega)) fun _ q₁ h₂ _ => ?_
  have := h₂.remaining
  refine Meets.bind (consume_meets _ _) fun _ q₂ h₃ _ => ?_
  have := h₃.remaining
  exact Meets.bind (R.declaration _ (by omega)) fun _ _ _ _ => Meets.pure trivial

theorem forPreClause_meets (hb : 8 * remaining p + 2 ≤ b) : Meets (forPreClause rec) p fun _ _ => True := by
  unfold forPreClause
  refine Meets.get (Meets.ite (fun _ => ?_) fun _ => ?_)
  · exact Meets.mono (R.declaration _ hb) fun _ _ _ _ => trivial
  · exact Meets.bind (consume_meets _ _) fun _ _ _ _ => Meets.pure trivial

theorem forCondition_meets (hb : 8 * remaining p + 2 ≤ b) : Meets (forCondition rec) p fun _ _ => True := by
  unfold forCondition
  refine Meets.get (Meets.ite (fun _ => ?_) fun _ => ?_)
  · refine Meets.bind (R.parsePrecedence _ _ _ (by omega)) fun _ _ _ _ => ?_
    exact Meets.bind (consume_meets _ _) fun _ _ _ _ => Meets.pure trivial
  · exact Meets.bind (consume_meets _ _) fun _ _ _ _ => Meets.pure trivial

theorem forPostClause_meets (hb : 8 * remaining p + 2 ≤ b) : Meets (forPostClause rec) p fun _ _ => True := by
  unfold forPostClause
  refine Meets.get (Meets.ite (fun _ => ?_) fun _ => ?_)
  · refine Meets.bind (R.parsePrecedence _ _ _ (by omega)) fun _ _ _ _ => ?_
    exact Meets.bind (consume_meets _ _) fun _ _ _ _ => Meets.pure trivial
  · exact Meets.bind (consume_meets _ _) fun _ _ _ _ => Meets.pure trivial

theorem forStmt_meets (hb : 8 * remaining p + 2 ≤ b) : Meets (forStmt rec) p fun r _ => Solid r := by
  unfold forStmt
  refine Meets.bind (consume_meets _ _) fun _ q h₁ _ => ?_
  have := h₁.remaining
  refine Meets.bind (forPreClause_meets R (by omega)) fun _ q₁ h₂ _ => ?_
  have := h₂.remaining
  refine Meets.bind (forCondition_meets R (by omega)) fun _ q₂ h₃ _ => ?_
  have := h₃.remaining
  refine Meets.bind (forPostClause_meets R (by omega)) fun _ q₃ h₄ _ => ?_
  have := h₄.remaining
  exact Meets.bind (R.declaration _ (by omega)) fun _ _ _ _ => Meets.pure trivial

/-! ## Simple statements -/

/-- What a statement behind its keyword promises. -/
abbrev QuietSolid (r : Node) (p' : Parser) : Prop := p'.panic = false → Solid r

theorem assertStmt_meets (hb : 8 * remaining p + 2 ≤ b) : Meets (assertStmt rec) p QuietSolid := by
  unfold assertStmt
  refine Meets.bind (R.parsePrecedence _ _ _ (by omega)) fun left q h₁ hl => ?_
  have := h₁.remaining
  refine Meets.bind (consume_meets _ _) fun _ q₁ h₂ _ => ?_
  have := h₂.remaining
  refine Meets.bind (R.parsePrecedence _ _ _ (by omega)) fun right q₂ h₃ hr => ?_
  refine Meets.bind consumeSemicolon_meets fun _ q₃ h₄ _ => Meets.pure fun hq => ?_
  exact ⟨hl.ruled.solid (h₂.quiet (h₃.quiet (h₄.quiet hq))), hr.ruled.solid (h₄.quiet hq)⟩

theorem returnTurn_meets (values : List Node) (hb : 8 * remaining p + 2 ≤ b) :
    Meets (returnTurn rec values) p fun r p' =>
      match r with
      | .inl _ => remaining p' < remaining p
      | .inr result => result = none → p'.panic = true := by
  unfold returnTurn
  refine Meets.bind (R.parsePrecedence _ _ _ (by omega)) fun node q h₁ hnode => ?_
  refine Meets.ite (fun _ => Meets.get (error_bind fun _ _ hp => Meets.pure fun _ => hp)) fun hn => ?_
  have hn : node.isNull = false := by simpa using hn
  refine Meets.bind (deref_meets (hnode.isNode hn)) fun _ q₁ _ hq₁ => ?_
  subst hq₁
  refine match_bind (by decide) (fun q₂ h₂ hlt _ => Meets.pure ?_) fun _ => Meets.pure nofun
  exact Nat.lt_of_lt_of_le hlt h₁.remaining

theorem returnStmt_meets (hb : 8 * remaining p + 2 ≤ b) : Meets (returnStmt rec) p QuietSolid := by
  unfold returnStmt
  refine match_bind (by decide) (fun _ _ _ _ => Meets.pure fun _ => trivial) fun _ => ?_
  have hloop : Meets (loop .outOfFuel (returnTurn rec) rec.fuel []) p fun r p' => r = none → p'.panic = true := by
    have := R.fuel
    refine Meets.loop (fun _ q => 8 * remaining q + 2 ≤ b) remaining (fun values q hq => ?_) hb (by omega)
    refine Meets.mono (returnTurn_meets R values hq) fun r q' hs hr => ?_
    cases r with
    | inl values =>
      have : remaining q' < remaining q := hr
      exact ⟨by omega, this⟩
    | inr result => exact hr
  refine Meets.bind hloop fun r q _ hr => ?_
  cases r with
  | none => exact Meets.pure fun hq => absurd ((hr rfl).symm.trans hq) nofun
  | some values => exact Meets.bind consumeSemicolon_meets fun _ _ _ _ => Meets.pure fun _ => trivial

omit R in
theorem namedLiteral_meets : Meets namedLiteral p fun r p' =>
    (r = none → p'.panic = true) ∧ (p.current.type ≠ .eof → remaining p' < remaining p) := by
  unfold namedLiteral
  refine Meets.bind advance_meets fun _ q _ hq => ?_
  refine Meets.bind (identifier_meets _) fun r q₁ hs hr => ?_
  have hlt (he : p.current.type ≠ .eof) : remaining q₁ < remaining p := Nat.lt_of_le_of_lt hs.remaining (hq.2 he)
  obtain ⟨opcode, node⟩ := r
  rcases hr.2 with ⟨l, hl, _⟩ | ⟨hl, hp⟩
  · rw [show node = _ from hl]
    exact Meets.pure ⟨nofun, hlt⟩
  · rw [show node = _ from hl]
    exact Meets.pure ⟨fun _ => hp, hlt⟩

omit R in
theorem importAlias_meets : Meets importAlias p fun _ _ => True := by
  unfold importAlias
  refine match_bind (by decide) (fun _ _ _ _ => ?_) fun _ => Meets.pure trivial
  refine Meets.bind namedLiteral_meets fun _ _ _ _ => Meets.get ?_
  refine Meets.bind (access_meets _) fun _ _ _ _ => ?_
  exact Meets.bind (freeASTNode_meets _) fun _ _ _ _ => Meets.pure trivial

omit R in
theorem importStmt_meets : Meets importStmt p QuietSolid := by
  unfold importStmt
  refine Meets.bind namedLiteral_meets fun r q _ hr => ?_
  cases r with
  | none => exact Meets.pure fun hq => absurd ((hr.1 rfl).symm.trans hq) nofun
  | some idn =>
    refine Meets.bind (freeASTNode_meets _) fun _ _ _ _ => ?_
    refine Meets.bind importAlias_meets fun _ _ _ _ => ?_
    exact Meets.bind consumeSemicolon_meets fun _ _ _ _ => Meets.pure fun _ => trivial

omit R in
/-- Behind its first token, whatever the statement does it has taken one. -/
theorem behind {m : P Node} {q : Parser} {t : TokenType} (ht : t ≠ .eof) (hcur : p.current.type = t)
    (hlt : remaining q < remaining p) (h : Meets m q QuietSolid) : Meets m q (Declared p) :=
  Meets.mono h fun _ _ hs hq =>
    ⟨hq, fun _ => Nat.lt_of_le_of_lt hs.remaining hlt, fun he => absurd (hcur.symm.trans he) ht⟩

omit R in
/-- A token of its own is enough of a statement. -/
theorem keyword_meets (node : Node) (hs : Solid node) :
    Meets (do consumeSemicolon; pure node) p QuietSolid :=
  Meets.bind consumeSemicolon_meets fun _ _ _ _ => Meets.pure fun _ => hs

theorem expressionStmt_meets (hb : 8 * remaining p + 1 ≤ b) : Meets (expressionStmt rec) p (Declared p) := by
  unfold expressionStmt
  refine match_bind (by decide) (fun q _ hlt hcur => ?_) fun _ => ?_
  · exact behind (by decide) hcur hlt (Meets.pure fun _ => trivial)
  · refine Meets.bind (expression_meets R _ hb) fun node q h₁ hnode => ?_
    refine Meets.bind consumeSemicolon_meets fun _ q₁ h₂ _ => Meets.pure ?_
    refine ⟨(hnode.ruled.later h₂).solid, fun he => ?_, fun he => h₂.panic (hnode.atEof he).1⟩
    exact Nat.lt_of_le_of_lt h₂.remaining (hnode.consumes he)

theorem statement_meets (hb : 8 * remaining p + 2 ≤ b + 1) : Meets (statement rec) p (Declared p) := by
  have solid {m : P Node} {q : Parser} (h : Meets m q fun r _ => Solid r) : Meets m q QuietSolid :=
    Meets.mono h fun _ _ _ hs _ => hs
  unfold statement
  refine match_bind (by decide) (fun q _ hlt hc => ?_) fun _ => ?_
  · exact behind (by decide) hc hlt (solid (blockStmt_meets R (by omega)))
  refine match_bind (by decide) (fun q _ hlt hc => ?_) fun _ => ?_
  · exact behind (by decide) hc hlt (assertStmt_meets R (by omega))
  refine match_bind (by decide) (fun q _ hlt hc => ?_) fun _ => ?_
  · exact behind (by decide) hc hlt (Meets.mono (R.parseIfChain _ (by omega)) fun _ _ _ h => h.solid)
  refine match_bind (by decide) (fun q _ hlt hc => ?_) fun _ => ?_
  · exact behind (by decide) hc hlt (solid (whileStmt_meets R (by omega)))
  refine match_bind (by decide) (fun q _ hlt hc => ?_) fun _ => ?_
  · exact behind (by decide) hc hlt (solid (forStmt_meets R (by omega)))
  refine match_bind (by decide) (fun q _ hlt hc => ?_) fun _ => ?_
  · exact behind (by decide) hc hlt (keyword_meets _ trivial)
  refine match_bind (by decide) (fun q _ hlt hc => ?_) fun _ => ?_
  · exact behind (by decide) hc hlt (keyword_meets _ trivial)
  refine match_bind (by decide) (fun q _ hlt hc => ?_) fun _ => ?_
  · exact behind (by decide) hc hlt (returnStmt_meets R (by omega))
  refine match_bind (by decide) (fun q _ hlt hc => ?_) fun _ => ?_
  · exact behind (by decide) hc hlt importStmt_meets
  exact expressionStmt_meets R (by omega)

/-! ## Types -/

theorem compoundType_meets (hb : 8 * remaining p + 1 ≤ b) : Meets (compoundType rec) p fun _ _ => True := by
  unfold compoundType
  refine Meets.bind (R.readTypeToLiteral _ hb) fun l q h₁ _ => ?_
  have := h₁.remaining
  refine Meets.bind (P := fun _ _ => True) ?_ fun _ _ _ _ => ?_
  · refine match_bind (by decide) (fun q₁ h₂ _ _ => ?_) fun _ => Meets.pure trivial
    have := h₂.remaining
    exact Meets.bind (R.readTypeToLiteral _ (by omega)) fun _ _ _ _ => Meets.pure trivial
  · exact Meets.bind (consume_meets _ _) fun _ _ _ _ => Meets.pure trivial

theorem typeToken_meets (hb : p.previous.type ≠ .eof → 8 * remaining p + 1 ≤ b) :
    Meets (typeToken rec) p fun _ _ => True := by
  unfold typeToken
  refine Meets.get ?_
  split
  · exact Meets.pure trivial
  · refine Meets.ite (fun hc => ?_) fun _ => ?_
    · exact Meets.bind (compoundType_meets R (hb (by rw [hc]; decide))) fun _ _ _ _ => Meets.pure trivial
    · refine Meets.ite (fun _ => ?_) fun _ => error_bind fun _ _ _ => Meets.pure trivial
      exact Meets.bind (identifierLiteral_meets _) fun _ _ _ _ => Meets.pure trivial

theorem readTypeToLiteral_meets (hb : 8 * remaining p + 1 ≤ b + 1) :
    Meets (readTypeToLiteral rec) p fun _ _ => True := by
  unfold readTypeToLiteral
  refine Meets.bind advance_meets fun _ q _ hq => ?_
  have hroom (he : q.previous.type ≠ .eof) : 8 * remaining q + 1 ≤ b := by
    have := hq.2 (by rwa [← hq.1])
    omega
  refine Meets.bind (typeToken_meets R hroom) fun r _ _ _ => ?_
  cases r with
  | none => exact Meets.pure trivial
  | some literal => exact match_bind (by decide) (fun _ _ _ _ => Meets.pure trivial) fun _ => Meets.pure trivial

theorem declaredType_meets (hb : 8 * remaining p + 1 ≤ b) : Meets (declaredType rec) p fun _ _ => True := by
  unfold declaredType
  refine match_bind (by decide) (fun q _ hlt _ => ?_) fun _ => Meets.pure trivial
  exact R.readTypeToLiteral _ (by omega)

/-! ## Declarations -/

omit R in
theorem declaredName_meets (msg : String) : Meets (declaredName msg) p fun _ _ => True := by
  unfold declaredName
  refine Meets.bind (consume_meets _ _) fun _ _ _ _ => Meets.get ?_
  exact Meets.bind (identifierLiteral_meets _) fun _ _ _ _ => Meets.pure trivial

theorem varDecl_meets (hb : 8 * remaining p + 2 ≤ b) : Meets (varDecl rec) p fun r _ => Solid r := by
  unfold varDecl
  refine Meets.bind (declaredName_meets _) fun _ q h₁ _ => ?_
  have := h₁.remaining
  refine Meets.bind (declaredType_meets R (by omega)) fun _ q₁ h₂ _ => ?_
  have := h₂.remaining
  refine Meets.bind (P := fun _ _ => True) ?_ fun _ _ _ _ => ?_
  · refine match_bind (by decide) (fun q₂ h₃ _ _ => ?_) fun _ => Meets.pure trivial
    have := h₃.remaining
    exact Meets.bind (expression_meets R _ (by omega)) fun _ _ _ _ => Meets.pure trivial
  · exact Meets.bind consumeSemicolon_meets fun _ _ _ _ => Meets.pure trivial

theorem parameterTurn_meets (parameters : List Node) (hb : 8 * remaining p + 2 ≤ b) :
    Meets (parameterTurn rec parameters) p fun r p' => ∀ ps, r = .inl ps → remaining p' < remaining p := by
  unfold parameterTurn
  refine match_bind (by decide) (fun _ _ _ _ => ?_) fun _ => ?_
  · exact Meets.bind (declaredName_meets _) fun _ _ _ _ => Meets.pure nofun
  · refine Meets.bind (declaredName_meets _) fun _ q h₁ _ => ?_
    have := h₁.remaining
    refine Meets.bind (declaredType_meets R (by omega)) fun _ q₁ h₂ _ => ?_
    have := h₂.remaining
    exact match_bind (by decide) (fun _ _ _ _ => Meets.pure fun _ _ => by omega) fun _ => Meets.pure nofun

theorem parameterList_meets (hb : 8 * remaining p + 2 ≤ b) : Meets (parameterList rec) p fun _ _ => True := by
  unfold parameterList
  refine match_bind (by decide) (fun _ _ _ _ => Meets.pure trivial) fun _ => ?_
  have := R.fuel
  have hloop : Meets (loop .outOfFuel (parameterTurn rec) rec.fuel []) p fun _ _ => True := by
    refine Meets.loop (fun _ q => 8 * remaining q + 2 ≤ b) remaining (fun parameters q hq => ?_) hb (by omega)
    refine Meets.mono (parameterTurn_meets R parameters hq) fun r q' hs hr => ?_
    cases r with
    | inl parameters =>
      have := hr parameters rfl
      exact ⟨by omega, this⟩
    | inr result => trivial
  exact Meets.bind hloop fun _ _ _ _ => Meets.bind (consume_meets _ _) fun _ _ _ _ => Meets.pure trivial

theorem returnTypeTurn_meets (returns : List Node) (hb : 8 * remaining p + 2 ≤ b) :
    Meets (returnTypeTurn rec returns) p fun r p' => ∀ ps, r = .inl ps → remaining p' < remaining p := by
  unfold returnTypeTurn
  refine Meets.bind (R.readTypeToLiteral _ (by omega)) fun _ q h₁ _ => ?_
  have := h₁.remaining
  exact match_bind (by decide) (fun _ _ _ _ => Meets.pure fun _ _ => by omega) fun _ => Meets.pure nofun

theorem returnTypes_meets (hb : 8 * remaining p + 2 ≤ b) : Meets (returnTypes rec) p fun _ _ => True := by
  unfold returnTypes
  refine match_bind (by decide) (fun q _ _ _ => ?_) fun _ => Meets.pure trivial
  have := R.fuel
  refine Meets.loop (fun _ q => 8 * remaining q + 2 ≤ b) remaining (fun returns q hq => ?_) (by omega) (by omega)
  refine Meets.mono (returnTypeTurn_meets R returns hq) fun r q' hs hr => ?_
  cases r with
  | inl returns =>
    have := hr returns rfl
    exact ⟨by omega, this⟩
  | inr result => trivial

theorem fnDecl_meets (hb : 8 * remaining p + 2 ≤ b) : Meets (fnDecl rec) p fun r _ => Solid r := by
  unfold fnDecl
  refine Meets.bind (declaredName_meets _) fun _ q h₁ _ => ?_
  have := h₁.remaining
  refine Meets.bind (consume_meets _ _) fun _ q₁ h₂ _ => ?_
  have := h₂.remaining
  refine Meets.bind (parameterList_meets R (by omega)) fun _ q₂ h₃ _ => ?_
  have := h₃.remaining
  refine Meets.bind (returnTypes_meets R (by omega)) fun _ q₃ h₄ _ => ?_
  have := h₄.remaining
  refine Meets.bind (consume_meets _ _) fun _ q₄ h₅ _ => ?_
  have := h₅.remaining
  exact Meets.bind (blockStmt_meets R (by omega)) fun _ _ _ _ => Meets.pure trivial

theorem declaration_meets (hb : 8 * remaining p + 2 ≤ b + 1) : Meets (declaration rec) p (Declared p) := by
  unfold declaration
  refine match_bind (by decide) (fun q _ hlt hc => ?_) fun _ => ?_
  · exact behind (by decide) hc hlt (Meets.mono (varDecl_meets R (by omega)) fun _ _ _ hs _ => hs)
  refine match_bind (by decide) (fun q _ hlt hc => ?_) fun _ => ?_
  · exact behind (by decide) hc hlt (Meets.mono (fnDecl_meets R (by omega)) fun _ _ _ hs _ => hs)
  exact statement_meets R hb

end Statements

/-- The recursion keeps its promises, at every level. -/
theorem recAt_spec (rightWordIsZero : Parser → Node → Bool) (n : Nat) : RecSpec (recAt rightWordIsZero n) n := by
  induction n with
  | zero =>
    refine ⟨fun _ _ _ h => ?_, fun _ h => ?_, fun _ h => ?_, fun _ h => ?_, Nat.le_refl _⟩ <;> omega
  | succ n ih =>
    exact ⟨fun handle rule _ h => parsePrecedence_meets ih handle rule h, fun _ h => declaration_meets ih h,
      fun _ h => parseIfChain_meets ih h, fun _ h => readTypeToLiteral_meets ih h, Nat.le_refl _⟩

end Xvr.Frontend.Parse
