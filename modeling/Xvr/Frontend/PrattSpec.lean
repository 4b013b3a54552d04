/-
  Xvr.Frontend.PrattSpec — the contracts of the infix rules and of `parsePrecedence`.

  An infix rule that does not end the expression has stepped over its operator, so every
  turn of the Pratt loop takes a token; the loop keeps that a quiet left side is solid.
-/

import Xvr.Frontend.ParserSpec

namespace Xvr.Frontend.Parse

open Xvr.Runtime Xvr.Lib

/-- What an infix rule promises, from the null pointer. -/
structure Infixed (p : Parser) (r : Opcode × Node) (p' : Parser) : Prop where
  ruled : Ruled .null r.2 p'
  consumes : r.1 ≠ .eof → remaining p' < remaining p

theorem Infixed.raised {p p' : Parser} (h : p'.panic = true) : Infixed p (.eof, .null) p' :=
  ⟨.untouched h, fun h => absurd rfl h⟩

theorem Infixed.built {p p' : Parser} {opcode : Opcode} {r : Node} (h : Solid r) (hlt : remaining p' < remaining p) :
    Infixed p (opcode, r) p' :=
  ⟨.built h, fun _ => hlt⟩

/-! ## Infix rules -/

section InfixRules

variable {p : Parser}

theorem castingInfix_meets (he : p.current.type ≠ .eof) : Meets (castingInfix .null) p (Infixed p) := by
  unfold castingInfix
  refine Meets.bind advance_meets fun _ q _ hq => Meets.get ?_
  have hlt := hq.2 he
  split
  · refine Meets.bind (identifier_meets _) fun r q₁ h₁ hr => Meets.pure ⟨hr.1, fun _ => ?_⟩
    exact Nat.lt_of_le_of_lt h₁.remaining hlt
  case h_7 => exact error_bind fun _ _ hp => Meets.pure (.raised hp)
  all_goals
    refine Meets.bind (atomic_meets _) fun r q₁ h₁ hr => Meets.pure ⟨hr, fun _ => ?_⟩
    exact Nat.lt_of_le_of_lt h₁.remaining hlt

theorem stepInfix_meets {emit : Literal → Node} (hem : ∀ l, Solid (emit l)) :
    Meets (stepInfix emit .null) p (Infixed p) := by
  unfold stepInfix
  refine Meets.bind steppedIdentifier_meets fun r q h₁ hr => ?_
  cases r with
  | none => exact Meets.pure (.raised (hr rfl))
  | some l =>
    refine Meets.bind advance_meets fun _ q₁ _ _ => ?_
    exact Meets.bind (freeASTNode_meets _) fun _ _ _ _ => Meets.pure ⟨.built (hem l), fun h => absurd rfl h⟩

theorem incrementInfix_meets : Meets (incrementInfix .null) p (Infixed p) := stepInfix_meets fun _ => trivial

theorem decrementInfix_meets : Meets (decrementInfix .null) p (Infixed p) := stepInfix_meets fun _ => trivial

variable {rec : Rec} {b : Nat} (R : RecSpec rec b)

include R

theorem binary_meets (hb : 8 * remaining p + 3 ≤ b) (he : p.current.type ≠ .eof) :
    Meets (binary rec .null) p (Infixed p) := by
  unfold binary
  refine Meets.bind advance_meets fun _ q _ hq => Meets.get ?_
  have hlt := hq.2 he
  split
  · refine Meets.bind (R.parsePrecedence _ _ _ (by omega)) fun node q₁ h₁ hnode => Meets.pure ⟨hnode.ruled, fun _ => ?_⟩
    exact Nat.lt_of_le_of_lt h₁.remaining hlt
  · exact error_bind fun _ _ hp => Meets.pure (.raised hp)

/-- One argument brings the call closer to the end, or ends it early with an error. -/
theorem argumentTurn_meets (arguments : List Node) (hb : 8 * remaining p + 3 ≤ b) :
    Meets (argumentTurn rec arguments) p fun r p' =>
      match r with
      | .inl _ => remaining p' < remaining p
      | .inr result => result = none → p'.panic = true := by
  unfold argumentTurn
  refine Meets.bind (R.parsePrecedence _ _ _ (by omega)) fun node q h₁ hnode => ?_
  refine Meets.ite (fun _ => Meets.get (error_bind fun _ _ hp => Meets.pure fun _ => hp)) fun hn => ?_
  have hn : node.isNull = false := by simpa using hn
  refine Meets.bind (deref_meets (hnode.isNode hn)) fun _ q₁ _ hq₁ => ?_
  subst hq₁
  refine match_bind (by decide) (fun q₂ h₂ hlt _ => Meets.pure ?_) fun _ => ?_
  · exact Nat.lt_of_lt_of_le hlt h₁.remaining
  · exact Meets.bind (consume_meets _ _) fun _ _ _ _ => Meets.pure nofun

theorem arguments_meets (hb : 8 * remaining p + 3 ≤ b) :
    Meets (loop .outOfFuel (argumentTurn rec) rec.fuel []) p fun r p' => r = none → p'.panic = true := by
  have := R.fuel
  refine Meets.loop (fun _ q => 8 * remaining q + 3 ≤ b) remaining (fun arguments q hq => ?_) hb (by omega)
  refine Meets.mono (argumentTurn_meets R arguments hq) fun r q' hs hr => ?_
  cases r with
  | inl arguments =>
    have : remaining q' < remaining q := hr
    exact ⟨by omega, this⟩
  | inr result => exact hr

theorem fnCall_meets (hb : 8 * remaining p + 3 ≤ b) (he : p.current.type ≠ .eof) :
    Meets (fnCall rec .null) p (Infixed p) := by
  unfold fnCall
  refine Meets.bind advance_meets fun _ q _ hq => Meets.get ?_
  have hlt := hq.2 he
  refine Meets.ite (fun _ => ?_) fun _ => error_bind fun _ _ hp => Meets.pure (.raised hp)
  refine match_bind (by decide) (fun q₁ _ hlt₁ _ => Meets.pure (.built trivial (by omega))) fun _ => ?_
  refine Meets.bind (arguments_meets R (by omega)) fun r q₁ h₁ hr => ?_
  have := h₁.remaining
  cases r with
  | none => exact Meets.pure (.raised (hr rfl))
  | some arguments => exact Meets.pure (.built trivial (by omega))

theorem indexPart_meets (hb : 8 * remaining p + 1 ≤ b) : Meets (indexPart rec) p fun _ _ => True := by
  unfold indexPart
  refine Meets.bind (freeASTNode_meets _) fun _ q h₁ _ => ?_
  have := h₁.remaining
  exact Meets.mono (R.parsePrecedence _ _ _ (by omega)) fun _ _ _ _ => trivial

theorem secondPart_meets (hb : 8 * remaining p + 1 ≤ b) :
    Meets (do
      if ← matchToken .colon then pure indexBlank
      else
        let second ← indexPart rec
        let _ ← matchToken .colon
        pure second) p fun _ _ => True := by
  refine match_bind (by decide) (fun _ _ _ _ => Meets.pure trivial) fun _ => ?_
  refine Meets.bind (indexPart_meets R hb) fun _ _ _ _ => ?_
  exact Meets.bind (matchToken_meets _) fun _ _ _ _ => Meets.pure trivial

theorem indexRest_meets {q : Parser} (first : Node) (readFirst : Bool) (hb : 8 * remaining q + 1 ≤ b)
    (hq : remaining q < remaining p) : Meets (indexRest rec first readFirst) q (Infixed p) := by
  unfold indexRest
  refine match_bind (by decide) (fun q₁ _ _ _ => ?_) fun _ => ?_
  · refine Meets.bind (freeIf_meets _ _) fun _ q₂ h₂ _ => ?_
    refine Meets.bind (freeASTNode_meets _) fun _ q₃ h₃ _ => Meets.pure (.built trivial ?_)
    have := h₂.remaining
    have := h₃.remaining
    omega
  · refine Meets.bind (secondPart_meets R hb) fun second q₁ h₁ _ => ?_
    have := h₁.remaining
    refine match_bind (by decide) (fun q₂ h₂ _ _ => ?_) fun _ => ?_
    · refine Meets.bind (freeASTNode_meets _) fun _ q₃ h₃ _ => Meets.pure (.built trivial ?_)
      have := h₃.remaining
      omega
    · refine Meets.bind (indexPart_meets R (by omega)) fun third q₂ h₂ _ => ?_
      refine Meets.bind (consume_meets _ _) fun _ q₃ h₃ _ => Meets.pure (.built trivial ?_)
      have := h₂.remaining
      have := h₃.remaining
      omega

theorem indexAccess_meets (hb : 8 * remaining p + 3 ≤ b) (he : p.current.type ≠ .eof) :
    Meets (indexAccess rec .null) p (Infixed p) := by
  unfold indexAccess
  refine Meets.bind advance_meets fun _ q _ hq => ?_
  have hlt := hq.2 he
  refine match_bind (by decide) (fun q₁ _ _ _ => indexRest_meets R _ _ (by omega) (by omega)) fun _ => ?_
  refine Meets.bind (indexPart_meets R (by omega)) fun first q₁ h₁ _ => ?_
  refine Meets.bind (matchToken_meets _) fun _ q₂ h₂ _ => ?_
  have := h₁.remaining
  have := h₂.remaining
  exact indexRest_meets R _ _ (by omega) (by omega)

theorem question_meets (hb : 8 * remaining p + 3 ≤ b) (he : p.current.type ≠ .eof) :
    Meets (question rec .null) p (Infixed p) := by
  unfold question
  refine Meets.bind advance_meets fun _ q _ hq => ?_
  have hlt := hq.2 he
  refine Meets.bind (R.parsePrecedence _ _ _ (by omega)) fun _ q₁ h₁ _ => ?_
  refine Meets.bind (consume_meets _ _) fun _ q₂ h₂ _ => ?_
  have := h₁.remaining
  have := h₂.remaining
  refine Meets.bind (R.parsePrecedence _ _ _ (by omega)) fun _ q₃ h₃ _ => Meets.pure (.built trivial ?_)
  have := h₃.remaining
  omega

theorem dot_meets (hb : 8 * remaining p + 3 ≤ b) (he : p.current.type ≠ .eof) :
    Meets (dot rec .null) p (Infixed p) := by
  unfold dot
  refine Meets.bind advance_meets fun _ q _ hq => ?_
  have hlt := hq.2 he
  refine Meets.bind (R.parsePrecedence _ _ _ (by omega)) fun node q₁ h₁ hnode => Meets.get ?_
  refine Meets.ite (fun _ => error_bind fun _ _ hp => Meets.pure (.raised hp)) fun _ => ?_
  exact Meets.pure ⟨hnode.ruled, fun _ => Nat.lt_of_le_of_lt h₁.remaining hlt⟩

/-! ## The table -/

theorem prefixRule_meets {t : TokenType} {f : ParseFn} (h : (getRule rec t).prefixRule = some f) (handle : Node)
    (hb : 8 * remaining p + 3 ≤ b) : Meets (f handle) p fun r => Ruled handle r.2 := by
  cases getRule_prefixOf h with
  | atomic => exact atomic_meets handle
  | castingPrefix => exact castingPrefix_meets R handle hb
  | ifExpression => exact ifExpression_meets R handle hb
  | identifierOrKeyword => exact identifierOrKeyword_meets handle
  | asType => exact asType_meets R handle hb
  | typeOf => exact typeOf_meets R handle hb
  | identifier => exact Meets.mono (identifier_meets handle) fun _ _ _ h => h.1
  | string => exact string_meets handle
  | unary => exact unary_meets R handle hb
  | increment => exact incrementPrefix_meets handle
  | decrement => exact decrementPrefix_meets handle
  | grouping => exact grouping_meets R handle hb
  | compound => exact compound_meets R handle hb

theorem infixRule_meets {f : ParseFn} (h : (getRule rec p.current.type).infixRule = some f)
    (hb : 8 * remaining p + 3 ≤ b) : Meets (f .null) p (Infixed p) := by
  have he : p.current.type ≠ .eof := fun he => by rw [he] at h; cases h
  cases getRule_infixOf h with
  | fnCall => exact fnCall_meets R hb he
  | castingInfix => exact castingInfix_meets he
  | binary => exact binary_meets R hb he
  | increment => exact incrementInfix_meets
  | decrement => exact decrementInfix_meets
  | indexAccess => exact indexAccess_meets R hb he
  | question => exact question_meets R hb he
  | dot => exact dot_meets R hb he

/-! ## The Pratt loop -/

omit R in
theorem setCondition_ruled {handle lhs rhs : Node} {p' : Parser} (h : Ruled .null rhs p') :
    Ruled handle (setCondition lhs rhs) p' := by
  have hw := h.pointer nofun
  refine ⟨fun hq => ?_, fun _ => ?_⟩
  · have hs := h.solid hq
    cases rhs <;> exact hs
  · cases rhs <;> first | exact absurd rfl hw | exact nofun

omit R in
theorem shiftIndex_ruled {handle lhs rhs : Node} {p' : Parser} (h : Ruled .null rhs p') :
    Ruled handle (shiftIndex lhs rhs) p' := by
  have hw := h.pointer nofun
  refine ⟨fun hq => ?_, fun _ => ?_⟩
  · have hs := h.solid hq
    cases rhs <;> exact hs
  · cases rhs <;> first | exact absurd rfl hw | exact nofun

omit R in
/-- How the Pratt loop goes on: with a good left side, or with a good result. -/
def Turned (handle : Node) (r : Node ⊕ PrattEnd) (p' : Parser) : Prop :=
  match r with
  | .inl node => Ruled handle node p'
  | .inr (.loopEnd node) => Ruled handle node p'
  | .inr (.returned node) => Ruled handle node p'

omit R in
theorem binaryTurn_meets (handle : Node) {lhs rhs : Node} (opcode : Opcode) (hl : p.panic = false → Solid lhs)
    (hr : p.panic = false → Solid rhs) : Meets (binaryTurn lhs rhs opcode) p (Turned handle) := by
  unfold binaryTurn
  refine Meets.get (Meets.ite (fun hp => Meets.pure ?_) fun hp => ?_)
  · exact ⟨fun hq => absurd (hp.symm.trans hq) nofun, fun _ => nofun⟩
  · have hp : p.panic = false := by simpa using hp
    refine Meets.bind (calcStatic_meets _ _ ⟨hl hp, hr hp⟩) fun r q _ hs => ?_
    exact Meets.ite (fun _ => Meets.pure (.built hs)) fun _ => Meets.pure (.built hs)

omit R in
/-- Only an opcode other than EOF goes on. -/
theorem combine_meets {handle lhs rhs : Node} (opcode : Opcode) (hl : Ruled handle lhs p) (hr : Ruled .null rhs p) :
    Meets (combine lhs opcode rhs) p fun r p' => Turned handle r p' ∧ (opcode = .eof → ∀ node, r ≠ .inl node) := by
  unfold combine
  split
  · refine Meets.bind (freeASTNode_meets _) fun _ q hs _ => Meets.pure ⟨?_, fun _ => nofun⟩
    exact ⟨(hr.later hs).solid, fun _ => hr.pointer nofun⟩
  · refine Meets.bind (dottify_meets _ _) fun r q hs hd => ?_
    refine Meets.mono (binaryTurn_meets handle _ (hl.later hs).solid fun hq => hd.1 ((hr.later hs).solid hq)) ?_
    exact fun _ _ _ h => ⟨h, nofun⟩
  · exact Meets.pure ⟨setCondition_ruled hr, nofun⟩
  · exact Meets.pure ⟨shiftIndex_ruled hr, nofun⟩
  · rename_i hne _ _ _
    exact Meets.mono (binaryTurn_meets handle _ hl.solid hr.solid) fun _ _ _ h => ⟨h, fun he => absurd he hne⟩

theorem prattTurn_meets {handle node : Node} (rule : PrecedenceRule) (hb : 8 * remaining p + 3 ≤ b)
    (hn : Ruled handle node p) : Meets (prattTurn rec rule node) p fun r p' =>
      Turned handle r p' ∧ ∀ node', r = .inl node' → remaining p' < remaining p := by
  unfold prattTurn
  refine Meets.get (Meets.ite (fun _ => ?_) fun _ => Meets.pure ⟨hn, nofun⟩)
  split
  · refine error_bind fun q _ hp => Meets.pure ⟨?_, nofun⟩
    exact ⟨fun hq => absurd (hp.symm.trans hq) nofun, fun _ => nofun⟩
  · rename_i f hf
    refine Meets.bind (infixRule_meets R hf hb) fun r q hs hr => ?_
    refine Meets.mono (combine_meets r.1 (hn.later hs) hr.ruled) fun r' q' hs' hr' => ⟨hr'.1, fun node' he => ?_⟩
    have hlt := hr.consumes fun heof => hr'.2 heof node' he
    exact Nat.lt_of_le_of_lt hs'.remaining hlt

omit R in
/-- The node the loop ends with. -/
def PrattEnd.node : PrattEnd → Node
  | .loopEnd node => node
  | .returned node => node

theorem prattLoop_meets {handle node : Node} (rule : PrecedenceRule) (hb : 8 * remaining p + 3 ≤ b)
    (hn : Ruled handle node p) :
    Meets (loop .outOfFuel (prattTurn rec rule) rec.fuel node) p fun r => Ruled handle r.node := by
  have := R.fuel
  refine Meets.loop (fun node q => 8 * remaining q + 3 ≤ b ∧ Ruled handle node q) remaining
    (fun node q hq => ?_) ⟨hb, hn⟩ (by omega)
  refine Meets.mono (prattTurn_meets R rule hq.1 hq.2) fun r q' hs hr => ?_
  cases r with
  | inl node =>
    have := hr.2 node rfl
    exact ⟨⟨by omega, hr.1⟩, this⟩
  | inr result => cases result <;> exact hr.1

omit R in
theorem checkAssignment_meets (rule : PrecedenceRule) : Meets (checkAssignment rule) p fun _ _ => True := by
  unfold checkAssignment
  refine Meets.ite (fun _ => ?_) fun _ => Meets.pure trivial
  refine match_bind (by decide) (fun _ _ _ _ => Meets.get ?_) fun _ => Meets.pure trivial
  exact Meets.mono (error_meets _ _) fun _ _ _ _ => trivial

omit R in
theorem endExpression_meets {handle : Node} {r : PrattEnd} (rule : PrecedenceRule) (hr : Ruled handle r.node p) :
    Meets (endExpression rule r) p (Ruled handle) := by
  cases r with
  | returned node => exact Meets.pure hr
  | loopEnd node => exact Meets.bind (checkAssignment_meets _) fun _ _ hs _ => Meets.pure (hr.later hs)

/-- Before EOF a token is taken; at EOF there is no rule, an error and no node. -/
theorem parsePrecedence_meets (handle : Node) (rule : PrecedenceRule) (hb : 8 * remaining p + 1 ≤ b + 1) :
    Meets (parsePrecedence rec handle rule) p (Parsed handle p) := by
  unfold parsePrecedence
  refine Meets.bind advance_meets fun _ q hs hq => Meets.get ?_
  have hrem := hs.remaining
  cases hf : (getRule rec q.previous.type).prefixRule with
  | none =>
    refine error_bind fun q₁ hs₁ hp =>
      Meets.pure ⟨⟨fun h => absurd (hp.symm.trans h) nofun, fun _ => nofun⟩, fun he => ?_, fun _ => ⟨hp, rfl⟩⟩
    exact Nat.lt_of_le_of_lt hs₁.remaining (hq.2 he)
  | some f =>
    have he : p.current.type ≠ .eof := fun he => by rw [hq.1, he] at hf; cases hf
    have hlt := hq.2 he
    refine Meets.bind (prefixRule_meets R hf handle (by omega)) fun r q₁ hs₁ hr => ?_
    have := hs₁.remaining
    refine Meets.bind (prattLoop_meets R rule (by omega) hr) fun r q₂ hs₂ hr => ?_
    have := hs₂.remaining
    refine Meets.mono (endExpression_meets rule hr) fun node q₃ hs₃ hnode => ?_
    have := hs₃.remaining
    exact ⟨hnode, fun _ => by omega, fun h => absurd h he⟩

end InfixRules

end Xvr.Frontend.Parse
