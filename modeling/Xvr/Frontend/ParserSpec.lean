/-
  Xvr.Frontend.ParserSpec — one contract for every rule of the parser.

  A rule that ends quietly answers a `Solid` node: a real one, whose BINARY spine has real
  children; one that raises may answer anything. `RecSpec rec b` is what the calls back
  into the parser promise where the tokens left fit the bound; each rule's contract is
  proved from it, and none of them needs more than the step frame says of the state.
-/

import Xvr.Frontend.ParserSteps

namespace Xvr.Frontend.Parse

open Xvr.Runtime Xvr.Lib

@[simp] def Solid : Node → Prop
  | .null | .wild | .error => False
  | .binary _ left right => Solid left ∧ Solid right
  | _ => True

theorem Solid.isNode {node : Node} (h : Solid node) : node.isNode = true := by
  cases node <;> simp_all [Node.isNode]

theorem Solid.ne_wild {node : Node} (h : Solid node) : node ≠ .wild := by
  rintro rfl
  exact h

theorem Solid.not_null {node : Node} (h : Solid node) : node.isNull = false := by
  cases node <;> simp_all [Node.isNull]

theorem Solid.not_error {node : Node} (h : Solid node) : node.isError = false := by
  cases node <;> simp_all [Node.isError]

theorem isNode_of_not_null {node : Node} (h : node.isNull = false) (hw : node ≠ .wild) : node.isNode = true := by
  cases node <;> simp_all [Node.isNode, Node.isNull]

/-! ## Folding -/

section Folding

variable {p : Parser}

theorem foldError_meets (message : String) : Meets (foldError message) p fun _ _ => True :=
  Meets.get (error_bind fun _ _ _ => Meets.pure trivial)

theorem foldIntegers_meets (opcode : Opcode) (lhs rhs : BitVec 32) :
    Meets (foldIntegers opcode lhs rhs) p fun _ _ => True := by
  unfold foldIntegers
  split
  case h_4 | h_5 =>
    refine Meets.ite (fun _ => foldError_meets _) fun _ => ?_
    exact Meets.bind (access_meets _) fun _ _ _ _ => Meets.pure trivial
  all_goals first | exact Meets.pure trivial | exact foldError_meets _

theorem foldFloats_meets (opcode : Opcode) (lhs rhs : Float32) :
    Meets (foldFloats opcode lhs rhs) p fun _ _ => True := by
  unfold foldFloats
  split
  case h_4 => exact Meets.ite (fun _ => foldError_meets _) fun _ => Meets.pure trivial
  all_goals first | exact Meets.pure trivial | exact foldError_meets _

theorem foldLiterals_meets (opcode : Opcode) (lhs rhs : Literal) :
    Meets (foldLiterals opcode lhs rhs) p fun _ _ => True := by
  unfold foldLiterals
  refine Meets.ite (fun _ => ?_) fun _ => ?_
  · exact Meets.ite (fun _ => foldError_meets _) fun _ => Meets.pure trivial
  · refine Meets.ite (fun _ => foldIntegers_meets _ _ _) fun _ => ?_
    refine Meets.ite (fun _ => foldError_meets _) fun _ => ?_
    exact Meets.ite (fun _ => foldFloats_meets _ _ _) fun _ => Meets.pure trivial

theorem foldNode_meets {opcode : Opcode} {left right : Node} (hl : Solid left) (hr : Solid right) :
    Meets (foldNode opcode left right) p fun r _ => Solid r.2 := by
  unfold foldNode
  split
  · refine Meets.bind (foldLiterals_meets _ _ _) fun r _ _ _ => ?_
    cases r with
    | none => exact Meets.pure ⟨hl, hr⟩
    | some result =>
      refine Meets.ite (fun _ => Meets.pure ⟨hl, hr⟩) fun _ => ?_
      refine Meets.bind (freeASTNode_meets _) fun _ _ _ _ => ?_
      exact Meets.bind (freeASTNode_meets _) fun _ _ _ _ => Meets.pure trivial
  · exact Meets.pure ⟨hl, hr⟩

/-- Folding never reads through a pointer that is not one, and keeps the node solid. -/
theorem calcStatic_meets (node : Node) (p : Parser) (h : Solid node) :
    Meets (calcStaticBinaryArithmetic node) p fun r _ => Solid r.2 := by
  cases node with
  | binary opcode left right =>
    obtain ⟨hl, hr⟩ := h
    have child (n : Node) (hn : Solid n) (hrec : ∀ q, Meets (calcStaticBinaryArithmetic n) q fun r _ => Solid r.2)
        (q : Parser) : Meets (if n.isBinary then do pure (← calcStaticBinaryArithmetic n).2 else pure n) q
          fun n _ => Solid n :=
      Meets.ite (fun _ => Meets.bind (hrec q) fun _ _ _ hr => Meets.pure hr) fun _ => Meets.pure hn
    unfold calcStaticBinaryArithmetic
    refine Meets.ite (fun _ => ?_) fun _ => Meets.pure ⟨hl, hr⟩
    refine Meets.bind (deref_meets hl.isNode) fun _ _ _ _ => ?_
    refine Meets.bind (child left hl (fun q => calcStatic_meets left q hl) _) fun l _ _ hl => ?_
    refine Meets.bind (deref_meets hr.isNode) fun _ _ _ _ => ?_
    refine Meets.bind (child right hr (fun q => calcStatic_meets right q hr) _) fun r _ _ hr => ?_
    exact foldNode_meets hl hr
  | null | wild | error => exact absurd h id
  | _ => exact Meets.pure trivial

theorem countArgument_solid {node : Node} (h : Solid node) : Solid (countArgument node) := by
  cases node <;> simp_all [countArgument]

/-- What `dottify` keeps. -/
theorem dottify_meets (node : Node) (p : Parser) :
    Meets (dottify node) p fun r _ => (Solid node → Solid r) ∧ (node ≠ .wild → r ≠ .wild) := by
  cases node with
  | binary opcode left right =>
    unfold dottify
    refine Meets.bind (access_meets _) fun _ _ _ _ => ?_
    refine Meets.bind (dottify_meets left _) fun l _ _ hl => ?_
    refine Meets.bind (dottify_meets right _) fun r _ _ hr => ?_
    refine Meets.ite (fun _ => Meets.pure ?_) fun _ => Meets.pure ?_
    · exact ⟨fun h => ⟨hl.1 h.1, countArgument_solid (hr.1 h.2)⟩, fun _ => nofun⟩
    · exact ⟨fun h => ⟨hl.1 h.1, hr.1 h.2⟩, fun _ => nofun⟩
  | _ => exact Meets.bind (access_meets _) fun _ _ _ _ => Meets.pure ⟨id, id⟩

end Folding

/-! ## Contracts -/

/-- What a rule promises: a solid node when it ends quietly, and no stale pointer but one
    that was in its handle. -/
structure Ruled (handle : Node) (r : Node) (p' : Parser) : Prop where
  solid : p'.panic = false → Solid r
  pointer : handle ≠ .wild → r ≠ .wild

theorem Ruled.untouched {handle : Node} {p' : Parser} (h : p'.panic = true) : Ruled handle handle p' :=
  ⟨fun hp => absurd (h.symm.trans hp) nofun, id⟩

theorem Ruled.built {handle r : Node} {p' : Parser} (h : Solid r) : Ruled handle r p' :=
  ⟨fun _ => h, fun _ => h.ne_wild⟩

theorem Ruled.later {handle r : Node} {p' q : Parser} (h : Ruled handle r p') (hs : Step p' q) : Ruled handle r q :=
  ⟨fun hq => h.solid (hs.quiet hq), h.pointer⟩

/-- What `parsePrecedence` promises. -/
structure Parsed (handle : Node) (p : Parser) (r : Node) (p' : Parser) : Prop where
  ruled : Ruled handle r p'
  consumes : p.current.type ≠ .eof → remaining p' < remaining p
  atEof : p.current.type = .eof → p'.panic = true ∧ r = .null

/-- From the null pointer, a null answer means that the parser panics, and any other is a
    node that was there to read. -/
theorem Parsed.null {p p' : Parser} {r : Node} (h : Parsed .null p r p') (hr : r.isNull = true) : p'.panic = true := by
  cases hp : p'.panic with
  | true => rfl
  | false => rw [(h.ruled.solid hp).not_null] at hr; cases hr

theorem Parsed.lt {p p' : Parser} {r : Node} (h : Parsed .null p r p') (hr : r.isNull = false) :
    remaining p' < remaining p :=
  h.consumes fun he => by rw [(h.atEof he).2] at hr; cases hr

theorem Parsed.isNode {p p' : Parser} {r : Node} (h : Parsed .null p r p') (hr : r.isNull = false) :
    r.isNode = true :=
  isNode_of_not_null hr (h.ruled.pointer nofun)

/-- What `declaration` promises. -/
structure Declared (p : Parser) (r : Node) (p' : Parser) : Prop where
  solid : p'.panic = false → Solid r
  consumes : p.current.type ≠ .eof → remaining p' < remaining p
  atEof : p.current.type = .eof → p'.panic = true

/-- What the calls back into the parser promise: how many levels they need beside eight
    for every token left is their rank. -/
structure RecSpec (rec : Rec) (b : Nat) : Prop where
  parsePrecedence : ∀ handle rule p, 8 * remaining p + 1 ≤ b →
    Meets (rec.parsePrecedence handle rule) p (Parsed handle p)
  declaration : ∀ p, 8 * remaining p + 2 ≤ b → Meets rec.declaration p (Declared p)
  parseIfChain : ∀ p, 8 * remaining p + 3 ≤ b → Meets rec.parseIfChain p (Ruled .null)
  readTypeToLiteral : ∀ p, 8 * remaining p + 1 ≤ b → Meets rec.readTypeToLiteral p fun _ _ => True
  fuel : b ≤ rec.fuel

/-! ## Atoms -/

section Atoms

variable {p : Parser}

theorem unescape_meets (text : List Char) (p : Parser) : Meets (unescape text) p fun _ _ => True := by
  fun_induction unescape text generalizing p with
  | case1 => exact Meets.pure trivial
  | case2 _ _ _ hc ih =>
    exact Meets.bind (ih p) fun _ _ _ _ => Meets.pure trivial
  | case3 _ _ _ ih => exact Meets.get (error_bind fun _ _ _ => ih _)
  | case4 => exact Meets.pure trivial
  | case5 _ _ _ _ ih => exact Meets.bind (ih p) fun _ _ _ _ => Meets.pure trivial

theorem string_meets (handle : Node) : Meets (string handle) p fun r => Ruled handle r.2 := by
  unfold string
  refine Meets.get (Meets.ite (fun _ => ?_) fun _ => ?_)
  · refine Meets.bind (unescape_meets _ _) fun buffer _ _ _ => ?_
    refine Meets.bind (errorIf_meets _ _ _) fun _ _ _ _ => ?_
    exact Meets.pure (.built trivial)
  · exact error_bind fun _ _ hp => Meets.pure (.untouched hp)

theorem atomic_meets (handle : Node) : Meets (atomic handle) p fun r => Ruled handle r.2 := by
  unfold atomic
  refine Meets.get ?_
  cases tokenLiteral p.previous with
  | some literal => exact Meets.pure (.built trivial)
  | none =>
    refine Meets.ite (fun _ => ?_) fun _ => ?_
    · exact Meets.bind (matchToken_meets _) fun _ _ _ _ => Meets.pure (.built trivial)
    · exact error_bind fun _ _ hp => Meets.pure (.untouched hp)

theorem identifierLiteral_meets (token : Token) :
    Meets (identifierLiteral token) p fun l _ => l = .identifier (token.lexeme.take maxIdentifierLength) := by
  unfold identifierLiteral
  exact Meets.get (Meets.bind (errorIf_meets _ _ _) fun _ _ _ _ => Meets.pure rfl)

theorem identifierOrKeyword_meets (handle : Node) : Meets (identifierOrKeyword handle) p fun r => Ruled handle r.2 :=
  Meets.get (Meets.pure (.built trivial))

/-- The name's node, or the handle as it was. -/
theorem identifier_meets (handle : Node) : Meets (identifier handle) p fun r p' =>
    Ruled handle r.2 p' ∧ ((∃ l, r.2 = .literal l ∧ p.previous.type = .identifier) ∨ r.2 = handle ∧ p'.panic = true) := by
  unfold identifier
  refine Meets.get (Meets.ite (fun _ => ?_) fun h => ?_)
  · exact error_bind fun _ _ hp => Meets.pure ⟨.untouched hp, Or.inr ⟨rfl, hp⟩⟩
  · refine Meets.bind (identifierLiteral_meets _) fun l _ _ _ => ?_
    exact Meets.pure ⟨.built trivial, Or.inl ⟨_, rfl, not_not.mp h⟩⟩

theorem steppedIdentifier_meets : Meets steppedIdentifier p fun r p' => r = none → p'.panic = true := by
  unfold steppedIdentifier
  refine Meets.bind (identifier_meets _) fun r q _ hr => Meets.get ?_
  obtain ⟨_, node⟩ := r
  refine Meets.ite (fun h => ?_) fun h => ?_
  · have hp : q.panic = true := by
      rcases Bool.or_eq_true_iff.mp h with hp | hn
      · exact hp
      · rcases hr.2 with ⟨l, hl, _⟩ | ⟨_, hp⟩
        · rw [show node = _ from hl] at hn; cases hn
        · exact hp
    exact Meets.bind (freeIf_meets _ _) fun _ _ h₂ _ => Meets.pure fun _ => h₂.panic hp
  · rcases hr.2 with ⟨l, hl, _⟩ | ⟨hl, _⟩
    · rw [show node = _ from hl]
      exact Meets.pure nofun
    · rw [show node = _ from hl] at h
      simp [Node.isNull] at h

theorem stepPrefix_meets (handle : Node) {emit : Literal → Node} (he : ∀ l, Solid (emit l)) :
    Meets (stepPrefix emit handle) p fun r => Ruled handle r.2 := by
  unfold stepPrefix
  refine Meets.bind advance_meets fun _ _ _ _ => ?_
  refine Meets.bind steppedIdentifier_meets fun r _ _ hr => ?_
  cases r with
  | none => exact Meets.pure (.untouched (hr rfl))
  | some l => exact Meets.bind (freeASTNode_meets _) fun _ _ _ _ => Meets.pure (.built (he l))

theorem incrementPrefix_meets (handle : Node) : Meets (incrementPrefix handle) p fun r => Ruled handle r.2 :=
  stepPrefix_meets handle fun _ => trivial

theorem decrementPrefix_meets (handle : Node) : Meets (decrementPrefix handle) p fun r => Ruled handle r.2 :=
  stepPrefix_meets handle fun _ => trivial

end Atoms

/-! ## Prefix rules -/

section PrefixRules

theorem compoundComma_meets {p : Parser} (entries : Entries) : Meets (compoundComma entries) p fun _ _ => True :=
  Meets.ite (fun _ => Meets.mono (consume_meets _ _) fun _ _ _ _ => trivial) fun _ => Meets.pure trivial

/-- How a turn of the loop of `compound` ends: closer to the end, or out of the function,
    early only with an error. -/
def CompoundTurned (p : Parser) (r : CompoundTurn) (p' : Parser) : Prop :=
  match r with
  | .inl _ => remaining p' < remaining p
  | .inr entries => entries = none → p'.panic = true

theorem arrayEntry_meets {p q : Parser} (entries : Entries) {left : Node} (hl : left.isNode = true)
    (hq : remaining q < remaining p) : Meets (arrayEntry entries left) q (CompoundTurned p) := by
  unfold arrayEntry
  cases entries.dictionary with
  | some dictionary =>
    refine Meets.get (error_bind fun _ _ hp => ?_)
    refine Meets.bind (freeASTNode_meets _) fun _ _ h₁ _ => ?_
    exact Meets.bind (freeASTNode_meets _) fun _ _ h₂ _ => Meets.pure fun _ => h₂.panic (h₁.panic hp)
  | none =>
    refine Meets.bind (deref_meets hl) fun _ q₁ h₁ _ => ?_
    exact Meets.pure (Nat.lt_of_le_of_lt h₁.remaining hq)

variable {rec : Rec} {b : Nat} (R : RecSpec rec b) {p : Parser} (handle : Node)

include R

theorem expression_meets (hb : 8 * remaining p + 1 ≤ b) : Meets (expression rec handle) p (Parsed handle p) :=
  R.parsePrecedence _ _ _ hb

theorem asType_meets (hb : 8 * remaining p + 3 ≤ b) : Meets (asType rec handle) p fun r => Ruled handle r.2 := by
  unfold asType
  refine Meets.bind (R.readTypeToLiteral _ (by omega)) fun literal _ _ _ => ?_
  refine Meets.ite (fun _ => Meets.get ?_) fun _ => Meets.pure (.built trivial)
  exact error_bind fun _ _ hp => Meets.pure (.untouched hp)

theorem typeOf_meets (hb : 8 * remaining p + 3 ≤ b) : Meets (typeOf rec handle) p fun r => Ruled handle r.2 := by
  unfold typeOf
  exact Meets.bind (R.parsePrecedence _ _ _ (by omega)) fun _ _ _ _ => Meets.pure (.built trivial)

theorem dictionaryEntry_meets {q : Parser} (entries : Entries) (left : Node) (hb : 8 * remaining q + 3 ≤ b)
    (hq : remaining q < remaining p) : Meets (dictionaryEntry rec entries left) q (CompoundTurned p) := by
  unfold dictionaryEntry
  refine Meets.bind (R.parsePrecedence _ _ _ (by omega)) fun right q₁ h₁ hright => ?_
  refine Meets.ite (fun hn => ?_) fun _ => ?_
  · refine Meets.bind (freeASTNode_meets _) fun _ _ h₂ _ => Meets.pure fun _ => ?_
    exact h₂.panic (hright.null hn)
  · cases entries.array with
    | some array =>
      refine Meets.get (error_bind fun q₂ _ hp => ?_)
      refine Meets.bind (freeASTNode_meets _) fun _ _ h₃ _ => ?_
      refine Meets.bind (freeASTNode_meets _) fun _ _ h₄ _ => ?_
      refine Meets.bind (freeASTNode_meets _) fun _ _ h₅ _ => Meets.pure fun _ => ?_
      exact h₅.panic (h₄.panic (h₃.panic hp))
    | none => exact Meets.pure (Nat.lt_of_le_of_lt h₁.remaining hq)

theorem compoundEntry_meets {q : Parser} (entries : Entries) (hb : 8 * remaining q + 3 ≤ b)
    (hq : remaining q ≤ remaining p) : Meets (compoundEntry rec entries) q (CompoundTurned p) := by
  unfold compoundEntry
  refine Meets.bind (compoundComma_meets _) fun _ q₁ h₁ _ => ?_
  have := h₁.remaining
  refine Meets.bind (R.parsePrecedence _ _ _ (by omega)) fun left q₂ h₂ hleft => ?_
  refine Meets.ite (fun hn => Meets.pure fun _ => hleft.null hn) fun hn => ?_
  have hn : left.isNull = false := by simpa using hn
  have := hleft.lt hn
  refine match_bind (by decide) (fun q₃ h₃ hlt _ => ?_) fun _ => ?_
  · exact dictionaryEntry_meets R _ _ (by omega) (by omega)
  · exact arrayEntry_meets _ (hleft.isNode hn) (by omega)

theorem compoundTurn_meets (entries : Entries) (hb : 8 * remaining p + 3 ≤ b) :
    Meets (compoundTurn rec entries) p (CompoundTurned p) := by
  unfold compoundTurn
  refine match_bind (by decide) (fun _ _ _ _ => Meets.pure nofun) fun _ => ?_
  refine Meets.ite (fun _ => ?_) fun _ => compoundEntry_meets R _ hb (Nat.le_refl _)
  refine match_bind (by decide) (fun _ _ _ _ => ?_) fun _ => compoundEntry_meets R _ hb (Nat.le_refl _)
  exact Meets.bind (consume_meets _ _) fun _ _ _ _ => Meets.pure nofun

theorem compound_meets (hb : 8 * remaining p + 3 ≤ b) : Meets (compound rec handle) p fun r => Ruled handle r.2 := by
  unfold compound
  have hloop : Meets (loop .outOfFuel (compoundTurn rec) rec.fuel ⟨none, none, 0⟩) p
      fun r p' => r = none → p'.panic = true := by
    have := R.fuel
    refine Meets.loop (fun _ q => 8 * remaining q + 3 ≤ b) remaining (fun entries q hq => ?_) hb (by omega)
    refine Meets.mono (compoundTurn_meets R entries hq) fun r q' hs hr => ?_
    cases r with
    | inl entries =>
      have : remaining q' < remaining q := hr
      exact ⟨by omega, this⟩
    | inr result => exact hr
  refine Meets.bind hloop fun r q _ hr => ?_
  cases r with
  | none => exact Meets.pure (.untouched (hr rfl))
  | some entries =>
    obtain ⟨array, dictionary, _⟩ := entries
    cases array <;> cases dictionary <;> exact Meets.pure (.built trivial)

theorem grouping_meets (hb : 8 * remaining p + 3 ≤ b) : Meets (grouping rec handle) p fun r => Ruled handle r.2 := by
  unfold grouping
  refine Meets.get (Meets.ite (fun _ => ?_) fun _ => ?_)
  · refine Meets.bind (R.parsePrecedence _ _ _ (by omega)) fun node _ _ _ => ?_
    exact Meets.bind (consume_meets _ _) fun _ _ _ _ => Meets.pure (.built trivial)
  · exact error_bind fun _ _ hp => Meets.pure (.untouched hp)

theorem unaryMinus_meets (hb : 8 * remaining p + 3 ≤ b) : Meets (unaryMinus rec handle) p fun r => Ruled handle r.2 := by
  unfold unaryMinus
  refine Meets.bind (R.parsePrecedence _ _ _ (by omega)) fun node _ _ _ => ?_
  split
  · refine Meets.ite (fun _ => Meets.pure (.built trivial)) fun _ => ?_
    refine Meets.ite (fun _ => Meets.get ?_) fun _ => Meets.pure (.built trivial)
    exact error_bind fun _ _ hp => Meets.pure (.untouched hp)
  · exact Meets.pure (.built trivial)

theorem unaryNot_meets (hb : 8 * remaining p + 3 ≤ b) : Meets (unaryNot rec) p fun r => Ruled handle r.2 := by
  unfold unaryNot
  refine Meets.bind (R.parsePrecedence _ _ _ (by omega)) fun node _ _ _ => ?_
  split <;> exact Meets.pure (.built trivial)

theorem unary_meets (hb : 8 * remaining p + 3 ≤ b) : Meets (unary rec handle) p fun r => Ruled handle r.2 := by
  unfold unary
  refine Meets.get (Meets.ite (fun _ => unaryMinus_meets R handle hb) fun _ => ?_)
  refine Meets.ite (fun _ => unaryNot_meets R handle hb) fun _ => ?_
  exact error_bind fun _ _ hp => Meets.pure (.untouched hp)

theorem castingPrefix_meets (hb : 8 * remaining p + 3 ≤ b) :
    Meets (castingPrefix rec handle) p fun r => Ruled handle r.2 := by
  unfold castingPrefix
  refine Meets.get (Meets.ite (fun _ => ?_) fun _ => ?_)
  · refine Meets.bind (consume_meets _ _) fun _ q h₁ _ => ?_
    have := h₁.remaining
    refine Meets.bind (expression_meets R .null (by omega)) fun expr q₁ _ hexpr => Meets.get ?_
    refine Meets.ite (fun h => ?_) fun _ => ?_
    · have hp : q₁.panic = true := by
        rcases Bool.or_eq_true_iff.mp h with hp | hn
        · exact hp
        · exact hexpr.null hn
      exact Meets.bind (freeIf_meets _ _) fun _ _ h₂ _ => Meets.pure (.untouched (h₂.panic hp))
    · exact Meets.bind (consume_meets _ _) fun _ _ _ _ => Meets.pure (.built trivial)
  · refine Meets.ite (fun _ => ?_) fun _ => Meets.pure (.built trivial)
    exact error_bind fun _ _ hp => Meets.pure (.untouched hp)

theorem ifExpression_meets (hb : 8 * remaining p + 3 ≤ b) :
    Meets (ifExpression rec handle) p fun r => Ruled handle r.2 := by
  unfold ifExpression
  refine Meets.bind (R.parseIfChain _ hb) fun node q _ hnode => Meets.pure ⟨fun hq => ?_, fun hw => ?_⟩
  · have hs := hnode.solid hq
    rw [if_neg (by simp [hs.not_null])]
    exact hs
  · show (if node.isNull then handle else node) ≠ .wild
    split
    · exact hw
    · exact hnode.pointer nofun

end PrefixRules

end Xvr.Frontend.Parse
