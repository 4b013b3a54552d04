/-
  Xvr.Frontend.FormedTrees — the trees of quiet calls are well formed.

  A rule that raises leaves what was in its handle: a null pointer, a stale one, a half-built
  index or ternary. Where nothing was raised none of these is left: `Formed` says of every
  node which of its children may be missing, and what an argument list counts.

  Proved:
  - `Formed.freeable`: a well formed tree can be freed.
  - `parsePrecedence_formed`: with the calls one level down as promised, an expression read
    quietly is well formed, whatever was in the handle.
-/

import Xvr.Frontend.ParserRuns
import Xvr.Lib.Unbroken

namespace Xvr.Frontend.Parse

open Xvr.Runtime Xvr.Lib

/-! ## Well formed trees -/

/-- Where a node stands. -/
inductive Role where
  | child
  /-- A child that may be missing. -/
  | optional
  /-- An entry of a dictionary. -/
  | entry
  | parameter
  | returnType

inductive Formed : Role → Node → Prop
  | missing : Formed .optional .null
  | given {x : Node} : Formed .child x → Formed .optional x
  | literal (l : Literal) : Formed .child (.literal l)
  | unary (opcode : Opcode) {x : Node} : Formed .child x → Formed .child (.unary opcode x)
  | binary {opcode : Opcode} {x y : Node} : opcode ≠ .fnCall → Formed .child x → Formed .child y →
      Formed .child (.binary opcode x y)
  | call {x : Node} {nodes : List Node} : Formed .child x → (∀ node ∈ nodes, Formed .child node) →
      Formed .child (.binary .fnCall x (.fnCall (.fnCollection nodes) nodes.length))
  /-- Behind a dot the receiver is counted. -/
  | method {x : Node} {nodes : List Node} : Formed .child x → (∀ node ∈ nodes, Formed .child node) →
      Formed .child (.binary .dot x (.fnCall (.fnCollection nodes) (nodes.length + 1)))
  | ternary {c x y : Node} : Formed .child c → Formed .child x → Formed .child y → Formed .child (.ternary c x y)
  | grouping {x : Node} : Formed .child x → Formed .child (.grouping x)
  | cast (l : Literal) {x : Node} : Formed .child x → Formed .child (.cast l x)
  | array {nodes : List Node} : (∀ node ∈ nodes, Formed .child node) → Formed .child (.compound .array nodes)
  | dictionary {nodes : List Node} : (∀ node ∈ nodes, Formed .entry node) → Formed .child (.compound .dictionary nodes)
  | pair {x y : Node} : Formed .child x → Formed .child y → Formed .entry (.pair x y)
  | index {x first second : Node} : Formed .child x → Formed .child first → Formed .optional second →
      Formed .child (.index x first second)
  | prefixIncrement (l : Literal) : Formed .child (.prefixIncrement l)
  | prefixDecrement (l : Literal) : Formed .child (.prefixDecrement l)
  | postfixIncrement (l : Literal) : Formed .child (.postfixIncrement l)
  | postfixDecrement (l : Literal) : Formed .child (.postfixDecrement l)
  | block {nodes : List Node} : (∀ node ∈ nodes, Formed .child node) → Formed .child (.block nodes)
  | pathIf {c x y : Node} (word : BitVec 32) (isExpression : Bool) : Formed .child c → Formed .child x → Formed .optional y →
      Formed .child (.pathIf c x y word isExpression)
  | pathWhile {c x : Node} : Formed .child c → Formed .child x → Formed .child (.pathWhile c x)
  | pathFor {w c y x : Node} : Formed .child w → Formed .child c → Formed .child y → Formed .child x →
      Formed .child (.pathFor w c y x)
  | pathBreak : Formed .child .pathBreak
  | pathContinue : Formed .child .pathContinue
  | pass : Formed .child .pass
  | fnReturn {nodes : List Node} : (∀ node ∈ nodes, Formed .child node) → Formed .child (.fnReturn (.fnCollection nodes))
  | importNode (l l' : Literal) : Formed .child (.importNode l l')
  | varDecl (l l' : Literal) {x : Node} (line : Nat) : Formed .child x → Formed .child (.varDecl l l' x line)
  | parameter (l l' : Literal) (line : Nat) : Formed .parameter (.varDecl l l' .null line)
  | returnType (l : Literal) : Formed .returnType (.literal l)
  | fnDecl (l : Literal) {parameters returns nodes : List Node} (line : Nat) : (∀ node ∈ parameters, Formed .parameter node) →
      (∀ node ∈ returns, Formed .returnType node) → (∀ node ∈ nodes, Formed .child node) →
      Formed .child (.fnDecl l (.fnCollection parameters) (.fnCollection returns) (.block nodes) line)

theorem freeableAll_iff (nodes : List Node) : Node.freeableAll nodes = true ↔ ∀ node ∈ nodes, node.freeable = true := by
  induction nodes with
  | nil => simp [Node.freeableAll]
  | cons node nodes ih => simp [Node.freeableAll, ih]

/-- A well formed tree can be freed. -/
theorem Formed.freeable {role : Role} {node : Node} (h : Formed role node) : node.freeable = true := by
  induction h <;> simp_all [Node.freeable, freeableAll_iff]

theorem Formed.not_null {node : Node} (h : Formed .child node) : node.isNull = false := by cases h <;> rfl

theorem Formed.isNode {node : Node} (h : Formed .child node) : node.isNode = true := by cases h <;> rfl

/-! ## Quiet runs -/

/-- What the answer promises where nothing was raised. -/
abbrev Unraised {α : Type} (m : P α) (Q : α → Prop) : Prop := Unbroken (fun p : Parser => p.panic = false) m Q

section Helpers

variable {α β : Type} {Q : α → Prop}

theorem error_quietly (token : Token) (message : String) {Q : Unit → Prop} : Unraised (error token message) Q :=
  .fails fun p _ q hrun hq => by
    cases hrun
    rw [raise_panic] at hq
    cases hq

/-- Behind an error anything is promised. -/
theorem refused_quietly (token : Token) (message : String) (a : α) : Unraised (do error token message; pure a : P α) Q :=
  .bind (error_quietly token message (Q := fun _ => False)) fun _ => .pure nofun

theorem errorIf_quietly (c : Bool) (token : Token) (message : String) : Unraised (errorIf c token message) fun _ => True :=
  .ite (fun _ => error_quietly _ _) fun _ => .pure trivial

theorem raise_quiet {token : Token} {message : String} {p : Parser} (h : (raise token message p).panic = false) :
    p.panic = false := by
  rw [raise_panic] at h
  cases h

theorem advance_quietly : Unraised advance fun _ => True := by
  intro p _ q hrun hq
  rw [advance_eq] at hrun
  cases hrun
  unfold advanced at hq
  split at hq
  · exact ⟨raise_quiet (p := shift p) hq, trivial⟩
  · exact ⟨hq, trivial⟩

theorem matchToken_quietly (type : TokenType) : Unraised (matchToken type) fun _ => True :=
  .get fun _ => .ite (fun _ => .after advance_quietly fun _ => .pure fun _ => trivial) fun _ => .pure fun _ => trivial

theorem consume_quietly (type : TokenType) (message : String) : Unraised (consume type message) fun _ => True :=
  .get fun _ => .ite (fun _ => error_quietly _ _) fun _ => advance_quietly.mono fun _ _ _ => trivial

theorem consumeSemicolon_quietly : Unraised consumeSemicolon fun _ => True := by
  unfold consumeSemicolon
  refine .after (matchToken_quietly _) fun _ => .ite (fun _ => .pure trivial) fun _ => .get fun _ => ?_
  exact .ite (fun _ => .pure fun _ => trivial) fun _ => error_quietly _ _

theorem access_quietly (a : Access) : Unraised (access a) fun _ => True := by
  intro p _ q hrun hq
  cases hdef : a.defined with
  | true =>
    have hrun' : access a p = .ok () (accessed a p) := access_defined hdef
    cases hrun.symm.trans hrun'
    exact ⟨hq, trivial⟩
  | false => cases hrun.symm.trans (access_undefined hdef)

theorem freeIf_quietly (c : Bool) (node : Node) : Unraised (freeIf c node) fun _ => True :=
  .ite (fun _ => access_quietly _) fun _ => .pure trivial

theorem deref_quietly (node : Node) : Unraised (deref node) fun _ => True :=
  .ite (fun _ => .pure trivial) fun _ => .throw _

end Helpers

/-! ## Folding -/

theorem foldError_quietly (message : String) {Q : Option Literal → Prop} : Unraised (foldError message) Q :=
  .get fun _ => refused_quietly _ _ _

theorem foldIntegers_quietly (opcode : Opcode) (lhs rhs : BitVec 32) : Unraised (foldIntegers opcode lhs rhs) fun _ => True := by
  unfold foldIntegers
  split
  case h_4 | h_5 => exact .ite (fun _ => foldError_quietly _) fun _ => .after (access_quietly _) fun _ => .pure trivial
  all_goals first | exact .pure trivial | exact foldError_quietly _

theorem foldFloats_quietly (opcode : Opcode) (lhs rhs : Float32) : Unraised (foldFloats opcode lhs rhs) fun _ => True := by
  unfold foldFloats
  split
  case h_4 => exact .ite (fun _ => foldError_quietly _) fun _ => .pure trivial
  all_goals first | exact .pure trivial | exact foldError_quietly _

theorem foldLiterals_quietly (opcode : Opcode) (lhs rhs : Literal) : Unraised (foldLiterals opcode lhs rhs) fun _ => True := by
  unfold foldLiterals
  refine .ite (fun _ => .ite (fun _ => foldError_quietly _) fun _ => .pure trivial) fun _ => ?_
  refine .ite (fun _ => foldIntegers_quietly _ _ _) fun _ => .ite (fun _ => foldError_quietly _) fun _ => ?_
  exact .ite (fun _ => foldFloats_quietly _ _ _) fun _ => .pure trivial

theorem foldNode_quietly {opcode : Opcode} (hop : opcode ≠ .fnCall) (left right : Node) :
    Unraised (foldNode opcode left right) fun r => Formed .child left → Formed .child right → Formed .child r.2 := by
  unfold foldNode
  split
  · refine .after (foldLiterals_quietly _ _ _) fun r => ?_
    cases r with
    | none => exact .pure fun hl hr => .binary hop hl hr
    | some result =>
      refine .ite (fun _ => .pure fun hl hr => .binary hop hl hr) fun _ => ?_
      exact .after (access_quietly _) fun _ => .after (access_quietly _) fun _ => .pure fun _ _ => .literal result
  · exact .pure fun hl hr => .binary hop hl hr

theorem foldable_not_call {opcode : Opcode} (h : foldable opcode = true) : opcode ≠ .fnCall := by
  rintro rfl
  cases h

/-- A binary node that is no call has formed children. -/
theorem Formed.children {opcode : Opcode} (hop : foldable opcode = true) {left right : Node}
    (h : Formed .child (.binary opcode left right)) : Formed .child left ∧ Formed .child right := by
  cases h with
  | binary _ hl hr => exact ⟨hl, hr⟩
  | call _ _ => cases hop
  | method _ _ => cases hop

theorem calcStatic_quietly (node : Node) : Unraised (calcStaticBinaryArithmetic node) fun r => Formed .child node → Formed .child r.2 := by
  cases node with
  | binary opcode left right =>
    unfold calcStaticBinaryArithmetic
    have child (n : Node) (h : Unraised (calcStaticBinaryArithmetic n) fun r => Formed .child n → Formed .child r.2) :
        Unraised (if n.isBinary then do pure (← calcStaticBinaryArithmetic n).2 else pure n)
          fun r => Formed .child n → Formed .child r :=
      .ite (fun _ => .bind h fun _ => .pure id) fun _ => .pure id
    refine .ite (fun hop => .after (deref_quietly _) fun _ => ?_) fun _ => .pure id
    refine .bind (child left (calcStatic_quietly left)) fun l => .after (deref_quietly _) fun _ => ?_
    refine .bind (child right (calcStatic_quietly right)) fun r => ?_
    refine (foldNode_quietly (foldable_not_call hop) l r).mono fun result hresult hr hl h => ?_
    exact hresult (hl (h.children hop).1) (hr (h.children hop).2)
  | _ => exact .pure id

/-! ## Receivers -/

theorem dottify_quietly (node : Node) : Unraised (dottify node) fun r => (Formed .child node → Formed .child r) ∧
    ∀ nodes count, node = .fnCall (.fnCollection nodes) count → r = node := by
  cases node with
  | binary opcode left right =>
    unfold dottify
    refine .after (access_quietly _) fun _ => .bind (dottify_quietly left) fun l => .bind (dottify_quietly right) fun r => ?_
    have hother (r : Node) (nodes : List Node) (count : Nat) (h : Node.binary opcode left right = .fnCall (.fnCollection nodes) count) :
        r = .binary opcode left right := by cases h
    refine .ite (fun hcall => .pure fun hr hl => ⟨fun h => ?_, hother _⟩) fun hcall => .pure fun hr hl => ⟨fun h => ?_, hother _⟩
    · subst hcall
      cases h with
      | binary hop _ _ => exact absurd rfl hop
      | call hx hnodes =>
        rw [hr.2 _ _ rfl]
        exact .method (hl.1 hx) hnodes
    · cases h with
      | binary hop hx hy => exact .binary hop (hl.1 hx) (hr.1 hy)
      | call _ _ => exact absurd rfl hcall
      | method hx hnodes =>
        rw [hr.2 _ _ rfl]
        exact .method (hl.1 hx) hnodes
  | _ => exact .after (access_quietly _) fun _ => .pure ⟨id, fun _ _ _ => rfl⟩

/-! ## Atoms -/

/-- A prefix rule answers a well formed tree, whatever its handle. -/
def KeepsFormed (f : ParseFn) : Prop := ∀ handle, Unraised (f handle) fun r => Formed .child r.2

theorem unescape_quietly (text : List Char) : Unraised (unescape text) fun _ => True := by
  fun_induction unescape text with
  | case1 => exact .pure trivial
  | case2 _ _ _ _ ih => exact .after ih fun _ => .pure trivial
  | case3 _ _ _ ih => exact .get fun _ => .after (error_quietly _ _) fun _ => ih.mono fun _ _ _ => trivial
  | case4 => exact .pure trivial
  | case5 _ _ _ _ ih => exact .after ih fun _ => .pure trivial

theorem string_formed : KeepsFormed string := by
  intro handle
  unfold string
  refine .get fun _ => .ite (fun _ => ?_) fun _ => refused_quietly _ _ _
  exact .after (unescape_quietly _) fun _ => .after (errorIf_quietly _ _ _) fun _ => .pure fun _ => .literal _

theorem atomic_formed : KeepsFormed atomic := by
  intro handle
  unfold atomic
  refine .get fun _ => ?_
  split
  · exact .pure fun _ => .literal _
  · exact .ite (fun _ => .after (matchToken_quietly _) fun _ => .pure fun _ => .literal _) fun _ => refused_quietly _ _ _

theorem identifierLiteral_quietly (token : Token) : Unraised (identifierLiteral token) fun _ => True :=
  .get fun _ => .after (errorIf_quietly _ _ _) fun _ => .pure fun _ => trivial

/-- Unraised a name's node is a literal. -/
theorem identifier_quietly (handle : Node) : Unraised (identifier handle) fun r => ∃ l, r.2 = .literal l :=
  .get fun _ => .ite (fun _ => refused_quietly _ _ _) fun _ => .after (identifierLiteral_quietly _) fun _ => .pure fun _ => ⟨_, rfl⟩

theorem identifier_formed : KeepsFormed identifier := fun handle =>
  (identifier_quietly handle).mono fun r ⟨l, h⟩ => by
    rw [h]
    exact .literal l

theorem identifierOrKeyword_formed : KeepsFormed identifierOrKeyword := fun _ => .get fun _ => .pure fun _ => .literal _

theorem steppedIdentifier_quietly : Unraised steppedIdentifier fun r => r ≠ none := by
  unfold steppedIdentifier
  refine .bind (identifier_quietly .null) fun r => .get fun p => ?_
  refine .ite (fun hbad => .after (freeIf_quietly _ _) fun _ => .pure ?_) fun _ => ?_
  · rintro hp ⟨l, hl⟩
    rw [show p.panic = false from hp, hl] at hbad
    cases hbad
  · split
    · exact .pure fun _ _ => nofun
    · exact .throw _

theorem stepPrefix_formed {emit : Literal → Node} (he : ∀ l, Formed .child (emit l)) : KeepsFormed (stepPrefix emit) := by
  intro handle
  unfold stepPrefix
  refine .after advance_quietly fun _ => .bind steppedIdentifier_quietly fun r => ?_
  cases r with
  | none => exact .pure fun h => absurd rfl h
  | some l => exact .after (access_quietly _) fun _ => .pure fun _ => he l

/-! ## Rules -/

structure RecFormed (rec : Rec) : Prop where
  parsePrecedence : ∀ handle rule, Unraised (rec.parsePrecedence handle rule) (Formed .child)
  declaration : Unraised rec.declaration (Formed .child)
  parseIfChain : Unraised rec.parseIfChain (Formed .child)
  readTypeToLiteral : Unraised rec.readTypeToLiteral fun _ => True

section Rules

variable {rec : Rec} (R : RecFormed rec)

include R

theorem asType_formed : KeepsFormed (asType rec) := fun _ =>
  .after R.readTypeToLiteral fun _ => .ite (fun _ => .get fun _ => refused_quietly _ _ _) fun _ => .pure (.literal _)

theorem typeOf_formed : KeepsFormed (typeOf rec) := fun _ =>
  .bind (R.parsePrecedence _ _) fun _ => .pure fun h => .unary _ h

theorem grouping_formed : KeepsFormed (grouping rec) := by
  intro handle
  unfold grouping
  refine .get fun _ => .ite (fun _ => ?_) fun _ => refused_quietly _ _ _
  exact .bind (R.parsePrecedence _ _) fun _ => .after (consume_quietly _ _) fun _ => .pure fun h _ => .grouping h

theorem castingPrefix_formed : KeepsFormed (castingPrefix rec) := by
  intro handle
  unfold castingPrefix
  refine .get fun _ => .ite (fun _ => ?_) fun _ => .ite (fun _ => refused_quietly _ _ _) fun _ => .pure fun _ => .literal _
  refine .after (consume_quietly _ _) fun _ => .bind (R.parsePrecedence _ _) fun expr => .get fun p => ?_
  refine .ite (fun hbad => .after (freeIf_quietly _ _) fun _ => .pure ?_) fun _ => ?_
  · intro hp h
    rw [show p.panic = false from hp, h.not_null] at hbad
    cases hbad
  · exact .after (consume_quietly _ _) fun _ => .pure fun _ h _ => .cast _ h

theorem unary_formed : KeepsFormed (unary rec) := by
  intro handle
  unfold unary
  refine .get fun _ => .ite (fun _ => ?_) fun _ => .ite (fun _ => ?_) fun _ => refused_quietly _ _ _
  · unfold unaryMinus
    refine .bind (R.parsePrecedence _ _) fun node => ?_
    split
    · refine .ite (fun _ => .pure fun _ _ => .literal _) fun _ => .ite (fun _ => .get fun _ => refused_quietly _ _ _) fun _ => ?_
      exact .pure fun h _ => .unary _ h
    · exact .pure fun h _ => .unary _ h
  · unfold unaryNot
    refine .bind (R.parsePrecedence _ _) fun node => ?_
    split
    · exact .pure fun _ _ => .literal _
    · exact .pure fun h _ => .unary _ h

theorem ifExpression_formed : KeepsFormed (ifExpression rec) := by
  intro handle
  unfold ifExpression
  refine .bind R.parseIfChain fun node => .pure fun h => ?_
  show Formed .child (if node.isNull then handle else node)
  rw [h.not_null]
  exact h

/-! ### Arrays and dictionaries -/

omit R

structure EntriesFormed (entries : Entries) : Prop where
  array : ∀ nodes, entries.array = some nodes → ∀ node ∈ nodes, Formed .child node
  dictionary : ∀ nodes, entries.dictionary = some nodes → ∀ node ∈ nodes, Formed .entry node

/-- A turn keeps the entries well formed, and never breaks off. -/
def CompoundFormed : CompoundTurn → Prop
  | .inl entries => EntriesFormed entries
  | .inr (some entries) => EntriesFormed entries
  | .inr none => False

theorem formed_snoc {role : Role} {nodes : List Node} {node : Node} (h : ∀ n ∈ nodes, Formed role n) (hnode : Formed role node) :
    ∀ n ∈ nodes ++ [node], Formed role n := by
  intro n hn
  rcases List.mem_append.mp hn with hn | hn
  · exact h n hn
  · rw [List.mem_singleton.mp hn]
    exact hnode

theorem formed_getD {role : Role} {nodes : Option (List Node)} (h : ∀ l, nodes = some l → ∀ n ∈ l, Formed role n) :
    ∀ n ∈ nodes.getD [], Formed role n := by
  cases nodes with
  | none => nofun
  | some l => exact h l rfl

theorem EntriesFormed.counted {entries : Entries} (h : EntriesFormed entries) (n : Nat) :
    EntriesFormed { entries with iterations := n } := ⟨h.array, h.dictionary⟩

theorem arrayEntry_formed (entries : Entries) (left : Node) :
    Unraised (arrayEntry entries left) fun r => EntriesFormed entries → Formed .child left → CompoundFormed r := by
  unfold arrayEntry
  split
  · refine .get fun _ => .bind (error_quietly _ _ (Q := fun _ => False)) fun _ => ?_
    exact .after (access_quietly _) fun _ => .after (access_quietly _) fun _ => .pure nofun
  · refine .after (deref_quietly _) fun _ => .pure fun h hleft => ⟨fun nodes heq => ?_, h.dictionary⟩
    cases heq
    exact formed_snoc (formed_getD h.array) hleft

include R

theorem dictionaryEntry_formed (entries : Entries) (left : Node) :
    Unraised (dictionaryEntry rec entries left) fun r => EntriesFormed entries → Formed .child left → CompoundFormed r := by
  unfold dictionaryEntry
  refine .bind (R.parsePrecedence _ _) fun right => .ite (fun hnull => ?_) fun _ => ?_
  · refine .after (access_quietly _) fun _ => .pure fun h => ?_
    rw [h.not_null] at hnull
    cases hnull
  · split
    · refine .get fun _ => .bind (error_quietly _ _ (Q := fun _ => False)) fun _ => ?_
      exact .after (access_quietly _) fun _ => .after (access_quietly _) fun _ => .after (access_quietly _) fun _ => .pure nofun
    · refine .pure fun hright h hleft => ⟨h.array, fun nodes heq => ?_⟩
      cases heq
      exact formed_snoc (formed_getD h.dictionary) (.pair hleft hright)

theorem compoundEntry_formed (entries : Entries) :
    Unraised (compoundEntry rec entries) fun r => EntriesFormed entries → CompoundFormed r := by
  unfold compoundEntry compoundComma
  refine .after (.ite (fun _ => consume_quietly _ _) fun _ => .pure trivial) fun _ => ?_
  refine .bind (R.parsePrecedence _ _) fun left => .ite (fun hnull => .pure fun h => ?_) fun _ => ?_
  · rw [h.not_null] at hnull
    cases hnull
  · refine .after (matchToken_quietly _) fun _ => .ite (fun _ => ?_) fun _ => ?_
    · exact (dictionaryEntry_formed R _ left).mono fun r hr hleft h => hr (h.counted _) hleft
    · exact (arrayEntry_formed _ left).mono fun r hr hleft h => hr (h.counted _) hleft

theorem compoundTurn_formed (entries : Entries) :
    Unraised (compoundTurn rec entries) fun r => EntriesFormed entries → CompoundFormed r := by
  unfold compoundTurn
  refine .after (matchToken_quietly _) fun _ => .ite (fun _ => .pure id) fun _ => .ite (fun _ => ?_) fun _ => compoundEntry_formed R entries
  refine .after (matchToken_quietly _) fun _ => .ite (fun _ => ?_) fun _ => compoundEntry_formed R entries
  refine .after (consume_quietly _ _) fun _ => .pure fun h => ⟨h.array, fun nodes heq => ?_⟩
  cases heq
  nofun

theorem compound_formed : KeepsFormed (compound rec) := by
  intro handle
  unfold compound
  have hloop := Unbroken.loop (e := Stop.outOfFuel) (Q := fun r => CompoundFormed (.inr r)) EntriesFormed
    (fun entries => (compoundTurn_formed R entries).mono fun r hr h => by
      cases r with
      | inl entries => exact hr h
      | inr r => exact hr h) rec.fuel ⟨none, none, 0⟩
  refine .bind hloop fun r => ?_
  have hstart : EntriesFormed ⟨none, none, 0⟩ := ⟨nofun, nofun⟩
  cases r with
  | none => exact .pure fun h => (h hstart).elim
  | some entries =>
    dsimp only
    split
    · rename_i nodes heq
      exact .pure fun h => .array ((h hstart).array _ heq)
    · rename_i heq
      exact .pure fun h => .dictionary ((h hstart).dictionary _ heq)
    · exact .pure fun _ => .array nofun

/-! ### Infix rules -/

omit R

/-- What an infix rule answers quietly, for each opcode: the operand it read, or the node
    that only waits for its left side. -/
inductive Answered : Opcode → Node → Prop
  | operand {opcode : Opcode} {rhs : Node} : opcode ≠ .fnCall → opcode ≠ .ternary → opcode ≠ .index →
      Formed .child rhs → Answered opcode rhs
  | call {nodes : List Node} : (∀ node ∈ nodes, Formed .child node) →
      Answered .fnCall (.fnCall (.fnCollection nodes) nodes.length)
  | ternary {x y : Node} : Formed .child x → Formed .child y → Answered .ternary (.ternary .null x y)
  | index {first second third : Node} : Formed .child first → Formed .optional second →
      Answered .index (.index first second third)

/-- An infix rule starts from the null pointer. -/
def AnswersFormed (f : ParseFn) : Prop := Unraised (f .null) fun r => Answered r.1 r.2

theorem binaryOperator_operand {t : TokenType} {rule : PrecedenceRule} {opcode : Opcode}
    (h : binaryOperator t = some (rule, opcode)) : opcode ≠ .fnCall ∧ opcode ≠ .ternary ∧ opcode ≠ .index := by
  unfold binaryOperator at h
  split at h <;> cases h <;> decide

theorem castingInfix_formed : AnswersFormed castingInfix := by
  unfold AnswersFormed castingInfix
  refine .after advance_quietly fun _ => .get fun _ => ?_
  have operand {node : Node} (h : Formed .child node) : Answered .typeCast node := .operand nofun nofun nofun h
  split
  · exact .bind (identifier_formed .null) fun _ => .pure fun h _ => operand h
  case h_7 => exact refused_quietly _ _ _
  all_goals exact .bind (atomic_formed .null) fun _ => .pure fun h _ => operand h

theorem stepInfix_formed {emit : Literal → Node} (he : ∀ l, Formed .child (emit l)) : AnswersFormed (stepInfix emit) := by
  unfold AnswersFormed stepInfix
  refine .bind steppedIdentifier_quietly fun r => ?_
  cases r with
  | none => exact .pure fun h => absurd rfl h
  | some l =>
    refine .after advance_quietly fun _ => .after (access_quietly _) fun _ => .pure fun _ => ?_
    exact .operand nofun nofun nofun (he l)

include R

theorem binary_formed : AnswersFormed (binary rec) := by
  unfold AnswersFormed binary
  refine .after advance_quietly fun _ => .get fun _ => ?_
  split
  · rename_i rule opcode heq
    obtain ⟨hcall, hternary, hindex⟩ := binaryOperator_operand heq
    exact .bind (R.parsePrecedence _ _) fun _ => .pure fun h _ => .operand hcall hternary hindex h
  · exact refused_quietly _ _ _

omit R in
/-- A turn adds well formed nodes to a list, and never breaks off. -/
def ListFormed : List Node ⊕ Option (List Node) → Prop
  | .inl nodes | .inr (some nodes) => ∀ node ∈ nodes, Formed .child node
  | .inr none => False

omit R in
/-- The loop of such turns. -/
theorem listLoop_formed {body : List Node → P (List Node ⊕ Option (List Node))}
    (h : ∀ nodes, Unraised (body nodes) fun r => (∀ node ∈ nodes, Formed .child node) → ListFormed r) (fuel : Nat) :
    Unraised (loop .outOfFuel body fuel []) fun r => ListFormed (.inr r) := by
  refine (Unbroken.loop (fun nodes => ∀ node ∈ nodes, Formed .child node) (fun nodes => ?_) fuel []).mono fun _ hr => hr nofun
  exact (h nodes).mono fun r hr hnodes => by cases r <;> exact hr hnodes

theorem argumentTurn_formed (arguments : List Node) :
    Unraised (argumentTurn rec arguments) fun r => (∀ node ∈ arguments, Formed .child node) → ListFormed r := by
  unfold argumentTurn
  refine .bind (R.parsePrecedence _ _) fun node => .ite (fun _ => .get fun _ => refused_quietly _ _ _) fun _ => ?_
  refine .after (deref_quietly _) fun _ => .after (matchToken_quietly _) fun _ => .ite (fun _ => ?_) fun _ => ?_
  · exact .pure fun hnode h => formed_snoc h hnode
  · exact .after (consume_quietly _ _) fun _ => .pure fun hnode h => formed_snoc h hnode

theorem fnCall_formed : AnswersFormed (fnCall rec) := by
  unfold AnswersFormed fnCall
  refine .after advance_quietly fun _ => .get fun _ => .ite (fun _ => ?_) fun _ => refused_quietly _ _ _
  refine .after (matchToken_quietly _) fun _ => .ite (fun _ => .pure fun _ => .call nofun) fun _ => ?_
  refine .bind (listLoop_formed (argumentTurn_formed R) rec.fuel) fun r => ?_
  cases r with
  | none => exact .pure fun h => h.elim
  | some arguments => exact .pure fun h _ => .call h

theorem indexPart_formed : Unraised (indexPart rec) (Formed .child) :=
  .after (access_quietly _) fun _ => R.parsePrecedence _ _

theorem secondPart_formed :
    Unraised (do
      if ← matchToken .colon then pure indexBlank
      else
        let second ← indexPart rec
        let _ ← matchToken .colon
        pure second) (Formed .child) := by
  refine .after (matchToken_quietly _) fun _ => .ite (fun _ => .pure (.literal _)) fun _ => ?_
  exact .bind (indexPart_formed R) fun _ => .after (matchToken_quietly _) fun _ => .pure id

theorem indexRest_formed (first : Node) (readFirst : Bool) :
    Unraised (indexRest rec first readFirst) fun r => Formed .child first → Answered r.1 r.2 := by
  unfold indexRest
  refine .after (matchToken_quietly _) fun _ => .ite (fun _ => ?_) fun _ => ?_
  · refine .after (freeIf_quietly _ _) fun _ => .after (access_quietly _) fun _ => .pure fun h => .index h ?_
    split
    · exact .missing
    · exact .given (.literal _)
  · refine .bind (secondPart_formed R) fun second => .after (matchToken_quietly _) fun _ => .ite (fun _ => ?_) fun _ => ?_
    · exact .after (access_quietly _) fun _ => .pure fun hsecond h => .index h (.given hsecond)
    · refine .after ((indexPart_formed R).mono fun _ _ => trivial) fun _ => .after (consume_quietly _ _) fun _ => ?_
      exact .pure fun hsecond h => .index h (.given hsecond)

theorem indexAccess_formed : AnswersFormed (indexAccess rec) := by
  unfold AnswersFormed indexAccess
  refine .after advance_quietly fun _ => .after (matchToken_quietly _) fun _ => .ite (fun _ => ?_) fun _ => ?_
  · exact (indexRest_formed R _ _).mono fun _ h => h (.literal _)
  · exact .bind (indexPart_formed R) fun first => .after (matchToken_quietly _) fun _ => indexRest_formed R first true

theorem question_formed : AnswersFormed (question rec) := by
  unfold AnswersFormed question
  refine .after advance_quietly fun _ => .bind (R.parsePrecedence _ _) fun _ => .after (consume_quietly _ _) fun _ => ?_
  exact .bind (R.parsePrecedence _ _) fun _ => .pure fun hy hx => .ternary hx hy

theorem dot_formed : AnswersFormed (dot rec) := by
  unfold AnswersFormed dot
  refine .after advance_quietly fun _ => .bind (R.parsePrecedence _ _) fun _ => .get fun _ => ?_
  exact .ite (fun _ => refused_quietly _ _ _) fun _ => .pure fun _ h => .operand nofun nofun nofun h

/-! ### The table -/

theorem prefixRule_formed {t : TokenType} {f : ParseFn} (h : (getRule rec t).prefixRule = some f) : KeepsFormed f := by
  cases getRule_prefixOf h with
  | atomic => exact atomic_formed
  | castingPrefix => exact castingPrefix_formed R
  | ifExpression => exact ifExpression_formed R
  | identifierOrKeyword => exact identifierOrKeyword_formed
  | asType => exact asType_formed R
  | typeOf => exact typeOf_formed R
  | identifier => exact identifier_formed
  | string => exact string_formed
  | unary => exact unary_formed R
  | increment => exact stepPrefix_formed fun _ => .prefixIncrement _
  | decrement => exact stepPrefix_formed fun _ => .prefixDecrement _
  | grouping => exact grouping_formed R
  | compound => exact compound_formed R

theorem infixRule_formed {t : TokenType} {f : ParseFn} (h : (getRule rec t).infixRule = some f) : AnswersFormed f := by
  cases getRule_infixOf h with
  | fnCall => exact fnCall_formed R
  | castingInfix => exact castingInfix_formed
  | binary => exact binary_formed R
  | increment => exact stepInfix_formed fun _ => .postfixIncrement _
  | decrement => exact stepInfix_formed fun _ => .postfixDecrement _
  | indexAccess => exact indexAccess_formed R
  | question => exact question_formed R
  | dot => exact dot_formed R

/-! ### The Pratt loop -/

omit R

/-- A turn's left side or result. -/
def TurnFormed : Node ⊕ PrattEnd → Prop
  | .inl node => Formed .child node
  | .inr result => Formed .child result.node

theorem binaryTurn_formed (lhs rhs : Node) (opcode : Opcode) :
    Unraised (binaryTurn lhs rhs opcode) fun r => Formed .child (.binary opcode lhs rhs) → TurnFormed r := by
  unfold binaryTurn
  refine .get fun _ => .ite (fun _ => .pure fun _ h => h) fun _ => .bind (calcStatic_quietly _) fun r => ?_
  exact .ite (fun _ => .pure fun hr _ h => hr h) fun _ => .pure fun hr _ h => hr h

theorem combine_formed (lhs : Node) (opcode : Opcode) (rhs : Node) :
    Unraised (combine lhs opcode rhs) fun r => Formed .child lhs → Answered opcode rhs → TurnFormed r := by
  unfold combine
  split
  · refine .after (access_quietly _) fun _ => .pure fun _ h => ?_
    cases h with
    | operand _ _ _ h => exact h
  · refine .bind (dottify_quietly rhs) fun r => (binaryTurn_formed lhs r .dot).mono fun _ hturn hr hlhs h => hturn ?_
    cases h with
    | operand _ _ _ h => exact .binary nofun hlhs (hr.1 h)
  · refine .pure fun hlhs h => ?_
    cases h with
    | operand _ hternary _ _ => exact absurd rfl hternary
    | ternary hx hy => exact .ternary hlhs hx hy
  · refine .pure fun hlhs h => ?_
    cases h with
    | operand _ _ hindex _ => exact absurd rfl hindex
    | index hfirst hsecond => exact .index hlhs hfirst hsecond
  · rename_i hternary hindex
    refine (binaryTurn_formed lhs rhs opcode).mono fun _ hturn hlhs h => hturn ?_
    cases h with
    | operand hcall _ _ h => exact .binary hcall hlhs h
    | call hnodes => exact .call hlhs hnodes
    | ternary _ _ => exact absurd rfl hternary
    | index _ _ => exact absurd rfl hindex

include R

theorem prattTurn_formed (rule : PrecedenceRule) (node : Node) :
    Unraised (prattTurn rec rule node) fun r => Formed .child node → TurnFormed r := by
  unfold prattTurn
  refine .get fun p => .ite (fun _ => ?_) fun _ => .pure fun _ h => h
  split
  · exact refused_quietly _ _ _
  · rename_i f hf
    refine .bind (infixRule_formed R hf) fun r => (combine_formed node r.1 r.2).mono fun _ hturn hr _ hnode => hturn hnode hr

omit R in
theorem checkAssignment_quietly (rule : PrecedenceRule) : Unraised (checkAssignment rule) fun _ => True := by
  unfold checkAssignment
  refine .ite (fun _ => .after (matchToken_quietly _) fun _ => .ite (fun _ => .get fun _ => ?_) fun _ => .pure trivial) ?_
  · exact error_quietly _ _
  · exact fun _ => .pure trivial

omit R in
theorem endExpression_quietly (rule : PrecedenceRule) (r : PrattEnd) :
    Unraised (endExpression rule r) fun node => node = r.node := by
  cases r with
  | returned node => exact .pure rfl
  | loopEnd node => exact .after (checkAssignment_quietly rule) fun _ => .pure rfl

theorem parsePrecedence_formed (handle : Node) (rule : PrecedenceRule) :
    Unraised (parsePrecedence rec handle rule) (Formed .child) := by
  unfold parsePrecedence
  refine .after advance_quietly fun _ => .get fun p => ?_
  split
  · exact refused_quietly _ _ _
  · rename_i f hf
    refine .bind (prefixRule_formed R hf handle) fun r => ?_
    have hloop := Unbroken.loop (e := Stop.outOfFuel) (Q := fun r : PrattEnd => Formed .child r.node) (Formed .child)
      (fun node => (prattTurn_formed R rule node).mono fun r hr h => by cases r <;> exact hr h) rec.fuel r.2
    refine .bind hloop fun e => (endExpression_quietly rule e).mono fun node heq he hr _ => ?_
    rw [heq]
    exact he hr

end Rules

end Xvr.Frontend.Parse
