/-
  Xvr.Frontend.Meaning — what a syntax tree means: the effects it has, in their order, and
  its value.

  This is the purpose of the tree, not code of the repository: each opcode does what its
  comment in `Xvr_Opcode` says. What the comments leave open (values of operators, what a
  call answers, how memory is laid out) is the `Host`, any at all. A loop may take `limit`
  turns before the run is cut short, so that a program that does not end has all its finite
  runs for its meaning. A tree with a stale pointer in it has no meaning.
-/

import Xvr.Frontend.AstNode

namespace Xvr.Frontend.Meaning

open Xvr.Runtime

/-- What an observer sees. -/
inductive Effect where
  | asserted (condition message : Literal)
  | printed (values : List Literal)
  | called (callee : Node) (arguments : Literal)
  | declared (identifier typeLiteral value : Literal)
  | declaredFn (identifier : Literal) (arguments returns body : Node)
  | imported (identifier alias_ : Literal)

/-- How a node ends. -/
inductive Flow where
  | value (v : Literal)
  | broken
  | continued
  | returned (v : Literal)
  | failed
  | unfinished

/-- What a program runs on. -/
structure Host (σ : Type) where
  truth : Literal → Bool
  unary : Opcode → Literal → Literal
  binary : Opcode → Literal → Literal → Literal
  index : Literal → Literal → Literal → Literal
  compound : LiteralType → Literal → Literal
  cast : Literal → Literal → Literal
  load : Literal → σ → Literal
  assign : Opcode → Node → Literal → σ → σ
  declare : Literal → Literal → Literal → σ → σ
  /-- The new value, when the operator stands in front. -/
  step : Bool → Opcode → Literal → σ → Literal × σ
  call : Node → Literal → σ → Literal × σ
  enter : σ → σ
  leave : σ → σ
  truth_boolean : ∀ b, truth (.boolean b) = b
  leave_enter : ∀ memory, leave (enter memory) = memory

/-- The memory, and the effects so far. -/
abbrev Run (σ : Type) := σ × List Effect

abbrev Comp (σ : Type) := Run σ → Flow × Run σ

section

variable {σ : Type}

def ret (v : Literal) : Comp σ := fun r => (.value v, r)

/-- Goes on with the value, if the computation comes to one. -/
def andThen (c : Comp σ) (next : Literal → Comp σ) : Comp σ := fun r =>
  match c r with
  | (.value v, r) => next v r
  | other => other

def emit (e : Effect) : Comp σ := fun r => (.value .null, r.1, r.2 ++ [e])

def update (f : σ → Literal × σ) : Comp σ := fun r => (.value (f r.1).1, (f r.1).2, r.2)

def consValue (v : Literal) : Literal → Literal
  | .arrayIntermediate vs => .arrayIntermediate (v :: vs)
  | other => other

variable (host : Host σ)

def condition (v : Literal) (thenPath elsePath : Comp σ) : Comp σ := if host.truth v then thenPath else elsePath

/-- In a scope of its own. -/
def inScope (c : Comp σ) : Comp σ := fun r =>
  let (flow, r) := c (host.enter r.1, r.2)
  (flow, host.leave r.1, r.2)

/-- A loop of at most so many turns. -/
def loopTurns (test body post : Comp σ) : Nat → Comp σ
  | 0 => fun r => (.unfinished, r)
  | n + 1 => andThen test fun v =>
    condition host v
      (fun r =>
        match body r with
        | (.broken, r) => (.value .null, r)
        | (.value _, r) | (.continued, r) => andThen post (fun _ => loopTurns test body post n) r
        | other => other)
      (ret .null)

/-- The value of a literal: an identifier stands for its variable. -/
def literalValue : Literal → Comp σ
  | .identifier name => update fun memory => (host.load (.identifier name) memory, memory)
  | l => ret l

/-- An operator of one operand. -/
def unaryMeaning (opcode : Opcode) (v : Literal) : Comp σ :=
  match opcode with
  | .print => emit (.printed [v])
  | _ => ret (host.unary opcode v)

/-- An operator of two operands that evaluates both. -/
def binaryMeaning (opcode : Opcode) (a b : Literal) : Comp σ :=
  match opcode with
  | .assert => andThen (emit (.asserted a b)) fun _ => condition host a (ret .null) fun r => (.failed, r)
  | .print | .printf => emit (.printed [a, b])
  | _ => ret (host.binary opcode a b)

def isAssign : Opcode → Bool
  | .varAssign | .varAdditionAssign | .varSubtractionAssign | .varMultiplicationAssign | .varDivisionAssign
  | .varModuloAssign => true
  | _ => false

mutual

/-- What a node does. -/
def perform (limit : Nat) : Node → Comp σ
  | .null | .pass => ret .null
  | .wild | .error => fun r => (.failed, r)
  | .literal l => literalValue host l
  | .unary opcode child => andThen (perform limit child) (unaryMeaning host opcode)
  | .binary opcode left right =>
    if opcode = .pass then ret .null
    else if isAssign opcode then
      andThen (perform limit right) fun v => update fun memory => (v, host.assign opcode left v memory)
    else if opcode = .fnCall then
      andThen (perform limit right) fun vs =>
        andThen (emit (.called left vs)) fun _ => update (host.call left vs)
    else
      andThen (perform limit left) fun a =>
        if opcode = .and then condition host a (perform limit right) (ret a)
        else if opcode = .or then condition host a (ret a) (perform limit right)
        else andThen (perform limit right) (binaryMeaning host opcode a)
  | .ternary test thenPath elsePath | .pathIf test thenPath elsePath _ _ =>
    andThen (perform limit test) fun v => condition host v (perform limit thenPath) (perform limit elsePath)
  | .grouping child => perform limit child
  | .block nodes => inScope host (performEach limit nodes)
  | .compound literalType nodes => andThen (performAll limit nodes) fun vs => ret (host.compound literalType vs)
  | .pair left right =>
    andThen (perform limit left) fun a => andThen (perform limit right) fun b => ret (.arrayIntermediate [a, b])
  | .index first second third =>
    andThen (perform limit first) fun a =>
      andThen (perform limit second) fun b => andThen (perform limit third) fun c => ret (host.index a b c)
  | .varDecl identifier typeLiteral expression _ =>
    andThen (perform limit expression) fun v =>
      andThen (emit (.declared identifier typeLiteral v)) fun _ =>
        update fun memory => (.null, host.declare identifier typeLiteral v memory)
  | .fnDecl identifier arguments returns body _ => emit (.declaredFn identifier arguments returns body)
  | .fnCollection nodes => performAll limit nodes
  | .fnCall arguments _ => perform limit arguments
  | .fnReturn returns => andThen (perform limit returns) fun v r => (.returned v, r)
  | .pathWhile test thenPath => loopTurns host (perform limit test) (perform limit thenPath) (ret .null) limit
  | .pathFor preClause test postClause thenPath =>
    inScope host (andThen (perform limit preClause) fun _ =>
      loopTurns host (perform limit test) (perform limit thenPath) (perform limit postClause) limit)
  | .pathBreak => fun r => (.broken, r)
  | .pathContinue => fun r => (.continued, r)
  | .prefixIncrement identifier => update (host.step true .addition identifier)
  | .postfixIncrement identifier => update (host.step false .addition identifier)
  | .prefixDecrement identifier => update (host.step true .subtraction identifier)
  | .postfixDecrement identifier => update (host.step false .subtraction identifier)
  | .cast targetType expression => andThen (perform limit expression) fun v => ret (host.cast targetType v)
  | .importNode identifier alias_ => emit (.imported identifier alias_)

/-- One node after the other, for the value of the last. -/
def performEach (limit : Nat) : List Node → Comp σ
  | [] => ret .null
  | [node] => perform limit node
  | node :: nodes => andThen (perform limit node) fun _ => performEach limit nodes

/-- One node after the other, for the value of each. -/
def performAll (limit : Nat) : List Node → Comp σ
  | [] => ret (.arrayIntermediate [])
  | node :: nodes => andThen (perform limit node) fun v => andThen (performAll limit nodes) fun vs => ret (consValue v vs)

end

end

section

variable {σ : Type}

/-- The meaning of a node: its effects and its value from any state. -/
def nodeMeaning (host : Host σ) (limit : Nat) (node : Node) : Option (Comp σ) :=
  if node.freeable then some (perform host limit node) else none

/-- The meaning of a program, with the value of each of its nodes. -/
def meaning (host : Host σ) (limit : Nat) (nodes : List Node) : Option (Comp σ) :=
  if Node.freeableAll nodes then some (performAll host limit nodes) else none

end

/-- Node by node the same effects and the same value, on every host. -/
def SameMeaning (nodes nodes' : List Node) : Prop :=
  ∀ (σ : Type) (host : Host σ) (limit : Nat),
    List.Forall₂ (fun node node' => nodeMeaning host limit node' = nodeMeaning host limit node) nodes nodes'

theorem nodeMeaning_eq {σ : Type} {host : Host σ} {limit : Nat} {node node' : Node}
    (h : nodeMeaning host limit node' = nodeMeaning host limit node) :
    node'.freeable = node.freeable ∧ (node.freeable = true → perform host limit node' = perform host limit node) := by
  unfold nodeMeaning at h
  cases hnode : node.freeable <;> cases hnode' : node'.freeable <;> simp_all

/-- Nodes of the same meanings make programs of the same meaning. -/
theorem SameMeaning.program {nodes nodes' : List Node} (h : SameMeaning nodes nodes') {σ : Type} (host : Host σ)
    (limit : Nat) : meaning host limit nodes' = meaning host limit nodes := by
  have hall := h σ host limit
  clear h
  have hsame : Node.freeableAll nodes' = Node.freeableAll nodes ∧
      (Node.freeableAll nodes = true → performAll host limit nodes' = performAll host limit nodes) := by
    induction hall with
    | nil => exact ⟨rfl, fun _ => rfl⟩
    | cons hnode _ ih =>
      obtain ⟨hfree, hperform⟩ := nodeMeaning_eq hnode
      refine ⟨by rw [Node.freeableAll, Node.freeableAll, hfree, ih.1], fun hboth => ?_⟩
      rw [Node.freeableAll, Bool.and_eq_true] at hboth
      rw [performAll, performAll, hperform hboth.1, ih.2 hboth.2]
  unfold meaning
  cases hfree : Node.freeableAll nodes <;> simp_all

end Xvr.Frontend.Meaning
