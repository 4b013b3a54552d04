/-
  Xvr.Backend.LoopFree — code emitted without a loop comes to its end.

  The code between two emission states is a tree of straight code and branches when no loop,
  break or continue was emitted on the way (`Ends`). Its instructions are among those that
  were added, so what none of these can do the code does not do either.

  Proved:
  - `emitAll_ends`: for any statements without a loop, break or continue.
  - `Ends.leads`: however its tests come out it runs to the end, and adds to the history only
    instructions that were added to the code.
-/

import Xvr.Backend.Structured

namespace Xvr.Backend

open Xvr.Runtime Xvr.Lib
open Xvr.Frontend (Node)

/-! ## Added instructions -/

/-- The instructions of a later state that an earlier one had not. -/
def added (s t : Codegen) : List Built :=
  (List.range t.blocks.length).flatMap fun b => ((t.code b).drop (s.code b).length).filterMap straight

theorem mem_added {s t : Codegen} {i : Built} : i ∈ added s t ↔ ∃ b, .op i ∈ (t.code b).drop (s.code b).length := by
  have hop (code : List Instr) : i ∈ code.filterMap straight ↔ .op i ∈ code := by
    rw [List.mem_filterMap]
    constructor
    · rintro ⟨j, hmem, hj⟩
      cases j with
      | op k =>
        cases hj
        exact hmem
      | _ => cases hj
    · exact fun hmem => ⟨_, hmem, rfl⟩
  simp only [added, List.mem_flatMap, List.mem_range, hop]
  constructor
  · rintro ⟨b, -, hmem⟩
    exact ⟨b, hmem⟩
  · rintro ⟨b, hmem⟩
    refine ⟨b, ?_, hmem⟩
    by_contra hge
    rw [Codegen.code_outside (Nat.le_of_not_lt hge)] at hmem
    exact absurd (List.mem_of_mem_drop hmem) List.not_mem_nil

section

variable {s t u : Codegen} {i : Built}

theorem added_before (htu : ∀ b, t.code b <+: u.code b) (h : i ∈ added s t) : i ∈ added s u := by
  obtain ⟨b, hmem⟩ := mem_added.mp h
  exact mem_added.mpr ⟨b, ((htu b).drop _).subset hmem⟩

theorem added_behind (hst : ∀ b, s.code b <+: t.code b) (h : i ∈ added t u) : i ∈ added s u := by
  obtain ⟨b, hmem⟩ := mem_added.mp h
  exact mem_added.mpr ⟨b, (List.drop_sublist_drop_left _ (hst b).length_le).subset hmem⟩

end

/-! ## Code that ends -/

/-- From the end of one state's code to the end of another's there is no loop, in any function
    that the builder stands in. -/
structure Ends (s t : Codegen) : Prop where
  emitted : Emitted False [] s t
  runs : ∀ first ≤ s.here, ∃ tree : Tree,
    Flow.Realises (functionGraph first t) tree s.position t.position ∧ tree.LoopFree (· ∈ added s t)

def Action.Ends (action : Action) : Prop := ∀ s : Codegen, s.Standing → Backend.Ends s (action s).2

namespace Ends

variable {s t u : Codegen}

theorem refl (hs : s.Standing) : Ends s s := ⟨.refl hs, fun _ _ => ⟨.skip, .skip _, trivial⟩⟩

theorem trans (h : Ends s t) (h' : Ends t u) : Ends s u := by
  refine ⟨h.emitted.trans h'.emitted, fun first hle => ?_⟩
  obtain ⟨before, hbefore, hadded⟩ := h.runs first hle
  obtain ⟨behind, hbehind, hadded'⟩ := h'.runs first (h.emitted.grows.first_le h.emitted.standing hle)
  have hst := h.emitted.grows.code_prefix
  have htu := h'.emitted.grows.code_prefix
  exact ⟨.seq before behind, .seq (hbefore.mono (functionGraph_mono htu)) hbehind,
    hadded.mono fun _ => added_before htu, hadded'.mono fun _ => added_behind hst⟩

/-- A step that leaves the module and the builder alone. -/
theorem quiet (h : Ends s t) (hb : u.blocks = t.blocks) (hi : u.insertBlock = t.insertBlock)
    (hf : u.fnEmitter.currentFunction = t.fnEmitter.currentFunction)
    (hr : t.controlFlow.reported <+: u.controlFlow.reported) (he : t.contextErrors <+: u.contextErrors) : Ends s u := by
  have hpos : u.position = t.position := by
    rw [Codegen.position, Codegen.here_congr hi, Codegen.code_congr hb]
    rfl
  refine h.trans ⟨(Emitted.refl h.emitted.grows.standing).quiet hb hi hf hr he, fun _ _ => ⟨.skip, ?_, trivial⟩⟩
  rw [hpos]
  exact .skip _

theorem setError (h : Ends s t) (message : String) (hint : Option String) : Ends s (t.setError message hint) :=
  h.quiet rfl rfl rfl (List.prefix_append _ _) List.prefix_rfl

theorem build (hs : s.Standing) (op : Op Value) : Ends s (s.build op).2 := by
  have hcode : (s.build op).2.code s.here = s.code s.here ++ [.op ⟨s.nextId, op⟩] := Codegen.append_code_here hs _
  have hat : (s.build op).2.graph.code s.position = some (.op ⟨s.nextId, op⟩) := by
    show ((s.build op).2.code s.here)[(s.code s.here).length]? = _
    rw [hcode, List.getElem?_concat_length]
  have hpos : (s.build op).2.position = s.position.next := by
    rw [Codegen.position, show (s.build op).2.here = s.here from Codegen.append_here s _, hcode, List.length_append]
    rfl
  refine ⟨(Emitted.refl hs).build op, fun first hle => ⟨.op ⟨s.nextId, op⟩, ?_, ?_⟩⟩
  · rw [hpos]
    exact .op (functionGraph_code.mpr ⟨hle, hat⟩)
  · refine mem_added.mpr ⟨s.here, ?_⟩
    rw [hcode, List.drop_left]
    exact List.mem_singleton_self _

/-- The arms of a branch end. -/
theorem arms {thenPath elsePath : Action} (hkt : thenPath.Keeps False) (hke : elsePath.Keeps False) (ht : thenPath.Ends)
    (he : elsePath.Ends) (hs : s.Standing) {fn : Value} (hfn : s.fnEmitter.currentFunction = some fn) (value : Value)
    (names : String × String × String) (n : Nat) (hn : n = s.blocks.length) :
    Ends s ((elsePath ((thenPath (s.openIf fn value names)).2.closePart (n + 2) (n + 1))).2.closePart (n + 2) (n + 2)) := by
  have e₁ : Emitted False [] s s := .refl hs
  have e₂ := e₁.openIf hfn value names
  rw [← hn] at e₂
  have e₃ := (e₂.run hkt).closePart (n + 2)
  have e₄ := (e₃.run hke).closePart (n + 2)
  obtain ⟨-, -, w₂⟩ := openIf_position e₁ hfn value names
  have w₃ := leave_within (e₂.run hkt).grows.standing (.br (n + 2)) (n + 1)
  have w₄ := leave_within (e₃.run hke).grows.standing (.br (n + 2)) (n + 2)
  have helse := (hke _ e₃.grows.standing).1.grows.code_prefix
  have hthen := (hkt _ e₂.grows.standing).1.grows.code_prefix
  refine ⟨e₄, fun first hle => ?_⟩
  obtain ⟨yes, hyes, hadded⟩ := (ht _ e₂.grows.standing).runs first (e₂.grows.first_le hs hle)
  obtain ⟨no, hno, hadded'⟩ := (he _ e₃.grows.standing).runs first (e₃.grows.first_le hs hle)
  refine ⟨.branch value yes no, arms_realise hkt hke hs hle hfn value names n hn hyes hno, ?_, ?_⟩
  · exact hadded.mono fun _ h => added_behind w₂ (added_before (fun b => (w₃ b).trans ((helse b).trans (w₄ b))) h)
  · exact hadded'.mono fun _ h =>
      added_behind (fun b => (w₂ b).trans ((hthen b).trans (w₃ b))) (added_before w₄ h)

/-- The end is come to, with nothing in the history but what was added. -/
theorem leads (h : Ends s t) {first : Nat} (hle : first ≤ s.here) (o : Flow.Outcome Built Value)
    (history : Flow.History Built Value) :
    ∃ history' is, Flow.Leads (functionGraph first t) o ⟨s.position, history⟩ ⟨t.position, history'⟩ ∧
      Flow.performed history' = is ++ Flow.performed history ∧ ∀ i ∈ is, i ∈ added s t := by
  obtain ⟨tree, hreal, hadded⟩ := h.runs first hle
  obtain ⟨history', is, hruns, hperformed, hmem⟩ := hadded.runs o history
  exact ⟨history', is, hreal.runs hruns, hperformed, hmem⟩

end Ends

/-! ## What is emitted without a loop -/

/-- What the action emits, it emits where the builder stands, and that ends. -/
structure Action.KeepsEnding (action : Action) : Prop where
  keeps : action.Keeps False
  ends : action.Ends

section

variable {condition thenPath elsePath : Action} {actions : List Action}

theorem null_ends : Action.null.Ends := fun _ hs => .refl hs

theorem plan_ends (ho : ∀ a ∈ actions, a.Ends) (plan : Plan Value) : (plan.emit actions).Ends := by
  intro s hs
  induction plan generalizing s with
  | done value => exact .refl hs
  | operand index next ih =>
    have hfirst : Ends s ((actions[index]?.getD .null) s).2 := by
      cases hop : actions[index]? with
      | none => exact null_ends s hs
      | some a => exact ho a (List.mem_of_getElem? hop) s hs
    exact hfirst.trans (ih _ _ hfirst.emitted.grows.standing)
  | build op next ih =>
    have hfirst := Ends.build hs op
    exact hfirst.trans (ih _ _ hfirst.emitted.grows.standing)
  | lookup name next ih => exact ih _ s hs
  | declare name alloca varType count next ih =>
    have hfirst : Ends s { s with fnEmitter := s.fnEmitter.addLocalVar (some name) (some alloca) varType count } :=
      (Ends.refl hs).quiet rfl rfl (FunctionEmitter.addLocalVar_function ..) List.prefix_rfl List.prefix_rfl
    exact hfirst.trans (ih _ hfirst.emitted.grows.standing)
  | getFunction name next ih => exact ih _ s hs
  | setError message next ih =>
    have hfirst : Ends s (s.setContextError message) :=
      (Ends.refl hs).quiet rfl rfl rfl List.prefix_rfl (List.prefix_append _ _)
    exact hfirst.trans (ih _ hfirst.emitted.grows.standing)

theorem runAll_ends (ha : ∀ a ∈ actions, a.Ends) {s : Codegen} (hs : s.Standing) : Ends s (runAll actions s) := by
  induction actions generalizing s with
  | nil => exact .refl hs
  | cons a rest ih =>
    have hfirst := ha a (List.mem_cons_self ..) s hs
    exact hfirst.trans (ih (fun b hb => ha b (List.mem_cons_of_mem _ hb)) hfirst.emitted.grows.standing)

theorem runLast_ends (ha : ∀ a ∈ actions, a.Ends) : (runLast actions).Ends := by
  induction actions with
  | nil => exact null_ends
  | cons a rest ih =>
    have hfirst := ha a (List.mem_cons_self ..)
    have hrest := ih fun b hb => ha b (List.mem_cons_of_mem _ hb)
    cases rest with
    | nil => exact hfirst
    | cons b rest =>
      intro s hs
      have h := hfirst s hs
      exact h.trans (hrest _ h.emitted.grows.standing)

theorem emitBlock_ends (ha : ∀ a ∈ actions, a.Ends) : (emitBlock actions).Ends := by
  intro s hs
  unfold emitBlock
  split
  · exact .refl hs
  · have hopened : Ends s { s with fnEmitter := s.fnEmitter.enterScope } :=
      (Ends.refl hs).quiet rfl rfl (FunctionEmitter.enterScope_function _) List.prefix_rfl List.prefix_rfl
    have hall := hopened.trans (runAll_ends ha hopened.emitted.grows.standing)
    exact hall.quiet rfl rfl (FunctionEmitter.exitScope_function _) List.prefix_rfl List.prefix_rfl

theorem emitArm_ends {whole : Action} (ha : ∀ a ∈ actions, a.Ends) (hw : whole.Ends) : (emitArm actions whole).Ends := by
  unfold emitArm
  split
  · exact hw
  · exact runLast_ends ha

theorem emitCondition_ends (hc : condition.Ends) (what : String) : (emitCondition what condition).Ends := by
  intro s hs
  have h := hc s hs
  unfold emitCondition
  generalize condition s = r at *
  rcases r with ⟨_ | value, s₁⟩
  · exact h.setError _ _
  · dsimp only
    split
    · exact h
    · exact h.setError _ _

theorem emitIfStatement_ends (hc : condition.KeepsEnding) (ht : thenPath.KeepsEnding) (he : elsePath.KeepsEnding) :
    (emitStatement (emitIfStatement condition thenPath elsePath)).Ends := by
  intro s hs
  unfold emitStatement emitIfStatement
  split
  · exact (Ends.refl hs).setError _ _
  · rename_i fn hfn
    have h := emitCondition_ends hc.ends "if statement" s hs
    generalize emitCondition "if statement" condition s = r at *
    rcases r with ⟨_ | value, s₁⟩
    · exact h
    · exact h.trans (.arms ht.keeps he.keeps ht.ends he.ends h.emitted.grows.standing (h.emitted.grows.function.trans hfn)
        value ifNames _ rfl)

theorem emitIfExpression_ends (hc : condition.KeepsEnding) (ht : thenPath.KeepsEnding) (he : elsePath.KeepsEnding)
    (typeWord : BitVec 32) : (emitIfExpression condition thenPath elsePath typeWord).Ends := by
  intro s hs
  unfold emitIfExpression
  split
  · exact .refl hs
  · rename_i fn hfn
    have h := emitCondition_ends hc.ends "if expression" s hs
    generalize emitCondition "if expression" condition s = r at *
    rcases r with ⟨_ | value, s₁⟩
    · exact h
    · have harms := h.trans (.arms ht.keeps he.keeps ht.ends he.ends h.emitted.grows.standing
        (h.emitted.grows.function.trans hfn) value ifNames _ rfl)
      exact (harms.trans (.build harms.emitted.grows.standing _)).quiet rfl rfl rfl List.prefix_rfl List.prefix_rfl

theorem emitIf_ends {statement : Codegen → Bool × Codegen} {expression : Action} (hs : (emitStatement statement).Ends)
    (he : expression.Ends) (isExpression : Bool) : (emitStatement (emitIf isExpression statement expression)).Ends := by
  intro s hst
  have hcleared : Ends s s.clearError := (Ends.refl hst).quiet rfl rfl rfl List.prefix_rfl List.prefix_rfl
  unfold emitStatement emitIf
  split
  · exact hcleared.trans (he _ hcleared.emitted.grows.standing)
  · exact hcleared.trans (hs _ hcleared.emitted.grows.standing)

theorem emitTernary_ends (hc : condition.Ends) (ht : thenPath.Ends) (he : elsePath.Ends) :
    (emitTernary condition thenPath elsePath).Ends := by
  intro s hs
  have h := hc s hs
  unfold emitTernary
  generalize condition s = r at *
  rcases r with ⟨_ | value, s₁⟩
  · exact h
  · dsimp only
    split
    · have h₂ := h.trans (ht s₁ h.emitted.grows.standing)
      generalize thenPath s₁ = r at *
      rcases r with ⟨thenValue, s₂⟩
      have h₃ := h₂.trans (he s₂ h₂.emitted.grows.standing)
      generalize elsePath s₂ = r at *
      rcases r with ⟨elseValue, s₃⟩
      dsimp only at h₃ ⊢
      split
      · rename_i fn hfn
        have hbranch := h₃.trans (.arms null_keeps null_keeps null_ends null_ends h₃.emitted.grows.standing hfn value
          ternaryNames _ rfl)
        exact hbranch.trans (.build hbranch.emitted.grows.standing _)
      · exact h₃
    · exact h

theorem builds_ends : Builds False False Action.KeepsEnding where
  plan ho plan := ⟨emit_plan_keeps (fun a ha => (ho a ha).keeps) plan, plan_ends (fun a ha => (ho a ha).ends) plan⟩
  block ha := ⟨emitBlock_keeps fun a hmem => (ha a hmem).keeps, emitBlock_ends fun a hmem => (ha a hmem).ends⟩
  arm ha hw := ⟨emitArm_keeps (fun a hmem => (ha a hmem).keeps) hw.keeps,
    emitArm_ends (fun a hmem => (ha a hmem).ends) hw.ends⟩
  ternary hc ht he := ⟨emitTernary_keeps hc.keeps ht.keeps he.keeps, emitTernary_ends hc.ends ht.ends he.ends⟩
  ifStatement hc ht he := ⟨emitIfStatement_keeps hc.keeps ht.keeps he.keeps, emitIfStatement_ends hc ht he⟩
  ifExpression hc ht he typeWord :=
    ⟨emitIfExpression_keeps hc.keeps ht.keeps he.keeps typeWord, emitIfExpression_ends hc ht he typeWord⟩
  ifEither hs he isExpression := ⟨emitIf_keeps hs.keeps he.keeps isExpression, emitIf_ends hs.ends he.ends isExpression⟩
  whileLoop hlooping := hlooping.elim
  forLoop hlooping := hlooping.elim
  jump hjumping := hjumping.elim

end

variable {library : Library Value}

/-- Statements without a loop, break or continue come to their end. -/
theorem emitAll_ends {nodes : List Node} (hj : jumpsAny nodes = false) (hl : loopsAny nodes = false) {s : Codegen}
    (hs : s.Standing) : Ends s (runAll (emitAll library nodes) s) :=
  runAll_ends (fun a ha => (builds_ends.ofNodes nodes (fun _ => hj) (fun _ => hl) a ha).ends) hs

end Xvr.Backend
