/-
  Xvr.Backend.NameCourses — the emission goes through the names of a program as its shape says.

  What the emission of a node does to the table of local variables, up to what the entries
  stand for, is what the calls of a course do that follows the shape of the node. A lookup
  leaves the table as it is; what is compared are the entries and the scopes.

  Proved:
  - `emit_takes`: for every node.
-/

import Xvr.Backend.EmissionFrame
import Xvr.Backend.EmissionSteps
import Xvr.Backend.NameResolution

namespace Xvr.Backend

open Xvr.Runtime Xvr.Lib
open Xvr.Frontend (Opcode Node)

/-! ## Names -/

/-- An entry without what it stands for. -/
def Variable.bare {V : Type} (v : Variable V) : Variable Unit := ⟨v.name, none, .null, 0⟩

/-- A table of names alone. -/
abbrev Names := FunctionEmitter Unit

namespace FunctionEmitter

variable {V : Type} (e : FunctionEmitter V)

/-- The names in the table, and the scopes they stand in. -/
def names : Names where
  localVars := e.localVars.map Variable.bare
  localVarCount := e.localVarCount
  scopeStack := e.scopeStack
  scopeDepth := e.scopeDepth
  currentFunction := none

theorem names_addEntry (v : Variable V) : (e.addEntry v).names = e.names.addEntry v.bare := by
  unfold addEntry names
  split <;> simp

theorem names_addLocalVar (name : List Char) (alloca : V) (varType : LiteralType) (arrayCount : Int) :
    (e.addLocalVar (some name) (some alloca) varType arrayCount).names = e.names.addEntry ⟨some name, none, .null, 0⟩ :=
  e.names_addEntry _

theorem names_enterScope : e.enterScope.names = e.names.enterScope := by
  unfold enterScope names
  split <;> simp

theorem names_exitScope : e.exitScope.names = e.names.exitScope := by
  unfold exitScope names
  split <;> simp

end FunctionEmitter

namespace Codegen

def names (s : Codegen) : Names := s.fnEmitter.names

@[simp] theorem names_append (s : Codegen) (i : Instr) : (s.append i).names = s.names := by
  unfold names
  rw [append_fnEmitter]

@[simp] theorem names_build (s : Codegen) (op : Op Value) : (s.build op).2.names = s.names := names_append s _

@[simp] theorem names_closePart (s : Codegen) (target next : Nat) : (s.closePart target next).names = s.names :=
  names_append s _

@[simp] theorem names_testLoop (s : Codegen) (condition : Value) (bodyBlock endBlock : Nat) :
    (s.testLoop condition bodyBlock endBlock).names = s.names := names_append s _

@[simp] theorem names_openIf (s : Codegen) (fn condition : Value) (names : String × String × String) :
    (s.openIf fn condition names).names = s.names := names_append _ _

@[simp] theorem names_openWhile (s : Codegen) (fn : Value) : (s.openWhile fn).names = s.names := names_closePart _ _ _

theorem names_entered (s : Codegen) : names { s with fnEmitter := s.fnEmitter.enterScope } = s.names.enterScope :=
  s.fnEmitter.names_enterScope

theorem names_exited (s : Codegen) : names { s with fnEmitter := s.fnEmitter.exitScope } = s.names.exitScope :=
  s.fnEmitter.names_exitScope

@[simp] theorem names_popLoop (s : Codegen) : s.popLoop.names = s.names := rfl

end Codegen

/-! ## Courses through the names -/

/-- The calls make these names of those. -/
def Renames (placed : List (PlacedCall Place)) (n n' : Names) : Prop :=
  ∀ e : FunctionEmitter Place, e.names = n → (e.run (calls placed)).names = n'

/-- A course through the text makes these names of those. -/
def Goes (t : Text (List Char)) (n n' : Names) : Prop :=
  ∃ c, t.follows c ∧ ∀ p, Renames (callsBy (callsIn c) t p) n n'

/-- The parts are gone through in the order, up to where it stops. -/
inductive Walk (ts : List (Text (List Char))) : List Nat → Names → Names → Prop
  | stop (order : List Nat) (n : Names) : Walk ts order n n
  | visit {i : Nat} {order : List Nat} {t : Text (List Char)} {n m n' : Names} :
      ts[i]? = some t → Goes t n m → Walk ts order m n' → Walk ts (i :: order) n n'

section

variable {t : Text (List Char)} {ts : List (Text (List Char))} {order : List Nat} {n m n' : Names}
  {placed rest : List (PlacedCall Place)}

theorem renames_nil : Renames [] n n := fun _ h => h

theorem Renames.append (h : Renames placed n m) (h' : Renames rest m n') : Renames (placed ++ rest) n n' := by
  intro e he
  rw [calls_append, FunctionEmitter.run, List.foldl_append]
  exact h' _ (h e he)

theorem Renames.scope (h : Renames placed n.enterScope m) (p : Place) :
    Renames ((p, .enterScope) :: placed ++ [(p, .exitScope)]) n m.exitScope := by
  have hopen : Renames [(p, .enterScope)] n n.enterScope := by
    rintro e rfl
    exact e.names_enterScope
  have hclose : Renames [(p, .exitScope)] m m.exitScope := by
    rintro e rfl
    exact e.names_exitScope
  exact (hopen.append h).append hclose

theorem Walk.course (h : Walk ts order n n') :
    ∃ c, c.indices.isPrefixOf order ∧ Text.followsIn c ts ∧ ∀ p, Renames (callsIn c ts p) n n' := by
  induction h with
  | stop order n => exact ⟨.done, rfl, rfl, fun p => renames_nil⟩
  | @visit i order t n m n' ht hgoes _ ih =>
    obtain ⟨inside, hinside, hthere⟩ := hgoes
    obtain ⟨next, hprefix, hnext, hthen⟩ := ih
    have hinside' : Text.followsBy (Text.followsIn inside) inside t := hinside
    refine ⟨.visit i inside next, ?_, ?_, ?_⟩
    · simpa [Course.indices] using hprefix
    · simp only [Text.followsIn, ht, hinside', hnext, Bool.and_self]
    · intro p
      simp only [callsIn, ht]
      exact (hthere (i :: p)).append (hthen p)

theorem Walk.free {e : Enclosure} (he : e ≠ .both) (h : Walk ts order n n') : Goes (.parts e none ts) n n' := by
  obtain ⟨c, -, hfollows, hc⟩ := h.course
  refine ⟨c, hfollows, ?_⟩
  intro p
  rw [callsBy, if_neg (fun h => he h.1)]
  exact hc p

theorem Walk.ordered {e : Enclosure} (he : e ≠ .both) (h : Walk ts order n n') : Goes (.parts e (some order) ts) n n' := by
  obtain ⟨c, hprefix, hfollows, hc⟩ := h.course
  refine ⟨c, ?_, ?_⟩
  · simp only [Text.follows, Text.followsBy, hprefix, hfollows, Bool.and_self]
  · intro p
    rw [callsBy, if_neg (fun h => he h.1)]
    exact hc p

theorem Walk.scoped (hts : ts ≠ []) (h : Walk ts order n.enterScope m) : Goes (.parts .both (some order) ts) n m.exitScope := by
  obtain ⟨c, hprefix, hfollows, hc⟩ := h.course
  refine ⟨c, ?_, ?_⟩
  · simp only [Text.follows, Text.followsBy, hprefix, hfollows, Bool.and_self]
  · intro p
    rw [callsBy, if_pos ⟨rfl, hts⟩]
    exact (hc p).scope p

/-- A part of its own is a walk. -/
theorem Goes.walk {i : Nat} (ht : ts[i]? = some t) (h : Goes t n n') : Walk ts [i] n n' := .visit ht h (.stop [] n')

theorem goes_nothing {e : Enclosure} (he : e ≠ .both) (order : Option (List Nat)) (n : Names) : Goes (.parts e order ts) n n := by
  cases order with
  | none => exact (Walk.stop [] n).free he
  | some order => exact (Walk.stop order n).ordered he

theorem goes_use (name : List Char) (read : Bool) (n : Names) : Goes (.use name read) n n :=
  ⟨.done, rfl, fun _ _ h => h⟩

theorem goes_used (literal : Literal) (n : Names) : Goes (used literal) n n := by
  cases literal with
  | identifier name => exact goes_use name true n
  | _ => exact goes_nothing (by decide) none n

theorem goes_declare (name : List Char) (read : Bool) (n : Names) :
    Goes (.declare name read) n (n.addEntry ⟨some name, none, .null, 0⟩) := by
  refine ⟨.done, rfl, ?_⟩
  rintro p e rfl
  exact e.names_addLocalVar name p .null 0

theorem unreadAll_eq (ts : List (Text (List Char))) : Text.unreadAll ts = ts.map Text.unread := by
  induction ts with
  | nil => rfl
  | cons t ts ih => rw [Text.unreadAll, ih, List.map_cons]

theorem callsIn_unread (c : Course) (ts : List (Text (List Char))) (p : Place) :
    callsIn c (Text.unreadAll ts) p = callsIn c ts p := by
  induction c generalizing ts p with
  | done => rfl
  | visit i inside next ihInside ihNext =>
    rw [callsIn, callsIn, ihNext, unreadAll_eq, List.getElem?_map]
    cases ts[i]? with
    | none => rfl
    | some t =>
      cases t with
      | use => rfl
      | declare => rfl
      | parts e order ts =>
        have hempty : Text.unreadAll ts = [] ↔ ts = [] := by rw [unreadAll_eq, List.map_eq_nil_iff]
        simp only [Option.map_some, Text.unread, callsBy, ihInside, ne_eq, hempty]

theorem followsIn_unread (c : Course) (ts : List (Text (List Char))) :
    Text.followsIn c (Text.unreadAll ts) = Text.followsIn c ts := by
  induction c generalizing ts with
  | done => rfl
  | visit i inside next ihInside ihNext =>
    rw [Text.followsIn, Text.followsIn, ihNext, unreadAll_eq, List.getElem?_map]
    cases ts[i]? with
    | none => rfl
    | some t =>
      cases t with
      | use => rfl
      | declare => rfl
      | parts e order ts => cases order <;> simp only [Option.map_some, Text.unread, Text.followsBy, ihInside]

theorem Goes.unread (h : Goes t n n') : Goes t.unread n n' := by
  obtain ⟨c, hfollows, hc⟩ := h
  cases t with
  | use => exact ⟨c, rfl, hc⟩
  | declare => exact ⟨c, rfl, hc⟩
  | parts e order ts =>
    have hempty : Text.unreadAll ts = [] ↔ ts = [] := by rw [unreadAll_eq, List.map_eq_nil_iff]
    refine ⟨c, ?_, ?_⟩
    · cases order <;> simpa only [Text.follows, Text.unread, Text.followsBy, followsIn_unread] using hfollows
    · intro p
      have hp := hc p
      simpa only [Text.unread, callsBy, callsIn_unread, ne_eq, hempty] using hp

end

/-! ## Actions -/

/-- The action goes through the text. -/
def Action.Takes (t : Text (List Char)) (action : Action) : Prop := ∀ s : Codegen, Goes t s.names (action s).2.names

/-- Each action goes through its part. -/
def TakesEach (ts : List (Text (List Char))) (actions : List Action) : Prop :=
  ∀ (i : Nat) (a : Action), actions[i]? = some a → ∃ t, ts[i]? = some t ∧ a.Takes t

section

variable {t tc tt te tp : Text (List Char)} {ts : List (Text (List Char))} {order : List Nat} {n n' : Names}
  {condition thenPath elsePath preClause postClause action : Action} {actions : List Action}

theorem emitCondition_takes (h : condition.Takes t) (what : String) : (emitCondition what condition).Takes t := by
  intro s
  have hs := h s
  unfold emitCondition
  generalize condition s = r at *
  rcases r with ⟨_ | value, s₁⟩
  · exact hs
  · dsimp only
    split
    · exact hs
    · exact hs

theorem emitForCondition_takes (h : condition.Takes t) : (emitForCondition condition).Takes t := by
  intro s
  have hs := h s
  unfold emitForCondition
  generalize condition s = r at *
  rcases r with ⟨_ | value, s₁⟩
  · exact hs
  · dsimp only
    split
    · exact hs
    · exact hs

/-- The two arms behind the branch. -/
theorem arms_walk (ht : thenPath.Takes tt) (he : elsePath.Takes te) (fn value : Value) (names : String × String × String)
    (s : Codegen) :
    Walk [tc, tt, te] [1, 2] s.names
      ((elsePath ((thenPath (s.openIf fn value names)).2.closePart (s.blocks.length + 2) (s.blocks.length + 1))).2.closePart
        (s.blocks.length + 2) (s.blocks.length + 2)).names := by
  have hthen := ht (s.openIf fn value names)
  have helse := he ((thenPath (s.openIf fn value names)).2.closePart (s.blocks.length + 2) (s.blocks.length + 1))
  rw [Codegen.names_openIf] at hthen
  rw [Codegen.names_closePart] at helse ⊢
  exact .visit rfl hthen (.visit rfl helse (.stop _ _))

theorem emitIfStatement_takes (hc : condition.Takes tc) (ht : thenPath.Takes tt) (he : elsePath.Takes te) :
    (emitStatement (emitIfStatement condition thenPath elsePath)).Takes (.parts .plain (some [0, 1, 2]) [tc, tt, te]) := by
  intro s
  unfold emitStatement emitIfStatement
  split
  · exact goes_nothing (by decide) _ _
  · have h := emitCondition_takes hc "if statement" s
    generalize emitCondition "if statement" condition s = r at *
    rcases r with ⟨_ | value, s₁⟩
    · exact Walk.ordered (by decide) (.visit rfl h (.stop _ _))
    · exact Walk.ordered (by decide) (.visit rfl h (arms_walk ht he _ value ifNames s₁))

theorem emitIfExpression_takes (hc : condition.Takes tc) (ht : thenPath.Takes tt) (he : elsePath.Takes te)
    (typeWord : BitVec 32) :
    (emitIfExpression condition thenPath elsePath typeWord).Takes (.parts .plain (some [0, 1, 2]) [tc, tt, te]) := by
  intro s
  unfold emitIfExpression
  split
  · exact goes_nothing (by decide) _ _
  · rename_i fn _
    have h := emitCondition_takes hc "if expression" s
    generalize emitCondition "if expression" condition s = r at *
    rcases r with ⟨_ | value, s₁⟩
    · exact Walk.ordered (by decide) (.visit rfl h (.stop _ _))
    · have harms : Walk [tc, tt, te] [1, 2] _ _ := arms_walk ht he fn value ifNames s₁
      change Goes _ _ (Codegen.build _ _).2.names
      rw [Codegen.names_build]
      exact Walk.ordered (by decide) (.visit rfl h harms)

theorem emitIf_takes {statement : Codegen → Bool × Codegen} {isExpression : Bool}
    (hs : isExpression = false → (emitStatement statement).Takes t) (he : isExpression = true → action.Takes t) :
    (emitStatement (emitIf isExpression statement action)).Takes t := by
  intro s
  unfold emitStatement emitIf
  split
  · rename_i h
    exact he h s.clearError
  · rename_i h
    exact hs (eq_false_of_ne_true h) s.clearError

theorem emitTernary_takes (hc : condition.Takes tc) (ht : thenPath.Takes tt) (he : elsePath.Takes te) :
    (emitTernary condition thenPath elsePath).Takes (.parts .plain (some [0, 1, 2]) [tc, tt, te]) := by
  intro s
  have h := hc s
  unfold emitTernary
  generalize condition s = r at *
  rcases r with ⟨_ | value, s₁⟩
  · exact Walk.ordered (by decide) (.visit rfl h (.stop _ _))
  · dsimp only
    split
    · have hwalk : Walk [tc, tt, te] [0, 1, 2] s.names (elsePath (thenPath s₁).2).2.names :=
        .visit rfl h (.visit rfl (ht s₁) (.visit rfl (he _) (.stop _ _)))
      split
      · simp only [Codegen.names_build, Codegen.names_closePart, Codegen.names_openIf]
        exact hwalk.ordered (by decide)
      · exact hwalk.ordered (by decide)
    · exact Walk.ordered (by decide) (.visit rfl h (.stop _ _))

theorem emitLoop_takes {e : Enclosure} (hplain : e ≠ .both) {loop : Value → Codegen → Bool × Codegen} (what : String)
    (hl : ∀ fn s, Walk ts order s.names (loop fn s).2.names) :
    (emitStatement (emitLoop what loop)).Takes (.parts e (some order) ts) := by
  intro s
  unfold emitStatement emitLoop
  dsimp only
  split
  · exact goes_nothing hplain _ _
  · split
    · exact goes_nothing hplain _ _
    · exact (hl _ s.clearError).ordered hplain

theorem emitWhile_takes (hc : condition.Takes tc) (ht : thenPath.Takes tt) :
    (emitStatement (emitWhile condition thenPath)).Takes (.parts .plain (some [0, 1]) [tc, tt]) := by
  refine emitLoop_takes (by decide) "while" ?_
  intro fn s
  have h := emitCondition_takes hc "while statement" (s.openWhile fn)
  rw [Codegen.names_openWhile] at h
  dsimp only
  generalize emitCondition "while statement" condition (s.openWhile fn) = r at *
  rcases r with ⟨_ | value, s₁⟩
  · exact .visit rfl h (.stop _ _)
  · have hbody := ht (s₁.testLoop value (s.blocks.length + 1) (s.blocks.length + 2))
    rw [Codegen.names_testLoop] at hbody
    simp only [Codegen.names_popLoop, Codegen.names_closePart]
    exact .visit rfl h (.visit rfl hbody (.stop _ _))

/-- The post clause is emitted behind the body. -/
theorem emitFor_takes (hp : preClause.Takes tp) (hc : condition.Takes tc) (hpost : postClause.Takes te)
    (ht : thenPath.Takes tt) :
    (emitStatement (emitFor preClause condition postClause thenPath)).Takes
      (.parts .first (some [0, 1, 3, 2]) [tp, tc, te, tt]) := by
  refine emitLoop_takes (by decide) "for" ?_
  intro fn s
  have hpre := hp (s.openFor fn)
  have h := emitForCondition_takes hc ((preClause (s.openFor fn)).2.closePart s.blocks.length s.blocks.length)
  rw [Codegen.names_closePart] at h
  dsimp only
  generalize emitForCondition condition ((preClause (s.openFor fn)).2.closePart s.blocks.length s.blocks.length) = r at *
  rcases r with ⟨_ | value, s₁⟩
  · exact .visit rfl hpre (.visit rfl h (.stop _ _))
  · have hbody := ht (s₁.testLoop value (s.blocks.length + 1) (s.blocks.length + 3))
    have hlast := hpost ((thenPath (s₁.testLoop value (s.blocks.length + 1) (s.blocks.length + 3))).2.closePart
      (s.blocks.length + 2) (s.blocks.length + 2))
    rw [Codegen.names_testLoop] at hbody
    rw [Codegen.names_closePart] at hlast
    simp only [Codegen.names_popLoop, Codegen.names_closePart]
    exact .visit rfl hpre (.visit rfl h (.visit rfl hbody (.visit rfl hlast (.stop _ _))))

theorem emitBreak_takes (h : ∀ n, Goes t n n) : (emitStatement emitBreak).Takes t := by
  intro s
  unfold emitStatement emitBreak
  dsimp only
  split
  · exact h _
  · rw [Codegen.createBr, Codegen.names_append]
    exact h _

theorem emitContinue_takes (h : ∀ n, Goes t n n) : (emitStatement emitContinue).Takes t := by
  intro s
  unfold emitStatement emitContinue
  dsimp only
  split
  · exact h _
  · rw [Codegen.createBr, Codegen.names_append]
    exact h _

/-- The actions from one part on. -/
theorem runAll_walks (k : Nat) (ha : ∀ i a, actions[i]? = some a → ∃ t, ts[k + i]? = some t ∧ a.Takes t) (s : Codegen) :
    Walk ts (List.range' k actions.length) s.names (runAll actions s).names := by
  induction actions generalizing k s with
  | nil => exact .stop _ _
  | cons a rest ih =>
    obtain ⟨t, ht, hfirst⟩ := ha 0 a rfl
    refine .visit ht (hfirst s) (ih (k + 1) ?_ _)
    intro i b hb
    rw [Nat.add_assoc, Nat.add_comm 1 i]
    exact ha (i + 1) b hb

theorem runLast_state (actions : List Action) (s : Codegen) : (runLast actions s).2 = runAll actions s := by
  induction actions generalizing s with
  | nil => rfl
  | cons a rest ih =>
    cases rest with
    | nil => rfl
    | cons b rest => exact ih _

theorem TakesEach.run (ha : TakesEach ts actions) (s : Codegen) :
    Walk ts (List.range actions.length) s.names (runAll actions s).names := by
  rw [List.range_eq_range']
  refine runAll_walks 0 ?_ s
  intro i a hi
  rw [Nat.zero_add]
  exact ha i a hi

theorem takesEach_nil : TakesEach ts [] := by
  intro i a hi
  simp at hi

theorem TakesEach.cons (h : action.Takes t) (ha : TakesEach ts actions) : TakesEach (t :: ts) (action :: actions) := by
  intro i a hi
  cases i with
  | zero =>
    cases hi
    exact ⟨t, rfl, h⟩
  | succ i => exact ha i a hi

theorem takesEach_three {u v : Text (List Char)} {a b c : Action} (ha : a.Takes t) (hb : b.Takes u) (hc : c.Takes v) :
    TakesEach [t, u, v] [a, b, c] := ((takesEach_nil.cons hc).cons hb).cons ha

/-- What goes through a part, goes through the whole where the order is free. -/
theorem Action.Takes.part {i : Nat} (ht : ts[i]? = some t) (h : action.Takes t) : action.Takes (.parts .plain none ts) :=
  fun s => ((h s).walk ht).free (by decide)

theorem TakesEach.parts (ha : TakesEach ts actions) :
    ∀ a ∈ actions, ∃ (i : Nat) (t : Text (List Char)), ts[i]? = some t ∧ a.Takes t := by
  intro a hmem
  obtain ⟨i, hi⟩ := List.mem_iff_getElem?.mp hmem
  obtain ⟨t, ht, h⟩ := ha i a hi
  exact ⟨i, t, ht, h⟩

theorem TakesEach.part (ha : TakesEach ts actions) : ∀ a ∈ actions, a.Takes (.parts .plain none ts) := by
  intro a hmem
  obtain ⟨i, t, ht, h⟩ := ha.parts a hmem
  exact h.part ht

/-! ## Plans -/

/-- The plan emits no operand and declares no variable. -/
def Plan.Alone {V : Type} : Plan V → Prop
  | .done _ => True
  | .operand _ _ | .declare _ _ _ _ _ => False
  | .lookup _ next | .getFunction _ next => ∀ found, (next found).Alone
  | .build _ next => ∀ value, (next value).Alone
  | .setError _ next => next.Alone

/-- The nodes that are not modelled declare no variable, and a cast and a print have their
    operand already. -/
structure Library.Settled {V : Type} (library : Library V) : Prop extends library.Undeclaring where
  castAlone : ∀ targetType value, (library.cast targetType value).Alone
  printAlone : ∀ value, (library.print value).Alone

theorem alone_names (plan : Plan Value) (hp : plan.Alone) (actions : List Action) (s : Codegen) :
    ((plan.emit actions) s).2.names = s.names := by
  induction plan generalizing s with
  | done value => rfl
  | operand index next ih => exact hp.elim
  | build op next ih =>
    have h := ih (s.build op).1 (hp _) (s.build op).2
    rwa [Codegen.names_build] at h
  | lookup name next ih => exact ih _ (hp _) s
  | declare name alloca varType count next ih => exact hp.elim
  | getFunction name next ih => exact ih _ (hp _) s
  | setError message next ih => exact ih hp (s.setContextError message)

/-- A plan that declares no variable goes through its operands. -/
theorem plan_walks (ho : ∀ a ∈ actions, ∃ (i : Nat) (t : Text (List Char)), ts[i]? = some t ∧ a.Takes t) (plan : Plan Value)
    (hp : plan.Undeclaring) (s : Codegen) : ∃ order, Walk ts order s.names ((plan.emit actions) s).2.names := by
  induction plan generalizing s with
  | done value => exact ⟨[], .stop _ _⟩
  | operand index next ih =>
    cases ha : actions[index]? with
    | none =>
      have h := ih none (hp _) s
      simpa only [Plan.emit, ha, Option.getD_none, Action.null] using h
    | some a =>
      obtain ⟨i, t, ht, htakes⟩ := ho a (List.mem_of_getElem? ha)
      obtain ⟨order, hwalk⟩ := ih (a s).1 (hp _) (a s).2
      refine ⟨i :: order, .visit ht (htakes s) ?_⟩
      simpa only [Plan.emit, ha, Option.getD_some] using hwalk
  | build op next ih =>
    have h := ih (s.build op).1 (hp _) (s.build op).2
    rwa [Codegen.names_build] at h
  | lookup name next ih => exact ih _ (hp _) s
  | declare name alloca varType count next ih => exact hp.elim
  | getFunction name next ih => exact ih _ (hp _) s
  | setError message next ih => exact ih hp (s.setContextError message)

theorem plan_takes (ho : ∀ a ∈ actions, ∃ (i : Nat) (t : Text (List Char)), ts[i]? = some t ∧ a.Takes t) (plan : Plan Value)
    (hp : plan.Undeclaring) : (plan.emit actions).Takes (.parts .plain none ts) := by
  intro s
  obtain ⟨order, hwalk⟩ := plan_walks ho plan hp s
  exact hwalk.free (by decide)

/-- A plan without operands leaves the names alone. -/
theorem leaf_takes (plan : Plan Value) (hp : plan.Undeclaring) (h : ∀ n, Goes t n n) : (plan.emit []).Takes t := by
  intro s
  have hnone : ∀ a ∈ ([] : List Action), ∃ (i : Nat) (t : Text (List Char)), ([] : List (Text (List Char)))[i]? = some t ∧ a.Takes t :=
    fun a ha => absurd ha List.not_mem_nil
  obtain ⟨order, hwalk⟩ := plan_walks hnone plan hp s
  have hnames : ((plan.emit []) s).2.names = s.names := by
    generalize ((plan.emit []) s).2.names = n at hwalk ⊢
    cases hwalk with
    | stop => rfl
    | visit ht => simp at ht
  rw [hnames]
  exact h s.names

/-- A plan that goes on alone behind its operand. -/
theorem need_takes {next : Value → Plan Value} (hp : ∀ value, (next value).Alone) (h : action.Takes t) :
    ((Plan.need 0 next).emit [action]).Takes (.parts .plain (some [0]) [t]) := by
  intro s
  have hs := h s
  simp only [Plan.need, Plan.emit, List.getElem?_cons_zero, Option.getD_some]
  generalize action s = r at *
  rcases r with ⟨_ | value, s₁⟩
  · exact (hs.walk rfl).ordered (by decide)
  · rw [alone_names _ (hp value)]
    exact (hs.walk rfl).ordered (by decide)

end

/-! ## Declarations of variables -/

section

variable {ts : List (Text (List Char))} {elements : List Action}

theorem operand_emit {actions : List Action} {index : Nat} {a : Action} (ha : actions[index]? = some a)
    (next : Option Value → Plan Value) (s : Codegen) :
    (Plan.operand index next).emit actions s = (next (a s).1).emit actions (a s).2 := by
  simp only [Plan.emit, ha, Option.getD_some]

/-- The elements from one on are emitted, and the plan goes on. -/
theorem insertElements_walks (ha : TakesEach ts elements) (first : Action) (array : Value) (next : Plan Value) (k i : Nat)
    (hk : i + k ≤ elements.length) (s : Codegen) :
    ∃ s', (insertElements array i k next).emit (first :: elements) s = next.emit (first :: elements) s' ∧
      Walk ts (List.range' i k) s.names s'.names := by
  induction k generalizing i s with
  | zero => exact ⟨s, rfl, .stop _ _⟩
  | succ k ih =>
    have hi : elements[i]? = some elements[i] := List.getElem?_eq_getElem (by omega)
    obtain ⟨t, ht, htakes⟩ := ha i _ hi
    have hs := htakes s
    have hindex : (first :: elements)[1 + i]? = some elements[i] := by rw [Nat.add_comm, List.getElem?_cons_succ, hi]
    simp only [insertElements, Plan.emit, hindex, Option.getD_some]
    generalize elements[i] s = r at *
    rcases r with ⟨_ | element, s₁⟩
    · obtain ⟨s', hemit, hwalk⟩ := ih (i + 1) (by omega) s₁
      exact ⟨s', hemit, .visit ht hs hwalk⟩
    · obtain ⟨s', hemit, hwalk⟩ := ih (i + 1) (by omega)
        (s₁.build (.call "xvr_array_insert_int".toList [array, element] .void)).2
      rw [Codegen.names_build] at hwalk
      exact ⟨s', hemit, .visit ht hs hwalk⟩

theorem declareVariable_names (name : List Char) (varType : LiteralType) (arrayCount : Nat) (init : Option Value)
    (actions : List Action) (s : Codegen) :
    ((declareVariable Value.values name varType arrayCount init).emit actions s).2.names =
      s.names.addEntry ⟨some name, none, .null, 0⟩ := by
  cases init with
  | none =>
    change (FunctionEmitter.addLocalVar _ _ _ _ (s.build _).2.fnEmitter).names = _
    rw [FunctionEmitter.names_addLocalVar]
    exact congrArg _ (s.names_build _)
  | some value =>
    change (FunctionEmitter.addLocalVar _ _ _ _ ((s.build _).2.build _).2.fnEmitter).names = _
    rw [FunctionEmitter.names_addLocalVar]
    exact congrArg _ ((Codegen.names_build _ _).trans (s.names_build _))

theorem declareVariable_goes (name : List Char) (varType : LiteralType) (arrayCount : Nat) (init : Option Value)
    (actions : List Action) (s : Codegen) :
    Goes (declared (.identifier name)) s.names
      ((declareVariable Value.values name varType arrayCount init).emit actions s).2.names := by
  rw [declareVariable_names]
  exact goes_declare name true _

/-- The expression, the elements of an array literal once more, and the declaration. -/
theorem varDeclPlan_takes {t : Text (List Char)} {first : Action} {elements : List Action} {expression : Node}
    (hfirst : first.Takes t) (helements : ∀ count, arrayLiteralCount expression = some count →
      elements.length = count ∧ ∃ ts, t = .parts .plain none ts ∧ TakesEach ts elements)
    (name : List Char) (typeLiteral : Literal) :
    ((varDeclPlan Value.values (.identifier name) typeLiteral expression).emit (first :: elements)).Takes
      (.parts .plain (some (varDeclOrder expression)) [t, declared (.identifier name)]) := by
  intro s
  have hs := hfirst s
  rw [varDeclPlan, operand_emit rfl]
  generalize first s = r at hs ⊢
  obtain ⟨init, s₁⟩ := r
  dsimp only at hs ⊢
  -- without elements the declaration follows
  have hdirect : ∀ (varType : LiteralType) (order : List Nat), Walk [t, declared (.identifier name)] (1 :: order) s₁.names
      ((if varType = .array then
          Plan.build (Op.call "xvr_array_create_int".toList [] .pointer) fun array =>
            insertElements array 0 0 (declareVariable Value.values name varType 0 (some array))
        else declareVariable Value.values name varType 0 init).emit (first :: elements) s₁).2.names := by
    intro varType order
    split
    · have h := declareVariable_goes name varType 0 (some (s₁.build (Op.call "xvr_array_create_int".toList [] .pointer)).1)
        (first :: elements) (s₁.build (Op.call "xvr_array_create_int".toList [] .pointer)).2
      rw [Codegen.names_build] at h
      exact .visit rfl h (.stop _ _)
    · exact .visit rfl (declareVariable_goes name varType 0 init _ s₁) (.stop _ _)
  cases hcount : arrayLiteralCount expression with
  | none =>
    rw [varDeclOrder, hcount]
    simp only [ite_self]
    exact Walk.ordered (by decide) (.visit rfl hs (hdirect _ _))
  | some count =>
    obtain ⟨hlength, ts, rfl, hall⟩ := helements count hcount
    rw [varDeclOrder, hcount]
    cases init with
    | none =>
      have hempty : Goes (.parts .plain none ts) s₁.names s₁.names := goes_nothing (by decide) none _
      exact Walk.ordered (by decide) (.visit rfl hs (.visit rfl hempty (hdirect _ _)))
    | some value =>
      have hagain : ∀ array s₂, Walk [.parts .plain none ts, declared (.identifier name)] [0, 1] s₂.names
          ((insertElements array 0 count (declareVariable Value.values name .array count (some array))).emit
            (first :: elements) s₂).2.names := by
        intro array s₂
        obtain ⟨s₃, hemit, hwalk⟩ := insertElements_walks hall first array
          (declareVariable Value.values name .array count (some array)) count 0 (by omega) s₂
        rw [hemit]
        exact .visit rfl (hwalk.free (by decide)) (.visit rfl (declareVariable_goes name .array count _ _ s₃) (.stop _ _))
      have h := hagain (s₁.build (Op.call "xvr_array_create_int".toList [] .pointer)).1
        (s₁.build (Op.call "xvr_array_create_int".toList [] .pointer)).2
      rw [Codegen.names_build] at h
      exact Walk.ordered (by decide) (.visit rfl hs h)

end

/-! ## Nodes -/

/-- The nodes of a node that is a list of them. -/
def nodesOf : Node → List Node
  | .block nodes | .compound _ nodes | .fnCollection nodes => nodes
  | _ => []

section

variable {library : Library Value} {modules : Literal → ModuleNames}

theorem length_emitAll (nodes : List Node) : (emitAll library nodes).length = nodes.length := by
  induction nodes with
  | nil => rfl
  | cons node nodes ih => rw [emitAll, List.length_cons, List.length_cons, ih]

/-- Only a block is a scope of the emitter's. -/
theorem shape_loose (node : Node) (h : ∀ nodes, node ≠ .block nodes) : (shape modules node).loose = shape modules node := by
  cases node with
  | block nodes => exact absurd rfl (h nodes)
  | literal literal | prefixIncrement literal | prefixDecrement literal | postfixIncrement literal
  | postfixDecrement literal => cases literal <;> rfl
  | pathIf condition thenPath elsePath typeWord isExpression => cases isExpression <;> rfl
  | fnCall args count => cases args <;> rfl
  | fnReturn returns => cases returns <;> rfl
  | _ => rfl

theorem emitBlock_takes {nodes : List Node} (ha : TakesEach (shapeAll modules nodes) (emitAll library nodes)) :
    (emitBlock (emitAll library nodes)).Takes (.parts .both (some (List.range nodes.length)) (shapeAll modules nodes)) := by
  intro s
  cases nodes with
  | nil =>
    refine ⟨.done, rfl, ?_⟩
    intro p
    exact renames_nil
  | cons node nodes =>
    have hwalk := ha.run { s with fnEmitter := s.fnEmitter.enterScope }
    rw [length_emitAll, Codegen.names_entered] at hwalk
    have hgoes := hwalk.scoped (by rw [shapeAll]; exact List.cons_ne_nil _ _)
    rw [← Codegen.names_exited] at hgoes
    exact hgoes

/-- An arm is the statements of a block without its scope. -/
theorem arm_takes (node : Node) (hw : (emit library node).Takes (shape modules node))
    (hs : TakesEach (shapeAll modules (nodesOf node)) (emitAll library (nodesOf node))) :
    (emitArm (statements library node) (emit library node)).Takes (shape modules node).loose := by
  cases node with
  | block nodes =>
    intro s
    cases nodes with
    | nil => exact goes_nothing (by decide) _ _
    | cons node nodes =>
      have hwalk := hs.run s
      rw [nodesOf, length_emitAll, ← runLast_state] at hwalk
      exact hwalk.ordered (by decide)
  | _ =>
    rw [shape_loose _ (fun nodes h => by cases h)]
    exact hw

theorem else_takes (node : Node)
    (harm : (emitArm (statements library node) (emit library node)).Takes (shape modules node).loose)
    (hi : ∀ action, elseIf library node = some action → ∃ t, elseIfShape modules node = some t ∧ action.Takes t) :
    ((elseIf library node).getD (emitArm (statements library node) (emit library node))).Takes
      ((elseIfShape modules node).getD (shape modules node).loose) := by
  cases node with
  | pathIf condition thenPath elsePath typeWord isExpression =>
    rw [elseIf] at hi ⊢
    obtain ⟨t, ht, htakes⟩ := hi _ rfl
    rw [ht]
    exact htakes
  | _ => exact harm

theorem node_takes (hl : library.Settled) (node : Node)
    (h : ∀ identifier typeLiteral expression line, node ≠ .varDecl identifier typeLiteral expression line)
    {ts : List (Text (List Char))} {actions : List Action}
    (ho : ∀ a ∈ actions, ∃ (i : Nat) (t : Text (List Char)), ts[i]? = some t ∧ a.Takes t) :
    ((nodePlan Value.values library node).emit actions).Takes (.parts .plain none ts) :=
  plan_takes ho _ (nodePlan_undeclaring hl.toUndeclaring node h)

theorem unaryOp_alone (hl : library.Settled) (opcode : Opcode) (operand : Value) :
    (unaryOp Value.values library opcode operand).Alone := by
  unfold unaryOp
  split
  · exact fun _ => True.intro
  · exact fun _ => True.intro
  · exact hl.printAlone operand
  · exact True.intro

theorem Action.Takes.unread {t : Text (List Char)} {action : Action} (h : action.Takes t) : action.Takes t.unread :=
  fun s => (h s).unread

mutual

/-- What the emission of a node does to the table is a course through its shape. -/
theorem emit_takes (hl : library.Settled) (node : Node) : (emit library node).Takes (shape modules node) := by
  cases node with
  | literal literal | prefixIncrement literal | prefixDecrement literal | postfixIncrement literal
  | postfixDecrement literal =>
    exact leaf_takes _ (nodePlan_undeclaring hl.toUndeclaring _ (fun _ _ _ _ h => by cases h)) (goes_used literal)
  | unary opcode child =>
    have h := emit_takes hl child
    rw [emit, shape]
    exact need_takes (fun value => unaryOp_alone hl opcode value) h
  | grouping child =>
    have h := emit_takes hl child
    rw [emit, shape]
    exact fun s => ((h s).walk rfl).ordered (by decide)
  | cast targetType expression =>
    have h := emit_takes hl expression
    rw [emit, shape]
    exact need_takes (fun value => hl.castAlone targetType value) h
  | binary opcode left right =>
    have hleft := emit_takes hl left
    have hright := emit_takes hl right
    have hinleft := arguments_take hl left
    have hinright := arguments_take hl right
    rw [emit, shape]
    refine node_takes hl _ (fun _ _ _ _ h => by cases h) ?_
    intro a ha
    simp only [List.mem_cons, List.mem_append] at ha
    rcases ha with rfl | rfl | ha | ha
    · exact ⟨0, _, rfl, hleft⟩
    · exact ⟨1, _, rfl, hright⟩
    · exact ⟨0, _, rfl, hinleft a ha⟩
    · exact ⟨1, _, rfl, hinright a ha⟩
  | pathIf condition thenPath elsePath typeWord isExpression =>
    have hc := emit_takes hl condition
    have ht := emit_takes hl thenPath
    have he := emit_takes hl elsePath
    have hi := elseIf_takes hl elsePath
    have harm := arm_takes thenPath ht (nodes_take hl thenPath)
    have helse := else_takes elsePath (arm_takes elsePath he (nodes_take hl elsePath)) hi
    rw [emit, shape]
    refine emitIf_takes ?_ ?_
    · rintro rfl
      exact emitIfStatement_takes hc ht he
    · rintro rfl
      exact emitIfExpression_takes hc harm helse typeWord
  | pathWhile condition thenPath =>
    have hc := emit_takes hl condition
    have ht := emit_takes hl thenPath
    rw [emit, shape]
    exact emitWhile_takes hc ht
  | pathFor preClause condition postClause thenPath =>
    have hp := emit_takes hl preClause
    have hc := emit_takes hl condition
    have hpost := emit_takes hl postClause
    have ht := emit_takes hl thenPath
    rw [emit, shape]
    exact emitFor_takes hp hc hpost ht
  | pathBreak =>
    rw [emit]
    exact emitBreak_takes (goes_nothing (by decide) _)
  | pathContinue =>
    rw [emit]
    exact emitContinue_takes (goes_nothing (by decide) _)
  | block nodes =>
    have hall := all_take hl nodes
    rw [emit, shape]
    exact emitBlock_takes hall
  | ternary condition thenPath elsePath =>
    have hc := emit_takes hl condition
    have ht := emit_takes hl thenPath
    have he := emit_takes hl elsePath
    rw [emit, shape]
    split
    · exact fun s => goes_nothing (by decide) _ _
    · exact emitTernary_takes hc ht he
  | varDecl identifier typeLiteral expression line =>
    have h := emit_takes hl expression
    have ha := nodes_take hl expression
    rw [emit, shape]
    cases identifier with
    | identifier name =>
      refine varDeclPlan_takes h ?_ name typeLiteral
      intro count hcount
      cases expression with
      | compound literalType nodes =>
        rw [arguments, length_emitAll]
        rw [arrayLiteralCount] at hcount
        split at hcount
        · exact ⟨Option.some.inj hcount, _, rfl, ha⟩
        · cases hcount
      | _ => cases hcount
    | _ => exact fun s => goes_nothing (by decide) _ _
  | index first second third =>
    have h₁ := emit_takes hl first
    have h₂ := emit_takes hl second
    have h₃ := emit_takes hl third
    rw [emit, shape]
    have hall := takesEach_three h₁ h₂ h₃
    exact node_takes hl _ (fun _ _ _ _ h => by cases h) hall.parts
  | compound literalType nodes =>
    have h := all_take hl nodes
    rw [emit, shape]
    exact node_takes hl _ (fun _ _ _ _ h => by cases h) h.parts
  | fnCall args count =>
    have h := arguments_take hl args
    have hnodes := nodes_take hl args
    rw [emit]
    cases args with
    | fnCollection nodes => exact node_takes hl _ (fun _ _ _ _ h => by cases h) hnodes.parts
    | _ => exact node_takes hl _ (fun _ _ _ _ h => by cases h) fun a ha => ⟨0, _, rfl, (h a ha).unread⟩
  | fnReturn returns =>
    cases returns <;> exact fun s => goes_nothing (by decide) _ _
  | _ => exact fun s => goes_nothing (by decide) _ _

theorem all_take (hl : library.Settled) (nodes : List Node) : TakesEach (shapeAll modules nodes) (emitAll library nodes) := by
  cases nodes with
  | nil =>
    rw [emitAll]
    exact takesEach_nil
  | cons node nodes =>
    have h := emit_takes hl node
    have hall := all_take hl nodes
    rw [emitAll, shapeAll]
    exact hall.cons h

theorem nodes_take (hl : library.Settled) (node : Node) :
    TakesEach (shapeAll modules (nodesOf node)) (emitAll library (nodesOf node)) := by
  cases node with
  | block nodes | fnCollection nodes => exact all_take hl nodes
  | compound literalType nodes => exact all_take hl nodes
  | _ => exact takesEach_nil

theorem elseIf_takes (hl : library.Settled) (node : Node) :
    ∀ action, elseIf library node = some action → ∃ t, elseIfShape modules node = some t ∧ action.Takes t := by
  cases node with
  | pathIf condition thenPath elsePath typeWord isExpression =>
    have hc := emit_takes hl condition
    have ht := emit_takes hl thenPath
    have he := emit_takes hl elsePath
    have hi := elseIf_takes hl elsePath
    have harm := arm_takes thenPath ht (nodes_take hl thenPath)
    have helse := else_takes elsePath (arm_takes elsePath he (nodes_take hl elsePath)) hi
    intro action haction
    rw [elseIf] at haction
    cases haction
    rw [elseIfShape]
    exact ⟨_, rfl, emitIfExpression_takes hc harm helse typeWord⟩
  | _ => exact fun action h => by cases h

/-- The operands below a node lie in its shape. -/
theorem arguments_take (hl : library.Settled) (node : Node) : ∀ a ∈ arguments library node, a.Takes (shape modules node) := by
  cases node with
  | compound literalType nodes =>
    have h := all_take hl nodes
    rw [arguments, shape]
    exact h.part
  | fnCollection nodes =>
    have h := all_take hl nodes
    rw [arguments, shape]
    exact h.part
  | fnCall args count =>
    have h := arguments_take hl args
    have hnodes := nodes_take hl args
    rw [arguments]
    cases args with
    | fnCollection nodes => exact hnodes.part
    | _ => exact fun a ha => Action.Takes.part (i := 0) rfl (h a ha).unread
  | binary opcode left right =>
    have hleft := arguments_take hl left
    have hright := arguments_take hl right
    rw [arguments, shape]
    intro a ha
    rcases List.mem_append.mp ha with ha | ha
    · exact Action.Takes.part (i := 0) rfl (hleft a ha)
    · exact Action.Takes.part (i := 1) rfl (hright a ha)
  | index first second third =>
    have h₁ := emit_takes hl first
    have h₂ := emit_takes hl second
    have h₃ := emit_takes hl third
    rw [arguments, shape]
    exact (takesEach_three h₁ h₂ h₃).part
  | _ => exact fun a ha => absurd (show a ∈ ([] : List Action) from ha) List.not_mem_nil

end

theorem emit_goes (modules : Literal → ModuleNames) (hl : library.Settled) (node : Node) (s : Codegen) :
    Goes (shape modules node) s.names (emit library node s).2.names := emit_takes hl node s

end

end Xvr.Backend
