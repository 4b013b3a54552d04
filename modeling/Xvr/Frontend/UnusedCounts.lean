/-
  Xvr.Frontend.UnusedCounts — what the unused check leaves behind (`xvr_unused.cpp`).

  The walk of `Xvr.Frontend.UnusedChecker` again, over counted strings: the identifier of a
  declaration is a pointer, `ref` of its place, whose count a declaration takes and the end
  of its scope gives back. Two places may share a pointer.

  Proved:
  - `checkNode_checker`: without the strings this is the walk of `UnusedChecker`.
  - `checkNode_kept`: a node leaves the depth, moves no declaration, only marks some used,
    appends to the innermost scope alone and never clears the error.
  - `checker_balanced`: that, and from `Xvr_checkUnusedBegin` to `Xvr_checkUnusedEnd` every
    count comes back to what it was.
-/

import Mathlib.Data.List.Forall2
import Xvr.Frontend.UnusedChecker
import Xvr.Runtime.RefLiteral

namespace Xvr.Frontend

open Xvr.Runtime Xvr.Lib

/-- The checker and the strings its declarations point to. -/
structure CountedChecker where
  checker : UnusedChecker
  strings : Strings

namespace CountedChecker

/-! ## The walk -/

section Walk

variable (ref : Place → Nat)

def pushScope (c : CountedChecker) : CountedChecker := { c with checker := c.checker.pushScope }

/-- `Xvr_freeLiteral` for the identifier of every declaration. -/
def freeIdentifiers : List UnusedDecl → StateM Strings Unit
  | [] => pure ()
  | d :: ds => do
    freeLiteral (.identifier (ref d.site))
    freeIdentifiers ds

def popScope (c : CountedChecker) : CountedChecker :=
  match c.checker.scopes with
  | [] => c
  | scope :: _ => ⟨c.checker.popScope, ((freeIdentifiers ref scope).run c.strings).2⟩

def addDeclaration (identifier : Literal) (line : Nat) (isFunction : Bool) (site : Place) (c : CountedChecker) :
    CountedChecker :=
  match identifier, c.checker.scopes with
  | .identifier _, _ :: _ =>
    ⟨c.checker.addDeclaration identifier line isFunction site, ((copyRefString (ref site)).run c.strings).2⟩
  | _, _ => c

def markUsed (identifier : Literal) (place : Place) (c : CountedChecker) : CountedChecker :=
  { c with checker := c.checker.markUsed identifier place }

def addParameters : List Node → Place → Nat → CountedChecker → CountedChecker
  | [], _, _, c => c
  | .varDecl identifier _ _ line :: nodes, p, i, c =>
    addParameters nodes p (i + 1) (c.addDeclaration ref identifier line false (i :: p))
  | _ :: nodes, p, i, c => addParameters nodes p (i + 1) c

mutual

def checkNode : Node → Place → CountedChecker → CountedChecker
  | .literal literal, p, c => c.markUsed literal p
  | .unary _ child, p, c | .grouping child, p, c | .cast _ child, p, c => checkNode child (0 :: p) c
  | .binary _ left right, p, c | .pair left right, p, c => checkNode right (1 :: p) (checkNode left (0 :: p) c)
  | .ternary condition thenPath elsePath, p, c | .pathIf condition thenPath elsePath _ _, p, c =>
    checkNode elsePath (2 :: p) (checkNode thenPath (1 :: p) (checkNode condition (0 :: p) c))
  | .block nodes, p, c => (checkAll nodes p 0 c.pushScope).popScope ref
  | .compound _ nodes, p, c | .fnCollection nodes, p, c => checkAll nodes p 0 c
  | .index first second third, p, c =>
    checkNode third (2 :: p) (checkNode second (1 :: p) (checkNode first (0 :: p) c))
  | .varDecl identifier _ expression line, p, c =>
    (checkNode expression (0 :: p) c).addDeclaration ref identifier line false (1 :: p)
  | .fnDecl identifier arguments returns body line, p, c =>
    let c := (c.addDeclaration ref identifier line true (0 :: p)).pushScope
    let c := addParameters ref (UnusedChecker.collection arguments) (0 :: 1 :: p) 0 c
    (checkNode body (2 :: 1 :: p) (checkNode returns (1 :: 1 :: p) c)).popScope ref
  | .fnCall (.fnCollection nodes) _, p, c | .fnReturn (.fnCollection nodes), p, c => checkAll nodes p 0 c
  | .pathWhile condition thenPath, p, c => checkNode thenPath (1 :: p) (checkNode condition (0 :: p) c)
  | .pathFor preClause condition postClause thenPath, p, c =>
    let c := checkNode condition (1 :: p) (checkNode preClause (0 :: p) c.pushScope)
    (checkNode thenPath (3 :: p) (checkNode postClause (2 :: p) c)).popScope ref
  | .prefixIncrement identifier, p, c | .prefixDecrement identifier, p, c | .postfixIncrement identifier, p, c
  | .postfixDecrement identifier, p, c => c.markUsed identifier p
  | _, _, c => c

def checkAll : List Node → Place → Nat → CountedChecker → CountedChecker
  | [], _, _, c => c
  | node :: nodes, p, i, c => checkAll nodes p (i + 1) (checkNode node (i :: p) c)

end

/-- `Xvr_checkUnusedBegin`. -/
def checkUnusedBegin (c : CountedChecker) : CountedChecker := c.pushScope

/-- `Xvr_checkUnusedNode`. -/
def checkUnusedNode (node : Node) (p : Place) (c : CountedChecker) : CountedChecker := checkNode ref node p c

/-- `Xvr_checkUnusedEnd`, with its answer. -/
def checkUnusedEnd (c : CountedChecker) : Bool × CountedChecker :=
  let c := c.popScope ref
  (!c.checker.hasError, c)

/-- `Xvr_checkUnusedNode` for each of the nodes. -/
def checkUnusedNodes (calls : List (Node × Place)) (c : CountedChecker) : CountedChecker :=
  calls.foldl (fun c call => checkUnusedNode ref call.1 call.2 c) c

end Walk

/-! ## The checker alone -/

section Projection

variable (ref : Place → Nat)

theorem popScope_checker (c : CountedChecker) : (c.popScope ref).checker = c.checker.popScope := by
  unfold popScope UnusedChecker.popScope
  cases h : c.checker.scopes with
  | nil => rfl
  | cons scope scopes => rfl

theorem addDeclaration_checker (identifier : Literal) (line : Nat) (isFunction : Bool) (site : Place) (c : CountedChecker) :
    (c.addDeclaration ref identifier line isFunction site).checker =
      c.checker.addDeclaration identifier line isFunction site := by
  unfold addDeclaration
  split
  · rfl
  · rename_i h
    unfold UnusedChecker.addDeclaration
    split
    · exact absurd ‹_› (h _ _ _ rfl)
    · rfl

theorem addParameters_checker (nodes : List Node) (p : Place) (i : Nat) (c : CountedChecker) :
    (addParameters ref nodes p i c).checker = UnusedChecker.addParameters nodes p i c.checker := by
  induction nodes generalizing i c with
  | nil => rfl
  | cons node nodes ih =>
    cases node with
    | varDecl identifier _ _ line =>
      rw [addParameters, ih, addDeclaration_checker]
      rfl
    | _ => exact ih _ _

mutual

/-- Without its strings, the walk is the checker's. -/
theorem checkNode_checker : ∀ (node : Node) (p : Place) (c : CountedChecker),
    (checkNode ref node p c).checker = UnusedChecker.checkNode node p c.checker
  | .unary _ child, p, c | .grouping child, p, c | .cast _ child, p, c => by
    unfold checkNode UnusedChecker.checkNode
    exact checkNode_checker child (0 :: p) c
  | .binary _ left right, p, c | .pair left right, p, c => by
    unfold checkNode UnusedChecker.checkNode
    rw [checkNode_checker right, checkNode_checker left]
  | .ternary condition thenPath elsePath, p, c | .pathIf condition thenPath elsePath _ _, p, c => by
    unfold checkNode UnusedChecker.checkNode
    rw [checkNode_checker elsePath, checkNode_checker thenPath, checkNode_checker condition]
  | .block nodes, p, c => by
    unfold checkNode UnusedChecker.checkNode
    rw [popScope_checker, checkAll_checker nodes]
    rfl
  | .compound _ nodes, p, c | .fnCollection nodes, p, c => by
    unfold checkNode UnusedChecker.checkNode
    exact checkAll_checker nodes p 0 c
  | .index first second third, p, c => by
    unfold checkNode UnusedChecker.checkNode
    rw [checkNode_checker third, checkNode_checker second, checkNode_checker first]
  | .varDecl identifier _ expression line, p, c => by
    unfold checkNode UnusedChecker.checkNode
    rw [addDeclaration_checker, checkNode_checker expression]
  | .fnDecl identifier arguments returns body line, p, c => by
    simp only [checkNode, UnusedChecker.checkNode]
    rw [popScope_checker, checkNode_checker body, checkNode_checker returns, addParameters_checker]
    show UnusedChecker.popScope (UnusedChecker.checkNode body _ (UnusedChecker.checkNode returns _
      (UnusedChecker.addParameters _ _ _ (c.addDeclaration ref identifier line true (0 :: p)).checker.pushScope))) = _
    rw [addDeclaration_checker]
  | .fnCall arguments _, p, c => by
    cases arguments with
    | fnCollection nodes => exact checkAll_checker nodes p 0 c
    | _ => rfl
  | .fnReturn returns, p, c => by
    cases returns with
    | fnCollection nodes => exact checkAll_checker nodes p 0 c
    | _ => rfl
  | .pathWhile condition thenPath, p, c => by
    unfold checkNode UnusedChecker.checkNode
    rw [checkNode_checker thenPath, checkNode_checker condition]
  | .pathFor preClause condition postClause thenPath, p, c => by
    simp only [checkNode, UnusedChecker.checkNode]
    rw [popScope_checker, checkNode_checker thenPath, checkNode_checker postClause, checkNode_checker condition,
      checkNode_checker preClause]
    rfl
  | .literal _, _, _ | .prefixIncrement _, _, _ | .prefixDecrement _, _, _ | .postfixIncrement _, _, _
  | .postfixDecrement _, _, _ | .null, _, _ | .wild, _, _ | .error, _, _ | .pathBreak, _, _ | .pathContinue, _, _
  | .importNode _ _, _, _ | .pass, _, _ => rfl

theorem checkAll_checker : ∀ (nodes : List Node) (p : Place) (i : Nat) (c : CountedChecker),
    (checkAll ref nodes p i c).checker = UnusedChecker.checkAll nodes p i c.checker
  | [], _, _, _ => rfl
  | node :: nodes, p, i, c => by
    unfold checkAll UnusedChecker.checkAll
    rw [checkAll_checker nodes, checkNode_checker node]

end

end Projection

/-! ## What a step keeps -/

/-- A declaration afterwards: the same one, used at least where it was. -/
structure Marks (d d' : UnusedDecl) : Prop where
  identifier : d'.identifier = d.identifier
  line : d'.line = d.line
  isFunction : d'.isFunction = d.isFunction
  site : d'.site = d.site
  used : d.used = true → d'.used = true

theorem Marks.refl (d : UnusedDecl) : Marks d d := ⟨rfl, rfl, rfl, rfl, id⟩

theorem Marks.trans {d d' d'' : UnusedDecl} (h : Marks d d') (h' : Marks d' d'') : Marks d d'' :=
  ⟨h'.identifier.trans h.identifier, h'.line.trans h.line, h'.isFunction.trans h.isFunction, h'.site.trans h.site,
    fun hu => h'.used (h.used hu)⟩

/-- A scope afterwards: its declarations, and behind them new ones. -/
def Grows (scope scope' : List UnusedDecl) : Prop :=
  ∃ kept added, scope' = kept ++ added ∧ List.Forall₂ Marks scope kept

/-- The scopes afterwards: only the innermost one may get new declarations. -/
inductive Extends : List (List UnusedDecl) → List (List UnusedDecl) → Prop
  | none : Extends [] []
  | scope {s s' : List UnusedDecl} {ss ss' : List (List UnusedDecl)} (inner : Grows s s')
      (outer : List.Forall₂ (List.Forall₂ Marks) ss ss') : Extends (s :: ss) (s' :: ss')

theorem forall₂_trans {α : Type} (R : α → α → Prop) (hR : ∀ a b c, R a b → R b c → R a c) {l l' l'' : List α}
    (h : List.Forall₂ R l l') (h' : List.Forall₂ R l' l'') : List.Forall₂ R l l'' := by
  induction h generalizing l'' with
  | nil => exact h'
  | cons hab _ ih =>
    cases h' with
    | cons hbc htail => exact .cons (hR _ _ _ hab hbc) (ih htail)

theorem marks_refl (scope : List UnusedDecl) : List.Forall₂ Marks scope scope :=
  List.forall₂_same.mpr fun d _ => Marks.refl d

theorem marks_trans {s s' s'' : List UnusedDecl} (h : List.Forall₂ Marks s s') (h' : List.Forall₂ Marks s' s'') :
    List.Forall₂ Marks s s'' := forall₂_trans Marks (fun _ _ _ => Marks.trans) h h'

theorem Grows.trans {s s' s'' : List UnusedDecl} (h : Grows s s') (h' : Grows s' s'') : Grows s s'' := by
  obtain ⟨kept, added, rfl, hk⟩ := h
  obtain ⟨kept', added', rfl, hk'⟩ := h'
  have hlen : kept.length ≤ kept'.length := by
    have := hk'.length_eq
    simp only [List.length_append] at this
    omega
  refine ⟨kept'.take kept.length, kept'.drop kept.length ++ added', by rw [← List.append_assoc, List.take_append_drop], ?_⟩
  have htake := List.forall₂_take kept.length hk'
  rw [List.take_left] at htake
  exact marks_trans hk htake

theorem Extends.length_eq {ss ss' : List (List UnusedDecl)} (h : Extends ss ss') : ss'.length = ss.length := by
  cases h with
  | none => rfl
  | scope inner outer => rw [List.length_cons, List.length_cons, outer.length_eq]

theorem Extends.of_marks {ss ss' : List (List UnusedDecl)} (h : List.Forall₂ (List.Forall₂ Marks) ss ss') :
    Extends ss ss' := by
  cases h with
  | nil => exact .none
  | cons hs hss => exact .scope ⟨_, [], (List.append_nil _).symm, hs⟩ hss

theorem Extends.refl (ss : List (List UnusedDecl)) : Extends ss ss :=
  .of_marks (List.forall₂_same.mpr fun s _ => marks_refl s)

theorem Extends.trans {ss ss' ss'' : List (List UnusedDecl)} (h : Extends ss ss') (h' : Extends ss' ss'') :
    Extends ss ss'' := by
  cases h with
  | none => exact h'
  | scope inner outer =>
    cases h' with
    | scope inner' outer' =>
      exact .scope (inner.trans inner') (forall₂_trans (List.Forall₂ Marks) (fun _ _ _ => marks_trans) outer outer')

/-! ### Counts -/

section Counts

variable (ref : Place → Nat)

/-- How many declarations hold the string. -/
def held (ptr : Nat) (scopes : List (List UnusedDecl)) : Nat := (scopes.flatten.filter fun d => ref d.site = ptr).length

theorem held_cons (ptr : Nat) (scope : List UnusedDecl) (scopes : List (List UnusedDecl)) :
    held ref ptr (scope :: scopes) = held ref ptr [scope] + held ref ptr scopes := by
  simp [held]

theorem held_snoc (ptr : Nat) (scope : List UnusedDecl) (d : UnusedDecl) :
    held ref ptr [scope ++ [d]] = held ref ptr [scope] + if ref d.site = ptr then 1 else 0 := by
  by_cases h : ref d.site = ptr <;> simp [held, h]

theorem held_scope (ptr : Nat) (d : UnusedDecl) (ds : List UnusedDecl) :
    held ref ptr [d :: ds] = (if ref d.site = ptr then 1 else 0) + held ref ptr [ds] := by
  by_cases h : ref d.site = ptr <;> simp [held, h]; omega

theorem held_marks {scope scope' : List UnusedDecl} (h : List.Forall₂ Marks scope scope') (ptr : Nat) :
    held ref ptr [scope'] = held ref ptr [scope] := by
  induction h with
  | nil => rfl
  | cons hd _ ih => rw [held_scope, held_scope, ih, hd.site]

theorem held_marksAll {scopes scopes' : List (List UnusedDecl)} (h : List.Forall₂ (List.Forall₂ Marks) scopes scopes')
    (ptr : Nat) : held ref ptr scopes' = held ref ptr scopes := by
  induction h with
  | nil => rfl
  | @cons s s' ss ss' hs _ ih => rw [held_cons ref ptr s ss, held_cons ref ptr s' ss', ih, held_marks ref hs]

/-- The references that are not the declarations' own. -/
def others (c : CountedChecker) (ptr : Nat) : Int := (c.strings.refs ptr).refCount - held ref ptr c.checker.scopes

theorem copyRefString_refCount (p ptr : Nat) (s : Strings) :
    ((((copyRefString p).run s).2).refs ptr).refCount = (s.refs ptr).refCount + if p = ptr then 1 else 0 := by
  show ((s.setCount p ((s.refs p).refCount + 1)).refs ptr).refCount = _
  unfold Strings.setCount
  by_cases h : ptr = p
  · subst h
    simp
  · simp [h, Ne.symm h]

theorem deleteRefString_refCount (p ptr : Nat) (s : Strings) :
    ((((deleteRefString p).run s).2).refs ptr).refCount = (s.refs ptr).refCount - if p = ptr then 1 else 0 := by
  have hrefs : ((deleteRefString p).run s).2.refs = (s.setCount p ((s.refs p).refCount - 1)).refs := by
    show (if _ then _ else _ : Strings).refs = _
    split <;> rfl
  rw [hrefs]
  unfold Strings.setCount
  by_cases h : ptr = p
  · subst h
    simp
  · simp [h, Ne.symm h]

theorem freeIdentifiers_refCount (scope : List UnusedDecl) (ptr : Nat) (s : Strings) :
    ((((freeIdentifiers ref scope).run s).2).refs ptr).refCount = (s.refs ptr).refCount - held ref ptr [scope] := by
  induction scope generalizing s with
  | nil =>
    show (s.refs ptr).refCount = _
    simp [held]
  | cons d ds ih =>
    show ((((freeIdentifiers ref ds).run ((deleteRefString (ref d.site)).run s).2).2).refs ptr).refCount = _
    rw [ih, deleteRefString_refCount, held_scope]
    split <;> push_cast <;> omega

end Counts

/-! ## The frame of a node -/

section Frame

variable (ref : Place → Nat)

/-- What a node leaves as it was. -/
structure Kept (c c' : CountedChecker) : Prop where
  depth : c'.checker.scopes.length = c.checker.scopes.length
  declarations : Extends c.checker.scopes c'.checker.scopes
  error : c.checker.hasError = true → c'.checker.hasError = true
  others : ∀ ptr, c'.others ref ptr = c.others ref ptr

variable {ref}

theorem Kept.of {c c' : CountedChecker} (hd : Extends c.checker.scopes c'.checker.scopes)
    (he : c.checker.hasError = true → c'.checker.hasError = true) (ho : ∀ ptr, c'.others ref ptr = c.others ref ptr) :
    Kept ref c c' := ⟨hd.length_eq, hd, he, ho⟩

theorem Kept.refl (c : CountedChecker) : Kept ref c c := .of (.refl _) id fun _ => rfl

theorem Kept.trans {c c' c'' : CountedChecker} (h : Kept ref c c') (h' : Kept ref c' c'') : Kept ref c c'' :=
  .of (h.declarations.trans h'.declarations) (fun he => h'.error (h.error he)) fun ptr => (h'.others ptr).trans (h.others ptr)

/-! ### Marking -/

theorem markIn_marks {name : List Char} {ds ds' : List UnusedDecl} {site : Place}
    (h : UnusedChecker.markIn name ds = some (site, ds')) : List.Forall₂ Marks ds ds' := by
  induction ds generalizing ds' with
  | nil => cases h
  | cons d ds ih =>
    rw [UnusedChecker.markIn] at h
    split at h
    · cases h
      exact .cons ⟨rfl, rfl, rfl, rfl, fun _ => rfl⟩ (marks_refl ds)
    · obtain ⟨⟨site', rest⟩, hrest, heq⟩ := Option.map_eq_some_iff.mp h
      cases heq
      exact .cons (.refl d) (ih hrest)

theorem markScopes_marks {name : List Char} {ss ss' : List (List UnusedDecl)} {site : Place}
    (h : UnusedChecker.markScopes name ss = some (site, ss')) : List.Forall₂ (List.Forall₂ Marks) ss ss' := by
  induction ss generalizing ss' with
  | nil => cases h
  | cons s ss ih =>
    rw [UnusedChecker.markScopes] at h
    split at h
    · rename_i hin
      cases h
      exact .cons (markIn_marks hin) (List.forall₂_same.mpr fun s _ => marks_refl s)
    · obtain ⟨⟨site', rest⟩, hrest, heq⟩ := Option.map_eq_some_iff.mp h
      cases heq
      exact .cons (marks_refl s) (ih hrest)

theorem markUsed_marks (identifier : Literal) (place : Place) (c : UnusedChecker) :
    List.Forall₂ (List.Forall₂ Marks) c.scopes (c.markUsed identifier place).scopes ∧
      (c.markUsed identifier place).hasError = c.hasError := by
  have hsame : List.Forall₂ (List.Forall₂ Marks) c.scopes c.scopes := List.forall₂_same.mpr fun s _ => marks_refl s
  unfold UnusedChecker.markUsed
  cases identifier with
  | identifier name =>
    dsimp only
    split
    · exact ⟨markScopes_marks ‹_›, rfl⟩
    · exact ⟨hsame, rfl⟩
  | _ => exact ⟨hsame, rfl⟩

theorem markUsed_kept (identifier : Literal) (place : Place) (c : CountedChecker) :
    Kept ref c (c.markUsed identifier place) := by
  obtain ⟨hm, he⟩ := markUsed_marks identifier place c.checker
  refine .of (.of_marks hm) (fun h => he.trans h) fun ptr => ?_
  unfold others markUsed
  rw [held_marksAll ref hm]

/-! ### Declaring -/

theorem addDeclaration_kept (identifier : Literal) (line : Nat) (isFunction : Bool) (site : Place) (c : CountedChecker) :
    Kept ref c (c.addDeclaration ref identifier line isFunction site) := by
  unfold addDeclaration
  split
  · rename_i name scope scopes hs
    have hadd : (c.checker.addDeclaration (.identifier name) line isFunction site).scopes =
        (scope ++ [⟨name, line, false, isFunction, site⟩]) :: scopes := by
      unfold UnusedChecker.addDeclaration
      rw [hs]
    have herror : (c.checker.addDeclaration (.identifier name) line isFunction site).hasError = c.checker.hasError := by
      unfold UnusedChecker.addDeclaration
      rw [hs]
    refine .of ?_ (fun h => herror.trans h) fun ptr => ?_
    · rw [hadd, hs]
      exact .scope ⟨scope, _, rfl, marks_refl scope⟩ (List.forall₂_same.mpr fun s _ => marks_refl s)
    · unfold others
      rw [hadd, hs, copyRefString_refCount, held_cons ref ptr scope, held_cons ref ptr (scope ++ _), held_snoc]
      dsimp only
      split <;> push_cast <;> omega
  · exact .refl c

theorem addParameters_kept (nodes : List Node) (p : Place) (i : Nat) (c : CountedChecker) :
    Kept ref c (addParameters ref nodes p i c) := by
  induction nodes generalizing i c with
  | nil => exact .refl c
  | cons node nodes ih =>
    cases node with
    | varDecl identifier _ _ line => exact (addDeclaration_kept identifier line false (i :: p) c).trans (ih _ _)
    | _ => exact ih _ _

/-! ### Scopes -/

/-- A scope opened and closed again leaves what was kept inside. -/
theorem scope_kept {c c' : CountedChecker} (h : Kept ref c.pushScope c') : Kept ref c (c'.popScope ref) := by
  have hext : Extends ([] :: c.checker.scopes) c'.checker.scopes := h.declarations
  generalize hs : c'.checker.scopes = scopes at hext
  cases hext with
  | @scope _ scope _ outers inner outer =>
    have hpop : c'.checker.popScope.scopes = outers := by
      unfold UnusedChecker.popScope
      rw [hs]
    have hcounts : c'.popScope ref = ⟨c'.checker.popScope, ((freeIdentifiers ref scope).run c'.strings).2⟩ := by
      unfold popScope
      rw [hs]
    refine .of ?_ (fun he => ?_) fun ptr => ?_
    · rw [popScope_checker, hpop]
      exact .of_marks outer
    · rw [popScope_checker]
      have := h.error he
      unfold UnusedChecker.popScope
      rw [hs]
      simp [this]
    · have hothers := h.others ptr
      unfold others at hothers ⊢
      rw [hcounts, hpop, freeIdentifiers_refCount, held_marksAll ref outer]
      rw [hs, held_cons, held_marksAll ref outer] at hothers
      have hopen : held ref ptr c.pushScope.checker.scopes = held ref ptr c.checker.scopes := rfl
      rw [hopen] at hothers
      have hstrings : c.pushScope.strings = c.strings := rfl
      rw [hstrings] at hothers
      push_cast at hothers ⊢
      omega

/-! ### The walk -/

mutual

theorem checkNode_kept : ∀ (node : Node) (p : Place) (c : CountedChecker), Kept ref c (checkNode ref node p c)
  | .literal literal, p, c => markUsed_kept literal p c
  | .prefixIncrement identifier, p, c | .prefixDecrement identifier, p, c | .postfixIncrement identifier, p, c
  | .postfixDecrement identifier, p, c => markUsed_kept identifier p c
  | .unary _ child, p, c | .grouping child, p, c | .cast _ child, p, c => by
    unfold checkNode
    exact checkNode_kept child (0 :: p) c
  | .binary _ left right, p, c | .pair left right, p, c => by
    unfold checkNode
    exact (checkNode_kept left (0 :: p) c).trans (checkNode_kept right (1 :: p) _)
  | .ternary condition thenPath elsePath, p, c | .pathIf condition thenPath elsePath _ _, p, c => by
    unfold checkNode
    have hthen := (checkNode_kept condition (0 :: p) c).trans (checkNode_kept thenPath (1 :: p) _)
    exact hthen.trans (checkNode_kept elsePath (2 :: p) _)
  | .block nodes, p, c => by
    unfold checkNode
    exact scope_kept (checkAll_kept nodes p 0 c.pushScope)
  | .compound _ nodes, p, c | .fnCollection nodes, p, c => by
    unfold checkNode
    exact checkAll_kept nodes p 0 c
  | .index first second third, p, c => by
    unfold checkNode
    have hsecond := (checkNode_kept first (0 :: p) c).trans (checkNode_kept second (1 :: p) _)
    exact hsecond.trans (checkNode_kept third (2 :: p) _)
  | .varDecl identifier _ expression line, p, c => by
    unfold checkNode
    exact (checkNode_kept expression (0 :: p) c).trans (addDeclaration_kept identifier line false (1 :: p) _)
  | .fnDecl identifier arguments returns body line, p, c => by
    simp only [checkNode]
    -- the procedure's own name stays outside the scope of its parameters
    refine (addDeclaration_kept identifier line true (0 :: p) c).trans (scope_kept ?_)
    have hparameters := @addParameters_kept ref (UnusedChecker.collection arguments) (0 :: 1 :: p) 0
      (c.addDeclaration ref identifier line true (0 :: p)).pushScope
    exact (hparameters.trans (checkNode_kept returns (1 :: 1 :: p) _)).trans (checkNode_kept body (2 :: 1 :: p) _)
  | .fnCall arguments _, p, c => by
    cases arguments with
    | fnCollection nodes => exact checkAll_kept nodes p 0 c
    | _ => exact .refl c
  | .fnReturn returns, p, c => by
    cases returns with
    | fnCollection nodes => exact checkAll_kept nodes p 0 c
    | _ => exact .refl c
  | .pathWhile condition thenPath, p, c => by
    unfold checkNode
    exact (checkNode_kept condition (0 :: p) c).trans (checkNode_kept thenPath (1 :: p) _)
  | .pathFor preClause condition postClause thenPath, p, c => by
    simp only [checkNode]
    have hcondition := (checkNode_kept preClause (0 :: p) c.pushScope).trans (checkNode_kept condition (1 :: p) _)
    have hpost := hcondition.trans (checkNode_kept postClause (2 :: p) _)
    exact scope_kept (hpost.trans (checkNode_kept thenPath (3 :: p) _))
  | .null, _, c | .wild, _, c | .error, _, c | .pathBreak, _, c | .pathContinue, _, c | .importNode _ _, _, c
  | .pass, _, c => .refl c

theorem checkAll_kept : ∀ (nodes : List Node) (p : Place) (i : Nat) (c : CountedChecker),
    Kept ref c (checkAll ref nodes p i c)
  | [], _, _, c => .refl c
  | node :: nodes, p, i, c => by
    unfold checkAll
    exact (checkNode_kept node (i :: p) c).trans (checkAll_kept nodes p (i + 1) _)

end

theorem checkUnusedNodes_kept (calls : List (Node × Place)) (c : CountedChecker) :
    Kept ref c (checkUnusedNodes ref calls c) := by
  induction calls generalizing c with
  | nil => exact .refl c
  | cons call calls ih => exact (checkNode_kept call.1 call.2 c).trans (ih _)

/-- Where the scopes hold the same declarations, the counts are the same. -/
theorem Kept.refCount {c c' : CountedChecker} (h : Kept ref c c')
    (hs : List.Forall₂ (List.Forall₂ Marks) c.checker.scopes c'.checker.scopes) (ptr : Nat) :
    (c'.strings.refs ptr).refCount = (c.strings.refs ptr).refCount := by
  have hothers := h.others ptr
  unfold CountedChecker.others at hothers
  rw [held_marksAll ref hs] at hothers
  omega

variable (ref)

/-- The check is balanced, node by node and from its beginning to its end. -/
theorem checker_balanced :
    (∀ node p c, Kept ref c (checkNode ref node p c)) ∧
    ∀ calls c ptr, ((checkUnusedEnd ref (checkUnusedNodes ref calls (checkUnusedBegin c))).2.strings.refs ptr).refCount =
      (c.strings.refs ptr).refCount := by
  refine ⟨checkNode_kept, fun calls c ptr => ?_⟩
  have hinside : Kept ref c.pushScope (checkUnusedNodes ref calls c.pushScope) := checkUnusedNodes_kept calls c.pushScope
  refine (scope_kept hinside).refCount ?_ ptr
  have hext : Extends ([] :: c.checker.scopes) (checkUnusedNodes ref calls c.pushScope).checker.scopes := hinside.declarations
  rw [popScope_checker]
  generalize hs : (checkUnusedNodes ref calls c.pushScope).checker.scopes = scopes at hext
  cases hext with
  | scope inner outer =>
    unfold UnusedChecker.popScope
    rw [hs]
    exact outer

end Frame

end CountedChecker

end Xvr.Frontend
