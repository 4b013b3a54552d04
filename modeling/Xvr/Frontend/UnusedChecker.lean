/-
  Xvr.Frontend.UnusedChecker — the check for unused variables and procedures
  (`xvr_unused.cpp`).

  The scopes are a list, the innermost first; the declarations of a scope stand in the order
  they were added in. Beside what the source keeps, a declaration knows its place in the
  program, and the checker lists the uses it marked a declaration for.

  Proved:
  - `markUsed_names`, `markUsed_marked`: a use marks the first declaration of its name in the
    innermost scope that has one, and moves none.
-/

import Xvr.Frontend.AstNode
import Xvr.Lib.Readings

namespace Xvr.Frontend

open Xvr.Runtime Xvr.Lib

/-- `Xvr_UnusedDecl`. -/
structure UnusedDecl where
  identifier : List Char
  line : Nat
  used : Bool
  isFunction : Bool
  site : Place
  deriving DecidableEq, Repr

/-- `Xvr_UnusedChecker`, with what it printed. -/
structure UnusedChecker where
  scopes : List (List UnusedDecl)
  hasError : Bool
  printed : List String
  /-- The places of the uses that marked a declaration, with the declaration's. -/
  marked : List (Place × Place)
  deriving DecidableEq, Repr

/-- The lines printed for a declaration, without the colours. -/
def UnusedDecl.report (d : UnusedDecl) : List String :=
  let name := String.ofList d.identifier
  let kind := if d.isFunction then "procedure" else "variable"
  let hint := if d.isFunction then "call the procedure or remove it" else "remove the unused variable or use it in an expression"
  [s!"error: unused {kind} '{name}'", s!"  --> line {d.line}", s!"help: {kind} '{name}' is declared but never used",
    s!"help: {hint}"]

namespace UnusedChecker

/-- `Xvr_initUnusedChecker`. -/
def init : UnusedChecker := ⟨[], false, [], []⟩

def pushScope (c : UnusedChecker) : UnusedChecker := { c with scopes := [] :: c.scopes }

def popScope (c : UnusedChecker) : UnusedChecker :=
  match c.scopes with
  | [] => c
  | scope :: scopes =>
    let unused := scope.filter (!·.used)
    { c with
      scopes
      hasError := c.hasError || !unused.isEmpty
      printed := c.printed ++ unused.flatMap UnusedDecl.report }

/-- Only an identifier has a name to add. -/
def addDeclaration (identifier : Literal) (line : Nat) (isFunction : Bool) (site : Place) (c : UnusedChecker) :
    UnusedChecker :=
  match identifier, c.scopes with
  | .identifier name, scope :: scopes => { c with scopes := (scope ++ [⟨name, line, false, isFunction, site⟩]) :: scopes }
  | _, _ => c

/-- The inner loop of `markUsed`: the first declaration of the name becomes used. -/
def markIn (name : List Char) : List UnusedDecl → Option (Place × List UnusedDecl)
  | [] => none
  | d :: ds =>
    if d.identifier = name then some (d.site, { d with used := true } :: ds)
    else (markIn name ds).map fun (site, ds) => (site, d :: ds)

/-- The outer loop, from the innermost scope on. -/
def markScopes (name : List Char) : List (List UnusedDecl) → Option (Place × List (List UnusedDecl))
  | [] => none
  | scope :: scopes =>
    match markIn name scope with
    | some (site, scope) => some (site, scope :: scopes)
    | none => (markScopes name scopes).map fun (site, scopes) => (site, scope :: scopes)

def markUsed (identifier : Literal) (place : Place) (c : UnusedChecker) : UnusedChecker :=
  match identifier with
  | .identifier name =>
    match markScopes name c.scopes with
    | some (site, scopes) => { c with scopes, marked := c.marked ++ [(place, site)] }
    | none => c
  | _ => c

/-- The parameters, from the `i`th one on. -/
def addParameters : List Node → Place → Nat → UnusedChecker → UnusedChecker
  | [], _, _, c => c
  | .varDecl identifier _ _ line :: nodes, p, i, c =>
    addParameters nodes p (i + 1) (c.addDeclaration identifier line false (i :: p))
  | _ :: nodes, p, i, c => addParameters nodes p (i + 1) c

/-- The nodes of a collection. -/
def collection : Node → List Node
  | .fnCollection nodes => nodes
  | _ => []

mutual

/-- `checkNode`, for the node at a place. -/
def checkNode : Node → Place → UnusedChecker → UnusedChecker
  | .literal literal, p, c => c.markUsed literal p
  | .unary _ child, p, c | .grouping child, p, c | .cast _ child, p, c => checkNode child (0 :: p) c
  | .binary _ left right, p, c | .pair left right, p, c => checkNode right (1 :: p) (checkNode left (0 :: p) c)
  | .ternary condition thenPath elsePath, p, c | .pathIf condition thenPath elsePath _ _, p, c =>
    checkNode elsePath (2 :: p) (checkNode thenPath (1 :: p) (checkNode condition (0 :: p) c))
  | .block nodes, p, c => (checkAll nodes p 0 c.pushScope).popScope
  | .compound _ nodes, p, c | .fnCollection nodes, p, c => checkAll nodes p 0 c
  | .index first second third, p, c =>
    checkNode third (2 :: p) (checkNode second (1 :: p) (checkNode first (0 :: p) c))
  | .varDecl identifier _ expression line, p, c =>
    (checkNode expression (0 :: p) c).addDeclaration identifier line false (1 :: p)
  | .fnDecl identifier arguments returns body line, p, c =>
    let c := (c.addDeclaration identifier line true (0 :: p)).pushScope
    let c := addParameters (collection arguments) (0 :: 1 :: p) 0 c
    (checkNode body (2 :: 1 :: p) (checkNode returns (1 :: 1 :: p) c)).popScope
  | .fnCall (.fnCollection nodes) _, p, c | .fnReturn (.fnCollection nodes), p, c => checkAll nodes p 0 c
  | .pathWhile condition thenPath, p, c => checkNode thenPath (1 :: p) (checkNode condition (0 :: p) c)
  | .pathFor preClause condition postClause thenPath, p, c =>
    let c := checkNode condition (1 :: p) (checkNode preClause (0 :: p) c.pushScope)
    (checkNode thenPath (3 :: p) (checkNode postClause (2 :: p) c)).popScope
  | .prefixIncrement identifier, p, c | .prefixDecrement identifier, p, c | .postfixIncrement identifier, p, c
  | .postfixDecrement identifier, p, c => c.markUsed identifier p
  | _, _, c => c

/-- The nodes of a list, from the `i`th one on. -/
def checkAll : List Node → Place → Nat → UnusedChecker → UnusedChecker
  | [], _, _, c => c
  | node :: nodes, p, i, c => checkAll nodes p (i + 1) (checkNode node (i :: p) c)

end

/-- `Xvr_checkUnusedBegin`, `Xvr_checkUnusedNode` for every node of the program, and
    `Xvr_checkUnusedEnd`. -/
def checkProgram (program : List Node) : UnusedChecker := (checkAll program [] 0 init.pushScope).popScope

/-! ## Names -/

def names (scopes : List (List UnusedDecl)) : List (List (List Char × Place)) :=
  scopes.map fun scope => scope.map fun d => (d.identifier, d.site)

theorem markIn_site (name : List Char) (ds : List UnusedDecl) :
    (markIn name ds).map (·.1) = Text.found name (ds.map fun d => (d.identifier, d.site)) := by
  induction ds with
  | nil => rfl
  | cons d ds ih =>
    unfold markIn Text.found
    by_cases h : d.identifier = name
    · simp [h]
    · simp only [h, if_false, Option.map_map, List.map_cons, List.find?_cons, decide_false]
      exact ih

theorem markIn_names {name : List Char} {ds ds' : List UnusedDecl} {site : Place} (h : markIn name ds = some (site, ds')) :
    (ds'.map fun d => (d.identifier, d.site)) = ds.map fun d => (d.identifier, d.site) := by
  induction ds generalizing ds' with
  | nil => cases h
  | cons d ds ih =>
    rw [markIn] at h
    split at h
    · cases h
      rfl
    · obtain ⟨⟨site', rest⟩, hrest, heq⟩ := Option.map_eq_some_iff.mp h
      cases heq
      rw [List.map_cons, List.map_cons, ih hrest]

theorem markScopes_site (name : List Char) (scopes : List (List UnusedDecl)) :
    (markScopes name scopes).map (·.1) = Text.resolve name (names scopes) := by
  induction scopes with
  | nil => rfl
  | cons scope scopes ih =>
    rw [markScopes, names, List.map_cons, Text.resolve_cons, ← markIn_site]
    cases markIn name scope with
    | none => simpa [Function.comp_def, names] using ih
    | some => rfl

theorem markScopes_names {name : List Char} {scopes scopes' : List (List UnusedDecl)} {site : Place}
    (h : markScopes name scopes = some (site, scopes')) : names scopes' = names scopes := by
  induction scopes generalizing scopes' with
  | nil => cases h
  | cons scope scopes ih =>
    rw [markScopes] at h
    split at h
    · rename_i hin
      cases h
      simp only [names, List.map_cons, markIn_names hin]
    · obtain ⟨⟨site', rest⟩, hrest, heq⟩ := Option.map_eq_some_iff.mp h
      cases heq
      have := ih hrest
      simp only [names, List.map_cons] at this ⊢
      rw [this]

@[simp] theorem markUsed_names (identifier : Literal) (place : Place) (c : UnusedChecker) :
    names (c.markUsed identifier place).scopes = names c.scopes := by
  unfold markUsed
  cases identifier with
  | identifier name =>
    dsimp only
    split
    · exact markScopes_names ‹_›
    · rfl
  | _ => rfl

/-- A use marks the first declaration of its name in the innermost scope that has one. -/
theorem markUsed_marked (name : List Char) (place : Place) (c : UnusedChecker) :
    (c.markUsed (.identifier name) place).marked =
      c.marked ++ ((Text.resolve name (names c.scopes)).map (place, ·)).toList := by
  unfold markUsed
  rw [← markScopes_site]
  dsimp only
  cases hm : markScopes name c.scopes with
  | none => simp
  | some => rfl

@[simp] theorem addDeclaration_names (name : List Char) (line : Nat) (isFunction : Bool) (site : Place) (c : UnusedChecker) :
    names (c.addDeclaration (.identifier name) line isFunction site).scopes = Layer.declaring [(name, site)] (names c.scopes) := by
  unfold addDeclaration
  cases hs : c.scopes with
  | nil => simp [hs, names, Layer.declaring]
  | cons => simp [names, Layer.declaring]

@[simp] theorem addDeclaration_marked (identifier : Literal) (line : Nat) (isFunction : Bool) (site : Place)
    (c : UnusedChecker) : (c.addDeclaration identifier line isFunction site).marked = c.marked := by
  unfold addDeclaration
  split <;> rfl

@[simp] theorem pushScope_names (c : UnusedChecker) : names c.pushScope.scopes = [] :: names c.scopes := rfl

@[simp] theorem pushScope_marked (c : UnusedChecker) : c.pushScope.marked = c.marked := rfl

@[simp] theorem popScope_names (c : UnusedChecker) : names c.popScope.scopes = (names c.scopes).tail := by
  unfold popScope
  cases hs : c.scopes with
  | nil => simp [hs, names]
  | cons => simp [names]

@[simp] theorem popScope_marked (c : UnusedChecker) : c.popScope.marked = c.marked := by
  unfold popScope
  split <;> rfl

end UnusedChecker

end Xvr.Frontend
