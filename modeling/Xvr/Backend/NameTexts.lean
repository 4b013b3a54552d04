/-
  Xvr.Backend.NameTexts — the names of a program as the check for unused variables and the
  expression emitter go through them.

  The checker is the first reader, the emitter the second. `shape` says of every node in
  which order the emitter takes its parts and which of the two opens a scope for it: the
  checker for every block, loop and procedure, the emitter for blocks alone, and not for
  those that are an arm of an if expression or the body of a procedure. What operators,
  calls and literals do with their operands is left to the emitter's course.

  Proved:
  - `checkNode_reads`: the checker reads the shape of a node.
  - `checkProgram_marked`: what it marks in a program.
-/

import Xvr.Frontend.UnusedChecker
import Xvr.Backend.TopLevel

namespace Xvr.Backend

open Xvr.Runtime Xvr.Lib
open Xvr.Frontend (Node UnusedChecker)
open Xvr.Frontend.UnusedChecker (names checkNode checkAll collection addParameters)

/-- What the nodes of an imported module do to the table. -/
structure ModuleNames where
  /-- It has a procedure, which empties the table. -/
  clears : Bool
  leaves : List (List Char)

/-! ## Shapes -/

def declared : Literal → Text (List Char)
  | .identifier name => .declare name true
  | _ => .parts .plain none []

def used : Literal → Text (List Char)
  | .identifier name => .use name true
  | _ => .parts .plain none []

/-- A parameter without a name of its own is `arg` to the emitter. -/
def parameterText : Node → Text (List Char)
  | .varDecl (.identifier name) _ _ _ => .declare name true
  | .varDecl _ _ _ _ => .declare "arg".toList false
  | _ => .parts .plain none []

/-- The elements of an array literal are emitted once more before it is declared. -/
def varDeclOrder (expression : Node) : List Nat := if (arrayLiteralCount expression).isSome then [0, 0, 1] else [0, 1]

section

variable (modules : Literal → ModuleNames)

mutual

def shape : Node → Text (List Char)
  | .literal literal => used literal
  | .unary _ child | .grouping child | .cast _ child => .parts .plain (some [0]) [shape child]
  | .binary _ left right => .parts .plain none [shape left, shape right]
  | .pair left right => .parts .plain (some []) [shape left, shape right]
  | .ternary condition thenPath elsePath =>
    .parts .plain (some [0, 1, 2]) [shape condition, shape thenPath, shape elsePath]
  | .pathIf condition thenPath elsePath _ isExpression =>
    if isExpression then
      .parts .plain (some [0, 1, 2])
        [shape condition, (shape thenPath).loose, (elseIfShape elsePath).getD (shape elsePath).loose]
    else .parts .plain (some [0, 1, 2]) [shape condition, shape thenPath, shape elsePath]
  | .block nodes => .parts .both (some (List.range nodes.length)) (shapeAll nodes)
  | .compound _ nodes | .fnCollection nodes => .parts .plain none (shapeAll nodes)
  | .index first second third => .parts .plain none [shape first, shape second, shape third]
  | .varDecl identifier _ expression _ =>
    .parts .plain (some (varDeclOrder expression)) [shape expression, declared identifier]
  | .fnDecl identifier arguments returns body _ =>
    .parts .plain (some [1])
      [declared identifier,
        .parts .first (some [0, 2])
          [.parts .plain (some (List.range maxParameters)) ((collection arguments).map parameterText), shape returns,
            (shape body).loose]]
  | .fnCall (.fnCollection nodes) _ => .parts .plain none (shapeAll nodes)
  | .fnCall arguments _ => .parts .plain none [(shape arguments).unread]
  | .fnReturn (.fnCollection nodes) => .parts .plain (some [0]) (shapeAll nodes)
  | .fnReturn returns => .parts .plain (some [0]) [(shape returns).unread]
  | .pathWhile condition thenPath => .parts .plain (some [0, 1]) [shape condition, shape thenPath]
  | .pathFor preClause condition postClause thenPath =>
    -- the post clause is emitted behind the body
    .parts .first (some [0, 1, 3, 2]) [shape preClause, shape condition, shape postClause, shape thenPath]
  | .prefixIncrement identifier | .prefixDecrement identifier | .postfixIncrement identifier
  | .postfixDecrement identifier => used identifier
  | .importNode identifier _ => .parts .plain none ((modules identifier).leaves.map (.declare · false))
  | _ => .parts .plain (some []) []

def shapeAll : List Node → List (Text (List Char))
  | [] => []
  | node :: nodes => shape node :: shapeAll nodes

/-- An else path that is an if, as an expression. -/
def elseIfShape : Node → Option (Text (List Char))
  | .pathIf condition thenPath elsePath _ _ =>
    some (.parts .plain (some [0, 1, 2])
      [shape condition, (shape thenPath).loose, (elseIfShape elsePath).getD (shape elsePath).loose])
  | _ => none

end

end

/-! ## The checker is the first reader -/

/-- The step of the checker reads the text. -/
def Reads (t : Text (List Char)) (p : Place) (step : UnusedChecker → UnusedChecker) : Prop :=
  ∀ c, names (step c).scopes = Layer.declaring (t.declares p) (names c.scopes) ∧
    (step c).marked = c.marked ++ t.marks p (names c.scopes)

def ReadsAll (ts : List (Text (List Char))) (p : Place) (i : Nat) (step : UnusedChecker → UnusedChecker) : Prop :=
  ∀ c, names (step c).scopes = Layer.declaring (Text.declaresAll ts p i) (names c.scopes) ∧
    (step c).marked = c.marked ++ Text.marksAll ts p i (names c.scopes)

section

variable {t u v : Text (List Char)} {ts : List (Text (List Char))} {p : Place} {i : Nat}
  {f g h : UnusedChecker → UnusedChecker}

theorem readsAll_nil : ReadsAll [] p i fun c => c := by
  intro c
  simp [Text.declaresAll, Text.marksAll]

theorem readsAll_cons (hf : Reads t (i :: p) f) (hg : ReadsAll ts p (i + 1) g) : ReadsAll (t :: ts) p i fun c => g (f c) := by
  intro c
  obtain ⟨hnames, hmarked⟩ := hf c
  obtain ⟨hnames', hmarked'⟩ := hg (f c)
  rw [hnames] at hnames' hmarked'
  refine ⟨?_, ?_⟩
  · rw [hnames', Text.declaresAll, Layer.declaring_declaring]
  · rw [hmarked', hmarked, Text.marksAll, List.append_assoc]

theorem reads_plain (order : Option (List Nat)) (h : ReadsAll ts p 0 f) : Reads (.parts .plain order ts) p f := by
  intro c
  rw [Text.declares, Text.marks]
  exact h c

theorem reads_one (order : Option (List Nat)) (hf : Reads t (0 :: p) f) : Reads (.parts .plain order [t]) p f :=
  fun c => reads_plain order (readsAll_cons hf readsAll_nil) c

theorem reads_two (order : Option (List Nat)) (hf : Reads t (0 :: p) f) (hg : Reads u (1 :: p) g) :
    Reads (.parts .plain order [t, u]) p fun c => g (f c) :=
  fun c => reads_plain order (readsAll_cons hf (readsAll_cons hg readsAll_nil)) c

theorem reads_three (order : Option (List Nat)) (hf : Reads t (0 :: p) f) (hg : Reads u (1 :: p) g) (hh : Reads v (2 :: p) h) :
    Reads (.parts .plain order [t, u, v]) p fun c => h (g (f c)) :=
  fun c => reads_plain order (readsAll_cons hf (readsAll_cons hg (readsAll_cons hh readsAll_nil))) c

/-- A scope of the checker's. -/
theorem reads_scope {e : Enclosure} (he : e ≠ .plain) (order : Option (List Nat)) (h : ReadsAll ts p 0 f) :
    Reads (.parts e order ts) p fun c => (f c.pushScope).popScope := by
  intro c
  obtain ⟨hnames, hmarked⟩ := h c.pushScope
  have henter : e.enter [] (names c.scopes) = [] :: names c.scopes := by
    cases e with
    | plain => exact absurd rfl he
    | first | both => rfl
  rw [Text.declares, if_neg he, Text.marks, henter]
  refine ⟨?_, ?_⟩
  · rw [Layer.declaring_nil, UnusedChecker.popScope_names, hnames]
    rfl
  · rw [UnusedChecker.popScope_marked, hmarked]
    rfl

theorem reads_used (literal : Literal) : Reads (used literal) p fun c => c.markUsed literal p := by
  intro c
  cases literal with
  | identifier name => exact ⟨by simp [used, Text.declares], by simp [used, Text.marks, UnusedChecker.markUsed_marked]⟩
  | _ => simp [used, Text.declares, Text.declaresAll, Text.marks, Text.marksAll, UnusedChecker.markUsed]

theorem reads_declared (identifier : Literal) (line : Nat) (isFunction : Bool) :
    Reads (declared identifier) p fun c => c.addDeclaration identifier line isFunction p := by
  intro c
  cases identifier with
  | identifier name => simp [declared, Text.declares, Text.marks]
  | _ => simp [declared, Text.declares, Text.declaresAll, Text.marks, Text.marksAll, UnusedChecker.addDeclaration]

theorem reads_loose (h : Reads t p f) : Reads t.loose p f := by
  intro c
  rw [Text.declares_loose, Text.marks_loose]
  exact h c

/-- What the checker does not go into. -/
theorem reads_unread (t : Text (List Char)) : Reads t.unread p fun c => c := by
  intro c
  simp [Text.declares_unread, Text.marks_unread]

theorem readsAll_left (left : List (List Char)) (p : Place) (i : Nat) :
    ReadsAll (left.map (.declare · false)) p i fun c => c := by
  induction left generalizing i with
  | nil => exact readsAll_nil
  | cons name left ih =>
    have hname : Reads (.declare name false) (i :: p) fun c => c := fun c => by simp [Text.declares, Text.marks]
    exact fun c => readsAll_cons hname (ih (i + 1)) c

theorem reads_parameters (nodes : List Node) (p : Place) (i : Nat) :
    ReadsAll (nodes.map parameterText) p i (addParameters nodes p i) := by
  induction nodes generalizing i with
  | nil => exact readsAll_nil
  | cons node nodes ih =>
    cases node with
    | varDecl identifier typeLiteral expression line =>
      refine readsAll_cons (f := fun c => c.addDeclaration identifier line false (i :: p)) ?_ (ih (i + 1))
      cases identifier with
      | identifier name => exact reads_declared (.identifier name) line false
      | _ => exact fun c => by simp [parameterText, Text.declares, Text.marks, UnusedChecker.addDeclaration]
    | _ =>
      refine readsAll_cons ?_ (ih (i + 1))
      exact reads_plain none readsAll_nil

end

section

variable (modules : Literal → ModuleNames)

mutual

/-- The checker goes through a node as the first reader through its shape. -/
theorem checkNode_reads : ∀ (node : Node) (p : Place), Reads (shape modules node) p (checkNode node p)
  | .null, _ | .wild, _ | .error, _ | .pathBreak, _ | .pathContinue, _ | .pass, _ => fun c => reads_plain _ readsAll_nil c
  | .literal literal, _ => fun c => reads_used literal c
  | .unary _ child, p | .grouping child, p | .cast _ child, p => fun c => reads_one _ (checkNode_reads child (0 :: p)) c
  | .binary _ left right, p | .pair left right, p => fun c =>
    reads_two _ (checkNode_reads left (0 :: p)) (checkNode_reads right (1 :: p)) c
  | .ternary condition thenPath elsePath, p | .index condition thenPath elsePath, p => fun c =>
    reads_three _ (checkNode_reads condition (0 :: p)) (checkNode_reads thenPath (1 :: p)) (checkNode_reads elsePath (2 :: p)) c
  | .pathIf condition thenPath elsePath _ isExpression, p => by
    have hcondition := checkNode_reads condition (0 :: p)
    have hthen := checkNode_reads thenPath (1 :: p)
    have helse := checkNode_reads elsePath (2 :: p)
    cases isExpression with
    | true => exact fun c => reads_three _ hcondition (reads_loose hthen) (elsePath_reads elsePath (2 :: p) helse) c
    | false => exact fun c => reads_three _ hcondition hthen helse c
  | .block nodes, p => fun c => reads_scope (by decide) _ (checkAll_reads nodes p 0) c
  | .compound _ nodes, p | .fnCollection nodes, p => fun c => reads_plain _ (checkAll_reads nodes p 0) c
  | .varDecl identifier _ expression line, p => fun c =>
    reads_two _ (checkNode_reads expression (0 :: p)) (reads_declared identifier line false) c
  | .fnDecl identifier arguments returns body line, p => by
    have hparameters := reads_plain (some (List.range maxParameters)) (reads_parameters (collection arguments) (0 :: 1 :: p) 0)
    have hbody := reads_loose (checkNode_reads body (2 :: 1 :: p))
    have hreturns := checkNode_reads returns (1 :: 1 :: p)
    have hscope := reads_scope (e := .first) (by decide) (some [0, 2])
      (readsAll_cons hparameters (readsAll_cons hreturns (readsAll_cons hbody readsAll_nil)))
    exact fun c => reads_two (some [1]) (reads_declared identifier line true) hscope c
  | .fnCall arguments _, p => by
    cases arguments with
    | fnCollection nodes => exact fun c => reads_plain _ (checkAll_reads nodes p 0) c
    | _ => exact fun c => reads_one _ (reads_unread _) c
  | .fnReturn returns, p => by
    cases returns with
    | fnCollection nodes => exact fun c => reads_plain _ (checkAll_reads nodes p 0) c
    | _ => exact fun c => reads_one _ (reads_unread _) c
  | .pathWhile condition thenPath, p => fun c =>
    reads_two _ (checkNode_reads condition (0 :: p)) (checkNode_reads thenPath (1 :: p)) c
  | .pathFor preClause condition postClause thenPath, p => by
    have hbody := readsAll_cons (checkNode_reads postClause (2 :: p))
      (readsAll_cons (checkNode_reads thenPath (3 :: p)) readsAll_nil)
    have hscope := reads_scope (e := .first) (by decide) (some [0, 1, 3, 2])
      (readsAll_cons (checkNode_reads preClause (0 :: p)) (readsAll_cons (checkNode_reads condition (1 :: p)) hbody))
    exact fun c => hscope c
  | .prefixIncrement identifier, _ | .prefixDecrement identifier, _ | .postfixIncrement identifier, _
  | .postfixDecrement identifier, _ => fun c => reads_used identifier c
  | .importNode identifier _, p => fun c => reads_plain none (readsAll_left (modules identifier).leaves p 0) c

theorem checkAll_reads : ∀ (nodes : List Node) (p : Place) (i : Nat), ReadsAll (shapeAll modules nodes) p i (checkAll nodes p i)
  | [], _, _ => fun c => readsAll_nil c
  | node :: nodes, p, i => fun c => readsAll_cons (checkNode_reads node (i :: p)) (checkAll_reads nodes p (i + 1)) c

theorem elsePath_reads : ∀ (node : Node) (p : Place), Reads (shape modules node) p (checkNode node p) →
    Reads ((elseIfShape modules node).getD (shape modules node).loose) p (checkNode node p)
  | node, p, h => by
    cases node with
    | pathIf condition thenPath elsePath =>
      have helse := elsePath_reads elsePath (2 :: p) (checkNode_reads elsePath (2 :: p))
      exact fun c => reads_three (some [0, 1, 2]) (checkNode_reads condition (0 :: p))
        (reads_loose (checkNode_reads thenPath (1 :: p))) helse c
    | _ => exact reads_loose h

end

/-- What the checker marks in a program. -/
theorem checkProgram_marked (program : List Node) :
    (UnusedChecker.checkProgram program).marked = bookMarks (shapeAll modules program) := by
  have hmarked := (checkAll_reads modules program [] 0 UnusedChecker.init.pushScope).2
  rw [UnusedChecker.checkProgram, UnusedChecker.popScope_marked, hmarked]
  rfl

end

end Xvr.Backend
