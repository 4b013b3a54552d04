/-
  Xvr.Backend.NameResolution — the declaration the checker marks for a use against the one
  whose storage the emitter finds there.

  The checker searches its scopes from the innermost out, but each from its oldest
  declaration on; the emitter's table is searched from the newest entry back, has no scope
  for a for loop or an arm of an if expression, and is emptied where a procedure begins.

  Proved:
  - `resolution_agrees_iff`: the two agree on every use exactly when, at every use the
    emitter comes to, the innermost scope that knows the name has it from one declaration.
  - `redeclaration_disagrees`: a variable declared twice in one scope.
-/

import Xvr.Backend.NameTexts
import Xvr.Backend.NameCalls

namespace Xvr.Backend

open Xvr.Runtime Xvr.Lib
open Xvr.Frontend (Node UnusedChecker)

/-! ## Emissions of a program -/

section

variable (modules : Literal → ModuleNames)

/-- The procedures of a collection, up to a node that is none. -/
def procedurePlaces : List Node → Place → Nat → List (Bool × Place)
  | .fnDecl _ _ _ _ _ :: nodes, p, i => (true, i :: p) :: procedurePlaces nodes p (i + 1)
  | _, _, _ => []

/-- Where the emission of the nodes begins, and whether it empties the table. -/
def stagePlaces : List Node → Nat → List (Bool × Place)
  | [], _ => []
  | .fnDecl _ _ _ _ _ :: nodes, k => (true, [k]) :: stagePlaces nodes (k + 1)
  | .fnCollection procedures :: nodes, k => procedurePlaces procedures [k] 0 ++ stagePlaces nodes (k + 1)
  | .importNode identifier _ :: nodes, k => ((modules identifier).clears, [k]) :: stagePlaces nodes (k + 1)
  | _ :: nodes, k => (false, [k]) :: stagePlaces nodes (k + 1)

/-- The stages of an emission that takes the courses. -/
def stagesOf (program : List Node) (courses : List Course) : List Stage :=
  (stagePlaces modules program 0).zipWith (fun place c => ⟨place.1, Course.through place.2 c⟩) courses

/-- An emission of the program within the limits of the table: how it went through every
    node, each in the emitter's order, up to where it failed. -/
structure Emission (program : List Node) where
  courses : List Course
  follows : ∀ st ∈ stagesOf modules program courses, Text.followsIn st.course (shapeAll modules program)
  fits : bookFits (shapeAll modules program) (stagesOf modules program courses) Scopes.empty

end

variable {modules : Literal → ModuleNames} {program : List Node}

/-- Every lookup of the table, with the declaration whose storage it returns. -/
def Emission.lookups (e : Emission modules program) : List (Place × Option Place) :=
  bookLookups (shapeAll modules program) (stagesOf modules program e.courses) FunctionEmitter.create

/-- The uses that are looked up, each with the scopes it stands in. -/
def Emission.uses (e : Emission modules program) : List (Use (List Char)) :=
  bookUses (shapeAll modules program) (stagesOf modules program e.courses) []

/-- At every use the declaration that is marked is the one whose storage is found. -/
def Emission.Agrees (e : Emission modules program) : Prop :=
  ∀ use found, (use, found) ∈ e.lookups →
    ∀ declaration, found = some declaration ↔ (use, declaration) ∈ (UnusedChecker.checkProgram program).marked

theorem lookups_eq (e : Emission modules program) : e.lookups = e.uses.map answerOf :=
  bookLookups_eq _ _ shows_create rfl rfl e.fits

/-! ## Agreement -/

/-- The checker and the emitter agree on a program exactly when every use that is looked up
    is clear: in the innermost scope around it that declares the name or was left an entry
    of it, the first declaration is the latest entry. -/
theorem resolution_agrees_iff (e : Emission modules program) : e.Agrees ↔ ∀ use ∈ e.uses, use.Clear := by
  unfold Emission.Agrees
  rw [lookups_eq, checkProgram_marked modules program]
  constructor
  · intro h use huse
    apply (clear_iff huse).mp
    exact h _ _ (List.mem_map_of_mem huse)
  · intro h place found hmem
    obtain ⟨use, huse, heq⟩ := List.mem_map.mp hmem
    have hclear := (clear_iff huse).mpr (h use huse)
    rw [answerOf, Prod.mk.injEq] at heq
    rw [← heq.1, ← heq.2]
    exact hclear

/-- `var x = 1; var x = 2; x++;` -/
def redeclared : List Node :=
  [.varDecl (.identifier ['x']) (.type .any false []) (.literal (.integer 1)) 1,
    .varDecl (.identifier ['x']) (.type .any false []) (.literal (.integer 2)) 1,
    .postfixIncrement (.identifier ['x'])]

/-- Every part of it is emitted. -/
def redeclaredEmission : Emission (fun _ => ⟨false, []⟩) redeclared where
  courses := [.visit 0 .done (.visit 1 .done .done), .visit 0 .done (.visit 1 .done .done), .done]
  follows := by decide
  fits := by decide

/-- The checker marks the first `x`, the emitter finds the second. -/
theorem redeclaration_disagrees : ¬ ∀ modules program (e : Emission modules program), e.Agrees := by
  intro h
  have hlookup : ([2], some [1, 1]) ∈ redeclaredEmission.lookups := by decide +kernel
  have hmarked := (h _ _ redeclaredEmission _ _ hlookup [1, 1]).mp rfl
  revert hmarked
  decide +kernel

end Xvr.Backend
