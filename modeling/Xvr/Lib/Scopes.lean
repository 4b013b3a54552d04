/-
  Xvr.Lib.Scopes — a lexical environment: the current scope and the scopes around it,
  each with its bindings, newest first.

  Proved:
  - `run_closed`: closing a scope leaves exactly the scopes that were there when it was
    opened, whatever happened inside.
-/

import Mathlib.Data.List.Basic

namespace Xvr.Lib

structure Scopes (β : Type) where
  current : List β
  enclosing : List (List β)

namespace Scopes

variable {β : Type}

def empty : Scopes β := ⟨[], []⟩

/-- Every binding in scope, the most recent of the innermost scope first. -/
def visible (s : Scopes β) : List β := s.current ++ s.enclosing.flatten

/-- The number of scopes opened. -/
def depth (s : Scopes β) : Nat := s.enclosing.length

def opened (s : Scopes β) : Scopes β := ⟨[], s.current :: s.enclosing⟩

def bind (b : β) (s : Scopes β) : Scopes β := { s with current := b :: s.current }

def closed (s : Scopes β) : Scopes β :=
  match s.enclosing with
  | [] => s
  | current :: enclosing => ⟨current, enclosing⟩

@[simp] theorem visible_empty : (empty : Scopes β).visible = [] := rfl
@[simp] theorem depth_empty : (empty : Scopes β).depth = 0 := rfl
@[simp] theorem visible_opened (s : Scopes β) : s.opened.visible = s.visible := rfl
@[simp] theorem depth_opened (s : Scopes β) : s.opened.depth = s.depth + 1 := rfl
@[simp] theorem visible_bind (b : β) (s : Scopes β) : (s.bind b).visible = b :: s.visible := rfl
@[simp] theorem depth_bind (b : β) (s : Scopes β) : (s.bind b).depth = s.depth := rfl

/-! ## Runs -/

inductive Move (β : Type) where
  | opens
  | binds (b : β)
  | closes

def step (s : Scopes β) : Move β → Scopes β
  | .opens => s.opened
  | .binds b => s.bind b
  | .closes => s.closed

def run (s : Scopes β) (moves : List (Move β)) : Scopes β := moves.foldl step s

/-- How many scopes are open after the moves, `d` being open before; `none` when one is
    closed that was not opened. -/
def nesting : Nat → List (Move β) → Option Nat
  | d, [] => some d
  | d, .opens :: moves => nesting (d + 1) moves
  | d, .binds _ :: moves => nesting d moves
  | 0, .closes :: _ => none
  | d + 1, .closes :: moves => nesting d moves

theorem nesting_append (d : Nat) (moves rest : List (Move β)) :
    nesting d (moves ++ rest) = (nesting d moves).bind fun d' => nesting d' rest := by
  induction moves generalizing d with
  | nil => rfl
  | cons move moves ih =>
    cases move with
    | opens => exact ih (d + 1)
    | binds b => exact ih d
    | closes =>
      cases d with
      | zero => rfl
      | succ d => exact ih d

@[simp] theorem run_cons (s : Scopes β) (move : Move β) (moves : List (Move β)) :
    run s (move :: moves) = run (s.step move) moves := rfl

theorem run_append (s : Scopes β) (moves rest : List (Move β)) : run s (moves ++ rest) = run (run s moves) rest :=
  List.foldl_append

/-- The moves touch the current scope and the `d` next to it. -/
theorem run_inside (moves : List (Move β)) (current : List β) (inside outside : List (List β)) {d : Nat}
    (h : nesting inside.length moves = some d) :
    ∃ current' inside', inside'.length = d ∧
      run ⟨current, inside ++ outside⟩ moves = ⟨current', inside' ++ outside⟩ := by
  induction moves generalizing current inside with
  | nil => exact ⟨current, inside, by simpa [nesting] using h, rfl⟩
  | cons move moves ih =>
    cases move with
    | opens => exact ih [] (current :: inside) h
    | binds b => exact ih (b :: current) inside h
    | closes =>
      cases inside with
      | nil => simp [nesting] at h
      | cons next inside => exact ih next inside h

/-- What happens inside a scope is gone when it is closed. -/
theorem run_closed (s : Scopes β) {moves : List (Move β)} (h : nesting 0 moves = some 0) :
    run s (.opens :: moves ++ [.closes]) = s := by
  obtain ⟨current', inside', hlength, hrun⟩ :=
    run_inside moves [] [] (s.current :: s.enclosing) h
  rw [List.length_eq_zero_iff] at hlength
  subst hlength
  rw [List.cons_append, run_cons, run_append]
  have hopened : s.step .opens = ⟨[], [] ++ s.current :: s.enclosing⟩ := rfl
  rw [hopened, hrun]
  rfl

end Scopes

end Xvr.Lib
