/-
  Xvr.Backend.NameCalls — the second reader of a text on the emitter's table of local
  variables.

  A course through a text is a list of calls of the function emitter: a use looks the name
  up, a declaration adds a variable, and a block that is not empty is a scope. A declaration
  stands for its storage.

  Proved:
  - `bookLookups_eq`: inside the table's limits every lookup answers for the latest entry.
-/

import Xvr.Backend.LexicalScopes
import Xvr.Lib.Readings

namespace Xvr.Backend

open Xvr.Runtime Xvr.Lib

/-! ## Calls with their places -/

/-- A call, with the place in the program it is made for. -/
abbrev PlacedCall (V : Type) := Place × TableCall V

def calls {V : Type} (placed : List (PlacedCall V)) : List (TableCall V) := placed.map (·.2)

@[simp] theorem calls_append {V : Type} (placed rest : List (PlacedCall V)) :
    calls (placed ++ rest) = calls placed ++ calls rest :=
  List.map_append

/-- What the lookups of variables answer, each with its place. -/
def FunctionEmitter.lookups {V : Type} (e : FunctionEmitter V) : List (PlacedCall V) → List (Place × Option V)
  | [] => []
  | (p, .lookupVar name) :: rest => (p, e.lookupVar name) :: e.lookups rest
  | (_, c) :: rest => (e.call c).lookups rest

def Lexical.lookups {V : Type} (s : Scopes (Variable V)) : List (PlacedCall V) → List (Place × Option V)
  | [] => []
  | (p, .lookupVar name) :: rest => (p, (Lexical.find s name).bind (·.value)) :: Lexical.lookups s rest
  | (_, c) :: rest => Lexical.lookups (Lexical.call s c) rest

theorem shows_lookups {V : Type} {e : FunctionEmitter V} {s : Scopes (Variable V)} (h : Shows e s)
    {placed : List (PlacedCall V)} (hnested : Lexical.wellNested s.depth (calls placed))
    (hfits : Lexical.fits s (calls placed)) : e.lookups placed = Lexical.lookups s placed := by
  induction placed generalizing e s with
  | nil => rfl
  | cons first rest ih =>
    obtain ⟨p, c⟩ := first
    obtain ⟨hc, hrest⟩ := wellNested_cons hnested
    obtain ⟨hroom, hfits⟩ := Bool.and_eq_true_iff.mp hfits
    have hcall := shows_call h hc hroom
    cases c with
    | lookupVar name =>
      rw [FunctionEmitter.lookups, Lexical.lookups, FunctionEmitter.lookupVar, shows_find h]
      rw [ih h hrest hfits]
    | _ =>
      rw [FunctionEmitter.lookups, Lexical.lookups]
      · exact ih hcall hrest hfits
      all_goals exact fun name hname => by cases hname

/-! ## The calls of a course -/

def callsBy (inside : List (Text (List Char)) → Place → List (PlacedCall Place)) :
    Text (List Char) → Place → List (PlacedCall Place)
  | .use name _, p => [(p, .lookupVar name)]
  | .declare name _, p => [(p, .addLocalVar (some name) (some p) .null 0)]
  | .parts e _ ts, p => if e = .both ∧ ts ≠ [] then (p, .enterScope) :: inside ts p ++ [(p, .exitScope)] else inside ts p

def callsIn : Course → List (Text (List Char)) → Place → List (PlacedCall Place)
  | .done, _, _ => []
  | .visit i inside next, ts, p =>
    (match ts[i]? with
      | some t => callsBy (callsIn inside) t (i :: p)
      | none => []) ++ callsIn next ts p

/-- What the emitter finds where it looks names up, stage after stage. -/
def bookLookups (chapters : List (Text (List Char))) : List Stage → FunctionEmitter Place → List (Place × Option Place)
  | [], _ => []
  | st :: stages, e =>
    let e := if st.fresh then e.clearLocalVars else e
    let placed := callsIn st.course chapters []
    e.lookups placed ++ bookLookups chapters stages (e.run (calls placed))

/-- Every variable and every scope has room. -/
def bookFits (chapters : List (Text (List Char))) : List Stage → Scopes (Variable Place) → Bool
  | [], _ => true
  | st :: stages, s =>
    let s := if st.fresh then Scopes.empty else s
    let called := calls (callsIn st.course chapters [])
    Lexical.fits s called && bookFits chapters stages (Lexical.run s called)

/-! ## What the calls do to the environment -/

/-- The entry that stands for a declaration. -/
def entryOf (d : List Char × Place) : Variable Place := ⟨some d.1, some d.2, .null, 0⟩

/-- The calls between two points, as moves of the environment. -/
def placedMoves (placed : List (PlacedCall Place)) : List (Scopes.Move (Variable Place)) := moves (calls placed)

@[simp] theorem placedMoves_append (placed rest : List (PlacedCall Place)) :
    placedMoves (placed ++ rest) = placedMoves placed ++ placedMoves rest := by
  unfold placedMoves
  rw [calls_append, moves_append]

/-- Every scope the calls enter they leave. -/
def ScopesClosed (placed : List (PlacedCall Place)) : Prop := ∀ d, Scopes.nesting d (placedMoves placed) = some d

theorem ScopesClosed.append {placed rest : List (PlacedCall Place)} (h : ScopesClosed placed) (h' : ScopesClosed rest) :
    ScopesClosed (placed ++ rest) := by
  intro d
  rw [placedMoves_append, Scopes.nesting_append, h d]
  exact h' d

theorem ScopesClosed.scope {placed : List (PlacedCall Place)} (h : ScopesClosed placed) (p : Place) :
    ScopesClosed ((p, .enterScope) :: placed ++ [(p, .exitScope)]) := by
  intro d
  change Scopes.nesting (d + 1) (placedMoves (placed ++ [(p, .exitScope)])) = some d
  rw [placedMoves_append, Scopes.nesting_append, h (d + 1)]
  rfl

theorem callsBy_closed {inside : List (Text (List Char)) → Place → List (PlacedCall Place)}
    (hinside : ∀ ts p, ScopesClosed (inside ts p)) (t : Text (List Char)) (p : Place) : ScopesClosed (callsBy inside t p) := by
  cases t with
  | use => exact fun d => rfl
  | declare => exact fun d => rfl
  | parts e order ts =>
    rw [callsBy]
    split
    · exact (hinside ts p).scope p
    · exact hinside ts p

theorem callsIn_closed (c : Course) (ts : List (Text (List Char))) (p : Place) : ScopesClosed (callsIn c ts p) := by
  induction c generalizing ts p with
  | done => exact fun d => rfl
  | visit i inside next ihInside ihNext =>
    rw [callsIn]
    apply ScopesClosed.append
    · cases ts[i]? with
      | none => exact fun d => rfl
      | some t => exact callsBy_closed ihInside t (i :: p)
    · exact ihNext ts p

theorem run_placed (s : Scopes (Variable Place)) (placed : List (PlacedCall Place)) :
    Lexical.run s (calls placed) = s.run (placedMoves placed) := run_moves s (calls placed)

/-- The environment with more entries in the current scope. -/
def holding (es : List (List Char × Place)) (s : Scopes (Variable Place)) : Scopes (Variable Place) :=
  { s with current := es.map entryOf ++ s.current }

theorem holding_holding (es es' : List (List Char × Place)) (s : Scopes (Variable Place)) :
    holding es' (holding es s) = holding (es' ++ es) s := by
  unfold holding
  rw [List.map_append, List.append_assoc]

theorem callsBy_run {inside : List (Text (List Char)) → Place → List (PlacedCall Place)}
    {left : List (Text (List Char)) → Place → List (List Char × Place)} (hclosed : ∀ ts p, ScopesClosed (inside ts p))
    (hinside : ∀ ts p s, s.run (placedMoves (inside ts p)) = holding (left ts p) s)
    (hempty : ∀ p, inside [] p = []) (t : Text (List Char)) (p : Place) (s : Scopes (Variable Place)) :
    s.run (placedMoves (callsBy inside t p)) = holding (Text.leavesBy left t p) s := by
  cases t with
  | use => rfl
  | declare => rfl
  | parts e order ts =>
    rw [callsBy, Text.leavesBy]
    by_cases he : e = .both
    · rw [if_pos he]
      cases ts with
      | nil =>
        rw [if_neg (by simp), hempty]
        rfl
      | cons t ts =>
        rw [if_pos ⟨he, by simp⟩]
        have hmoves : placedMoves ((p, .enterScope) :: inside (t :: ts) p ++ [(p, .exitScope)]) =
            .opens :: placedMoves (inside (t :: ts) p) ++ [.closes] := by
          change .opens :: placedMoves (inside (t :: ts) p ++ [(p, .exitScope)]) = _
          rw [placedMoves_append]
          rfl
        rw [hmoves, Scopes.run_closed s (hclosed (t :: ts) p 0)]
        rfl
    · rw [if_neg he, if_neg (fun h => he h.1)]
      exact hinside ts p s

theorem callsIn_nil (c : Course) (p : Place) : callsIn c [] p = [] := by
  induction c with
  | done => rfl
  | visit i inside next _ ihNext => simpa [callsIn] using ihNext

/-- The calls leave the entries of the course in the current scope. -/
theorem callsIn_run (c : Course) (ts : List (Text (List Char))) (p : Place) (s : Scopes (Variable Place)) :
    s.run (placedMoves (callsIn c ts p)) = holding (Text.leavesIn c ts p) s := by
  induction c generalizing ts p s with
  | done => rfl
  | visit i inside next ihInside ihNext =>
    rw [callsIn, placedMoves_append, Scopes.run_append, Text.leavesIn, ← holding_holding, ihNext]
    cases ts[i]? with
    | none => rfl
    | some t =>
      dsimp only
      rw [callsBy_run (fun ts p => callsIn_closed inside ts p) ihInside (callsIn_nil inside) t (i :: p) s]

/-! ## What the lookups answer -/

theorem lookups_append (s : Scopes (Variable Place)) (placed rest : List (PlacedCall Place)) :
    Lexical.lookups s (placed ++ rest) = Lexical.lookups s placed ++ Lexical.lookups (s.run (placedMoves placed)) rest := by
  induction placed generalizing s with
  | nil => rfl
  | cons first placed ih =>
    obtain ⟨p, c⟩ := first
    have hrun : s.run (placedMoves ((p, c) :: placed)) = (Lexical.call s c).run (placedMoves placed) := by
      rw [← run_placed, ← run_placed]
      rfl
    rw [hrun, List.cons_append]
    cases c with
    | lookupVar name =>
      rw [Lexical.lookups, Lexical.lookups, ih, List.cons_append]
      rfl
    | _ =>
      rw [Lexical.lookups, Lexical.lookups]
      · exact ih _
      all_goals exact fun name hname => by cases hname

/-- The table shows the entries. -/
def Holds (s : Scopes (Variable Place)) (es : List (List Char × Place)) : Prop := s.visible = es.map entryOf

theorem Holds.find {s : Scopes (Variable Place)} {es : List (List Char × Place)} (h : Holds s es) (name : List Char) :
    (Lexical.find s name).bind (·.value) = Text.found name es := by
  unfold Lexical.find Text.found
  rw [h, List.find?_map]
  have hname : ((fun v : Variable Place => decide (v.name = some name)) ∘ entryOf) = fun d => decide (d.1 = name) := by
    funext d
    simp [entryOf]
  rw [hname]
  cases es.find? fun d => decide (d.1 = name) <;> rfl

theorem Holds.holding {s : Scopes (Variable Place)} {es : List (List Char × Place)} (h : Holds s es)
    (es' : List (List Char × Place)) : Holds (Xvr.Backend.holding es' s) (es' ++ es) := by
  unfold Holds Xvr.Backend.holding
  rw [List.map_append, ← show s.visible = es.map entryOf from h]
  simp [Scopes.visible]

/-- What a use finds. -/
def answerOf (u : Use (List Char)) : Place × Option Place := (u.place, Text.latest u.name u.layers)

theorem callsIn_lookups (c : Course) (ts : List (Text (List Char))) (p : Place) {s : Scopes (Variable Place)}
    {f : Layer (List Char)} {fs : List (Layer (List Char))} (h : Holds s (Text.recorded (f :: fs))) :
    Lexical.lookups s (callsIn c ts p) = (Text.usesIn c ts p (f :: fs)).map answerOf := by
  induction c generalizing ts p s f fs with
  | done => rfl
  | visit i inside next ihInside ihNext =>
    rw [callsIn, lookups_append, Text.usesIn]
    cases ht : ts[i]? with
    | none => exact ihNext ts p h
    | some t =>
      dsimp only
      rw [List.map_append]
      congr 1
      · cases t with
        | use name =>
          simp only [callsBy, Lexical.lookups, Text.usesBy, List.map_cons, List.map_nil, answerOf]
          rw [h.find, ← Text.found_recorded, Text.recorded_extended]
        | declare => rfl
        | parts e order ts' =>
          have hinside : Holds s (Text.recorded (e.enter .empty (Layer.extended (Text.declaresAll (ts.take i) p 0) (f :: fs)))) := by
            rw [Text.recorded_enter, Text.recorded_extended]
            exact h
          rw [callsBy, Text.usesBy]
          split
          · have hopened : Holds s.opened
                (Text.recorded (e.enter .empty (Layer.extended (Text.declaresAll (ts.take i) p 0) (f :: fs)))) := hinside
            have hlookups : Lexical.lookups s ((i :: p, .enterScope) :: callsIn inside ts' (i :: p) ++ [(i :: p, .exitScope)]) =
                Lexical.lookups s.opened (callsIn inside ts' (i :: p)) := by
              rw [List.cons_append, Lexical.lookups]
              · change Lexical.lookups s.opened (callsIn inside ts' (i :: p) ++ [(i :: p, .exitScope)]) = _
                rw [lookups_append]
                exact List.append_nil _
              · exact fun name hname => by cases hname
            rw [hlookups]
            cases e with
            | plain => exact ihInside ts' (i :: p) hopened
            | first | both => exact ihInside ts' (i :: p) hopened
          · cases e with
            | plain => exact ihInside ts' (i :: p) hinside
            | first | both => exact ihInside ts' (i :: p) hinside
      · rw [callsBy_run (fun ts p => callsIn_closed inside ts p) (fun ts p s => callsIn_run inside ts p s)
          (callsIn_nil inside) t (i :: p) s]
        refine ihNext ts p ?_
        have hleft := h.holding (Text.leavesBy (Text.leavesIn inside) t (i :: p))
        rwa [← Text.recorded_recording] at hleft

/-! ## Stages -/

theorem shows_cleared {e : FunctionEmitter Place} {s : Scopes (Variable Place)} (h : Shows e s) (hs : s.enclosing = []) :
    Shows e.clearLocalVars Scopes.empty := by
  refine ⟨rfl, ?_, rfl⟩
  change e.scopeDepth.val = 0
  rw [h.depth, Scopes.depth, hs]
  rfl

/-- Inside the limits of the table every lookup answers for the latest entry of the name. -/
theorem bookLookups_eq (chapters : List (Text (List Char))) (stages : List Stage) {e : FunctionEmitter Place}
    {s : Scopes (Variable Place)} {entries : List (List Char × Place)} (hshows : Shows e s) (hs : s.enclosing = [])
    (hholds : Holds s entries) (hfits : bookFits chapters stages s) :
    bookLookups chapters stages e = (bookUses chapters stages entries).map answerOf := by
  induction stages generalizing e s entries with
  | nil => rfl
  | cons st stages ih =>
    rw [bookFits, Bool.and_eq_true] at hfits
    obtain ⟨hfits, hrest⟩ := hfits
    rw [bookLookups, bookUses, List.map_append]
    -- where the stage begins
    obtain ⟨e', s', he, hs', hshows', henclosing, hstart⟩ : ∃ e' s', (if st.fresh then e.clearLocalVars else e) = e' ∧
        (if st.fresh then Scopes.empty else s) = s' ∧ Shows e' s' ∧ s'.enclosing = [] ∧ Holds s' (st.start entries) := by
      unfold Stage.start
      cases st.fresh with
      | true => exact ⟨_, _, rfl, rfl, shows_cleared hshows hs, rfl, rfl⟩
      | false => exact ⟨_, _, rfl, rfl, hshows, hs, hholds⟩
    simp only [he, hs'] at hfits hrest ⊢
    have hnested : Lexical.wellNested s'.depth (calls (callsIn st.course chapters [])) := by
      unfold Lexical.wellNested
      rw [show moves (calls (callsIn st.course chapters [])) = placedMoves (callsIn st.course chapters []) from rfl,
        callsIn_closed st.course chapters [] s'.depth]
      rfl
    have hrecorded : Text.recorded [⟨[], st.start entries⟩] = st.start entries := by simp [Text.recorded]
    congr 1
    · rw [shows_lookups hshows' hnested hfits]
      apply callsIn_lookups
      rw [hrecorded]
      exact hstart
    · have hreached := @shows_reached _ _ _ hshows' (calls (callsIn st.course chapters [])) []
        (by simpa using hnested) (by simpa using hfits)
      rw [run_placed, callsIn_run] at hreached hrest
      exact ih hreached henclosing (hstart.holding _) hrest

end Xvr.Backend
