/-
  Xvr.Frontend.OptimizerPasses — the optimizer's array of passes, and the order it runs them in
  (`Xvr_ASTOptimizerAddPass`, `compare_pass_priority`, `Xvr_ASTOptimizerRun`).

  Passes of any kind: what one does to a node and to its context is a change of a world nothing
  is said about. The calls made are noted. A priority is an `int`, and a difference of two that
  leaves the range is taken to wrap. `qsort` is a parameter.

  Proved:
  - `addPasses_registered`: the array keeps every pass that was accepted, however it grows.
  - `runPasses_made`: the enabled passes are called in the order of the array, each on every node,
    up to the first call that fails.
  - `consistent_of_close`: the comparison is consistent where no difference wraps.
  - `priority_order_iff`: whatever `qsort` does with an inconsistent comparison, the order is that
    of the priorities exactly when the comparison is consistent and no two enabled passes are so
    far apart that their difference wraps.

  `Xvr.Frontend.Optimizer` has the standard passes, whose priorities are 1 and 2.
-/

import Xvr.Lib.Buffers
import Xvr.Lib.Sorting
import Xvr.Frontend.Optimizer
import Mathlib.Data.Fintype.EquivFin

namespace Xvr.Frontend.PassManager

open Xvr.Lib Xvr.Lib.Sorting
open Optimizer (OptimizationLevel ASTOptimizerResult unchanged)
open scoped List

variable {W : Type}

/-- `Xvr_ASTOptimizerPass`; the function is called on the node of an index. -/
structure Pass (W : Type) where
  name : List Char
  run : Nat → W → W × ASTOptimizerResult
  priority : Int32
  enabled : Bool

/-- `Xvr_ASTOptimizer`. The array is NULL until it is allocated, while there is a capacity from
    the beginning. -/
structure ASTOptimizer (W : Type) where
  level : OptimizationLevel
  passes : Option (Buffer (Pass W))
  passCapacity : Nat
  inInt : passCapacity < 2 ^ 31
  whole : ∀ buffer, passes = some buffer → buffer.capacity = passCapacity

namespace ASTOptimizer

def buffer (opt : ASTOptimizer W) : Buffer (Pass W) := opt.passes.getD Buffer.empty

/-- The passes in the array. -/
def registered (opt : ASTOptimizer W) : List (Pass W) := opt.buffer.elements

theorem capacity_buffer (opt : ASTOptimizer W) : opt.buffer.capacity ≤ opt.passCapacity := by
  unfold buffer
  cases h : opt.passes with
  | none => exact Nat.zero_le _
  | some b => exact (opt.whole b h).le

end ASTOptimizer

def astOptimizerCreate : ASTOptimizer W := ⟨.o2, none, 16, by decide, nofun⟩

def astOptimizerSetLevel (opt : ASTOptimizer W) (level : OptimizationLevel) : ASTOptimizer W := { opt with level }

def newCapacity (passCapacity : Nat) : Nat := if 0 < passCapacity then passCapacity * 2 else 4

theorem lt_newCapacity (passCapacity : Nat) : passCapacity < newCapacity passCapacity := by
  unfold newCapacity
  split <;> omega

/-- An array with room for one more pass. -/
structure Roomy (W : Type) where
  buffer : Buffer (Pass W)
  room : buffer.count < buffer.capacity
  inInt : buffer.capacity < 2 ^ 31

/-- No allocator grants a capacity beyond an `int`. -/
def makeRoom (opt : ASTOptimizer W) (granted : Granted (Pass W)) : Option (Roomy W) :=
  if h : opt.passes.isNone ∨ opt.passCapacity ≤ opt.buffer.count then
    if hint : newCapacity opt.passCapacity < 2 ^ 31 then
      granted.map fun fresh =>
        have hle := opt.capacity_buffer
        have hlt := lt_newCapacity opt.passCapacity
        have hgrown := opt.buffer.capacity_grow fresh (Nat.le_of_lt (hle.trans_lt hlt))
        { buffer := opt.buffer.grow (newCapacity opt.passCapacity) fresh
          room := by
            have hfits : opt.buffer.count ≤ opt.buffer.capacity := opt.buffer.fits
            rw [Buffer.count_grow, hgrown]
            omega
          inInt := by rwa [hgrown] }
    else none
  else
    have hcapacity : opt.buffer.capacity = opt.passCapacity := by
      rw [not_or, Bool.not_eq_true, Option.isNone_eq_false_iff, Option.isSome_iff_exists] at h
      obtain ⟨b, hb⟩ := h.1
      rw [ASTOptimizer.buffer, hb]
      exact opt.whole b hb
    some ⟨opt.buffer, by omega, by rw [hcapacity]; exact opt.inInt⟩

def astOptimizerAddPass (opt : ASTOptimizer W) (pass : Pass W) (granted : Granted (Pass W)) : ASTOptimizer W × Bool :=
  match makeRoom opt granted with
  | none => (opt, false)
  | some r =>
    ({ level := opt.level
       passes := some (r.buffer.push pass r.room)
       passCapacity := r.buffer.capacity
       inInt := r.inInt
       whole := fun b hb => by rw [← Option.some.inj hb, Buffer.capacity_push] }, true)

/-- Calls of `Xvr_ASTOptimizerAddPass`, and the passes for which they answered true. -/
def addPasses (opt : ASTOptimizer W) : List (Pass W × Granted (Pass W)) → ASTOptimizer W × List (Pass W)
  | [] => (opt, [])
  | (pass, granted) :: calls =>
    let added := astOptimizerAddPass opt pass granted
    let rest := addPasses added.1 calls
    (rest.1, if added.2 then pass :: rest.2 else rest.2)

/-! ## The array -/

theorem makeRoom_elements {opt : ASTOptimizer W} {granted : Granted (Pass W)} {r : Roomy W}
    (h : makeRoom opt granted = some r) : r.buffer.elements = opt.registered := by
  unfold makeRoom at h
  split at h
  · split at h
    · obtain ⟨fresh, -, rfl⟩ := Option.map_eq_some_iff.mp h
      exact Buffer.elements_grow _ _ _
    · cases h
  · rw [← Option.some.inj h]
    rfl

/-- A pass is accepted and is the last one, or it is refused and nothing has changed. -/
theorem addPass_cases (opt : ASTOptimizer W) (pass : Pass W) (granted : Granted (Pass W)) :
    astOptimizerAddPass opt pass granted = (opt, false) ∨
      ∃ opt', astOptimizerAddPass opt pass granted = (opt', true) ∧ opt'.level = opt.level ∧
        opt'.registered = opt.registered ++ [pass] := by
  unfold astOptimizerAddPass
  cases hroom : makeRoom opt granted with
  | none => exact .inl rfl
  | some r =>
    refine .inr ⟨_, rfl, rfl, ?_⟩
    rw [← makeRoom_elements hroom, ASTOptimizer.registered, ASTOptimizer.buffer, Option.getD_some, Buffer.elements_push]

theorem addPasses_registered (opt : ASTOptimizer W) (calls : List (Pass W × Granted (Pass W))) :
    (addPasses opt calls).1.level = opt.level ∧
      (addPasses opt calls).1.registered = opt.registered ++ (addPasses opt calls).2 := by
  induction calls generalizing opt with
  | nil => simp [addPasses]
  | cons call calls ih =>
    obtain ⟨pass, granted⟩ := call
    rcases addPass_cases opt pass granted with hrefused | ⟨opt', hadded, hlevel, hregistered⟩
    · simpa [addPasses, hrefused] using ih opt
    · obtain ⟨hlevel', hregistered'⟩ := ih opt'
      simp [addPasses, hadded, hlevel', hregistered', hlevel, hregistered]

/-! ## Running -/

/-- Signed, and wrapping where the difference leaves the range. -/
def comparePassPriority (a b : Pass W) : Int := (a.priority - b.priority).toInt

/-- The world, the calls of passes on nodes so far, and the changes they have reported. -/
structure Running (W : Type) where
  world : W
  calls : List (Pass W × Nat)
  changesMade : Nat

/-- The inner loop, over these nodes; an error ends it. -/
def runNodes (pass : Pass W) : List Nat → Running W → Running W × Option ASTOptimizerResult
  | [], s => (s, none)
  | j :: nodes, s =>
    let called := pass.run j s.world
    let s := { s with world := called.1, calls := s.calls ++ [(pass, j)] }
    if called.2.code = .error then (s, some called.2)
    else runNodes pass nodes { s with changesMade := s.changesMade + called.2.changesMade }

def runPasses (nodeCount : Nat) : List (Pass W) → Running W → Running W × Option ASTOptimizerResult
  | [], s => (s, none)
  | pass :: passes, s =>
    if pass.enabled then
      match runNodes pass (List.range nodeCount) s with
      | (s, some failed) => (s, some failed)
      | (s, none) => runPasses nodeCount passes s
    else runPasses nodeCount passes s

/-- The array is sorted in place; one run is looked at. -/
def astOptimizerRun (qsort : (Pass W → Pass W → Int) → List (Pass W) → List (Pass W)) (opt : ASTOptimizer W)
    (nodeCount : Nat) (world : W) : Running W × ASTOptimizerResult :=
  if nodeCount = 0 then (⟨world, [], 0⟩, ⟨.error, 0, some "invalid arguments"⟩)
  else if opt.level = .none then (⟨world, [], 0⟩, unchanged)
  else
    match runPasses nodeCount (qsort comparePassPriority opt.registered) ⟨world, [], 0⟩ with
    | (s, some failed) => (s, ⟨.error, s.changesMade, failed.errorMessage⟩)
    | (s, none) => (s, ⟨if s.changesMade = 0 then .noChange else .success, s.changesMade, none⟩)

/-! ## The calls made -/

/-- The calls of these passes, each on every node. -/
def plan (nodeCount : Nat) (passes : List (Pass W)) : List (Pass W × Nat) :=
  passes.flatMap fun pass => (List.range nodeCount).map fun j => (pass, j)

/-- The calls begin as planned, and are all of them unless one has failed. -/
structure Made (planned made : List (Pass W × Nat)) (failed : Bool) : Prop where
  pre : made <+: planned
  all : failed = false → made = planned
  begun : planned ≠ [] → made ≠ []

theorem runNodes_made (pass : Pass W) (nodes : List Nat) (s : Running W) :
    ∃ made, (runNodes pass nodes s).1.calls = s.calls ++ made ∧
      Made (nodes.map fun j => (pass, j)) made (runNodes pass nodes s).2.isSome := by
  induction nodes generalizing s with
  | nil => exact ⟨[], by simp [runNodes], List.prefix_refl _, fun _ => rfl, fun h => h⟩
  | cons j nodes ih =>
    by_cases hfailed : (pass.run j s.world).2.code = .error
    · refine ⟨[(pass, j)], by simp [runNodes, hfailed], ⟨by simp, ?_, by simp⟩⟩
      simp [runNodes, hfailed]
    · obtain ⟨made, hcalls, hmade⟩ := ih
        { world := (pass.run j s.world).1, calls := s.calls ++ [(pass, j)]
          changesMade := s.changesMade + (pass.run j s.world).2.changesMade }
      refine ⟨(pass, j) :: made, ?_, ⟨?_, ?_, by simp⟩⟩
      · simp [runNodes, hfailed, hcalls]
      · simpa using hmade.pre
      · intro hnone
        simp only [runNodes, if_neg hfailed] at hnone
        simp [hmade.all hnone]

/-- The enabled passes, as they stand in the array. -/
theorem runPasses_made {nodeCount : Nat} (hnodes : nodeCount ≠ 0) (passes : List (Pass W)) (s : Running W) :
    ∃ made, (runPasses nodeCount passes s).1.calls = s.calls ++ made ∧
      Made (plan nodeCount (passes.filter (·.enabled))) made (runPasses nodeCount passes s).2.isSome := by
  induction passes generalizing s with
  | nil => exact ⟨[], by simp [runPasses], List.prefix_refl _, fun _ => rfl, fun h => h⟩
  | cons pass passes ih =>
    cases henabled : pass.enabled with
    | false => simpa [runPasses, henabled] using ih s
    | true =>
      obtain ⟨made, hcalls, hmade⟩ := runNodes_made pass (List.range nodeCount) s
      have hplan : plan nodeCount ((pass :: passes).filter (·.enabled)) =
          (List.range nodeCount).map (fun j => (pass, j)) ++ plan nodeCount (passes.filter (·.enabled)) := by
        simp [plan, henabled]
      have hbegun : made ≠ [] := hmade.begun (by simp [hnodes])
      rw [hplan]
      rcases hrun : runNodes pass (List.range nodeCount) s with ⟨s', _ | failed⟩
      · rw [hrun] at hcalls hmade
        have hcalls : s'.calls = s.calls ++ made := hcalls
        obtain ⟨more, hcalls', hmore⟩ := ih s'
        have hall := hmade.all rfl
        refine ⟨made ++ more, ?_, ⟨?_, ?_, by simp [hbegun]⟩⟩
        · simp [runPasses, henabled, hrun, hcalls', hcalls]
        · rw [hall]
          exact (List.prefix_append_right_inj _).mpr hmore.pre
        · intro hnone
          simp only [runPasses, henabled, if_true, hrun] at hnone
          rw [hall, hmore.all hnone]
      · rw [hrun] at hcalls hmade
        have hcalls : s'.calls = s.calls ++ made := hcalls
        refine ⟨made, ?_, ⟨hmade.pre.trans (List.prefix_append _ _), ?_, fun _ => hbegun⟩⟩
        · simp [runPasses, henabled, hrun, hcalls]
        · simp [runPasses, henabled, hrun]

/-- What a run of an optimizer that is switched on calls. -/
theorem astOptimizerRun_made (qsort : (Pass W → Pass W → Int) → List (Pass W) → List (Pass W)) {opt : ASTOptimizer W}
    (hlevel : opt.level ≠ .none) {nodeCount : Nat} (hnodes : nodeCount ≠ 0) (world : W) :
    ∃ failed, Made (plan nodeCount ((qsort comparePassPriority opt.registered).filter (·.enabled)))
        (astOptimizerRun qsort opt nodeCount world).1.calls failed ∧
      (failed = true ↔ (astOptimizerRun qsort opt nodeCount world).2.code = .error) := by
  obtain ⟨made, hcalls, hmade⟩ := runPasses_made hnodes (qsort comparePassPriority opt.registered) ⟨world, [], 0⟩
  unfold astOptimizerRun
  rw [if_neg hnodes, if_neg hlevel]
  rcases hrun : runPasses nodeCount (qsort comparePassPriority opt.registered) ⟨world, [], 0⟩ with ⟨s, _ | failed⟩
  · rw [hrun] at hcalls hmade
    have hcalls : s.calls = made := hcalls
    refine ⟨false, hcalls ▸ hmade, ?_⟩
    by_cases hchanges : s.changesMade = 0 <;> simp [hchanges]
  · rw [hrun] at hcalls hmade
    have hcalls : s.calls = made := hcalls
    exact ⟨true, hcalls ▸ hmade, by simp⟩

/-! ## The order -/

theorem compare_eq (a b : Pass W) :
    comparePassPriority a b = (a.priority.toInt - b.priority.toInt).bmod (2 ^ 32) := Int32.toInt_sub ..

/-- The difference of two priorities, if it is in the range of an `int`. -/
theorem compare_cases (a b : Pass W) :
    (-2 ^ 31 ≤ a.priority.toInt - b.priority.toInt ∧ a.priority.toInt - b.priority.toInt < 2 ^ 31 ∧
        comparePassPriority a b = a.priority.toInt - b.priority.toInt) ∨
      (2 ^ 31 ≤ a.priority.toInt - b.priority.toInt ∧
        comparePassPriority a b = a.priority.toInt - b.priority.toInt - 2 ^ 32) ∨
      (a.priority.toInt - b.priority.toInt < -2 ^ 31 ∧
        comparePassPriority a b = a.priority.toInt - b.priority.toInt + 2 ^ 32) := by
  have ha := a.priority.toInt_lt
  have ha' := a.priority.le_toInt
  have hb := b.priority.toInt_lt
  have hb' := b.priority.le_toInt
  rw [compare_eq, Int.bmod_def]
  split <;> omega

/-- The enabled passes, in the order of their priorities, each on every node; a call that fails
    ends it. -/
def RunsInOrder (registered : List (Pass W)) (nodeCount : Nat) (run : Running W × ASTOptimizerResult) : Prop :=
  ∃ order, order ~ registered.filter (·.enabled) ∧ order.Pairwise (fun a b => a.priority.toInt ≤ b.priority.toInt) ∧
    run.1.calls <+: plan nodeCount order ∧ (run.2.code ≠ .error → run.1.calls = plan nodeCount order)

/-- No difference of two enabled passes wraps. -/
def Fits (registered : List (Pass W)) : Prop :=
  ∀ a ∈ registered, ∀ b ∈ registered, a.enabled = true → b.enabled = true →
    a.priority.toInt - b.priority.toInt < 2 ^ 31

theorem compare_le {a b : Pass W} (h : comparePassPriority a b ≤ 0)
    (hfits : b.priority.toInt - a.priority.toInt < 2 ^ 31 ∧ a.priority.toInt - b.priority.toInt < 2 ^ 31) :
    a.priority.toInt ≤ b.priority.toInt := by
  have := compare_cases a b
  omega

/-- Priorities a whole range of an `int` apart are compared the wrong way round, or both ways
    alike. -/
theorem compare_far {a b : Pass W} (h : a.priority.toInt - b.priority.toInt ≤ -2 ^ 31) :
    0 < comparePassPriority a b ∨ comparePassPriority a b < 0 ∧ comparePassPriority b a < 0 := by
  have ha := a.priority.le_toInt
  have hb := b.priority.toInt_lt
  have := compare_cases a b
  have := compare_cases b a
  omega

/-- Where no difference wraps at all the comparison is that of the priorities. -/
theorem consistent_of_close {passes : List (Pass W)}
    (h : ∀ a ∈ passes, ∀ b ∈ passes, a.priority.toInt - b.priority.toInt < 2 ^ 31) :
    Consistent comparePassPriority passes := by
  have hdifference {a b : Pass W} (ha : a ∈ passes) (hb : b ∈ passes) :
      comparePassPriority a b = a.priority.toInt - b.priority.toInt := by
    have := h a ha b hb
    have := h b hb a ha
    have := compare_cases a b
    omega
  constructor
  · intro a ha b hb
    rw [hdifference ha hb, hdifference hb ha]
    omega
  · intro a ha b hb c hc
    rw [hdifference ha hb, hdifference hb hc, hdifference ha hc]
    omega

section

variable {qsort : (Pass W → Pass W → Int) → List (Pass W) → List (Pass W)} {opt : ASTOptimizer W} {nodeCount : Nat}

/-- Without nodes nothing is called. -/
theorem runsInOrder_zero (registered : List (Pass W)) (world : W) :
    RunsInOrder registered 0 (astOptimizerRun qsort opt 0 world) := by
  have hconsistent : Consistent (fun a b : Pass W => a.priority.toInt - b.priority.toInt) (registered.filter (·.enabled)) :=
    ⟨fun _ _ _ _ => by omega, fun _ _ _ _ _ _ _ _ => by omega⟩
  obtain ⟨hperm, hsorted⟩ := mergeBy_sorts _ _ hconsistent
  exact ⟨_, hperm, hsorted.imp fun h => by omega, by simp [astOptimizerRun], by simp [astOptimizerRun]⟩

theorem runsInOrder_of_fits (hsorts : Sorts qsort) (hlevel : opt.level ≠ .none) (hnodes : nodeCount ≠ 0)
    (hconsistent : Consistent comparePassPriority opt.registered) (hfits : Fits opt.registered) (world : W) :
    RunsInOrder opt.registered nodeCount (astOptimizerRun qsort opt nodeCount world) := by
  obtain ⟨failed, hmade, herror⟩ := astOptimizerRun_made qsort hlevel hnodes world
  obtain ⟨hperm, hsorted⟩ := hsorts _ _ hconsistent
  have hmem {a : Pass W} (ha : a ∈ (qsort comparePassPriority opt.registered).filter (·.enabled)) :
      a ∈ opt.registered ∧ a.enabled = true := by
    rw [List.mem_filter] at ha
    exact ⟨hperm.mem_iff.mp ha.1, ha.2⟩
  refine ⟨_, hperm.filter _, ?_, hmade.pre, fun hcode => hmade.all ?_⟩
  · refine (hsorted.filter _).imp_of_mem fun {a b} ha hb hle => compare_le hle ?_
    obtain ⟨ha, hea⟩ := hmem ha
    obtain ⟨hb, heb⟩ := hmem hb
    exact ⟨hfits b hb a ha heb hea, hfits a ha b hb hea heb⟩
  · rw [← Bool.not_eq_true, herror]
    exact hcode

theorem exists_fresh (passes : List (Pass W)) : ∃ pass : Pass W, pass.enabled = true ∧ pass ∉ passes := by
  obtain ⟨name, hname⟩ := Infinite.exists_notMem_finset (passes.map (·.name)).toFinset
  refine ⟨⟨name, fun _ world => (world, unchanged), 0, true⟩, rfl, fun hmem => hname ?_⟩
  exact List.mem_toFinset.mpr (List.mem_map.mpr ⟨_, hmem, rfl⟩)

theorem mem_plan {passes : List (Pass W)} {call : Pass W × Nat} (h : call ∈ plan nodeCount passes) : call.1 ∈ passes := by
  obtain ⟨pass, hpass, hcall⟩ := List.mem_flatMap.mp h
  obtain ⟨j, -, rfl⟩ := List.mem_map.mp hcall
  exact hpass

theorem plan_cons (hnodes : nodeCount ≠ 0) (pass : Pass W) (passes : List (Pass W)) :
    ∃ calls, plan nodeCount (pass :: passes) = (pass, 0) :: calls := by
  obtain ⟨n, rfl⟩ := Nat.exists_eq_succ_of_ne_zero hnodes
  exact ⟨_, by rw [plan, List.flatMap_cons, List.range_succ_eq_map, List.map_cons, List.cons_append]⟩

/-- The first call made is of the first pass planned. -/
theorem first_call (hnodes : nodeCount ≠ 0) {call : Pass W × Nat} {calls : List (Pass W × Nat)} {pass : Pass W}
    {passes : List (Pass W)} (h : call :: calls <+: plan nodeCount (pass :: passes)) : call.1 = pass := by
  obtain ⟨planned, hplan⟩ := plan_cons hnodes pass passes
  rw [hplan, List.cons_prefix_cons] at h
  rw [h.1]

variable (hlevel : opt.level ≠ .none) (hnodes : nodeCount ≠ 0) {world : W}
  (hordered : ∀ qsort, Sorts qsort → RunsInOrder opt.registered nodeCount (astOptimizerRun qsort opt nodeCount world))

include hlevel hnodes hordered

/-- An inconsistent comparison may leave anything in the array. -/
theorem ordered_consistent : Consistent comparePassPriority opt.registered := by
  by_contra hinconsistent
  obtain ⟨pass, henabled, hfresh⟩ := exists_fresh opt.registered
  obtain ⟨qsort, hsorts, hanswer⟩ := exists_sorts_answering hinconsistent [pass]
  obtain ⟨order, hperm, -, hpre, -⟩ := hordered qsort hsorts
  obtain ⟨failed, hmade, -⟩ := astOptimizerRun_made qsort hlevel hnodes world
  have hfilter : [pass].filter (·.enabled) = [pass] := by simp [henabled]
  rw [hanswer, hfilter] at hmade
  obtain ⟨call, hcall⟩ := List.exists_mem_of_ne_nil _ (hmade.begun (by simp [plan, hnodes]))
  have hpass : call.1 = pass := List.mem_singleton.mp (mem_plan (hmade.pre.subset hcall))
  have horder : call.1 ∈ order := mem_plan (hpre.subset hcall)
  exact hfresh (List.mem_of_mem_filter (hperm.mem_iff.mp (hpass ▸ horder)))

/-- A sort by a comparison that wraps puts a pass first that is none of the least. -/
theorem ordered_fits : Fits opt.registered := by
  have hconsistent := ordered_consistent hlevel hnodes hordered
  obtain ⟨order, hperm, hsorted, hpre, -⟩ := hordered _ mergeBy_sorts
  obtain ⟨failed, hmade, -⟩ := astOptimizerRun_made mergeBy hlevel hnodes world
  obtain ⟨hperm', hsorted'⟩ := mergeBy_sorts comparePassPriority opt.registered hconsistent
  have hperm' := hperm'.filter (·.enabled)
  have hsorted' := hsorted'.filter (·.enabled)
  generalize (mergeBy comparePassPriority opt.registered).filter (·.enabled) = sorted at hmade hperm' hsorted'
  intro a ha b hb hea heb
  by_contra hfar
  have haSorted : a ∈ sorted := hperm'.mem_iff.mpr (List.mem_filter.mpr ⟨ha, hea⟩)
  have hbOrder : b ∈ order := hperm.mem_iff.mpr (List.mem_filter.mpr ⟨hb, heb⟩)
  obtain ⟨first, rest, rfl⟩ := List.exists_cons_of_ne_nil (List.ne_nil_of_mem haSorted)
  obtain ⟨least, later, rfl⟩ := List.exists_cons_of_ne_nil (List.ne_nil_of_mem hbOrder)
  -- the pass called first is the first one in the array
  have hfirst : first = least := by
    obtain ⟨planned, hplan⟩ := plan_cons hnodes first rest
    obtain ⟨call, calls, hcalls⟩ := List.exists_cons_of_ne_nil (hmade.begun (hplan ▸ List.cons_ne_nil _ _))
    have hpre' := hmade.pre
    rw [hcalls] at hpre hpre'
    exact (first_call hnodes hpre').symm.trans (first_call hnodes hpre)
  subst hfirst
  have hle : first.priority.toInt ≤ b.priority.toInt := by
    rcases List.mem_cons.mp hbOrder with rfl | hb
    · exact le_rfl
    · exact (List.pairwise_cons.mp hsorted).1 b hb
  rcases List.mem_cons.mp haSorted with rfl | ha'
  · omega
  · have hcompare := (List.pairwise_cons.mp hsorted').1 a ha'
    have hmem : first ∈ opt.registered := List.mem_of_mem_filter (hperm'.mem_iff.mp List.mem_cons_self)
    have hantisymm := hconsistent.antisymm first hmem a ha
    have hwrong := compare_far (a := first) (b := a) (by omega)
    omega

end

/-- The optimizer as it is when passes have been added and a level chosen. -/
def registeredOptimizer (level : OptimizationLevel) (calls : List (Pass W × Granted (Pass W))) : ASTOptimizer W :=
  (addPasses (astOptimizerSetLevel astOptimizerCreate level) calls).1

/-- The passes accepted. -/
def accepted (level : OptimizationLevel) (calls : List (Pass W × Granted (Pass W))) : List (Pass W) :=
  (addPasses (astOptimizerSetLevel astOptimizerCreate level) calls).2

theorem registeredOptimizer_spec (level : OptimizationLevel) (calls : List (Pass W × Granted (Pass W))) :
    (registeredOptimizer level calls).level = level ∧ (registeredOptimizer level calls).registered = accepted level calls := by
  obtain ⟨hlevel, hregistered⟩ := addPasses_registered (astOptimizerSetLevel astOptimizerCreate level) calls
  exact ⟨hlevel, hregistered⟩

/-- The passes accepted run in the order of their priorities, whatever `qsort` is, exactly when
    the comparison is consistent on them and no difference of two enabled ones wraps. -/
theorem priority_order_iff {level : OptimizationLevel} (hlevel : level ≠ .none) (calls : List (Pass W × Granted (Pass W)))
    (nodeCount : Nat) (world : W) :
    (∀ qsort, Sorts qsort → RunsInOrder (accepted level calls) nodeCount
        (astOptimizerRun qsort (registeredOptimizer level calls) nodeCount world)) ↔
      nodeCount = 0 ∨ Consistent comparePassPriority (accepted level calls) ∧ Fits (accepted level calls) := by
  obtain ⟨hlevel', hregistered⟩ := registeredOptimizer_spec level calls
  have hon : (registeredOptimizer level calls).level ≠ .none := by rwa [hlevel']
  rw [← hregistered]
  by_cases hnodes : nodeCount = 0
  · subst hnodes
    exact iff_of_true (fun qsort _ => runsInOrder_zero _ world) (.inl rfl)
  · rw [or_iff_right hnodes]
    constructor
    · exact fun hordered => ⟨ordered_consistent hon hnodes hordered, ordered_fits hon hnodes hordered⟩
    · exact fun h qsort hsorts => runsInOrder_of_fits hsorts hon hnodes h.1 h.2 world

/-- A pass that does nothing. -/
def idlePass (priority : Int32) : Pass Unit := ⟨['i', 'd', 'l', 'e'], fun _ world => (world, unchanged), priority, true⟩

/-- The greatest priority and one below 0. -/
def farPasses : List (Pass Unit × Granted (Pass Unit)) :=
  [(idlePass 2147483647, some fun _ => idlePass 0), (idlePass (-2), none)]

theorem priority_order_iff_far :
    (∀ qsort, Sorts qsort → RunsInOrder (accepted .o2 farPasses) 1
        (astOptimizerRun qsort (registeredOptimizer .o2 farPasses) 1 ())) ↔
      1 = 0 ∨ Consistent comparePassPriority (accepted .o2 farPasses) ∧ Fits (accepted .o2 farPasses) :=
  priority_order_iff (by decide) farPasses 1 ()

/-- The greater one is run first. -/
theorem far_priorities_misordered :
    ¬ ∀ qsort, Sorts qsort → RunsInOrder (accepted .o2 farPasses) 1
      (astOptimizerRun qsort (registeredOptimizer .o2 farPasses) 1 ()) := by
  intro h
  obtain ⟨hlevel, hregistered⟩ := registeredOptimizer_spec .o2 farPasses
  have hfits : Fits (accepted .o2 farPasses) := by
    rw [← hregistered] at h ⊢
    exact ordered_fits (by rw [hlevel]; decide) (by decide) h
  have haccepted : accepted .o2 farPasses = [idlePass 2147483647, idlePass (-2)] := rfl
  have hfar := hfits (idlePass 2147483647) (by simp [haccepted]) (idlePass (-2)) (by simp [haccepted]) rfl rfl
  exact absurd hfar (by decide)

end Xvr.Frontend.PassManager
