/-
  Xvr.Lib.Calls — a component that answers one call after the other, and what it means that it
  refines a specification.

  A call may have no meaning in a state (`step` is partial), and may end the run (`ends`, on
  what it returned). The specification is such a component too; it hears of a call what `hear`
  tells it.

  Proved:
  - `run_total`: calls that all have a meaning where they are made make a run.
  - `run_refines`: steps that the specification follows make runs that it follows.
  - `run_agrees_iff`: where a step agrees exactly when a condition holds, a run agrees exactly
    when all its calls meet the condition.
-/

namespace Xvr.Lib.Calls

variable {σ τ ι κ ω : Type}

/-- What the calls leave, and what each of them returned. -/
def run (step : σ → ι → Option (σ × ω)) (ends : ω → Bool) (s : σ) : List ι → Option (σ × List ω)
  | [] => some (s, [])
  | i :: is =>
    (step s i).bind fun (t, o) => if ends o then some (t, [o]) else (run step ends t is).map fun (u, os) => (u, o :: os)

/-- Every call that is made meets the condition in the state it is made in. -/
def Meets (step : σ → ι → Option (σ × ω)) (ends : ω → Bool) (ok : σ → ι → Prop) (s : σ) : List ι → Prop
  | [] => True
  | i :: is => ok s i ∧ ∀ t o, step s i = some (t, o) → ends o = false → Meets step ends ok t is

/-- The calls as the specification hears of them. -/
def heard (step : σ → ι → Option (σ × ω)) (ends : ω → Bool) (hear : σ → ι → κ) (s : σ) : List ι → List κ
  | [] => []
  | i :: is =>
    match step s i with
    | some (t, o) => hear s i :: if ends o then [] else heard step ends hear t is
    | none => []

section

variable {step : σ → ι → Option (σ × ω)} {ends : ω → Bool}

theorem run_cons_end {s t : σ} {i : ι} {is : List ι} {o : ω} (h : step s i = some (t, o)) (he : ends o = true) :
    run step ends s (i :: is) = some (t, [o]) := by
  simp [run, h, he]

theorem run_cons_next {s t : σ} {i : ι} {is : List ι} {o : ω} (h : step s i = some (t, o)) (he : ends o = false) :
    run step ends s (i :: is) = (run step ends t is).map fun (u, os) => (u, o :: os) := by
  simp [run, h, he]

/-- How a run begins. -/
theorem run_cons {s u : σ} {i : ι} {is : List ι} {os : List ω} (h : run step ends s (i :: is) = some (u, os)) :
    ∃ t o, step s i = some (t, o) ∧
      ((ends o = true ∧ u = t ∧ os = [o]) ∨
        (ends o = false ∧ ∃ rest, run step ends t is = some (u, rest) ∧ os = o :: rest)) := by
  obtain ⟨⟨t, o⟩, hs, -⟩ := Option.bind_eq_some_iff.mp h
  refine ⟨t, o, hs, ?_⟩
  cases he : ends o with
  | true =>
    rw [run_cons_end hs he] at h
    obtain ⟨rfl, rfl⟩ := Prod.mk.inj (Option.some.inj h)
    exact .inl ⟨rfl, rfl, rfl⟩
  | false =>
    rw [run_cons_next hs he] at h
    obtain ⟨⟨v, rest⟩, hr, h⟩ := Option.map_eq_some_iff.mp h
    obtain ⟨rfl, rfl⟩ := Prod.mk.inj h
    exact .inr ⟨rfl, rest, hr, rfl⟩

theorem run_total {ok : σ → ι → Prop} (hstep : ∀ s i, ok s i → (step s i).isSome) (is : List ι) {s : σ}
    (h : Meets step ends ok s is) : ∃ u os, run step ends s is = some (u, os) := by
  induction is generalizing s with
  | nil => exact ⟨s, [], rfl⟩
  | cons i is ih =>
    obtain ⟨⟨t, o⟩, ht⟩ := Option.isSome_iff_exists.mp (hstep s i h.1)
    cases he : ends o with
    | true => exact ⟨t, [o], run_cons_end ht he⟩
    | false =>
      obtain ⟨u, os, hr⟩ := ih (h.2 t o ht he)
      exact ⟨u, o :: os, by rw [run_cons_next ht he, hr]; rfl⟩

theorem run_refines {spec : τ → κ → Option (τ × ω)} {abs : σ → τ} {hear : σ → ι → κ}
    (hstep : ∀ s i t o, step s i = some (t, o) → spec (abs s) (hear s i) = some (abs t, o)) (is : List ι) {s u : σ}
    {os : List ω} (h : run step ends s is = some (u, os)) :
    run spec ends (abs s) (heard step ends hear s is) = some (abs u, os) := by
  induction is generalizing s os with
  | nil =>
    obtain ⟨rfl, rfl⟩ := Prod.mk.inj (Option.some.inj h)
    rfl
  | cons i is ih =>
    obtain ⟨t, o, ht, ⟨he, rfl, rfl⟩ | ⟨he, rest, hr, rfl⟩⟩ := run_cons h
    · simp only [heard, ht, he, if_true]
      exact run_cons_end (hstep _ _ _ _ ht) he
    · simp only [heard, ht, he, Bool.false_eq_true, if_false]
      rw [run_cons_next (hstep _ _ _ _ ht) he, ih hr]
      rfl

/-- A run answers as the specification does as long as its steps meet the condition, and the
    first that does not answers otherwise. -/
theorem run_agrees_iff {spec : τ → ι → Option (τ × ω)} {abs : σ → τ} {I : σ → Prop} {P : ι → Prop} {ok : τ → ι → Prop}
    (hmeets : ∀ s i t o, I s → P i → step s i = some (t, o) → ok (abs s) i →
      I t ∧ spec (abs s) i = some (abs t, o))
    (hbreaks : ∀ s i t o, I s → P i → step s i = some (t, o) → ¬ ok (abs s) i →
      ∀ t' o', spec (abs s) i = some (t', o') → o' ≠ o)
    (is : List ι) (hP : ∀ i ∈ is, P i) {s u : σ} {os : List ω} (hs : I s) (h : run step ends s is = some (u, os)) :
    run spec ends (abs s) is = some (abs u, os) ↔ Meets spec ends ok (abs s) is := by
  induction is generalizing s os with
  | nil =>
    obtain ⟨rfl, rfl⟩ := Prod.mk.inj (Option.some.inj h)
    exact ⟨fun _ => trivial, fun _ => rfl⟩
  | cons i is ih =>
    have hi := hP i List.mem_cons_self
    have hP' : ∀ j ∈ is, P j := fun j hj => hP j (List.mem_cons_of_mem _ hj)
    obtain ⟨t, o, ht, hrun⟩ := run_cons h
    by_cases hok : ok (abs s) i
    · obtain ⟨hI, hspec⟩ := hmeets _ _ _ _ hs hi ht hok
      rcases hrun with ⟨he, rfl, rfl⟩ | ⟨he, rest, hr, rfl⟩
      · rw [run_cons_end hspec he]
        simp [Meets, hspec, he, hok]
      · rw [run_cons_next hspec he]
        have hrest := ih hP' hI hr
        simp only [Meets, hok, true_and, hspec, Option.some.injEq, Prod.mk.injEq, and_imp]
        constructor
        · rintro hspecRun _ _ rfl rfl -
          obtain ⟨⟨v, rest'⟩, hr', h'⟩ := Option.map_eq_some_iff.mp hspecRun
          obtain ⟨rfl, hcons⟩ := Prod.mk.inj h'
          obtain rfl := (List.cons.inj hcons).2
          exact hrest.mp hr'
        · intro hmeets
          rw [hrest.mpr (hmeets _ _ rfl rfl he)]
          rfl
    · refine ⟨fun hspecRun => ?_, fun hm => absurd hm.1 hok⟩
      -- what the specification answers first is what the run began with
      obtain ⟨t', o', ht', hspecRun⟩ := run_cons hspecRun
      have hhead : os.head? = some o ∧ os.head? = some o' := by
        constructor
        · rcases hrun with ⟨-, -, rfl⟩ | ⟨-, rest, -, rfl⟩ <;> rfl
        · rcases hspecRun with ⟨-, -, rfl⟩ | ⟨-, rest, -, rfl⟩ <;> rfl
      exact absurd (Option.some.inj (hhead.2.symm.trans hhead.1)) (hbreaks _ _ _ _ hs hi ht hok _ _ ht')

end

end Xvr.Lib.Calls
