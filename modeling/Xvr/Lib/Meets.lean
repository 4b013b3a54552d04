/-
  Xvr.Lib.Meets — total correctness of stateful programs that can stop.

  A program comes to its parts, each in a state of its own (`Comes`); a part that fails in
  the state the program comes to it in is what stops the program.

  A `Frame` says what any program of a development may do: `step` relates the states of a
  run that returns (a preorder), `blame` are the parts that may stop a run, with the state
  before them. A program meets `Q` from a state when its run returns along a step with
  `Q`, or comes to a part the frame blames. A loop gets its turns from fuel, so an error
  that no blamed part raises (fuel running out) is one that cannot happen.

  Proved:
  - `Comes.fails`: the program stops as the part it comes to.
  - `Meets.pure`, `Meets.bind`, `Meets.mono`, `Meets.ite`: the rules of composition.
  - `Meets.loop`: the loop rule, with an invariant and a measure on the state.
-/

namespace Xvr.Lib

/-- The run of a program from a state comes to `part`, in the state `t`: the part is the
    program, or is in its first half, or behind a first half that returned. -/
inductive Comes {ε σ : Type} (part : EStateM ε σ Unit) (t : σ) : {α : Type} → EStateM ε σ α → σ → Prop
  | here : Comes part t part t
  | first {α β : Type} {m : EStateM ε σ α} {f : α → EStateM ε σ β} {s : σ} : Comes part t m s →
      Comes part t (m >>= f) s
  | behind {α β : Type} {m : EStateM ε σ α} {f : α → EStateM ε σ β} {s u : σ} {a : α} : m s = .ok a u →
      Comes part t (f a) u → Comes part t (m >>= f) s

structure Frame (ε σ : Type) where
  step : σ → σ → Prop
  blame : EStateM ε σ Unit → σ → Prop
  refl : ∀ s, step s s
  trans : ∀ {s t u}, step s t → step t u → step s u

variable {ε σ α β : Type}

theorem Comes.fails {part : EStateM ε σ Unit} {t u s : σ} {m : EStateM ε σ α} {e : ε} (h : Comes part t m s)
    (hpart : part t = .error e u) : m s = .error e u := by
  induction h with
  | here => exact hpart
  | first _ ih => simp only [bind, EStateM.bind, ih]
  | behind hm _ ih => simp only [bind, EStateM.bind, hm, ih]

/-- One turn of a loop goes on (`inl`) or ends it (`inr`). -/
def loop (e : ε) (body : β → EStateM ε σ (β ⊕ α)) : Nat → β → EStateM ε σ α
  | 0, _ => throw e
  | n + 1, b => do
    match ← body b with
    | .inl b => loop e body n b
    | .inr a => pure a

/-- What a turn's answer does to the loop. -/
def loopNext (e : ε) (body : β → EStateM ε σ (β ⊕ α)) (n : Nat) : β ⊕ α → EStateM ε σ α
  | .inl b => loop e body n b
  | .inr a => pure a

theorem loop_succ (e : ε) (body : β → EStateM ε σ (β ⊕ α)) (n : Nat) (b : β) :
    loop e body (n + 1) b = body b >>= loopNext e body n := rfl

variable (F : Frame ε σ)

/-- The run comes to a part the frame blames. -/
def Frame.Blamed (m : EStateM ε σ α) (s : σ) : Prop := ∃ part t, Comes part t m s ∧ F.blame part t

def Frame.Meets (m : EStateM ε σ α) (s : σ) (Q : α → σ → Prop) : Prop :=
  match m s with
  | .ok a t => F.step s t ∧ Q a t
  | .error _ _ => F.Blamed m s

namespace Meets

variable {F} {m : EStateM ε σ α} {s : σ} {P Q : α → σ → Prop}

theorem ok {a : α} {t : σ} (h : F.Meets m s Q) (hm : m s = .ok a t) : F.step s t ∧ Q a t := by
  unfold Frame.Meets at h
  rwa [hm] at h

theorem error {e : ε} {t : σ} (h : F.Meets m s Q) (hm : m s = .error e t) : F.Blamed m s := by
  unfold Frame.Meets at h
  rwa [hm] at h

theorem of_ok {a : α} {t : σ} (hm : m s = .ok a t) (hs : F.step s t) (hq : Q a t) : F.Meets m s Q := by
  unfold Frame.Meets
  rw [hm]
  exact ⟨hs, hq⟩

theorem of_error {e : ε} {t : σ} (hm : m s = .error e t) (hb : F.Blamed m s) : F.Meets m s Q := by
  unfold Frame.Meets
  rw [hm]
  exact hb

/-- The postcondition may use that the run was a step. -/
theorem mono (h : F.Meets m s P) (hpq : ∀ a t, F.step s t → P a t → Q a t) : F.Meets m s Q := by
  unfold Frame.Meets at h ⊢
  cases hm : m s with
  | ok a t =>
    rw [hm] at h
    exact ⟨h.1, hpq a t h.1 h.2⟩
  | error e t => rwa [hm] at h

protected theorem pure {a : α} (h : Q a s) : F.Meets (pure a) s Q := of_ok rfl (F.refl s) h

protected theorem bind {f : α → EStateM ε σ β} {R : β → σ → Prop} (h : F.Meets m s P)
    (hf : ∀ a t, F.step s t → P a t → F.Meets (f a) t R) : F.Meets (m >>= f) s R := by
  cases hm : m s with
  | ok a t =>
    obtain ⟨hst, hP⟩ := ok h hm
    have hrun : (m >>= f) s = f a t := by simp only [bind, EStateM.bind, hm]
    have hft := hf a t hst hP
    cases hfa : f a t with
    | ok b u =>
      obtain ⟨htu, hR⟩ := ok hft hfa
      exact of_ok (hrun.trans hfa) (F.trans hst htu) hR
    | error e u =>
      obtain ⟨part, v, hcomes, hblame⟩ := error hft hfa
      exact of_error (hrun.trans hfa) ⟨part, v, .behind hm hcomes, hblame⟩
  | error e t =>
    obtain ⟨part, v, hcomes, hblame⟩ := error h hm
    have hrun : (m >>= f) s = .error e t := by simp only [bind, EStateM.bind, hm]
    exact of_error hrun ⟨part, v, .first hcomes, hblame⟩

protected theorem get {f : σ → EStateM ε σ α} (h : F.Meets (f s) s Q) : F.Meets (get >>= f) s Q :=
  Meets.bind (P := fun a t => a = s ∧ t = s) (of_ok rfl (F.refl s) ⟨rfl, rfl⟩) fun a t _ ha => by
    rw [ha.1, ha.2]
    exact h

protected theorem ite {c : Prop} [Decidable c] {m' : EStateM ε σ α} (ht : c → F.Meets m s Q)
    (he : ¬ c → F.Meets m' s Q) : F.Meets (if c then m else m') s Q := by
  split
  · rename_i hc
    exact ht hc
  · rename_i hc
    exact he hc

/-- With fuel for the measure, the loop ends, and its last turn gives the postcondition. -/
protected theorem loop {e : ε} {body : β → EStateM ε σ (β ⊕ α)} (I : β → σ → Prop) (μ : σ → Nat)
    (hbody : ∀ b s, I b s → F.Meets (body b) s fun r t =>
      match r with
      | .inl b => I b t ∧ μ t < μ s
      | .inr a => Q a t)
    {n : Nat} {b : β} {s : σ} (hI : I b s) (hn : μ s < n) : F.Meets (loop e body n b) s Q := by
  induction n generalizing b s with
  | zero => omega
  | succ n ih =>
    rw [loop_succ]
    refine Meets.bind (hbody b s hI) fun r t _ hr => ?_
    cases r with
    | inl b => exact ih hr.1 (Nat.lt_of_lt_of_le hr.2 (Nat.lt_succ_iff.mp hn))
    | inr a => exact Meets.pure hr

end Meets

end Xvr.Lib
