/-
  Xvr.Lib.Answers — partial correctness of stateful programs: what holds of every answer.

  `Answers m Q` says that whatever state a program starts in, an answer it returns
  satisfies `Q`. Nothing is said of the state, nor of runs that stop with an error.

  Proved:
  - `Answers.pure`, `Answers.bind`, `Answers.after`, `Answers.ite`, `Answers.mono`: the
    rules of composition.
  - `Answers.loop`: the loop rule, with an invariant of the loop's value.
  - `Answers.collect`: the rule of a loop that answers what it has collected.
-/

import Xvr.Lib.Meets

namespace Xvr.Lib

variable {ε σ α β : Type}

def Answers (m : EStateM ε σ α) (Q : α → Prop) : Prop := ∀ s a t, m s = .ok a t → Q a

namespace Answers

variable {m : EStateM ε σ α} {Q : α → Prop}

protected theorem pure {a : α} (h : Q a) : Answers (pure a : EStateM ε σ α) Q := by
  intro s b t hrun
  cases hrun
  exact h

protected theorem throw (e : ε) : Answers (throw e : EStateM ε σ α) Q := by
  intro s a t hrun
  cases hrun

theorem mono {P : α → Prop} (h : Answers m P) (hpq : ∀ a, P a → Q a) : Answers m Q :=
  fun s a t hrun => hpq a (h s a t hrun)

/-- What follows may use what the first program answers. -/
protected theorem bind {f : α → EStateM ε σ β} {P : α → Prop} {R : β → Prop} (h : Answers m P)
    (hf : ∀ a, P a → Answers (f a) R) : Answers (m >>= f) R := by
  intro s b t hrun
  simp only [Bind.bind, EStateM.bind] at hrun
  cases hm : m s with
  | ok a s' =>
    rw [hm] at hrun
    exact hf a (h s a s' hm) s' b t hrun
  | error e s' =>
    rw [hm] at hrun
    cases hrun

/-- What follows does not depend on what the first program answers. -/
protected theorem after {f : α → EStateM ε σ β} {R : β → Prop} (hf : ∀ a, Answers (f a) R) : Answers (m >>= f) R :=
  Answers.bind (P := fun _ => True) (fun _ _ _ _ => trivial) fun a _ => hf a

protected theorem ite {c : Prop} [Decidable c] {m' : EStateM ε σ α} (h : c → Answers m Q) (h' : ¬ c → Answers m' Q) :
    Answers (if c then m else m') Q := by
  by_cases hc : c
  · rw [if_pos hc]
    exact h hc
  · rw [if_neg hc]
    exact h' hc

/-- A loop whose turns keep the invariant ends with an answer of a turn. -/
protected theorem loop {e : ε} {body : β → EStateM ε σ (β ⊕ α)} (I : β → Prop)
    (hbody : ∀ b, I b → Answers (body b) fun r => match r with | .inl b => I b | .inr a => Q a) (n : Nat) {b : β} (hb : I b) :
    Answers (loop e body n b) Q := by
  induction n generalizing b with
  | zero => exact Answers.throw e
  | succ n ih =>
    refine Answers.bind (hbody b hb) fun r hr => ?_
    cases r with
    | inl b => exact ih hr
    | inr a => exact Answers.pure hr

/-- A loop that collects: what each turn keeps holds of the answer. -/
protected theorem collect {e : ε} {body : α → EStateM ε σ (α ⊕ α)} (hbody : ∀ a, Q a → Answers (body a) (Sum.elim Q Q))
    (n : Nat) {a : α} (ha : Q a) : Answers (loop e body n a) Q := by
  refine Answers.loop Q (fun a ha => (hbody a ha).mono fun r hr => ?_) n ha
  cases r with
  | inl a => exact hr
  | inr a => exact hr

end Answers

end Xvr.Lib
