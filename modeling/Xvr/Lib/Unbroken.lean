/-
  Xvr.Lib.Unbroken — what holds of an answer when nothing has gone wrong.

  `Unbroken good m Q`: a run of `m` that returns in a good state started in one, and its
  answer satisfies `Q`. It is for programs that note an error and go on: from the error on
  no state is good, so a step that notes one promises anything. That a state was good is
  only known from the end of the run, so what a program is promised of the answer of
  another stands in front of what it promises itself.

  Proved: the rules of composition, `Unbroken.pure`, `Unbroken.bind`, `Unbroken.after`,
  `Unbroken.get`, `Unbroken.fails`, `Unbroken.mono`, `Unbroken.ite`, and `Unbroken.loop`.
-/

import Xvr.Lib.Meets

namespace Xvr.Lib

variable {ε σ α β : Type}

def Unbroken (good : σ → Prop) (m : EStateM ε σ α) (Q : α → Prop) : Prop :=
  ∀ s a t, m s = .ok a t → good t → good s ∧ Q a

namespace Unbroken

variable {good : σ → Prop} {m : EStateM ε σ α} {P Q : α → Prop} {R : β → Prop}

protected theorem pure {a : α} (h : Q a) : Unbroken good (pure a : EStateM ε σ α) Q := by
  intro s b t hrun ht
  cases hrun
  exact ⟨ht, h⟩

protected theorem throw (e : ε) : Unbroken good (throw e : EStateM ε σ α) Q := by
  intro s a t hrun
  cases hrun

theorem mono (h : Unbroken good m P) (hpq : ∀ a, P a → Q a) : Unbroken good m Q :=
  fun s a t hrun ht => ⟨(h s a t hrun ht).1, hpq a (h s a t hrun ht).2⟩

protected theorem bind {f : α → EStateM ε σ β} (h : Unbroken good m P) (hf : ∀ a, Unbroken good (f a) fun b => P a → R b) :
    Unbroken good (m >>= f) R := by
  intro s b t hrun ht
  simp only [Bind.bind, EStateM.bind] at hrun
  cases hm : m s with
  | ok a s' =>
    rw [hm] at hrun
    obtain ⟨hs', hb⟩ := hf a s' b t hrun ht
    obtain ⟨hs, ha⟩ := h s a s' hm hs'
    exact ⟨hs, hb ha⟩
  | error e s' =>
    rw [hm] at hrun
    cases hrun

/-- What follows does not depend on what the first program promises. -/
protected theorem after {f : α → EStateM ε σ β} (h : Unbroken good m fun _ => True) (hf : ∀ a, Unbroken good (f a) R) :
    Unbroken good (m >>= f) R :=
  .bind h fun a => (hf a).mono fun _ hb _ => hb

/-- A state that is read was good. -/
protected theorem get {f : σ → EStateM ε σ β} (hf : ∀ s, Unbroken good (f s) fun b => good s → R b) :
    Unbroken good (get >>= f) R := by
  intro s b t hrun ht
  obtain ⟨hs, hb⟩ := hf s s b t hrun ht
  exact ⟨hs, hb hs⟩

/-- A program that never ends in a good state. -/
theorem fails (h : ∀ s a t, m s = .ok a t → ¬ good t) : Unbroken good m Q :=
  fun s a t hrun ht => absurd ht (h s a t hrun)

protected theorem ite {c : Prop} [Decidable c] {m' : EStateM ε σ α} (h : c → Unbroken good m Q) (h' : ¬ c → Unbroken good m' Q) :
    Unbroken good (if c then m else m') Q := by
  by_cases hc : c
  · rw [if_pos hc]
    exact h hc
  · rw [if_neg hc]
    exact h' hc

/-- A loop whose turns keep the invariant ends with an answer of a turn. -/
protected theorem loop {e : ε} {body : β → EStateM ε σ (β ⊕ α)} (I : β → Prop)
    (hbody : ∀ b, Unbroken good (body b) fun r => I b → match r with | .inl b => I b | .inr a => Q a) (n : Nat) (b : β) :
    Unbroken good (loop e body n b) fun a => I b → Q a := by
  induction n generalizing b with
  | zero => exact .throw e
  | succ n ih =>
    refine .bind (hbody b) fun r => ?_
    cases r with
    | inl b' => exact (ih b').mono fun _ ha hr hb => ha (hr hb)
    | inr a => exact .pure fun hr hb => hr hb

end Unbroken

end Xvr.Lib
