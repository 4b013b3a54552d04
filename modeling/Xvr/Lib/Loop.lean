/-
  Xvr.Lib.Loop — a `while` loop over an arbitrary state, with fuel.

  `whileLoop c f n s` runs `f` while `c` holds and answers `none` when `n` tests of the
  condition did not end it. A loop that ends answers the same for every larger fuel, so
  "the loop ends" is "some fuel answers".

  Proved:
  - `whileLoop_mono`: more fuel gives the same answer.
  - `whileLoop_total`: the total-correctness rule, with an invariant and a measure.
  - `whileLoop_diverges`: an invariant that keeps the condition true ends for no fuel.
-/

namespace Xvr.Lib.Loop

variable {σ : Type}

def whileLoop (c : σ → Bool) (f : σ → σ) : Nat → σ → Option σ
  | 0, _ => none
  | n + 1, s => if c s then whileLoop c f n (f s) else some s

theorem whileLoop_mono {c : σ → Bool} {f : σ → σ} {n m : Nat} (hnm : n ≤ m) {s r : σ}
    (h : whileLoop c f n s = some r) : whileLoop c f m s = some r := by
  induction n generalizing m s with
  | zero => cases h
  | succ n ih =>
    obtain ⟨m, rfl⟩ : ∃ k, m = k + 1 := ⟨m - 1, by omega⟩
    rw [whileLoop] at h ⊢
    split at h
    · rename_i hc
      rw [if_pos hc]
      exact ih (by omega) h
    · rename_i hc
      rw [if_neg hc]
      exact h

/-- With enough fuel for the measure, the loop ends with the invariant and without the
    condition. -/
theorem whileLoop_total {c : σ → Bool} {f : σ → σ} (I : σ → Prop) (μ : σ → Nat)
    (hstep : ∀ s, I s → c s = true → I (f s) ∧ μ (f s) < μ s) {n : Nat} {s : σ} (hs : I s) (hn : μ s < n) :
    ∃ r, whileLoop c f n s = some r ∧ I r ∧ c r = false := by
  induction n generalizing s with
  | zero => omega
  | succ n ih =>
    rw [whileLoop]
    by_cases hc : c s = true
    · rw [if_pos hc]
      obtain ⟨hI, hμ⟩ := hstep s hs hc
      exact ih hI (by omega)
    · rw [if_neg hc]
      exact ⟨s, rfl, hs, by simpa using hc⟩

theorem whileLoop_diverges {c : σ → Bool} {f : σ → σ} (I : σ → Prop) (hstep : ∀ s, I s → c s = true ∧ I (f s))
    (n : Nat) {s : σ} (hs : I s) : whileLoop c f n s = none := by
  induction n generalizing s with
  | zero => rfl
  | succ n ih =>
    rw [whileLoop, if_pos (hstep s hs).1]
    exact ih (hstep s hs).2

end Xvr.Lib.Loop
