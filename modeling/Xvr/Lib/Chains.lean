/-
  Xvr.Lib.Chains — forests given by a parent map in which every parent is older.

  A node is its number. `chain p` is the node and its ancestors, nearest first, and
  `below nodes s` is how many of the nodes have `s` on their chain.

  Proved:
  - `chain_eq`: the chain, one step at a time; `chain_induction` is the induction on it.
  - `chain_congr`: the chain of a node only depends on the parents of older nodes.
-/

import Mathlib.Data.List.Basic
import Mathlib.Data.List.Count

namespace Xvr.Lib.Chains

/-- At most `n` nodes of the chain of `p`. -/
def climb (parent : Nat → Option Nat) : Nat → Nat → List Nat
  | 0, _ => []
  | n + 1, p => p :: (parent p).elim [] (climb parent n)

def chain (parent : Nat → Option Nat) (p : Nat) : List Nat := climb parent (p + 1) p

def below (parent : Nat → Option Nat) (nodes : List Nat) (s : Nat) : Nat :=
  nodes.countP fun q => decide (s ∈ chain parent q)

/-- Every parent is older. -/
def Older (parent : Nat → Option Nat) : Prop := ∀ ⦃p a : Nat⦄, parent p = some a → a < p

variable {parent other : Nat → Option Nat}

/-! ## Chains -/

theorem climb_stable (h : Older parent) {n m : Nat} : ∀ {p : Nat}, p < n → p < m → climb parent n p = climb parent m p := by
  induction n generalizing m with
  | zero => intro p hn; omega
  | succ n ih =>
    intro p hn hm
    cases m with
    | zero => omega
    | succ m =>
      simp only [climb]
      cases ha : parent p with
      | none => rfl
      | some a =>
        have := h ha
        simp only [Option.elim_some, List.cons.injEq, true_and]
        exact ih (by omega) (by omega)

theorem chain_eq (h : Older parent) (p : Nat) : chain parent p = p :: (parent p).elim [] (chain parent) := by
  rw [chain, climb]
  cases ha : parent p with
  | none => rfl
  | some a =>
    have := h ha
    simp only [Option.elim_some, List.cons.injEq, true_and]
    exact climb_stable h (by omega) (by omega)

theorem chain_root (h : Older parent) {p : Nat} (hp : parent p = none) : chain parent p = [p] := by
  rw [chain_eq h, hp]; rfl

theorem chain_child (h : Older parent) {p a : Nat} (hp : parent p = some a) : chain parent p = p :: chain parent a := by
  rw [chain_eq h, hp]; rfl

theorem chain_induction (h : Older parent) {motive : Nat → Prop} (root : ∀ p, parent p = none → motive p)
    (child : ∀ p a, parent p = some a → motive a → motive p) (p : Nat) : motive p := by
  induction p using Nat.strongRecOn with
  | ind p ih =>
    cases ha : parent p with
    | none => exact root p ha
    | some a => exact child p a ha (ih a (h ha))

theorem mem_chain_self (h : Older parent) (p : Nat) : p ∈ chain parent p := by
  rw [chain_eq h]; exact List.mem_cons_self ..

theorem le_of_mem_chain (h : Older parent) {s : Nat} (p : Nat) : s ∈ chain parent p → s ≤ p := by
  induction p using chain_induction h with
  | root p hp => rw [chain_root h hp]; simp only [List.mem_singleton]; omega
  | child p a hp ih =>
    rw [chain_child h hp, List.mem_cons]
    have := h hp
    rintro (rfl | hs)
    · omega
    · have := ih hs; omega

/-- A node is not on the chain of its parent. -/
theorem not_mem_chain_of_lt (h : Older parent) {p a : Nat} (hap : a < p) : p ∉ chain parent a := by
  intro hm
  have := le_of_mem_chain h a hm
  omega

theorem chain_congr (h : Older parent) (h' : Older other) {p : Nat} :
    (∀ q ≤ p, parent q = other q) → chain parent p = chain other p := by
  induction p using chain_induction h with
  | root p hp =>
    intro heq
    rw [chain_root h hp, chain_root h' ((heq p (Nat.le_refl p)).symm.trans hp)]
  | child p a hp ih =>
    intro heq
    have hap := h hp
    rw [chain_child h hp, chain_child h' ((heq p (Nat.le_refl p)).symm.trans hp), ih fun q hq => heq q (by omega)]

/-! ## How many nodes are below -/

@[simp] theorem below_nil (s : Nat) : below parent [] s = 0 := rfl

theorem below_cons (q : Nat) (nodes : List Nat) (s : Nat) :
    below parent (q :: nodes) s = below parent nodes s + if s ∈ chain parent q then 1 else 0 := by
  simp [below, List.countP_cons]

theorem below_erase {q : Nat} {nodes : List Nat} (hq : q ∈ nodes) (s : Nat) :
    below parent (nodes.erase q) s + (if s ∈ chain parent q then 1 else 0) = below parent nodes s := by
  rw [← below_cons, below, below]
  exact (List.perm_cons_erase hq).symm.countP_eq _

theorem below_congr {nodes : List Nat} (h : ∀ q ∈ nodes, chain parent q = chain other q) (s : Nat) :
    below parent nodes s = below other nodes s := by
  rw [below, below]
  apply List.countP_congr
  intro q hq
  rw [h q hq]

theorem below_pos {nodes : List Nat} {s : Nat} : 0 < below parent nodes s ↔ ∃ q ∈ nodes, s ∈ chain parent q := by
  simp [below, List.countP_pos_iff]

end Xvr.Lib.Chains
