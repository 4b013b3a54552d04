/-
  Xvr.Lib.Sorting — sorting by a comparison function that may be none.

  A comparison answers a number: negative, zero or positive. A sort is trusted on a list only
  where the comparison is a consistent ordering of its elements; elsewhere it may answer
  anything.

  Proved:
  - `mergeBy_sorts`: there is such a sort.
  - `exists_sorts_answering`: where the comparison is inconsistent one of them answers what one likes.
-/

import Mathlib.Data.List.Sort

namespace Xvr.Lib.Sorting

open scoped List

variable {α : Type}

/-- The comparison orders the elements of the list. -/
structure Consistent (compare : α → α → Int) (l : List α) : Prop where
  antisymm : ∀ a ∈ l, ∀ b ∈ l, compare a b < 0 ↔ 0 < compare b a
  trans : ∀ a ∈ l, ∀ b ∈ l, ∀ c ∈ l, compare a b ≤ 0 → compare b c ≤ 0 → compare a c ≤ 0

theorem Consistent.total {compare : α → α → Int} {l : List α} (h : Consistent compare l) {a b : α} (ha : a ∈ l)
    (hb : b ∈ l) : compare a b ≤ 0 ∨ compare b a ≤ 0 := by
  have := h.antisymm b hb a ha
  omega

/-- A function that sorts correctly where the comparison is a consistent ordering. -/
def Sorts (sort : (α → α → Int) → List α → List α) : Prop :=
  ∀ compare l, Consistent compare l → sort compare l ~ l ∧ (sort compare l).Pairwise fun a b => compare a b ≤ 0

/-- A sort that compares elements of the list only. -/
def mergeBy (compare : α → α → Int) (l : List α) : List α :=
  (l.attach.mergeSort fun a b => decide (compare a.1 b.1 ≤ 0)).map (·.1)

theorem mergeBy_sorts : Sorts (mergeBy (α := α)) := by
  intro compare l h
  have hperm := List.mergeSort_perm l.attach fun a b => decide (compare a.1 b.1 ≤ 0)
  have hsorted : (l.attach.mergeSort fun a b => decide (compare a.1 b.1 ≤ 0)).Pairwise
      fun (a b : { x // x ∈ l }) => decide (compare a.1 b.1 ≤ 0) = true := by
    refine List.pairwise_mergeSort ?_ ?_ _
    · intro a b c hab hbc
      rw [decide_eq_true_iff] at *
      exact h.trans a a.2 b b.2 c c.2 hab hbc
    · intro a b
      simpa using h.total a.2 b.2
  constructor
  · simpa [mergeBy] using hperm.map (·.1)
  · rw [mergeBy, List.pairwise_map]
    exact hsorted.imp of_decide_eq_true

open Classical in
/-- Of an inconsistent comparison nothing is known. -/
theorem exists_sorts_answering {compare : α → α → Int} {l : List α} (h : ¬ Consistent compare l) (answer : List α) :
    ∃ sort, Sorts sort ∧ sort compare l = answer := by
  refine ⟨fun compare l => if Consistent compare l then mergeBy compare l else answer, ?_, if_neg h⟩
  intro compare l hconsistent
  simp only [if_pos hconsistent]
  exact mergeBy_sorts compare l hconsistent

end Xvr.Lib.Sorting
