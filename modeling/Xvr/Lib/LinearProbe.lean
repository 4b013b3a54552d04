/-
  Xvr.Lib.LinearProbe — linear probing in a cyclic table of `cap` slots.

  A search visits `home, home + 1, …` modulo `cap` and stops at the first slot that
  `hit`s, or after one full circle. The table itself is not modelled: a slot is its
  index and `hit` is whatever the search stops on.

  Proved:
  - `search_eq_some` / `search_eq_none`: what a search returns, without its loop.
  - `search_of_chain`: a hit slot whose chain has no earlier hit is the one returned.
  - `Chain.mono`, `Chain.lt`: chains under a change of table.
-/

import Mathlib.Data.Nat.ModEq
import Mathlib.Data.Nat.Find

namespace Xvr.Lib.LinearProbe

/-- The slot `k` steps after `home`. -/
def slot (cap home k : Nat) : Nat := (home + k) % cap

/-- `do { if hit index, return it; index = (index + 1) % cap } while (index != start)`. -/
def walk (hit : Nat → Bool) (cap start : Nat) : Nat → Nat → Option Nat
  | 0, _ => none
  | fuel + 1, index =>
    if hit index then some index
    else if (index + 1) % cap = start then none
    else walk hit cap start fuel ((index + 1) % cap)

def search (hit : Nat → Bool) (cap home : Nat) : Option Nat := walk hit cap (home % cap) cap (home % cap)

/-- Slot `i` is reached from `home` over slots that all satisfy `p`. -/
def Chain (p : Nat → Prop) (cap home i : Nat) : Prop :=
  ∃ k < cap, slot cap home k = i ∧ ∀ j < k, p (slot cap home j)

/-! ## Slots -/

@[simp] theorem slot_zero (cap home : Nat) : slot cap home 0 = home % cap := rfl

theorem slot_lt {cap : Nat} (h : 0 < cap) (home k : Nat) : slot cap home k < cap := Nat.mod_lt _ h

theorem slot_succ (cap home k : Nat) : (slot cap home k + 1) % cap = slot cap home (k + 1) := by
  simp [slot, Nat.add_assoc]

/-- Within one circle the visited slots are distinct. -/
theorem slot_inj {cap home j k : Nat} (hj : j < cap) (hk : k < cap) (h : slot cap home j = slot cap home k) : j = k := by
  have h' : j ≡ k [MOD cap] := Nat.ModEq.add_left_cancel' home h
  rwa [Nat.ModEq, Nat.mod_eq_of_lt hj, Nat.mod_eq_of_lt hk] at h'

/-- One circle visits every slot. -/
theorem exists_slot {cap i : Nat} (home : Nat) (hi : i < cap) : ∃ k < cap, slot cap home k = i := by
  have hpos : 0 < cap := by omega
  have hm : home % cap < cap := Nat.mod_lt _ hpos
  refine ⟨(i + (cap - home % cap)) % cap, Nat.mod_lt _ hpos, ?_⟩
  have key : home % cap + (i + (cap - home % cap)) = i + cap := by omega
  rw [slot, Nat.add_mod_mod, ← Nat.mod_add_mod, key, Nat.add_mod_right, Nat.mod_eq_of_lt hi]

theorem slot_eq_start {cap home k : Nat} (hk : k < cap) : slot cap home k = home % cap ↔ k = 0 :=
  ⟨fun h => slot_inj hk (by omega) (h.trans (slot_zero cap home).symm), fun h => by simp [h]⟩

/-! ## The search -/

/-- The walk standing at step `k`, with the rest of the circle before it. -/
theorem walk_some (hit : Nat → Bool) (cap home i : Nat) :
    ∀ fuel k : Nat, fuel + k = cap → 0 < fuel →
      (walk hit cap (home % cap) fuel (slot cap home k) = some i ↔
        ∃ m, k ≤ m ∧ m < cap ∧ slot cap home m = i ∧ hit i = true ∧
          ∀ j, k ≤ j → j < m → hit (slot cap home j) = false) := by
  intro fuel
  induction fuel with
  | zero => intro k _ h; omega
  | succ fuel ih =>
    intro k hk _
    rw [walk]
    by_cases hh : hit (slot cap home k) = true
    · rw [if_pos hh, Option.some.injEq]
      constructor
      · rintro rfl
        exact ⟨k, Nat.le_refl k, by omega, rfl, hh, fun j h₁ h₂ => by omega⟩
      · rintro ⟨m, hkm, _, rfl, _, hno⟩
        rcases Nat.eq_or_lt_of_le hkm with rfl | hlt
        · rfl
        · exact absurd hh (by simp [hno k (Nat.le_refl k) hlt])
    · have hf : hit (slot cap home k) = false := by simpa using hh
      rw [if_neg hh, slot_succ]
      by_cases hend : slot cap home (k + 1) = home % cap
      · rw [if_pos hend]
        constructor
        · intro h; cases h
        · rintro ⟨m, hkm, hm, rfl, hhit, _⟩
          have hk1 : k + 1 = cap := by
            by_contra hne
            exact absurd ((slot_eq_start (by omega)).mp hend) (by omega)
          have : m = k := by omega
          subst this
          exact absurd hhit hh
      · rw [if_neg hend]
        have hlt : k + 1 ≠ cap := by
          intro h
          apply hend
          rw [h, slot, Nat.add_mod_right]
        rw [ih (k + 1) (by omega) (by omega)]
        constructor
        · rintro ⟨m, h₁, h₂, h₃, h₄, h₅⟩
          refine ⟨m, by omega, h₂, h₃, h₄, fun j hj hjm => ?_⟩
          rcases Nat.eq_or_lt_of_le hj with rfl | hj
          · exact hf
          · exact h₅ j hj hjm
        · rintro ⟨m, h₁, h₂, rfl, h₄, h₅⟩
          rcases Nat.eq_or_lt_of_le h₁ with rfl | h₁
          · exact absurd h₄ hh
          · exact ⟨m, h₁, h₂, rfl, h₄, fun j hj hjm => h₅ j (by omega) hjm⟩

/-- A search returns the first slot of its chain that hits. -/
theorem search_eq_some {hit : Nat → Bool} {cap home i : Nat} (hc : 0 < cap) :
    search hit cap home = some i ↔ hit i = true ∧ Chain (fun s => hit s = false) cap home i := by
  have h := walk_some hit cap home i cap 0 (Nat.add_zero cap) hc
  rw [slot_zero] at h
  rw [search, h]
  constructor
  · rintro ⟨m, _, hm, hi, hhit, hno⟩
    exact ⟨hhit, m, hm, hi, fun j hj => hno j (Nat.zero_le j) hj⟩
  · rintro ⟨hhit, m, hm, hi, hno⟩
    exact ⟨m, Nat.zero_le m, hm, hi, hhit, fun j _ hj => hno j hj⟩

theorem search_of_chain {hit : Nat → Bool} {cap home i : Nat} (hh : hit i = true)
    (hi : Chain (fun s => hit s = false) cap home i) : search hit cap home = some i := by
  have hc : 0 < cap := by
    obtain ⟨k, hk, _⟩ := hi
    omega
  exact (search_eq_some hc).mpr ⟨hh, hi⟩

/-- The first hit along the chain of a slot that hits. -/
theorem exists_first {hit : Nat → Bool} {cap : Nat} (home : Nat) {k : Nat} (hk : k < cap) (hh : hit (slot cap home k) = true) :
    ∃ m ≤ k, search hit cap home = some (slot cap home m) ∧ hit (slot cap home m) = true ∧
      ∀ j < m, hit (slot cap home j) = false := by
  classical
  have hex : ∃ m, hit (slot cap home m) = true := ⟨k, hh⟩
  have hle : Nat.find hex ≤ k := Nat.find_min' hex hh
  have hno : ∀ j < Nat.find hex, hit (slot cap home j) = false := fun j hj => by
    simpa using Nat.find_min hex hj
  refine ⟨Nat.find hex, hle, ?_, Nat.find_spec hex, hno⟩
  exact search_of_chain (Nat.find_spec hex) ⟨Nat.find hex, by omega, rfl, hno⟩

theorem search_eq_none {hit : Nat → Bool} {cap home : Nat} (hc : 0 < cap) :
    search hit cap home = none ↔ ∀ i < cap, hit i = false := by
  constructor
  · intro h i hi
    by_contra hh
    obtain ⟨k, hk, rfl⟩ := exists_slot home hi
    obtain ⟨m, _, hs, _⟩ := exists_first home hk (by simpa using hh)
    rw [h] at hs
    cases hs
  · intro h
    rcases hs : search hit cap home with _ | i
    · rfl
    · obtain ⟨hh, k, hk, hi, _⟩ := (search_eq_some hc).mp hs
      rw [← hi, h _ (slot_lt hc home k)] at hh
      cases hh

/-! ## Chains -/

theorem Chain.lt {p : Nat → Prop} {cap home i : Nat} (h : Chain p cap home i) : i < cap := by
  obtain ⟨k, hk, rfl, _⟩ := h
  exact slot_lt (by omega) home k

theorem Chain.mono {p q : Nat → Prop} {cap home i : Nat} (h : Chain p cap home i)
    (hpq : ∀ s < cap, p s → q s) : Chain q cap home i := by
  obtain ⟨k, hk, hi, hp⟩ := h
  exact ⟨k, hk, hi, fun j hj => hpq _ (slot_lt (by omega) home j) (hp j hj)⟩

end Xvr.Lib.LinearProbe
