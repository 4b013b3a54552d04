/-
  Xvr.Lib.Buffers — allocated arrays of which the first slots are in use.

  A buffer has as many slots as its capacity, and knows how many of them are in use; what
  those hold is its list of elements. Slots behind them hold anything.

  Proved:
  - `elements_grow`, `elements_push`, `elements_pop`, `elements_set`: what each operation is
    on the list of elements.
  - `getElem?_slots`: a slot in use holds the element of its index.
-/

import Mathlib.Data.List.Basic

namespace Xvr.Lib

/-- What an allocator answers: the contents of the slots it adds, or nothing. -/
abbrev Granted (α : Type) := Option (Nat → α)

structure Buffer (α : Type) where
  slots : List α
  count : Nat
  fits : count ≤ slots.length

namespace Buffer

variable {α : Type}

def empty : Buffer α := ⟨[], 0, Nat.zero_le _⟩

def capacity (b : Buffer α) : Nat := b.slots.length

def elements (b : Buffer α) : List α := b.slots.take b.count

/-- At least so many slots. The new ones hold what was in the memory they lie in. -/
def grow (b : Buffer α) (capacity : Nat) (fresh : Nat → α) : Buffer α where
  slots := b.slots ++ (List.range (capacity - b.capacity)).map fresh
  count := b.count
  fits := Nat.le_trans b.fits (by simp)

/-- The first slot not in use is written, and is in use from now on. -/
def push (b : Buffer α) (value : α) (room : b.count < b.capacity) : Buffer α where
  slots := b.slots.set b.count value
  count := b.count + 1
  fits := by
    rw [List.length_set]
    exact room

/-- The last slot in use is overwritten, and no longer in use. -/
def pop (b : Buffer α) (left : α) : Buffer α where
  slots := b.slots.set (b.count - 1) left
  count := b.count - 1
  fits := by
    have := b.fits
    simp
    omega

def set (b : Buffer α) (index : Nat) (value : α) : Buffer α where
  slots := b.slots.set index value
  count := b.count
  fits := by simpa using b.fits

/-! ## Counts and capacities -/

@[simp] theorem capacity_empty : (empty : Buffer α).capacity = 0 := rfl
@[simp] theorem count_empty : (empty : Buffer α).count = 0 := rfl
@[simp] theorem count_grow (b : Buffer α) (n : Nat) (fresh : Nat → α) : (b.grow n fresh).count = b.count := rfl
@[simp] theorem count_push (b : Buffer α) (x : α) (h : b.count < b.capacity) : (b.push x h).count = b.count + 1 := rfl
@[simp] theorem count_pop (b : Buffer α) (x : α) : (b.pop x).count = b.count - 1 := rfl
@[simp] theorem count_set (b : Buffer α) (i : Nat) (x : α) : (b.set i x).count = b.count := rfl

theorem capacity_grow (b : Buffer α) {n : Nat} (fresh : Nat → α) (h : b.capacity ≤ n) :
    (b.grow n fresh).capacity = n := by
  have h' : b.slots.length ≤ n := h
  simp only [capacity, grow, List.length_append, List.length_map, List.length_range]
  omega

@[simp] theorem capacity_push (b : Buffer α) (x : α) (h : b.count < b.capacity) :
    (b.push x h).capacity = b.capacity := by simp [capacity, push]

@[simp] theorem capacity_pop (b : Buffer α) (x : α) : (b.pop x).capacity = b.capacity := by simp [capacity, pop]

@[simp] theorem capacity_set (b : Buffer α) (i : Nat) (x : α) : (b.set i x).capacity = b.capacity := by
  simp [capacity, set]

/-! ## The list of elements -/

@[simp] theorem elements_empty : (empty : Buffer α).elements = [] := rfl

@[simp] theorem length_elements (b : Buffer α) : b.elements.length = b.count := List.length_take_of_le b.fits

theorem getElem?_slots (b : Buffer α) {i : Nat} (h : i < b.count) : b.slots[i]? = b.elements[i]? :=
  (List.getElem?_take_of_lt h).symm

@[simp] theorem elements_grow (b : Buffer α) (n : Nat) (fresh : Nat → α) : (b.grow n fresh).elements = b.elements :=
  List.take_append_of_le_length b.fits

@[simp] theorem elements_push (b : Buffer α) (x : α) (h : b.count < b.capacity) :
    (b.push x h).elements = b.elements ++ [x] := by
  have h' : b.count < b.slots.length := h
  simp only [elements, push]
  rw [List.take_add_one, List.take_set_of_le (Nat.le_refl _), List.getElem?_set_self h']
  rfl

theorem elements_pop (b : Buffer α) (x : α) : (b.pop x).elements = b.elements.dropLast := by
  have := b.fits
  simp only [elements, pop]
  rw [List.take_set_of_le (Nat.le_refl _), List.dropLast_eq_take, List.take_take, List.length_take_of_le this,
    Nat.min_eq_left (Nat.sub_le _ _)]

theorem elements_set (b : Buffer α) (i : Nat) (x : α) : (b.set i x).elements = b.elements.set i x := by
  simp only [elements, set]
  exact List.take_set

end Buffer

end Xvr.Lib
