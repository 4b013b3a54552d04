/-
  Xvr.Runtime.Memory — `Xvr_reallocate` with the default allocator (`xvr_memory.cpp`).

  An allocation is its slots, and NULL has none. Slots that are added hold what was in the
  memory they lie in.

  Proved:
  - `reallocate_buffer`: more slots for a buffer are those `Buffer.grow` adds.
  - `mem_reallocate`: nothing else gets into an allocation.
-/

import Xvr.Lib.Buffers

namespace Xvr.Runtime

open Xvr.Lib

/-- No size at all frees the allocation, and the answer is NULL; memory that is not granted ends
    the program. -/
def reallocate {α : Type} (slots : List α) (size : Nat) (granted : Granted α) : Option (List α) :=
  if size = 0 then some []
  else granted.map fun fresh => slots.take size ++ (List.range (size - slots.length)).map fresh

theorem reallocate_buffer {α : Type} (b : Buffer α) {size : Nat} (fresh : Nat → α) (hpos : 0 < size)
    (hmore : b.capacity ≤ size) : reallocate b.slots size (some fresh) = some (b.grow size fresh).slots := by
  have hall : b.slots.take size = b.slots := List.take_of_length_le hmore
  simp [reallocate, Nat.ne_of_gt hpos, hall, Buffer.grow, Buffer.capacity]

/-- What is in memory then was there before, or is new. -/
theorem mem_reallocate {α : Type} {slots slots' : List α} {size : Nat} {fresh : Nat → α} {x : α}
    (h : reallocate slots size (some fresh) = some slots') (hx : x ∈ slots') : x ∈ slots ∨ ∃ i, fresh i = x := by
  unfold reallocate at h
  split at h
  · cases h
    cases hx
  · cases h
    rcases List.mem_append.mp hx with hx | hx
    · exact .inl (List.mem_of_mem_take hx)
    · obtain ⟨i, -, hi⟩ := List.mem_map.mp hx
      exact .inr ⟨i, hi⟩

end Xvr.Runtime
