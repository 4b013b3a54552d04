/-
  Xvr.Runtime.TypeSubtypes — the subtypes of a type literal as they lie in memory
  (`Xvr_private_typePushSubtype`).

  The count and the capacity are bytes. A capacity is doubled as an `int` and stored in its byte,
  where 256 is 0, and an array of no elements is freed.

  Proved:
  - `typePush_room`, `typePush_full`: below 128 subtypes a push appends; the next one has nowhere to write.
  - `subtypes_grow_iff`: so many pushes give so many subtypes exactly up to 128.
-/

import Xvr.Runtime.Memory
import Xvr.Runtime.Dictionary

namespace Xvr.Runtime

open Xvr.Lib

/-- The `type` member of the union. -/
structure TypeLiteral where
  /-- The slots allocated; NULL has none. -/
  subtypes : List Literal
  typeOf : LiteralType
  capacity : BitVec 8
  count : BitVec 8
  constant : Bool

/-- `XVR_TO_TYPE_LITERAL`. -/
def toTypeLiteral (value : LiteralType) (c : Bool) : TypeLiteral :=
  { subtypes := [], typeOf := value, capacity := 0, count := 0, constant := c }

/-- The literal of `Xvr.Runtime.Literal` it is. -/
def TypeLiteral.toLiteral (lit : TypeLiteral) : Literal :=
  .type lit.typeOf lit.constant (lit.subtypes.take lit.count.toNat)

/-- Room for one more: the capacity is doubled as an `int`, and stored in its byte. -/
def growSubtypes (lit : TypeLiteral) (granted : Granted Literal) : Option TypeLiteral :=
  if lit.capacity.toNat < lit.count.toNat + 1 then do
    let capacity := BitVec.ofNat 8 (growCapacity lit.capacity.toNat)
    let subtypes ← reallocate lit.subtypes capacity.toNat granted
    return { lit with capacity, subtypes }
  else some lit

/-- `Xvr_private_typePushSubtype`, with the index of the slot its answer points to; `none` when
    memory is not granted or the slot is not there. -/
def typePushSubtype (lit : TypeLiteral) (subtype : Literal) (granted : Granted Literal) :
    Option (TypeLiteral × Int) := do
  let lit ← growSubtypes lit granted
  if lit.subtypes.length ≤ lit.count.toNat then none
  else
    let count := lit.count + 1
    return ({ lit with subtypes := lit.subtypes.set lit.count.toNat subtype, count }, (count.toNat : Int) - 1)

/-- Pushes one after the other, each with what the memory it may be granted holds. -/
def pushSubtypes (lit : TypeLiteral) : List (Literal × (Nat → Literal)) → Option TypeLiteral
  | [] => some lit
  | (subtype, fresh) :: pushes => do
    let (lit, _) ← typePushSubtype lit subtype (some fresh)
    pushSubtypes lit pushes

/-! ## One push -/

/-- A type literal whose fields are those of a buffer, with a capacity that fits its byte. -/
structure TypeHolds (value : LiteralType) (c : Bool) (held : Buffer Literal) (lit : TypeLiteral) : Prop where
  typeOf : lit.typeOf = value
  constant : lit.constant = c
  subtypes : lit.subtypes = held.slots
  count : lit.count.toNat = held.count
  capacity : lit.capacity.toNat = held.capacity
  doubled : held.capacity ∈ [0, 8, 16, 32, 64, 128]

theorem typeHolds_new (value : LiteralType) (c : Bool) : TypeHolds value c Buffer.empty (toTypeLiteral value c) :=
  ⟨rfl, rfl, rfl, rfl, rfl, List.mem_cons_self⟩

/-- A doubling that is needed below 128 fits. -/
theorem growCapacity_fits {capacity : Nat} (h : capacity ∈ [0, 8, 16, 32, 64, 128]) (hlt : capacity < 128) :
    growCapacity capacity ∈ [0, 8, 16, 32, 64, 128] ∧ growCapacity capacity < 256 ∧
      capacity < growCapacity capacity := by
  simp only [List.mem_cons, List.not_mem_nil, or_false] at h
  rcases h with rfl | rfl | rfl | rfl | rfl | rfl <;> first | decide | omega

section

variable {value : LiteralType} {c : Bool} {lit : TypeLiteral} {held : Buffer Literal}

theorem TypeHolds.toLiteral (h : TypeHolds value c held lit) : lit.toLiteral = .type value c held.elements := by
  rw [TypeLiteral.toLiteral, h.typeOf, h.constant, h.subtypes, h.count]
  rfl

/-- Below 128 there is room. -/
theorem growSubtypes_room (fresh : Nat → Literal) (h : TypeHolds value c held lit) (hlt : held.count < 128) :
    ∃ lit' held', growSubtypes lit (some fresh) = some lit' ∧ TypeHolds value c held' lit' ∧
      held'.count < held'.capacity ∧ held'.elements = held.elements := by
  have hfits : held.count ≤ held.capacity := held.fits
  by_cases hfull : held.capacity < held.count + 1
  · obtain ⟨hdoubled, hbyte, hmore⟩ := growCapacity_fits h.doubled (by omega)
    have hcapacity : (BitVec.ofNat 8 (growCapacity held.capacity)).toNat = growCapacity held.capacity := by
      rw [BitVec.toNat_ofNat]
      exact Nat.mod_eq_of_lt hbyte
    have hrealloc := reallocate_buffer held fresh (by omega) (Nat.le_of_lt hmore)
    have hgrown := held.capacity_grow fresh (Nat.le_of_lt hmore)
    let grown := held.grow (growCapacity held.capacity) fresh
    let lit' : TypeLiteral := { lit with
      capacity := BitVec.ofNat 8 (growCapacity held.capacity)
      subtypes := grown.slots }
    have hgrow : growSubtypes lit (some fresh) = some lit' := by
      simp only [growSubtypes, h.capacity, h.count, if_pos hfull, hcapacity, h.subtypes, hrealloc]
      rfl
    refine ⟨lit', grown, hgrow, ⟨h.typeOf, h.constant, rfl, h.count, ?_, ?_⟩, ?_, held.elements_grow _ fresh⟩
    · exact hcapacity.trans hgrown.symm
    · rwa [hgrown]
    · rw [hgrown, Buffer.count_grow]
      omega
  · refine ⟨lit, held, ?_, h, by omega, rfl⟩
    rw [growSubtypes, h.capacity, h.count, if_neg hfull]

/-- Below 128 a push appends, and answers a pointer to the last slot. -/
theorem typePush_room (subtype : Literal) (fresh : Nat → Literal) (h : TypeHolds value c held lit) (hlt : held.count < 128) :
    ∃ lit' held', typePushSubtype lit subtype (some fresh) = some (lit', (held.count : Int)) ∧
      TypeHolds value c held' lit' ∧ held'.elements = held.elements ++ [subtype] := by
  obtain ⟨grown, held', hgrow, hholds, hroom, helements⟩ := growSubtypes_room fresh h hlt
  have hcount : held'.count = held.count := by rw [← held'.length_elements, helements, held.length_elements]
  have hslot : ¬ held'.slots.length ≤ held'.count := Nat.not_le.mpr hroom
  have hnext : (grown.count + 1).toNat = held.count + 1 := by
    rw [BitVec.toNat_add, hholds.count, hcount]
    exact Nat.mod_eq_of_lt (by simp; omega)
  let lit' : TypeLiteral := { grown with
    subtypes := held'.slots.set held'.count subtype
    count := grown.count + 1 }
  have hpush : typePushSubtype lit subtype (some fresh) = some (lit', (held.count : Int)) := by
    have hanswer : (((grown.count + 1).toNat : Int) - 1) = held.count := by omega
    simp only [typePushSubtype, hgrow, Option.bind_eq_bind, Option.bind_some, hanswer, hholds.subtypes, hholds.count,
      if_neg hslot]
    rfl
  refine ⟨lit', held'.push subtype hroom, hpush, ⟨hholds.typeOf, hholds.constant, rfl, ?_, ?_, ?_⟩, ?_⟩
  · rw [Buffer.count_push, hcount]
    exact hnext
  · rw [Buffer.capacity_push]
    exact hholds.capacity
  · rw [Buffer.capacity_push]
    exact hholds.doubled
  · rw [Buffer.elements_push, helements]

/-- The push onto 128 doubles 128: the array is freed, and there is no slot to write to. -/
theorem typePush_full (subtype : Literal) (granted : Granted Literal) (h : TypeHolds value c held lit)
    (hfull : held.count = 128) : typePushSubtype lit subtype granted = none := by
  have hfits : held.count ≤ held.capacity := held.fits
  have hcapacity : held.capacity = 128 := by
    have hdoubled := h.doubled
    simp only [List.mem_cons, List.not_mem_nil, or_false] at hdoubled
    omega
  have hcap : lit.capacity.toNat = 128 := h.capacity.trans hcapacity
  have hcount : lit.count.toNat = 128 := h.count.trans hfull
  have hgrow : growSubtypes lit granted = some { lit with capacity := 0, subtypes := [] } := by
    rw [growSubtypes, hcap, hcount]
    rfl
  rw [typePushSubtype, hgrow]
  rfl

end

/-! ## Runs -/

section

variable {value : LiteralType} {c : Bool} {lit : TypeLiteral} {held : Buffer Literal}

theorem pushes_room (pushes : List (Literal × (Nat → Literal))) (h : TypeHolds value c held lit)
    (hlen : held.count + pushes.length ≤ 128) :
    ∃ lit' held', pushSubtypes lit pushes = some lit' ∧ TypeHolds value c held' lit' ∧
      held'.elements = held.elements ++ pushes.map Prod.fst := by
  induction pushes generalizing lit held with
  | nil => exact ⟨lit, held, rfl, h, by simp⟩
  | cons push pushes ih =>
    rw [List.length_cons] at hlen
    obtain ⟨lit', held', hpush, hholds, helements⟩ := typePush_room push.1 push.2 h (by omega)
    have hcount : held'.count = held.count + 1 := by rw [← held'.length_elements, helements]; simp
    obtain ⟨last, heldLast, hrun, hlast, hall⟩ := ih hholds (by omega)
    refine ⟨last, heldLast, ?_, hlast, by rw [hall, helements]; simp⟩
    rw [pushSubtypes, hpush]
    exact hrun

theorem pushes_full {pushes : List (Literal × (Nat → Literal))} (h : TypeHolds value c held lit)
    (hle : held.count ≤ 128) (hlen : 128 < held.count + pushes.length) : pushSubtypes lit pushes = none := by
  induction pushes generalizing lit held with
  | nil =>
    rw [List.length_nil] at hlen
    omega
  | cons push pushes ih =>
    rw [List.length_cons] at hlen
    by_cases hfull : held.count = 128
    · rw [pushSubtypes, typePush_full push.1 _ h hfull]
      rfl
    · obtain ⟨lit', held', hpush, hholds, helements⟩ := typePush_room push.1 push.2 h (by omega)
      have hcount : held'.count = held.count + 1 := by rw [← held'.length_elements, helements]; simp
      rw [pushSubtypes, hpush]
      exact ih hholds (by omega) (by omega)

end

/-- The pushes are the subtypes, in order, and the fields agree with them. -/
def GrowsCorrectly (value : LiteralType) (c : Bool) (pushes : List (Literal × (Nat → Literal))) : Prop :=
  ∃ lit, pushSubtypes (toTypeLiteral value c) pushes = some lit ∧
    lit.toLiteral = .type value c (pushes.map Prod.fst) ∧
    lit.count.toNat = pushes.length ∧ pushes.length ≤ lit.capacity.toNat

/-- Up to 128 subtypes. -/
theorem subtypes_grow_iff (value : LiteralType) (c : Bool) (pushes : List (Literal × (Nat → Literal))) :
    GrowsCorrectly value c pushes ↔ pushes.length ≤ 128 := by
  have hnew := typeHolds_new value c
  constructor
  · rintro ⟨lit, hrun, -⟩
    by_contra hlen
    rw [pushes_full hnew (by decide) (by rw [Buffer.count_empty]; omega)] at hrun
    cases hrun
  · intro hlen
    obtain ⟨lit, held, hrun, hholds, helements⟩ := pushes_room pushes hnew (by rw [Buffer.count_empty]; omega)
    rw [Buffer.elements_empty, List.nil_append] at helements
    have hcount : held.count = pushes.length := by rw [← held.length_elements, helements, List.length_map]
    refine ⟨lit, hrun, ?_, ?_, ?_⟩
    · rw [hholds.toLiteral, helements]
    · rw [hholds.count, hcount]
    · rw [hholds.capacity, ← hcount]
      exact held.fits

/-- The 129th type of a type literal. -/
theorem byte_capacity_freed :
    ¬ ∀ (value : LiteralType) (c : Bool) (pushes : List (Literal × (Nat → Literal))),
      GrowsCorrectly value c pushes := by
  intro h
  obtain ⟨lit, hrun, -⟩ := h .array false (List.replicate 129 (.type .integer false [], fun _ => .null))
  rw [pushes_full (typeHolds_new .array false) (by decide) (by simp)] at hrun
  cases hrun

end Xvr.Runtime
