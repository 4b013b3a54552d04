/-
  Xvr.Backend.RuntimeArrays — the runtime's arrays of integers as they lie in memory
  (`xvr_runtime.cpp`): allocations that fail, null pointers, indices out of bounds.

  Arrays are never freed, so the heap is the list of those created and a pointer is a number in
  it. An error raises SIGABRT, which ends the run.

  Proved:
  - `insert_spec`: an insert appends, or leaves the array as it was when it needed an
    allocation and did not get it.
  - `runtimeArrays_refine`: any calls on arrays that stay below 2^30 elements are answered as by
    lists.
  - `insert_refines`: with memory to spare an insert is that of `Xvr.Backend.Arrays`.
-/

import Xvr.Backend.Arrays
import Xvr.Lib.Buffers
import Xvr.Lib.Calls

namespace Xvr.Backend

open Xvr.Lib

/-! ## Arrays -/

/-- `XvrArrayInt`; its capacity is an `int`. -/
structure XvrArrayInt where
  data : Buffer (BitVec 32)
  inInt : data.capacity < 2 ^ 31

namespace XvrArrayInt

abbrev size (arr : XvrArrayInt) : Nat := arr.data.count

abbrev capacity (arr : XvrArrayInt) : Nat := arr.data.capacity

abbrev elements (arr : XvrArrayInt) : List (BitVec 32) := arr.data.elements

@[simp] theorem elements_mk (data : Buffer (BitVec 32)) (h : data.capacity < 2 ^ 31) :
    (⟨data, h⟩ : XvrArrayInt).elements = data.elements := rfl

/-- What `malloc`ed arrays start as. -/
def new : XvrArrayInt := ⟨Buffer.empty, by decide⟩

def append (arr : XvrArrayInt) (value : BitVec 32) (room : arr.data.count < arr.data.capacity) : XvrArrayInt :=
  ⟨arr.data.push value room, by simpa using arr.inInt⟩

end XvrArrayInt

/-- The capacity an insert asks for. -/
def newCapacity (capacity : Nat) : Nat := if capacity = 0 then 4 else capacity * 2

theorem lt_newCapacity (capacity : Nat) : capacity < newCapacity capacity := by
  unfold newCapacity
  split <;> omega

theorem XvrArrayInt.room_grown (arr : XvrArrayInt) (fresh : Nat → BitVec 32) :
    (arr.data.grow (newCapacity arr.capacity) fresh).count <
      (arr.data.grow (newCapacity arr.capacity) fresh).capacity := by
  have hmore := lt_newCapacity arr.capacity
  rw [Buffer.count_grow, Buffer.capacity_grow _ fresh (Nat.le_of_lt hmore)]
  exact Nat.lt_of_le_of_lt arr.data.fits hmore

/-- What a call returns. -/
inductive ArrayResult where
  | array (pointer : Option Nat)
  | done
  | length (size : Int)
  | element (value : BitVec 32)
  | aborted
  deriving DecidableEq, Repr

/-- What a call returns, and the index at which it read or wrote the data of its array. -/
structure ArrayEffect where
  result : ArrayResult
  accessed : Option Int
  deriving DecidableEq, Repr

def ArrayEffect.ends (effect : ArrayEffect) : Bool := effect.result == .aborted

/-- `xvr_array_insert_int` on an array. A capacity that overflows has no meaning. -/
def XvrArrayInt.insert (arr : XvrArrayInt) (value : BitVec 32) (granted : Granted (BitVec 32)) :
    Option (XvrArrayInt × ArrayEffect) :=
  if h : arr.data.count < arr.data.capacity then some (arr.append value h, ⟨.done, some arr.size⟩)
  else if hint : newCapacity arr.capacity < 2 ^ 31 then
    match granted with
    | none => some (arr, ⟨.done, none⟩)
    | some fresh =>
      have hgrown := arr.data.capacity_grow fresh (Nat.le_of_lt (lt_newCapacity arr.capacity))
      let grown : XvrArrayInt := ⟨arr.data.grow (newCapacity arr.capacity) fresh, by rwa [hgrown]⟩
      some (grown.append value (arr.room_grown fresh), ⟨.done, some arr.size⟩)
  else none

/-- The checks of `xvr_array_get_int` and `xvr_array_set_int`, in the order of the source. -/
def XvrArrayInt.rejects (arr : XvrArrayInt) (index : BitVec 32) : Bool :=
  arr.size == 0 || index.toInt < 0 || arr.size ≤ index.toInt

def XvrArrayInt.get (arr : XvrArrayInt) (index : BitVec 32) : ArrayEffect :=
  if arr.rejects index then ⟨.aborted, none⟩
  else ⟨.element (arr.data.slots.getD index.toInt.toNat 0), some index.toInt⟩

def XvrArrayInt.set (arr : XvrArrayInt) (index value : BitVec 32) : XvrArrayInt × ArrayEffect :=
  if arr.rejects index then (arr, ⟨.aborted, none⟩)
  else (⟨arr.data.set index.toInt.toNat value, by simpa using arr.inInt⟩, ⟨.done, some index.toInt⟩)

/-! ## Calls -/

/-- A call with what the allocator will answer it. A pointer may be NULL. -/
inductive ArrayIntCall where
  | create (allocated : Bool)
  | insert (pointer : Option Nat) (value : BitVec 32) (granted : Granted (BitVec 32))
  | len (pointer : Option Nat)
  | get (pointer : Option Nat) (index : BitVec 32)
  | set (pointer : Option Nat) (index value : BitVec 32)

def ArrayIntCall.pointer : ArrayIntCall → Option Nat
  | .create _ => none
  | .insert pointer _ _ | .len pointer | .get pointer _ | .set pointer _ _ => pointer

/-- A pointer to no array of the heap has no meaning. -/
def arrayIntStep (heap : List XvrArrayInt) : ArrayIntCall → Option (List XvrArrayInt × ArrayEffect)
  | .create true => some (heap ++ [.new], ⟨.array (some heap.length), none⟩)
  | .create false => some (heap, ⟨.array none, none⟩)
  | .insert none _ _ => some (heap, ⟨.done, none⟩)
  | .insert (some p) value granted => do
    let (arr, effect) ← (← heap[p]?).insert value granted
    return (heap.set p arr, effect)
  | .len none => some (heap, ⟨.length 0, none⟩)
  | .len (some p) => do return (heap, ⟨.length (← heap[p]?).size, none⟩)
  | .get none _ => some (heap, ⟨.element 0, none⟩)
  | .get (some p) index => do return (heap, (← heap[p]?).get index)
  | .set none _ _ => some (heap, ⟨.done, none⟩)
  | .set (some p) index value => do
    let arr ← heap[p]?
    return (heap.set p (arr.set index value).1, (arr.set index value).2)

/-! ## Lists -/

/-- A call to a list, which knows of allocations only that one failed. -/
inductive ListCall where
  | create (allocated : Bool)
  | insert (pointer : Option Nat) (value : BitVec 32) (failed : Bool)
  | len (pointer : Option Nat)
  | get (pointer : Option Nat) (index : BitVec 32)
  | set (pointer : Option Nat) (index value : BitVec 32)

/-- The position of a list that an index means. -/
def positionOf (list : List (BitVec 32)) (index : BitVec 32) : Option Nat :=
  if 0 ≤ index.toInt ∧ index.toInt < list.length then some index.toInt.toNat else none

def listIntStep (lists : List (List (BitVec 32))) : ListCall → Option (List (List (BitVec 32)) × ArrayEffect)
  | .create true => some (lists ++ [[]], ⟨.array (some lists.length), none⟩)
  | .create false => some (lists, ⟨.array none, none⟩)
  | .insert none _ _ => some (lists, ⟨.done, none⟩)
  | .insert (some p) value failed => do
    let list ← lists[p]?
    if failed then return (lists, ⟨.done, none⟩)
    return (lists.set p (list ++ [value]), ⟨.done, some list.length⟩)
  | .len none => some (lists, ⟨.length 0, none⟩)
  | .len (some p) => do return (lists, ⟨.length (← lists[p]?).length, none⟩)
  | .get none _ => some (lists, ⟨.element 0, none⟩)
  | .get (some p) index => do
    let list ← lists[p]?
    match (positionOf list index).bind fun i => list[i]? with
    | some value => return (lists, ⟨.element value, some index.toInt⟩)
    | none => return (lists, ⟨.aborted, none⟩)
  | .set none _ _ => some (lists, ⟨.done, none⟩)
  | .set (some p) index value => do
    let list ← lists[p]?
    match positionOf list index with
    | some i => return (lists.set p (list.set i value), ⟨.done, some index.toInt⟩)
    | none => return (lists, ⟨.aborted, none⟩)

/-- An insert's allocation fails: the array has no room, and gets no more. -/
def insertFails (heap : List XvrArrayInt) (pointer : Option Nat) (granted : Granted (BitVec 32)) : Bool :=
  granted.isNone && (pointer.bind fun p => heap[p]?).any fun arr => arr.capacity ≤ arr.size

/-- What of a call concerns a list. -/
def hearCall (heap : List XvrArrayInt) : ArrayIntCall → ListCall
  | .create allocated => .create allocated
  | .insert pointer value granted => .insert pointer value (insertFails heap pointer granted)
  | .len pointer => .len pointer
  | .get pointer index => .get pointer index
  | .set pointer index value => .set pointer index value

def listsOf (heap : List XvrArrayInt) : List (List (BitVec 32)) := heap.map XvrArrayInt.elements

/-- Below 2^30 elements, and a pointer that was handed out, or NULL. -/
def Proper (heap : List XvrArrayInt) (call : ArrayIntCall) : Prop :=
  (∀ arr ∈ heap, arr.size < 2 ^ 30) ∧ ∀ p ∈ call.pointer, p < heap.length

/-! ## One call -/

@[simp] theorem length_listsOf (heap : List XvrArrayInt) : (listsOf heap).length = heap.length := List.length_map _

@[simp] theorem getElem?_listsOf (heap : List XvrArrayInt) (p : Nat) :
    (listsOf heap)[p]? = heap[p]?.map XvrArrayInt.elements := List.getElem?_map

theorem listsOf_set (heap : List XvrArrayInt) (p : Nat) (arr : XvrArrayInt) :
    listsOf (heap.set p arr) = (listsOf heap).set p arr.elements := List.map_set

/-- A write to a place that holds the same list already leaves the lists as they are. -/
theorem listsOf_set_same {heap : List XvrArrayInt} {p : Nat} {arr next : XvrArrayInt} (hp : heap[p]? = some arr)
    (h : next.elements = arr.elements) : listsOf (heap.set p next) = listsOf heap := by
  have hlist : (listsOf heap)[p]? = some arr.elements := by rw [getElem?_listsOf, hp]; rfl
  obtain ⟨hlt, heq⟩ := List.getElem?_eq_some_iff.mp hlist
  rw [listsOf_set, h, ← heq, List.set_getElem_self]

/-- An insert appends, unless it needed an allocation and did not get it. -/
theorem insert_spec {arr next : XvrArrayInt} {value : BitVec 32} {granted : Granted (BitVec 32)} {effect : ArrayEffect}
    (h : arr.insert value granted = some (next, effect)) :
    (granted = none ∧ arr.capacity ≤ arr.size ∧ next = arr ∧ effect = ⟨.done, none⟩) ∨
      ((granted = none → arr.size < arr.capacity) ∧ next.elements = arr.elements ++ [value] ∧
        effect = ⟨.done, some arr.size⟩) := by
  unfold XvrArrayInt.insert at h
  split at h
  case isTrue room =>
    obtain ⟨rfl, rfl⟩ := Prod.mk.inj (Option.some.inj h)
    exact .inr ⟨fun _ => room, Buffer.elements_push _ _ room, rfl⟩
  case isFalse full =>
    split at h
    case isFalse => exact absurd h (by simp)
    case isTrue =>
      cases granted with
      | none =>
        obtain ⟨rfl, rfl⟩ := Prod.mk.inj (Option.some.inj h)
        exact .inl ⟨rfl, Nat.le_of_not_lt full, rfl, rfl⟩
      | some fresh =>
        obtain ⟨rfl, rfl⟩ := Prod.mk.inj (Option.some.inj h)
        refine .inr ⟨by simp, ?_, rfl⟩
        rw [XvrArrayInt.elements, XvrArrayInt.append, Buffer.elements_push, Buffer.elements_grow]

theorem insert_total {arr : XvrArrayInt} (h : arr.size < 2 ^ 30) (value : BitVec 32) (granted : Granted (BitVec 32)) :
    (arr.insert value granted).isSome := by
  unfold XvrArrayInt.insert
  split
  case isTrue => rfl
  case isFalse full =>
    have hsize : arr.data.count < 2 ^ 30 := h
    have hint : newCapacity arr.data.capacity < 2 ^ 31 := by
      unfold newCapacity
      split <;> omega
    rw [dif_pos hint]
    cases granted <;> rfl

theorem rejects_eq (arr : XvrArrayInt) (index : BitVec 32) :
    arr.rejects index = (positionOf arr.elements index).isNone := by
  unfold XvrArrayInt.rejects positionOf
  rw [Buffer.length_elements]
  by_cases h : 0 ≤ index.toInt ∧ index.toInt < arr.size
  · have : arr.size ≠ 0 := by omega
    simp [h, this]
  · rw [if_neg h]
    simp
    omega

theorem positionOf_lt {list : List (BitVec 32)} {index : BitVec 32} {i : Nat} (h : positionOf list index = some i) :
    i = index.toInt.toNat ∧ i < list.length := by
  simp only [positionOf, Option.ite_none_right_eq_some, Option.some.injEq] at h
  omega

theorem insert_refines_list {heap : List XvrArrayInt} {p : Nat} {arr next : XvrArrayInt} {value : BitVec 32}
    {granted : Granted (BitVec 32)} {effect : ArrayEffect} (hp : heap[p]? = some arr)
    (h : arr.insert value granted = some (next, effect)) :
    listIntStep (listsOf heap) (hearCall heap (.insert (some p) value granted)) =
      some (listsOf (heap.set p next), effect) := by
  have hlist : (listsOf heap)[p]? = some arr.elements := by rw [getElem?_listsOf, hp]; rfl
  have hfails : insertFails heap (some p) granted = (granted.isNone && decide (arr.capacity ≤ arr.size)) := by
    rw [insertFails, Option.bind_some, hp, Option.any_some]
  unfold listIntStep
  simp only [hearCall, hfails, hlist]
  rcases insert_spec h with ⟨rfl, hfull, rfl, rfl⟩ | ⟨hroom, helements, rfl⟩
  · rw [listsOf_set_same hp rfl]
    simp [hfull]
  · have hkept : (granted.isNone && decide (arr.capacity ≤ arr.size)) = false := by
      cases granted with
      | none => simpa using hroom rfl
      | some fresh => rfl
    rw [listsOf_set, helements, hkept]
    simp

theorem get_refines_list {heap : List XvrArrayInt} {p : Nat} {arr : XvrArrayInt} {index : BitVec 32}
    (hp : heap[p]? = some arr) :
    listIntStep (listsOf heap) (.get (some p) index) = some (listsOf heap, arr.get index) := by
  have hlist : (listsOf heap)[p]? = some arr.elements := by rw [getElem?_listsOf, hp]; rfl
  unfold listIntStep
  simp only [hlist, XvrArrayInt.get, rejects_eq]
  cases hposition : positionOf arr.elements index with
  | none => simp [hposition]
  | some i =>
    obtain ⟨rfl, hi⟩ := positionOf_lt hposition
    have hslot := arr.data.getElem?_slots (i := index.toInt.toNat) (by rwa [Buffer.length_elements] at hi)
    simp [hposition, List.getElem?_eq_getElem hi, List.getD_eq_getElem?_getD, hslot]

theorem set_refines_list {heap : List XvrArrayInt} {p : Nat} {arr : XvrArrayInt} {index value : BitVec 32}
    (hp : heap[p]? = some arr) :
    listIntStep (listsOf heap) (.set (some p) index value) =
      some (listsOf (heap.set p (arr.set index value).1), (arr.set index value).2) := by
  have hlist : (listsOf heap)[p]? = some arr.elements := by rw [getElem?_listsOf, hp]; rfl
  unfold listIntStep
  simp only [hlist, XvrArrayInt.set, rejects_eq]
  cases hposition : positionOf arr.elements index with
  | none => simp [hposition, listsOf_set_same hp rfl]
  | some i =>
    obtain ⟨rfl, hi⟩ := positionOf_lt hposition
    simp [hposition, listsOf_set, Buffer.elements_set]

theorem arrayIntStep_refines (heap : List XvrArrayInt) (call : ArrayIntCall) (next : List XvrArrayInt)
    (effect : ArrayEffect) (h : arrayIntStep heap call = some (next, effect)) :
    listIntStep (listsOf heap) (hearCall heap call) = some (listsOf next, effect) := by
  cases call with
  | create allocated =>
    cases allocated <;> obtain ⟨rfl, rfl⟩ := Prod.mk.inj (Option.some.inj h)
    · rfl
    · simp [hearCall, listIntStep, listsOf, XvrArrayInt.new]
  | insert pointer value granted =>
    cases pointer with
    | none =>
      obtain ⟨rfl, rfl⟩ := Prod.mk.inj (Option.some.inj h)
      rfl
    | some p =>
      unfold arrayIntStep at h
      simp only [Option.bind_eq_bind, Option.bind_eq_some_iff, Option.pure_def, Option.some.injEq] at h
      obtain ⟨arr, hp, ⟨arr', effect'⟩, hinsert, hnext⟩ := h
      obtain ⟨rfl, rfl⟩ := Prod.mk.inj hnext
      exact insert_refines_list hp hinsert
  | len pointer =>
    cases pointer with
    | none =>
      obtain ⟨rfl, rfl⟩ := Prod.mk.inj (Option.some.inj h)
      rfl
    | some p =>
      unfold arrayIntStep at h
      simp only [Option.bind_eq_bind, Option.bind_eq_some_iff, Option.pure_def, Option.some.injEq] at h
      obtain ⟨arr, hp, hnext⟩ := h
      obtain ⟨rfl, rfl⟩ := Prod.mk.inj hnext
      simp [hearCall, listIntStep, hp]
  | get pointer index =>
    cases pointer with
    | none =>
      obtain ⟨rfl, rfl⟩ := Prod.mk.inj (Option.some.inj h)
      rfl
    | some p =>
      unfold arrayIntStep at h
      simp only [Option.bind_eq_bind, Option.bind_eq_some_iff, Option.pure_def, Option.some.injEq] at h
      obtain ⟨arr, hp, hnext⟩ := h
      obtain ⟨rfl, rfl⟩ := Prod.mk.inj hnext
      exact get_refines_list hp
  | set pointer index value =>
    cases pointer with
    | none =>
      obtain ⟨rfl, rfl⟩ := Prod.mk.inj (Option.some.inj h)
      rfl
    | some p =>
      unfold arrayIntStep at h
      simp only [Option.bind_eq_bind, Option.bind_eq_some_iff, Option.pure_def, Option.some.injEq] at h
      obtain ⟨arr, hp, hnext⟩ := h
      obtain ⟨rfl, rfl⟩ := Prod.mk.inj hnext
      exact set_refines_list hp

theorem arrayIntStep_total (heap : List XvrArrayInt) (call : ArrayIntCall) (h : Proper heap call) :
    (arrayIntStep heap call).isSome := by
  obtain ⟨hsmall, hpointer⟩ := h
  have hfound : ∀ p, call.pointer = some p → ∃ arr ∈ heap, heap[p]? = some arr := by
    intro p hp
    have hlt := hpointer p hp
    exact ⟨heap[p], List.getElem_mem hlt, List.getElem?_eq_getElem hlt⟩
  cases call with
  | create allocated => cases allocated <;> rfl
  | insert pointer value granted =>
    cases pointer with
    | none => rfl
    | some p =>
      obtain ⟨arr, hmem, hp⟩ := hfound p rfl
      obtain ⟨result, hresult⟩ := Option.isSome_iff_exists.mp (insert_total (hsmall arr hmem) value granted)
      simp [arrayIntStep, hp, hresult]
  | len pointer | get pointer | set pointer =>
    cases pointer with
    | none => rfl
    | some p =>
      obtain ⟨arr, -, hp⟩ := hfound p rfl
      simp [arrayIntStep, hp]

/-! ## Runs -/

/-- Whatever the allocator answers: on arrays that stay below 2^30 elements no call is without a
    meaning, and each is answered as it is by the list; a call that is turned away reads and
    writes no data. -/
theorem runtimeArrays_refine (calls : List ArrayIntCall)
    (h : Calls.Meets arrayIntStep ArrayEffect.ends Proper [] calls) :
    ∃ heap effects, Calls.run arrayIntStep ArrayEffect.ends [] calls = some (heap, effects) ∧
      Calls.run listIntStep ArrayEffect.ends [] (Calls.heard arrayIntStep ArrayEffect.ends hearCall [] calls) =
        some (listsOf heap, effects) ∧
      ∀ arr ∈ heap, arr.size ≤ arr.capacity := by
  obtain ⟨heap, effects, hrun⟩ := Calls.run_total arrayIntStep_total calls h
  exact ⟨heap, effects, hrun, Calls.run_refines arrayIntStep_refines calls hrun, fun arr _ => arr.data.fits⟩

/-- A refused growth, an insert that gets its memory, and an index out of bounds. -/
theorem runtimeArrays_refine_refused : ∃ heap effects,
    Calls.run arrayIntStep ArrayEffect.ends []
      [.create true, .insert (some 0) 5 none, .insert (some 0) 6 (some fun _ => 0), .get (some 0) 1] =
        some (heap, effects) ∧
    Calls.run listIntStep ArrayEffect.ends [] (Calls.heard arrayIntStep ArrayEffect.ends hearCall []
      [.create true, .insert (some 0) 5 none, .insert (some 0) 6 (some fun _ => 0), .get (some 0) 1]) =
        some (listsOf heap, effects) ∧
    ∀ arr ∈ heap, arr.size ≤ arr.capacity :=
  runtimeArrays_refine [.create true, .insert (some 0) 5 none, .insert (some 0) 6 (some fun _ => 0), .get (some 0) 1]
    (by
      refine ⟨⟨List.forall_mem_nil _, by decide⟩, ?_⟩
      rintro _ _ ⟨⟩ -
      refine ⟨⟨by decide, by decide⟩, ?_⟩
      rintro _ _ ⟨⟩ -
      refine ⟨⟨by decide, by decide⟩, ?_⟩
      rintro _ _ ⟨⟩ -
      exact ⟨⟨by decide, by decide⟩, fun _ _ _ _ => trivial⟩)

/-! ## Memory to spare -/

theorem capacity_insert {arr next : XvrArrayInt} {value : BitVec 32} {fresh : Nat → BitVec 32} {effect : ArrayEffect}
    (h : arr.insert value (some fresh) = some (next, effect)) :
    next.capacity = if arr.size < arr.capacity then arr.capacity else newCapacity arr.capacity := by
  unfold XvrArrayInt.insert at h
  by_cases room : arr.data.count < arr.data.capacity
  · rw [dif_pos room] at h
    obtain ⟨rfl, -⟩ := Prod.mk.inj (Option.some.inj h)
    rw [if_pos room]
    exact Buffer.capacity_push _ _ room
  · rw [dif_neg room] at h
    split at h
    · obtain ⟨rfl, -⟩ := Prod.mk.inj (Option.some.inj h)
      rw [if_neg room, XvrArrayInt.capacity, XvrArrayInt.append, Buffer.capacity_push,
        Buffer.capacity_grow _ _ (Nat.le_of_lt (lt_newCapacity arr.capacity))]
    · exact absurd h (by simp)

/-- The array as the emitter's programs see it. -/
def XvrArrayInt.plain (arr : XvrArrayInt) : ArrayInt (BitVec 32) where
  data := arr.elements
  capacity := arr.capacity
  fits := by
    rw [Buffer.length_elements]
    exact arr.data.fits

/-- Where memory does not run out, an insert is that of the arrays without memory. -/
theorem insert_refines {arr next : XvrArrayInt} {value : BitVec 32} {fresh : Nat → BitVec 32} {effect : ArrayEffect}
    (h : arr.insert value (some fresh) = some (next, effect)) : next.plain = arr.plain.insert value := by
  have hcapacity := capacity_insert h
  rcases insert_spec h with ⟨hnone, -⟩ | ⟨-, helements, -⟩
  · exact absurd hnone (by simp)
  · have hgrown : arr.plain.grown = next.capacity := by
      rw [hcapacity, ArrayInt.grown, newCapacity, Nat.mul_comm]
      simp only [XvrArrayInt.plain, Buffer.length_elements]
      rfl
    simp only [XvrArrayInt.plain, ArrayInt.insert, helements] at *
    simp [hgrown]

end Xvr.Backend
