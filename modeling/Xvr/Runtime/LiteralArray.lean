/-
  Xvr.Runtime.LiteralArray — the literal array (`xvr_literal_array.cpp`) and the list it stands
  for.

  An index is read as the `int` member of the union, whatever integer kind it is; so an index
  that does not fit stands for another position (`asInteger_toNat`).

  Proved:
  - `push_elements`, `pop_elements`, `set_elements`: what each operation does to the elements.
  - `checkedIndex_eq`: the position an index is read as.
  - `literalArray_refines_iff`: a run answers as a list would exactly when every index that is
    not read as its value is read as no position at all.
-/

import Xvr.Lib.Buffers
import Xvr.Lib.Calls
import Xvr.Runtime.LiteralFns

namespace Xvr.Runtime

open Xvr.Lib

/-! ## The array -/

/-- `Xvr_LiteralArray`: an array of as many literals as its capacity, an `int`. -/
structure LiteralArray where
  literals : Buffer Literal
  inInt : literals.capacity < 2 ^ 31

namespace LiteralArray

abbrev count (array : LiteralArray) : Nat := array.literals.count

abbrev capacity (array : LiteralArray) : Nat := array.literals.capacity

abbrev elements (array : LiteralArray) : List Literal := array.literals.elements

end LiteralArray

def initLiteralArray : LiteralArray := ⟨Buffer.empty, by decide⟩

/-- Room for one more. A reallocation that fails ends the program, and so does one of a
    capacity beyond an `int`, which no allocator grants. -/
def growLiteralArray (array : LiteralArray) (granted : Granted Literal) :
    Option { array : LiteralArray // array.count < array.capacity } :=
  if h : array.capacity < array.count + 1 then
    if hint : growCapacity array.capacity < 2 ^ 31 then
      granted.map fun fresh =>
        have hgrown := array.literals.capacity_grow fresh (Nat.le_of_lt (lt_growCapacity array.capacity))
        ⟨⟨array.literals.grow (growCapacity array.capacity) fresh, by rwa [hgrown]⟩, by
          have hfits : array.count ≤ array.capacity := array.literals.fits
          have := lt_growCapacity array.capacity
          simp only [LiteralArray.count, LiteralArray.capacity, Buffer.count_grow, hgrown] at *
          omega⟩
    else none
  else some ⟨array, by omega⟩

def pushLiteralArray (array : LiteralArray) (literal : Literal) (granted : Granted Literal) :
    Option (LiteralArray × Int) :=
  (growLiteralArray array granted).map fun ⟨array, room⟩ =>
    (⟨array.literals.push (copyLiteral literal) room, by simpa using array.inInt⟩, array.count)

def popLiteralArray (array : LiteralArray) : LiteralArray × Literal :=
  if array.count = 0 then (array, .null)
  else
    (⟨array.literals.pop .null, by simpa using array.inInt⟩,
      array.literals.slots.getD (array.count - 1) .null)

/-- The loop of `Xvr_findLiteralIndex`, from index `i` on. -/
def findFrom (literal : Literal) : List Literal → Int → Int
  | [], _ => -1
  | element :: elements, i =>
    if element.kind ≠ literal.kind then findFrom literal elements (i + 1)
    else if literalsAreEqual element literal then i
    else findFrom literal elements (i + 1)

def findLiteralIndex (array : LiteralArray) (literal : Literal) : Int := findFrom literal array.elements 0

/-- What `set` and `get` make of an index before they use it. -/
def checkedIndex (array : LiteralArray) (index : Literal) : Option Nat :=
  if !index.isInteger then none
  else
    let idx := index.asInteger.toInt
    if idx < 0 ∨ array.count ≤ idx then none else some idx.toNat

def setLiteralArray (array : LiteralArray) (index value : Literal) : LiteralArray × Bool :=
  match checkedIndex array index with
  | none => (array, false)
  | some idx => (⟨array.literals.set idx (copyLiteral value), by simpa using array.inInt⟩, true)

def getLiteralArray (array : LiteralArray) (index : Literal) : Literal :=
  match checkedIndex array index with
  | none => .null
  | some idx => copyLiteral (array.literals.slots.getD idx .null)

/-! ## Calls -/

inductive ArrayCall where
  | push (literal : Literal) (granted : Granted Literal)
  | pop
  | find (literal : Literal)
  | set (index value : Literal)
  | get (index : Literal)

inductive ArrayAnswer where
  | index (i : Int)
  | value (literal : Literal)
  | stored (done : Bool)

/-- The literals a call stores. -/
def ArrayCall.stored : ArrayCall → List Literal
  | .push literal _ => [literal]
  | .set _ value => [value]
  | _ => []

def arrayStep (array : LiteralArray) : ArrayCall → Option (LiteralArray × ArrayAnswer)
  | .push literal granted => (pushLiteralArray array literal granted).map fun (array, i) => (array, .index i)
  | .pop => some ((popLiteralArray array).1, .value (popLiteralArray array).2)
  | .find literal => some (array, .index (findLiteralIndex array literal))
  | .set index value => some ((setLiteralArray array index value).1, .stored (setLiteralArray array index value).2)
  | .get index => some (array, .value (getLiteralArray array index))

/-! ## The list it stands for -/

/-- The number an integer literal of any kind stands for. -/
def Literal.integerValue : Literal → Option Int
  | .integer v | .int32 v => some v.toInt
  | .int8 v => some v.toInt
  | .int16 v => some v.toInt
  | .int64 v => some v.toInt
  | .uint8 v => some v.toNat
  | .uint16 v => some v.toNat
  | .uint32 v => some v.toNat
  | .uint64 v => some v.toNat
  | _ => none

/-- The position of a list that an index means. -/
def listPosition (elements : List Literal) (index : Literal) : Option Nat :=
  index.integerValue.bind fun v => if 0 ≤ v ∧ v < elements.length then some v.toNat else none

/-- The first element of the literal's kind that is equal to it. -/
def firstEqual (elements : List Literal) (literal : Literal) : Int :=
  ((elements.findIdx? fun element => element.kind == literal.kind && literalsAreEqual element literal).map
    Int.ofNat).getD (-1)

def listStep (elements : List Literal) : ArrayCall → Option (List Literal × ArrayAnswer)
  | .push literal _ => some (elements ++ [literal], .index elements.length)
  | .pop => some (elements.dropLast, .value (elements.getLast?.getD .null))
  | .find literal => some (elements, .index (firstEqual elements literal))
  | .set index value =>
    some (((listPosition elements index).map fun i => elements.set i value).getD elements,
      .stored (listPosition elements index).isSome)
  | .get index => some (elements, .value (((listPosition elements index).bind fun i => elements[i]?).getD .null))

/-! ## Indices -/

/-- How much of an integer literal the `int` member holds: what a narrow kind stores, above
    which the union is zero. -/
def readWidth : LiteralType → Nat
  | .int8 | .uint8 => 8
  | .int16 | .uint16 => 16
  | _ => 32

/-- A narrow value, zero-extended, is read back as it is. -/
theorem asInteger_toNat_narrow {w : Nat} (h : w ≤ 32) (v : BitVec w) :
    ((v.zeroExtend 64).truncate 32).toNat = v.toNat := by
  have := v.isLt
  have : 2 ^ w ≤ 2 ^ 32 := Nat.pow_le_pow_right (by decide) h
  simp only [BitVec.truncate_eq_setWidth, BitVec.toNat_setWidth]
  omega

theorem toNat_eq_toInt_emod {w : Nat} (v : BitVec w) : (v.toNat : Int) = v.toInt % (2 ^ w : Nat) := by
  have hlt : (v.toNat : Int) < (2 ^ w : Nat) := by exact_mod_cast v.isLt
  rw [BitVec.toInt_eq_toNat_bmod, Int.bmod_emod, Int.emod_eq_of_lt (Int.natCast_nonneg _) hlt]

/-- What is read of an index: its value, cut to as many bits as are read of its kind. -/
theorem asInteger_toNat {index : Literal} {v : Int} (h : index.integerValue = some v) :
    (index.asInteger.toNat : Int) = v % (2 ^ readWidth index.kind : Nat) := by
  have narrow {w : Nat} (hw : w ≤ 32) (b : BitVec w) :
      (((b.zeroExtend 64).truncate 32).toNat : Int) = b.toInt % (2 ^ w : Nat) := by
    rw [asInteger_toNat_narrow hw, toNat_eq_toInt_emod]
  have unsigned {w : Nat} (hw : w ≤ 32) (b : BitVec w) :
      (((b.zeroExtend 64).truncate 32).toNat : Int) = b.toNat % (2 ^ w : Nat) := by
    rw [asInteger_toNat_narrow hw, ← Int.natCast_emod, Nat.mod_eq_of_lt b.isLt]
  -- of eight bytes the low four are read
  have wide (b : BitVec 64) : ((b.truncate 32).toNat : Int) = b.toNat % (2 ^ 32 : Nat) := by
    simp [BitVec.toNat_setWidth]
  have wideSigned (b : BitVec 64) : ((b.truncate 32).toNat : Int) = b.toInt % (2 ^ 32 : Nat) := by
    rw [wide, toNat_eq_toInt_emod, Int.emod_emod_of_dvd _ (by decide)]
  cases index <;> simp only [Literal.integerValue, Option.some.injEq, reduceCtorEq] at h <;> subst h
  case integer b | int32 b => exact narrow (Nat.le_refl _) b
  case int8 b | int16 b => exact narrow (by decide) b
  case int64 b => exact wideSigned b
  case uint8 b | uint16 b => exact unsigned (by decide) b
  case uint32 b => exact unsigned (Nat.le_refl _) b
  case uint64 b => exact wide b

theorem isInteger_iff (index : Literal) : index.isInteger = index.integerValue.isSome := by
  cases index <;> rfl

/-- An index is read as the position of its low bits, if there is one. -/
theorem checkedIndex_eq (array : LiteralArray) {index : Literal} {v : Int} (h : index.integerValue = some v) :
    checkedIndex array index =
      if v % (2 ^ readWidth index.kind : Nat) < array.count then
        some (v % (2 ^ readWidth index.kind : Nat)).toNat else none := by
  have hint : index.isInteger = true := by rw [isInteger_iff, h]; rfl
  have hcount : array.count < 2 ^ 31 := Nat.lt_of_le_of_lt array.literals.fits array.inInt
  rw [← asInteger_toNat h]
  simp only [checkedIndex, hint, Bool.not_true, Bool.false_eq_true, if_false]
  have hsign := BitVec.toInt_eq_toNat_cond index.asInteger
  have := index.asInteger.isLt
  by_cases hlow : 2 * index.asInteger.toNat < 2 ^ 32
  · rw [if_pos hlow] at hsign
    rw [hsign]
    by_cases hin : index.asInteger.toNat < array.count
    · rw [if_neg (by omega), if_pos (by exact_mod_cast hin)]
    · rw [if_pos (by omega), if_neg (by omega)]
  · rw [if_neg hlow] at hsign
    rw [hsign, if_pos (by omega), if_neg (by omega)]

theorem checkedIndex_none {array : LiteralArray} {index : Literal} (h : index.integerValue = none) :
    checkedIndex array index = none := by
  have hint : index.isInteger = false := by rw [isInteger_iff, h]; rfl
  simp [checkedIndex, hint]

/-! ### Indices that are read right -/

/-- The index is read as its value, or as no position of an array of so many elements. -/
def IndexRead (count : Nat) (index : Literal) : Prop :=
  ∀ v, index.integerValue = some v →
    v % (2 ^ readWidth index.kind : Nat) = v ∨ (count : Int) ≤ v % (2 ^ readWidth index.kind : Nat)

/-- A value that can be a position is read as it is. -/
theorem emod_readWidth {index : Literal} {v : Int} (h : index.integerValue = some v) (hlow : 0 ≤ v)
    (hhigh : v < (2 ^ 31 : Nat)) : v % (2 ^ readWidth index.kind : Nat) = v := by
  refine Int.emod_eq_of_lt hlow ?_
  cases index <;> simp only [Literal.integerValue, Option.some.injEq, reduceCtorEq] at h <;> subst h
  case int8 b => exact Int.lt_trans b.toInt_lt (show (2 ^ 7 : Int) < (2 ^ 8 : Nat) by decide)
  case int16 b => exact Int.lt_trans b.toInt_lt (show (2 ^ 15 : Int) < (2 ^ 16 : Nat) by decide)
  case uint8 b => exact Int.ofNat_lt.mpr b.isLt
  case uint16 b => exact Int.ofNat_lt.mpr b.isLt
  all_goals exact Int.lt_trans hhigh (show ((2 ^ 31 : Nat) : Int) < (2 ^ 32 : Nat) by decide)

theorem listPosition_of_value {elements : List Literal} {index : Literal} {v : Int} (h : index.integerValue = some v) :
    listPosition elements index = if 0 ≤ v ∧ v < elements.length then some v.toNat else none := by
  rw [listPosition, h]
  rfl

theorem count_lt (array : LiteralArray) : array.count < 2 ^ 31 :=
  Nat.lt_of_le_of_lt array.literals.fits array.inInt

theorem checkedIndex_of_read {array : LiteralArray} {index : Literal} (h : IndexRead array.count index) :
    checkedIndex array index = listPosition array.elements index := by
  cases hv : index.integerValue with
  | none => rw [checkedIndex_none hv, listPosition, hv]; rfl
  | some v =>
    rw [checkedIndex_eq array hv, listPosition_of_value hv, Buffer.length_elements]
    by_cases hin : 0 ≤ v ∧ v < array.count
    · have hhigh : v < (2 ^ 31 : Nat) := Int.lt_trans hin.2 (by exact_mod_cast count_lt array)
      rw [if_pos hin, emod_readWidth hv hin.1 hhigh, if_pos hin.2]
    · rw [if_neg hin, if_neg]
      -- what is no position either is read as it is, or as none
      have hpos : 0 ≤ v % (2 ^ readWidth index.kind : Nat) := Int.emod_nonneg _ (by exact_mod_cast (Nat.two_pow_pos _).ne')
      rcases h v hv with heq | hle
      · rw [heq] at hpos ⊢
        exact fun hlt => hin ⟨hpos, hlt⟩
      · exact not_lt.mpr hle

/-- An index that is not read right means no position, and is read as one. -/
theorem checkedIndex_of_misread {array : LiteralArray} {index : Literal} (h : ¬ IndexRead array.count index) :
    listPosition array.elements index = none ∧ ∃ v, index.integerValue = some v ∧
      v % (2 ^ readWidth index.kind : Nat) < array.count ∧
      checkedIndex array index = some (v % (2 ^ readWidth index.kind : Nat)).toNat := by
  simp only [IndexRead, not_forall, not_or, not_le] at h
  obtain ⟨v, hv, hne, hlt⟩ := h
  refine ⟨?_, v, hv, hlt, by rw [checkedIndex_eq array hv, if_pos hlt]⟩
  rw [listPosition_of_value hv, Buffer.length_elements, if_neg]
  exact fun hin => hne (emod_readWidth hv hin.1 (Int.lt_trans hin.2 (by exact_mod_cast count_lt array)))

/-! ## What each operation does to the elements -/

theorem growLiteralArray_elements {array : LiteralArray} {granted : Granted Literal}
    {grown : { array : LiteralArray // array.count < array.capacity }}
    (h : growLiteralArray array granted = some grown) : grown.1.elements = array.elements := by
  unfold growLiteralArray at h
  split at h
  · split at h
    · obtain ⟨fresh, -, rfl⟩ := Option.map_eq_some_iff.mp h
      exact Buffer.elements_grow _ _ _
    · exact absurd h (by simp)
  · rw [← Option.some.inj h]

/-- A push appends a copy and answers with its index. -/
theorem push_elements {array pushed : LiteralArray} {literal : Literal} {granted : Granted Literal} {i : Int}
    (h : pushLiteralArray array literal granted = some (pushed, i)) :
    pushed.elements = array.elements ++ [copyLiteral literal] ∧ i = array.elements.length := by
  obtain ⟨⟨grown, room⟩, hgrown, h⟩ := Option.map_eq_some_iff.mp h
  obtain ⟨rfl, rfl⟩ := Prod.mk.inj h
  have helements : grown.elements = array.elements := growLiteralArray_elements hgrown
  refine ⟨?_, ?_⟩
  · show (grown.literals.push _ room).elements = _
    rw [Buffer.elements_push]
    exact congrArg (· ++ _) helements
  · rw [← helements, Buffer.length_elements]

theorem pop_elements (array : LiteralArray) :
    (popLiteralArray array).1.elements = array.elements.dropLast ∧
      (popLiteralArray array).2 = array.elements.getLast?.getD .null := by
  have hlength := array.literals.length_elements
  by_cases h : array.count = 0
  · have hempty : array.elements = [] := List.length_eq_zero_iff.mp (hlength.trans h)
    rw [popLiteralArray, if_pos h, hempty]
    exact ⟨rfl, rfl⟩
  · have hpos : 0 < array.literals.count := Nat.pos_of_ne_zero h
    rw [popLiteralArray, if_neg h]
    refine ⟨Buffer.elements_pop _ _, ?_⟩
    show array.literals.slots.getD (array.count - 1) .null = _
    rw [List.getD_eq_getElem?_getD, Buffer.getElem?_slots _ (Nat.sub_lt hpos Nat.one_pos),
      List.getLast?_eq_getElem?, hlength]

theorem set_elements (array : LiteralArray) (index value : Literal) :
    (setLiteralArray array index value).1.elements =
        ((checkedIndex array index).map fun i => array.elements.set i (copyLiteral value)).getD array.elements ∧
      (setLiteralArray array index value).2 = (checkedIndex array index).isSome := by
  unfold setLiteralArray
  cases checkedIndex array index with
  | none => exact ⟨rfl, rfl⟩
  | some i => exact ⟨Buffer.elements_set _ _ _, rfl⟩

theorem checkedIndex_lt {array : LiteralArray} {index : Literal} {i : Nat} (h : checkedIndex array index = some i) :
    i < array.count := by
  simp only [checkedIndex, Option.ite_none_left_eq_some, Option.some.injEq] at h
  omega

theorem get_eq (array : LiteralArray) (index : Literal) :
    getLiteralArray array index =
      (((checkedIndex array index).bind fun i => array.elements[i]?).map copyLiteral).getD .null := by
  unfold getLiteralArray
  cases h : checkedIndex array index with
  | none => rfl
  | some i =>
    have hi := checkedIndex_lt h
    have hlt : i < array.elements.length := by rwa [Buffer.length_elements]
    simp only [Option.bind_some, List.getD_eq_getElem?_getD, Buffer.getElem?_slots _ hi, List.getElem?_eq_getElem hlt,
      Option.map_some, Option.getD_some]

theorem findFrom_eq (literal : Literal) (elements : List Literal) (i : Int) :
    findFrom literal elements i =
      ((elements.findIdx? fun element => element.kind == literal.kind && literalsAreEqual element literal).map
        fun k : Nat => i + k).getD (-1) := by
  induction elements generalizing i with
  | nil => rfl
  | cons element elements ih =>
    rw [findFrom, List.findIdx?_cons, ih]
    -- an element passed over moves every later one on by one
    have hnext : ∀ found : Option Nat, (found.map fun k : Nat => i + 1 + k).getD (-1) =
        ((found.map (· + 1)).map fun k : Nat => i + k).getD (-1) := by
      rintro (_ | k)
      · rfl
      · simp only [Option.map_some, Option.getD_some]
        omega
    by_cases hkind : element.kind = literal.kind
    · cases literalsAreEqual element literal <;> simp [hkind, hnext]
    · simp [hkind, hnext]

theorem findLiteralIndex_eq (array : LiteralArray) (literal : Literal) :
    findLiteralIndex array literal = firstEqual array.elements literal := by
  simp only [findLiteralIndex, findFrom_eq, firstEqual, Int.zero_add]
  rfl

/-! ## Runs -/

/-- The condition under which a call does what it would do to a list. Read at another
    position, an index still gets null if there is null there. -/
def IndicesRead (elements : List Literal) : ArrayCall → Prop
  | .set index _ => IndexRead elements.length index
  | .get index => IndexRead elements.length index ∨
    ∃ v, index.integerValue = some v ∧ elements[(v % (2 ^ readWidth index.kind : Nat)).toNat]? = some .null
  | _ => True

/-- Copying leaves the elements as they are. -/
def CopiedAsIs (array : LiteralArray) : Prop := ∀ l ∈ array.elements, copyLiteral l = l

theorem set_of_read {array : LiteralArray} {index value : Literal} (h : IndexRead array.count index)
    (hvalue : copyLiteral value = value) :
    listStep array.elements (.set index value) =
      some ((setLiteralArray array index value).1.elements, .stored (setLiteralArray array index value).2) := by
  obtain ⟨helements, hdone⟩ := set_elements array index value
  rw [helements, hdone, checkedIndex_of_read h, hvalue]
  rfl

theorem get_of_read {array : LiteralArray} {index : Literal} (h : IndexRead array.count index) (hcopied : CopiedAsIs array) :
    listStep array.elements (.get index) = some (array.elements, .value (getLiteralArray array index)) := by
  rw [get_eq, checkedIndex_of_read h, listStep]
  cases hfound : (listPosition array.elements index).bind fun i => array.elements[i]? with
  | none => rfl
  | some l =>
    obtain ⟨i, -, hi⟩ := Option.bind_eq_some_iff.mp hfound
    rw [Option.map_some, hcopied l (List.mem_of_getElem? hi)]

/-- An index that is not read right gets whatever is at the position it is read as. -/
theorem get_of_misread {array : LiteralArray} {index : Literal} (h : ¬ IndexRead array.count index)
    (hcopied : CopiedAsIs array) :
    listStep array.elements (.get index) = some (array.elements, .value .null) ∧ ∃ v l, index.integerValue = some v ∧
      array.elements[(v % (2 ^ readWidth index.kind : Nat)).toNat]? = some l ∧ getLiteralArray array index = l := by
  obtain ⟨hnone, v, hv, hlt, hchecked⟩ := checkedIndex_of_misread h
  have hin : (v % (2 ^ readWidth index.kind : Nat)).toNat < array.elements.length := by
    rw [Buffer.length_elements]
    exact checkedIndex_lt hchecked
  refine ⟨by rw [listStep, hnone]; rfl, v, _, hv, List.getElem?_eq_getElem hin, ?_⟩
  rw [get_eq, hchecked, Option.bind_some, List.getElem?_eq_getElem hin]
  exact hcopied _ (List.getElem_mem hin)

/-- A call that meets the condition does what it would do to a list. -/
theorem arrayStep_meets (array : LiteralArray) (call : ArrayCall) (next : LiteralArray) (answer : ArrayAnswer)
    (hcopied : CopiedAsIs array) (hstored : ∀ l ∈ call.stored, copyLiteral l = l)
    (h : arrayStep array call = some (next, answer)) (hok : IndicesRead array.elements call) :
    CopiedAsIs next ∧ listStep array.elements call = some (next.elements, answer) := by
  cases call with
  | push literal granted =>
    obtain ⟨⟨pushed, i⟩, hpush, h⟩ := Option.map_eq_some_iff.mp h
    obtain ⟨rfl, rfl⟩ := Prod.mk.inj h
    obtain ⟨helements, rfl⟩ := push_elements hpush
    rw [hstored literal List.mem_cons_self] at helements
    refine ⟨?_, by rw [helements]; rfl⟩
    intro l hl
    rw [helements, List.mem_append, List.mem_singleton] at hl
    rcases hl with hl | rfl
    · exact hcopied l hl
    · exact hstored l List.mem_cons_self
  | pop =>
    obtain ⟨rfl, rfl⟩ := Prod.mk.inj (Option.some.inj h)
    obtain ⟨helements, hlast⟩ := pop_elements array
    refine ⟨fun l hl => hcopied l (List.dropLast_subset _ (helements ▸ hl)), ?_⟩
    rw [helements, hlast]
    rfl
  | find literal =>
    obtain ⟨rfl, rfl⟩ := Prod.mk.inj (Option.some.inj h)
    exact ⟨hcopied, by rw [findLiteralIndex_eq]; rfl⟩
  | set index value =>
    obtain ⟨rfl, rfl⟩ := Prod.mk.inj (Option.some.inj h)
    have hvalue := hstored value List.mem_cons_self
    have hread : IndexRead array.count index := by rwa [IndicesRead, Buffer.length_elements] at hok
    refine ⟨?_, set_of_read hread hvalue⟩
    intro l hl
    rw [(set_elements array index value).1] at hl
    cases hc : checkedIndex array index with
    | none => exact hcopied l (by simpa [hc] using hl)
    | some i =>
      rw [hc, Option.map_some, Option.getD_some, hvalue] at hl
      rcases List.mem_or_eq_of_mem_set hl with hl | rfl
      · exact hcopied l hl
      · exact hvalue
  | get index =>
    obtain ⟨rfl, rfl⟩ := Prod.mk.inj (Option.some.inj h)
    refine ⟨hcopied, ?_⟩
    by_cases hread : IndexRead array.count index
    · exact get_of_read hread hcopied
    · -- read as another position, where null is found
      obtain ⟨hnull, v, l, hv, hl, hgot⟩ := get_of_misread hread hcopied
      rw [IndicesRead, Buffer.length_elements] at hok
      obtain ⟨w, hw, hnullAt⟩ := hok.resolve_left hread
      obtain rfl := Option.some.inj (hv.symm.trans hw)
      rw [hgot, Option.some.inj (hl.symm.trans hnullAt)]
      exact hnull

/-- A call that does not meet the condition answers otherwise. -/
theorem arrayStep_breaks (array : LiteralArray) (call : ArrayCall) (next : LiteralArray) (answer : ArrayAnswer)
    (hcopied : CopiedAsIs array) (h : arrayStep array call = some (next, answer)) (hok : ¬ IndicesRead array.elements call)
    (elements : List Literal) (expected : ArrayAnswer) (hlist : listStep array.elements call = some (elements, expected)) :
    expected ≠ answer := by
  cases call with
  | push | pop | find => exact absurd trivial hok
  | set index value =>
    obtain ⟨rfl, rfl⟩ := Prod.mk.inj (Option.some.inj h)
    obtain ⟨-, rfl⟩ := Prod.mk.inj (Option.some.inj hlist)
    rw [IndicesRead, Buffer.length_elements] at hok
    obtain ⟨hnone, v, hv, hlt, hchecked⟩ := checkedIndex_of_misread hok
    rw [(set_elements array index value).2, hchecked, hnone]
    simp
  | get index =>
    obtain ⟨rfl, rfl⟩ := Prod.mk.inj (Option.some.inj h)
    rw [IndicesRead, Buffer.length_elements, not_or, not_exists] at hok
    obtain ⟨hnull, v, l, hv, hl, hgot⟩ := get_of_misread hok.1 hcopied
    obtain ⟨-, rfl⟩ := Prod.mk.inj (Option.some.inj (hlist.symm.trans hnull))
    rw [hgot]
    rintro ⟨⟩
    exact hok.2 v ⟨hv, hl⟩

/-- Every run of calls, on values that copying leaves as they are, does to the array what it
    would do to a list exactly when no index is read as a position it does not mean. -/
theorem literalArray_refines_iff (calls : List ArrayCall)
    (hstored : ∀ call ∈ calls, ∀ l ∈ call.stored, copyLiteral l = l) {array : LiteralArray}
    {answers : List ArrayAnswer} (h : Calls.run arrayStep (fun _ => false) initLiteralArray calls = some (array, answers)) :
    Calls.run listStep (fun _ => false) [] calls = some (array.elements, answers) ↔
      Calls.Meets listStep (fun _ => false) IndicesRead [] calls :=
  have hinit : CopiedAsIs initLiteralArray := List.forall_mem_nil _
  Calls.run_agrees_iff arrayStep_meets (fun s i t o hI _ hs hok => arrayStep_breaks s i t o hI hs hok) calls hstored hinit h

theorem literalArray_refines_narrow :
    Calls.run listStep (fun _ => false) [] [.push (.integer 7) (some fun _ => .null), .get (.int8 0), .get (.int8 (-1))] =
      some ([.integer 7], [.index 0, .value (.integer 7), .value .null]) :=
  (literalArray_refines_iff [.push (.integer 7) (some fun _ => .null), .get (.int8 0), .get (.int8 (-1))]
    (by simp [ArrayCall.stored, copyLiteral, literalFns, copyBody]) rfl).mpr
    (by
      -- the byte of -1 is read as 255
      refine ⟨trivial, ?_⟩
      rintro _ _ ⟨⟩ -
      refine ⟨.inl ?_, ?_⟩
      · rintro v ⟨⟩
        exact .inl rfl
      rintro _ _ ⟨⟩ -
      refine ⟨.inl ?_, fun _ _ _ _ => trivial⟩
      rintro v ⟨⟩
      exact .inr (by decide))

/-- The index 4294967296 gets the first element of an array of one. -/
theorem get_wraps : ¬ ∀ calls : List ArrayCall, (∀ call ∈ calls, ∀ l ∈ call.stored, copyLiteral l = l) →
    ∀ array answers, Calls.run arrayStep (fun _ => false) initLiteralArray calls = some (array, answers) →
      Calls.run listStep (fun _ => false) [] calls = some (array.elements, answers) := by
  intro h
  have hlist := h [.push (.integer 7) (some fun _ => .null), .get (.int64 4294967296)]
    (by simp [ArrayCall.stored, copyLiteral, literalFns, copyBody]) _ _ rfl
  have hanswers : (.value .null : ArrayAnswer) = .value (.integer 7) :=
    List.head_eq_of_cons_eq (List.tail_eq_of_cons_eq (congrArg Prod.snd (Option.some.inj hlist)))
  exact absurd hanswers (by simp)

/-! ## Runs come to their end -/

theorem push_total {array : LiteralArray} (h : array.count < 2 ^ 30) (literal : Literal) (fresh : Nat → Literal) :
    ∃ pushed, pushLiteralArray array literal (some fresh) = some (pushed, (array.count : Int)) ∧
      pushed.count = array.count + 1 := by
  have hgrow : ∃ grown, growLiteralArray array (some fresh) = some grown ∧ grown.1.count = array.count := by
    unfold growLiteralArray
    split
    · have hint : growCapacity array.capacity < 2 ^ 31 := by
        unfold growCapacity
        split <;> omega
      rw [dif_pos hint]
      exact ⟨_, rfl, rfl⟩
    · exact ⟨_, rfl, rfl⟩
  obtain ⟨⟨grown, room⟩, hgrow, hcount⟩ := hgrow
  rw [pushLiteralArray, hgrow, ← hcount]
  exact ⟨_, rfl, rfl⟩

/-- As long as memory does not run out, the first 2^30 calls are all answered. -/
theorem arrayRun_total (calls : List ArrayCall) (array : LiteralArray) (hlength : array.count + calls.length ≤ 2 ^ 30)
    (hgranted : ∀ literal granted, ArrayCall.push literal granted ∈ calls → granted.isSome) :
    (Calls.run arrayStep (fun _ => false) array calls).isSome := by
  induction calls generalizing array with
  | nil => rfl
  | cons call calls ih =>
    rw [List.length_cons] at hlength
    have hstep : ∃ next answer, arrayStep array call = some (next, answer) ∧ next.count ≤ array.count + 1 := by
      cases call with
      | push literal granted =>
        obtain ⟨fresh, rfl⟩ := Option.isSome_iff_exists.mp (hgranted literal granted List.mem_cons_self)
        obtain ⟨pushed, hpush, hcount⟩ := push_total (by omega : array.count < 2 ^ 30) literal fresh
        exact ⟨pushed, _, by rw [arrayStep, hpush]; rfl, Nat.le_of_eq hcount⟩
      | pop =>
        refine ⟨_, _, rfl, ?_⟩
        unfold popLiteralArray
        split
        · exact Nat.le_succ _
        · exact Nat.le_trans (Nat.sub_le _ _) (Nat.le_succ _)
      | find literal => exact ⟨_, _, rfl, Nat.le_succ _⟩
      | set index value =>
        refine ⟨_, _, rfl, ?_⟩
        unfold setLiteralArray
        split <;> exact Nat.le_succ _
      | get index => exact ⟨_, _, rfl, Nat.le_succ _⟩
    obtain ⟨next, answer, hstep, hcount⟩ := hstep
    have hrest := ih next (by omega) fun literal granted hmem => hgranted literal granted (List.mem_cons_of_mem _ hmem)
    simp [Calls.run, hstep, hrest]

end Xvr.Runtime
