/-
  Xvr.Runtime.Dictionary — the literal dictionary (`xvr_literal_dictionary.cpp`).

  Open addressing with linear probing. `remove` leaves a tombstone (null key, value
  `true`) so that later keys of the chain stay reachable; only growth drops tombstones.
  The dictionary calls the literal functions on its keys and values, and they call it on
  a dictionary literal, so it takes them as a parameter (`LiteralFns`); the knot is tied
  in `Xvr.Runtime.LiteralFns`.

  Where the source dereferences the result of `getEntryArray` without a NULL check, the
  operation answers `none` on a NULL. A capacity is an unbounded number.
-/

import Xvr.Lib.LinearProbe
import Xvr.Runtime.Literal

namespace Xvr.Runtime

open Xvr.Lib.LinearProbe

/-- `Xvr_literalsAreEqual`, `Xvr_hashLiteral` and `Xvr_copyLiteral`. -/
structure LiteralFns where
  equal : Literal → Literal → Bool
  hash : Literal → BitVec 32
  copy : Literal → Literal

/-- `XVR_GROW_CAPACITY`. -/
def growCapacity (capacity : Nat) : Nat := if capacity < 8 then 8 else capacity * 2

theorem lt_growCapacity (capacity : Nat) : capacity < growCapacity capacity := by
  unfold growCapacity
  split <;> omega

/-! ## Entries -/

namespace Entry

def empty : Entry Literal := ⟨.null, .null⟩

/-- What `remove` leaves behind. -/
def tombstone : Entry Literal := ⟨.null, .boolean true⟩

/-- Never used: the only slot that ends a chain. -/
def unused (e : Entry Literal) : Bool := e.key.isNull && e.value.isNull

def live (e : Entry Literal) : Bool := !e.key.isNull

end Entry

def entryAt (array : List (Entry Literal)) (index : Nat) : Entry Literal := array.getD index Entry.empty

variable (F : LiteralFns)

/-! ## The entry array -/

/-- Whether the loop of `getEntryArray` returns the entry it looks at. -/
def stopsAt (key : Literal) (mustExist : Bool) (entry : Entry Literal) : Bool :=
  if entry.key.isNull then entry.value.isNull && !mustExist else F.equal key entry.key

/-- The index of the entry `getEntryArray` returns; `none` is its NULL. -/
def getEntryArray (array : List (Entry Literal)) (key : Literal) (hash : BitVec 32) (mustExist : Bool) : Option Nat :=
  search (fun index => stopsAt F key mustExist (entryAt array index)) array.length hash.toNat

/-- One turn of the second loop of `adjustEntryCapacity`: a key moves, it is not copied. -/
def moveEntry (newEntries : List (Entry Literal)) (entry : Entry Literal) : Option (List (Entry Literal)) :=
  if entry.key.isNull then some newEntries
  else do
    let index ← getEntryArray F newEntries .null (F.hash entry.key) false
    return newEntries.set index entry

def adjustEntryCapacity (oldEntries : List (Entry Literal)) (capacity : Nat) : Option (List (Entry Literal)) :=
  oldEntries.foldlM (moveEntry F) (List.replicate capacity Entry.empty)

def setEntryValues (key value : Literal) : Entry Literal := ⟨F.copy key, F.copy value⟩

/-- The load test of `setEntryArray` and the growth it leads to. -/
def growEntries (entries : List (Entry Literal)) (contains : Nat) : Option (List (Entry Literal)) :=
  -- contains + 1 > capacity * XVR_DICTIONARY_MAX_LOAD, which is 0.75
  if 4 * (contains + 1) > 3 * entries.length then adjustEntryCapacity F entries (growCapacity entries.length)
  else some entries

/-- The new array, and whether the slot's key was null before. -/
def setEntryArray (entries : List (Entry Literal)) (contains : Nat) (key value : Literal) (hash : BitVec 32) :
    Option (List (Entry Literal) × Bool) := do
  let entries ← growEntries F entries contains
  let index ← getEntryArray F entries key hash false
  return (entries.set index (setEntryValues F key value), (entryAt entries index).key.isNull)

/-! ## The exposed operations -/

/-- The three key checks that `set`, `get` and `remove` make, and `exists` does not. -/
def rejectedKey (key : Literal) : Bool :=
  key.isNull || (key.isFunction || key.isFunctionNative || key.isFunctionHook) || key.isOpaque

/-- Growing an array of no entries only allocates it. -/
def initLiteralDictionary : Dictionary :=
  { entries := List.replicate (growCapacity 0) Entry.empty, count := 0, contains := 0 }

def setLiteralDictionary (dictionary : Dictionary) (key value : Literal) : Option Dictionary :=
  if rejectedKey key then some dictionary
  else do
    let (entries, increment) ← setEntryArray F dictionary.entries dictionary.contains key value (F.hash key)
    return if increment then
        { entries, count := dictionary.count + 1, contains := dictionary.contains + 1 }
      else { dictionary with entries }

def getLiteralDictionary (dictionary : Dictionary) (key : Literal) : Literal :=
  if rejectedKey key then .null
  else
    match getEntryArray F dictionary.entries key (F.hash key) true with
    | some index => F.copy (entryAt dictionary.entries index).value
    | none => .null

def removeLiteralDictionary (dictionary : Dictionary) (key : Literal) : Dictionary :=
  if rejectedKey key then dictionary
  else
    match getEntryArray F dictionary.entries key (F.hash key) true with
    | some index =>
      { dictionary with entries := dictionary.entries.set index Entry.tombstone, count := dictionary.count - 1 }
    | none => dictionary

def existsLiteralDictionary (dictionary : Dictionary) (key : Literal) : Option Bool := do
  let index ← getEntryArray F dictionary.entries key (F.hash key) false
  return !(entryAt dictionary.entries index).unused

/-! ## Runs -/

/-- A call, over any type of keys. -/
inductive Op (κ : Type) where
  | set (key : κ) (value : Literal)
  | get (key : κ)
  | remove (key : κ)
  | has (key : κ)
  deriving Repr

inductive Out where
  | done
  | value (v : Literal)
  | found (b : Bool)
  deriving Repr

def Op.key {κ : Type} : Op κ → κ
  | .set k _ | .get k | .remove k | .has k => k

def Op.map {κ κ' : Type} (f : κ → κ') : Op κ → Op κ'
  | .set k v => .set (f k) v
  | .get k => .get (f k)
  | .remove k => .remove (f k)
  | .has k => .has (f k)

def step (dictionary : Dictionary) : Op Literal → Option (Dictionary × Out)
  | .set k v => return (← setLiteralDictionary F dictionary k v, .done)
  | .get k => return (dictionary, .value (getLiteralDictionary F dictionary k))
  | .remove k => return (removeLiteralDictionary F dictionary k, .done)
  | .has k => return (dictionary, .found (← existsLiteralDictionary F dictionary k))

/-- The calls in order, with what each of them returned. -/
def run (dictionary : Dictionary) : List (Op Literal) → Option (Dictionary × List Out)
  | [] => some (dictionary, [])
  | op :: ops => do
    let (dictionary, out) ← step F dictionary op
    let (dictionary, outs) ← run dictionary ops
    return (dictionary, out :: outs)

end Xvr.Runtime
