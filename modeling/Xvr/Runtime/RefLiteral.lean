/-
  Xvr.Runtime.RefLiteral — literals over counted strings (`xvr_refstring.cpp`,
  `Xvr_freeLiteral`, `Xvr_copyLiteral`).

  Here a string or identifier is a pointer to a `Xvr_RefString`, and copying and freeing
  change its count. Everything else is as in `Xvr.Runtime.Literal`: `erase` reads the texts
  behind the pointers, and searches, equality and hashes are those of the erased literals
  (`Xvr_equalsRefString` answers true for one pointer, as it does for one text).

  A string released is noted and keeps its place. No function literals: they hold a scope.
  Not modelled: the memory of arrays, tables and subtypes, and a string pointer that is NULL.
-/

import Xvr.Runtime.LiteralFns

namespace Xvr.Runtime

/-- `Xvr_RefString`. -/
structure RefString where
  text : List Char
  refCount : Int
  deriving Repr

/-- The strings by their pointers, and the pointers released so far. -/
structure Strings where
  refs : Nat → RefString
  released : List Nat

def Strings.text (s : Strings) (ptr : Nat) : List Char := (s.refs ptr).text

def Strings.setCount (s : Strings) (ptr : Nat) (refCount : Int) : Strings :=
  { s with refs := fun p => if p = ptr then { s.refs p with refCount } else s.refs p }

def copyRefString (ptr : Nat) : StateM Strings Unit :=
  modify fun s => s.setCount ptr ((s.refs ptr).refCount + 1)

def deleteRefString (ptr : Nat) : StateM Strings Unit :=
  modify fun s =>
    let refCount := (s.refs ptr).refCount - 1
    let s := s.setCount ptr refCount
    if refCount ≤ 0 then { s with released := ptr :: s.released } else s

/-! ## Literals -/

/-- The kinds with nothing inside and no string. -/
def Literal.isScalar : Literal → Bool
  | .string _ | .identifier _ | .array _ | .dictionary _ | .type _ _ _ | .function _ => false
  | .arrayIntermediate _ | .dictionaryIntermediate _ | .typeIntermediate _ => false
  | _ => true

abbrev Scalar := { l : Literal // l.isScalar = true }

inductive RefLiteral where
  | scalar (value : Scalar)
  | string (ptr : Nat)
  | identifier (ptr : Nat)
  | array (elements : List RefLiteral)
  | dictionary (held : LiteralDictionary RefLiteral)
  | type (typeOf : LiteralType) (constant : Bool) (subtypes : List RefLiteral)
  | arrayIntermediate (elements : List RefLiteral)
  | dictionaryIntermediate (elements : List RefLiteral)
  | typeIntermediate (elements : List RefLiteral)

abbrev RefDictionary := LiteralDictionary RefLiteral

namespace RefLiteral

def null : RefLiteral := .scalar ⟨.null, rfl⟩

def isNull : RefLiteral → Bool
  | .scalar l => l.1.isNull
  | _ => false

end RefLiteral

def RefEntry.empty : Entry RefLiteral := ⟨.null, .null⟩

def refEntryAt (array : List (Entry RefLiteral)) (index : Nat) : Entry RefLiteral := array.getD index RefEntry.empty

mutual

/-- The literal over the texts the pointers lead to. -/
def RefLiteral.erase (text : Nat → List Char) : RefLiteral → Literal
  | .scalar l => l.1
  | .string p => .string (text p)
  | .identifier p => .identifier (text p)
  | .array es => .array (eraseList text es)
  | .dictionary d => .dictionary (eraseDictionary text d)
  | .type t c subtypes => .type t c (eraseList text subtypes)
  | .arrayIntermediate es => .arrayIntermediate (eraseList text es)
  | .dictionaryIntermediate es => .dictionaryIntermediate (eraseList text es)
  | .typeIntermediate es => .typeIntermediate (eraseList text es)

def eraseList (text : Nat → List Char) : List RefLiteral → List Literal
  | [] => []
  | l :: ls => l.erase text :: eraseList text ls

def eraseDictionary (text : Nat → List Char) : LiteralDictionary RefLiteral → LiteralDictionary Literal
  | ⟨entries, count, contains⟩ => ⟨eraseEntries text entries, count, contains⟩

def eraseEntries (text : Nat → List Char) : List (Entry RefLiteral) → List (Entry Literal)
  | [] => []
  | e :: es => eraseEntry text e :: eraseEntries text es

def eraseEntry (text : Nat → List Char) : Entry RefLiteral → Entry Literal
  | ⟨key, value⟩ => ⟨key.erase text, value.erase text⟩

end

mutual

/-- How many pointers to the string are in the tree. -/
def RefLiteral.occurrences (r : Nat) : RefLiteral → Nat
  | .scalar _ => 0
  | .string p | .identifier p => if p = r then 1 else 0
  | .array es | .arrayIntermediate es | .dictionaryIntermediate es | .typeIntermediate es => occurrencesList r es
  | .type _ _ subtypes => occurrencesList r subtypes
  | .dictionary d => occurrencesDictionary r d

def occurrencesList (r : Nat) : List RefLiteral → Nat
  | [] => 0
  | l :: ls => l.occurrences r + occurrencesList r ls

def occurrencesDictionary (r : Nat) : LiteralDictionary RefLiteral → Nat
  | ⟨entries, _, _⟩ => occurrencesEntries r entries

def occurrencesEntries (r : Nat) : List (Entry RefLiteral) → Nat
  | [] => 0
  | e :: es => occurrencesEntry r e + occurrencesEntries r es

/-- A slot without a key holds no literal with strings: it is unused or a tombstone. -/
def occurrencesEntry (r : Nat) : Entry RefLiteral → Nat
  | ⟨key, value⟩ => if key.isNull then 0 else key.occurrences r + value.occurrences r

end

/-! ## Freeing -/

mutual

def freeLiteral : RefLiteral → StateM Strings Unit
  | .string p | .identifier p => deleteRefString p
  | .array es | .arrayIntermediate es | .dictionaryIntermediate es | .typeIntermediate es => freeLiteralArray es
  | .dictionary d => freeLiteralDictionary d
  | .type _ _ subtypes => freeLiteralArray subtypes
  | .scalar _ => pure ()

def freeLiteralArray : List RefLiteral → StateM Strings Unit
  | [] => pure ()
  | l :: ls => do
    freeLiteral l
    freeLiteralArray ls

def freeLiteralDictionary : LiteralDictionary RefLiteral → StateM Strings Unit
  | ⟨entries, _, _⟩ => freeEntryArray entries

def freeEntryArray : List (Entry RefLiteral) → StateM Strings Unit
  | [] => pure ()
  | e :: es => do
    freeEntry e
    freeEntryArray es

/-- The turn of `freeEntryArray` for one entry. -/
def freeEntry : Entry RefLiteral → StateM Strings Unit
  | ⟨key, value⟩ =>
    if key.isNull then pure ()
    else do
      freeLiteral key
      freeLiteral value

end

/-! ## Dictionaries -/

/-- `getEntryArray`, which reads texts and leaves the counts alone. -/
def getRefEntry (text : Nat → List Char) (array : List (Entry RefLiteral)) (key : Literal) (hash : BitVec 32) :
    Option Nat := getEntryArray realFns (eraseEntries text array) key hash false

def moveRefEntry (text : Nat → List Char) (newEntries : List (Entry RefLiteral)) (entry : Entry RefLiteral) :
    Option (List (Entry RefLiteral)) :=
  if entry.key.isNull then some newEntries
  else do
    let index ← getRefEntry text newEntries .null (hashLiteral (entry.key.erase text))
    return newEntries.set index entry

def growRefEntries (text : Nat → List Char) (entries : List (Entry RefLiteral)) (contains : Nat) :
    Option (List (Entry RefLiteral)) :=
  if 4 * (contains + 1) > 3 * entries.length then
    entries.foldlM (moveRefEntry text) (List.replicate (growCapacity entries.length) RefEntry.empty)
  else some entries

def initRefDictionary : RefDictionary :=
  { entries := List.replicate (growCapacity 0) RefEntry.empty, count := 0, contains := 0 }

section Bodies

variable (copy : RefLiteral → StateM Strings RefLiteral)

/-- `setEntryValues`: what the slot held is freed, and the arguments are copied into it. -/
def setRefEntryValues (entry : Entry RefLiteral) (key value : RefLiteral) : StateM Strings (Entry RefLiteral) := do
  freeLiteral entry.key
  let key ← copy key
  freeLiteral entry.value
  let value ← copy value
  return ⟨key, value⟩

/-- `Xvr_setLiteralDictionary`; a NULL slot, which the source would write through, leaves
    the dictionary as it is. -/
def setRefDictionary (dictionary : RefDictionary) (key value : RefLiteral) : StateM Strings RefDictionary := do
  let text := (← get).text
  if rejectedKey (key.erase text) then return dictionary
  match growRefEntries text dictionary.entries dictionary.contains with
  | none => return dictionary
  | some entries =>
    match getRefEntry text entries (key.erase text) (hashLiteral (key.erase text)) with
    | none => return dictionary
    | some index =>
      let increment := (refEntryAt entries index).key.isNull
      let entry ← setRefEntryValues copy (refEntryAt entries index) key value
      return if increment then
          ⟨entries.set index entry, dictionary.count + 1, dictionary.contains + 1⟩
        else { dictionary with entries := entries.set index entry }

/-- `Xvr_pushLiteralArray` for each element. -/
def pushElements : List RefLiteral → StateM Strings (List RefLiteral)
  | [] => pure []
  | l :: ls => do
    let pushed ← copy l
    let rest ← pushElements ls
    return pushed :: rest

/-- An intermediate's elements are copied, pushed (which copies once more) and freed. -/
def pushIntermediate : List RefLiteral → StateM Strings (List RefLiteral)
  | [] => pure []
  | l :: ls => do
    let literal ← copy l
    let pushed ← copy literal
    freeLiteral literal
    let rest ← pushIntermediate ls
    return pushed :: rest

/-- Every entry with a key is set in the copy. -/
def setRefEntries : List (Entry RefLiteral) → RefDictionary → StateM Strings RefDictionary
  | [], dictionary => return dictionary
  | e :: es, dictionary =>
    if e.key.isNull then setRefEntries es dictionary
    else do
      let dictionary ← setRefDictionary copy dictionary e.key e.value
      setRefEntries es dictionary

def copyRefBody : RefLiteral → StateM Strings RefLiteral
  | .scalar l => return .scalar l
  | .string p => do
    copyRefString p
    return .string p
  | .identifier p => do
    copyRefString p
    return .identifier p
  | .array es => return .array (← pushElements copy es)
  | .dictionary d => return .dictionary (← setRefEntries copy d.entries initRefDictionary)
  | .type t c subtypes => return .type t c (← pushElements copy subtypes)
  | .arrayIntermediate es => return .arrayIntermediate (← pushIntermediate copy es)
  | .dictionaryIntermediate es => return .dictionaryIntermediate (← pushIntermediate copy es)
  | .typeIntermediate es => return .typeIntermediate (← pushIntermediate copy es)

end Bodies

/-- The copy of a literal nested less than the given depth. -/
def copyRefAt : Nat → RefLiteral → StateM Strings RefLiteral
  | 0, original => return original
  | n + 1, original => copyRefBody (copyRefAt n) original

/-- `Xvr_copyLiteral`. -/
def copyRefLiteral (original : RefLiteral) : StateM Strings RefLiteral := do
  let text := (← get).text
  copyRefAt ((original.erase text).depth + 1) original

end Xvr.Runtime
