/-
  Xvr.Runtime.Scope — the scopes of the interpreter (`xvr_scope.cpp`).

  A scope holds two dictionaries, the values and the declared types of its variables, a
  pointer to its ancestor and a reference count. Scopes live in a heap of cells; a pointer
  is the number of a cell, and cells are never handed out twice. A freed cell keeps what it
  held, but every access to it answers `none`, as does every other read the source may not
  make: past the end of a type's subtypes, or of a union member that was not stored.

  Not modelled: the scope a function literal carries, and with it the loop of
  `Xvr_popScope` that pops those scopes.
-/

import Xvr.Runtime.LiteralFns

namespace Xvr.Runtime

/-! ## Type checks -/

namespace Literal

def isArray (l : Literal) : Bool := l.kind == .array
def isDictionary (l : Literal) : Bool := l.kind == .dictionary
def isType (l : Literal) : Bool := l.kind == .type

/-- `XVR_AS_ARRAY`: the kinds that store the array member. -/
def asArray : Literal → Option (List Literal)
  | .array es | .arrayIntermediate es | .dictionaryIntermediate es | .typeIntermediate es => some es
  | _ => none

/-- `XVR_AS_DICTIONARY`. -/
def asDictionary : Literal → Option Dictionary
  | .dictionary d => some d
  | _ => none

end Literal

/-- The tests of `checkType` that read nothing but the two kinds. -/
def kindMismatch (typeOf : LiteralType) (value : Literal) : Bool :=
  match typeOf with
  | .boolean => !value.isBoolean
  | .integer => !value.isInteger
  | .float => !value.isFloat
  | .string => !value.isString
  | .array => !value.isArray
  | .dictionary => !value.isDictionary
  | .function => !value.isFunction
  | .type => !value.isType
  | .opaquePtr => !value.isOpaque
  | _ => false

/-- A loop that returns false at the first element that fails its check. -/
def checkEach {α : Type} (check : α → Option Bool) : List α → Option Bool
  | [] => some true
  | x :: xs => do if ← check x then checkEach check xs else some false

section Body

-- `checkType` against the subtype with a given index
variable (sub : Nat → Literal → Literal → Option Bool)

/-- The children of an array that replaces an array. -/
def checkElements : List Literal → List Literal → Option Bool
  | _, [] => some true
  -- assume new entry pushed
  | [], _ :: _ => some true
  | original :: originals, value :: values => do
    if ← sub 0 original value then checkElements originals values else some false

/-- The key, then the value, against the entry that is replaced. -/
def checkEntry (original value : Entry Literal) : Option Bool := do
  if ← sub 0 original.key value.key then sub 1 original.value value.value else some false

/-- One turn of the loop over a dictionary that replaces a dictionary. -/
def checkReplaced (original : Dictionary) (entry : Entry Literal) : Option Bool :=
  if entry.key.isNull then some true
  else
    match original.entries.find? fun e => literalsAreEqual e.key entry.key with
    -- if not found, assume it's a new entry
    | none => some true
    | some found => checkEntry sub found entry

def checkBody (typeOf : LiteralType) (constant : Bool) (original value : Literal) (constCheck : Bool) : Option Bool :=
  -- for constants, fail if original != value
  if constCheck && constant && !literalsAreEqual original value then some false
  else if typeOf = .any then some true
  -- don't allow null types
  else if typeOf = .null then some false
  -- always allow null values
  else if value.isNull then some true
  else if kindMismatch typeOf value then some false
  else
    match value with
    | .array elements =>
      if typeOf ≠ .array then some false
      -- if null, assume it's a new array variable that needs checking
      else if original.isNull then checkEach (sub 0 .null) elements
      else do checkElements sub (← original.asArray) elements
    | .dictionary held =>
      if typeOf ≠ .dictionary then some false
      else if original.isNull then checkEach (checkEntry sub Entry.empty) held.entries
      else do checkEach (checkReplaced sub (← original.asDictionary)) held.entries
    | _ => some true

end Body

mutual

/-- `checkType(typeLiteral, original, value, constCheck)`. -/
def checkType (constCheck : Bool) : Literal → Literal → Literal → Option Bool
  | .type typeOf constant subtypes, original, value =>
    checkBody (checkSubtype constCheck subtypes) typeOf constant original value constCheck
  | _, _, _ => none

/-- `checkType(subtypes[i], original, value, constCheck)`. -/
def checkSubtype (constCheck : Bool) : List Literal → Nat → Literal → Literal → Option Bool
  | [], _, _, _ => none
  | subtype :: _, 0, original, value => checkType constCheck subtype original value
  | _ :: subtypes, i + 1, original, value => checkSubtype constCheck subtypes i original value

end

/-! ## The heap -/

/-- `Xvr_Scope`; its `variables` are `vars` here. -/
structure Scope where
  ancestor : Option Nat
  references : Int
  vars : Dictionary
  types : Dictionary

/-- Memory handed out for a scope. -/
structure Cell where
  scope : Scope
  freed : Bool

abbrev Heap := List Cell

namespace Heap

def read (heap : Heap) (p : Nat) : Option Scope := do
  let cell ← heap[p]?
  if cell.freed then none else some cell.scope

def write (heap : Heap) (p : Nat) (scope : Scope) : Heap := heap.set p ⟨scope, false⟩

def free (heap : Heap) (p : Nat) : Heap := heap.modify p fun cell => { cell with freed := true }

/-- The parent of a cell, freed or not. -/
def parent (heap : Heap) (p : Nat) : Option Nat := heap[p]?.bind fun cell => cell.scope.ancestor

end Heap

/-- `for (ptr = scope; ptr != NULL; ptr = ptr->ancestor) ptr->references++`, for at most
    the given number of turns. -/
def tickUp : Nat → Heap → Option Nat → Option Heap
  | _, heap, none => some heap
  | 0, _, some _ => none
  | n + 1, heap, some p => do
    let scope ← heap.read p
    tickUp n (heap.write p { scope with references := scope.references + 1 }) scope.ancestor

/-- `freeAncestorChain`, at most the given number of calls deep. -/
def freeAncestorChain : Nat → Heap → Nat → Option Heap
  | 0, _, _ => none
  | n + 1, heap, p => do
    let scope ← heap.read p
    let heap := heap.write p { scope with references := scope.references - 1 }
    let heap ← scope.ancestor.elim (some heap) (freeAncestorChain n heap)
    let scope ← heap.read p
    if scope.references > 0 then some heap else some (heap.free p)

/-! ## The exposed operations -/

/-- A new cell, its chain ticked up: the heap and the pointer. -/
def allocate (heap : Heap) (ancestor : Option Nat) : Option (Heap × Nat) := do
  let scope := heap.length
  let heap := heap ++ [⟨⟨ancestor, 0, initLiteralDictionary, initLiteralDictionary⟩, false⟩]
  return (← tickUp heap.length heap (some scope), scope)

def pushScope (heap : Heap) (ancestor : Option Nat) : Option (Heap × Nat) := allocate heap ancestor

def popScope (heap : Heap) : Option Nat → Option (Heap × Option Nat)
  -- CAN pop a null
  | none => some (heap, none)
  | some p => do
    let scope ← heap.read p
    return (← freeAncestorChain heap.length heap p, scope.ancestor)

/-- Every live entry, set again. -/
def copyEntries (original : Dictionary) : Option Dictionary :=
  original.entries.foldlM
    (fun copy e => if e.key.isNull then some copy else setLiteralDictionary realFns copy e.key e.value)
    initLiteralDictionary

def copyScope (heap : Heap) (original : Nat) : Option (Heap × Nat) := do
  let source ← heap.read original
  let (heap, p) ← allocate heap source.ancestor
  let source ← heap.read original
  let scope ← heap.read p
  let vars ← copyEntries source.vars
  let types ← copyEntries source.types
  return (heap.write p { scope with vars, types }, p)

/-- The scope declared in, and whether the variable is new there. -/
def declareScopeVariable (heap : Heap) (p : Nat) (key type : Literal) : Option (Heap × Bool) := do
  let scope ← heap.read p
  -- don't redefine a variable within this scope
  if ← existsLiteralDictionary realFns scope.vars key then return (heap, false)
  if !type.isType then return (heap, false)
  let types ← setLiteralDictionary realFns scope.types key type
  let vars ← setLiteralDictionary realFns scope.vars key .null
  return (heap.write p { scope with vars, types }, true)

/-- The first scope of a chain with the key in the dictionary a search looks at; `some none`
    when the chain ends before. -/
def findScope (dictionary : Scope → Dictionary) (key : Literal) : Nat → Heap → Option Nat → Option (Option Nat)
  | _, _, none => some none
  | 0, _, some _ => none
  | n + 1, heap, some p => do
    let scope ← heap.read p
    if ← existsLiteralDictionary realFns (dictionary scope) key then some (some p)
    else findScope dictionary key n heap scope.ancestor

def isDeclaredScopeVariable (heap : Heap) (scope : Option Nat) (key : Literal) : Option Bool := do
  return (← findScope Scope.vars key heap.length heap scope).isSome

def setScopeVariable (heap : Heap) (scope : Option Nat) (key value : Literal) (constCheck : Bool) :
    Option (Heap × Bool) := do
  match ← findScope Scope.vars key heap.length heap scope with
  | none => return (heap, false)
  | some p =>
    let scope ← heap.read p
    let typeLiteral := getLiteralDictionary realFns scope.types key
    let original := getLiteralDictionary realFns scope.vars key
    if ← checkType constCheck typeLiteral original value then
      let vars ← setLiteralDictionary realFns scope.vars key value
      return (heap.write p { scope with vars }, true)
    else return (heap, false)

/-- The value written to the handle; none is written when the result is false. -/
def getScopeVariable (heap : Heap) (scope : Option Nat) (key : Literal) : Option (Option Literal) := do
  match ← findScope Scope.vars key heap.length heap scope with
  | none => return none
  | some p => return some (getLiteralDictionary realFns (← heap.read p).vars key)

def getScopeType (heap : Heap) (scope : Option Nat) (key : Literal) : Option Literal := do
  match ← findScope Scope.types key heap.length heap scope with
  | none => return .null
  | some p => return getLiteralDictionary realFns (← heap.read p).types key

/-! ## Runs -/

inductive Call where
  | push (ancestor : Option Nat)
  | copy (original : Nat)
  | pop (scope : Option Nat)
  | declare (scope : Nat) (key type : Literal)
  | isDeclared (scope : Option Nat) (key : Literal)
  | set (scope : Option Nat) (key value : Literal) (constCheck : Bool)
  | get (scope : Option Nat) (key : Literal)
  | getType (scope : Option Nat) (key : Literal)

inductive Answer where
  | scope (p : Option Nat)
  | flag (b : Bool)
  | value (written : Option Literal)
  | type (l : Literal)

/-- The heap, and the handles that have been returned by a push or a copy and not popped. -/
structure World where
  heap : Heap
  unpopped : List Nat

namespace World

def init : World := ⟨[], []⟩

def step (w : World) : Call → Option (World × Answer)
  | .push ancestor => do
    let (heap, p) ← pushScope w.heap ancestor
    return (⟨heap, p :: w.unpopped⟩, .scope (some p))
  | .copy original => do
    let (heap, p) ← copyScope w.heap original
    return (⟨heap, p :: w.unpopped⟩, .scope (some p))
  | .pop scope => do
    let (heap, ancestor) ← popScope w.heap scope
    return (⟨heap, scope.elim w.unpopped w.unpopped.erase⟩, .scope ancestor)
  | .declare scope key type => do
    let (heap, declared) ← declareScopeVariable w.heap scope key type
    return ({ w with heap }, .flag declared)
  | .isDeclared scope key => return (w, .flag (← isDeclaredScopeVariable w.heap scope key))
  | .set scope key value constCheck => do
    let (heap, assigned) ← setScopeVariable w.heap scope key value constCheck
    return ({ w with heap }, .flag assigned)
  | .get scope key => return (w, .value (← getScopeVariable w.heap scope key))
  | .getType scope key => return (w, .type (← getScopeType w.heap scope key))

/-- The calls in order, with what each of them answered. -/
def run (w : World) : List Call → Option (World × List Answer)
  | [] => some (w, [])
  | call :: calls => do
    let (w, answer) ← w.step call
    let (w, answers) ← run w calls
    return (w, answer :: answers)

end World

namespace Call

/-- The handle a call is given; NULL is one where the source allows it. -/
def handle : Call → Option Nat
  | .copy p | .declare p _ _ => some p
  | .push p | .pop p | .isDeclared p _ | .set p _ _ _ | .get p _ | .getType p _ => p

/-- The key a call is given, if any. -/
def key : Call → Option Literal
  | .declare _ key _ | .isDeclared _ key | .set _ key _ _ | .get _ key | .getType _ key => some key
  | .push _ | .copy _ | .pop _ => none

/-- The handle, unless NULL, has not been popped. -/
def OnUnpopped (w : World) (call : Call) : Prop := ∀ p ∈ call.handle, p ∈ w.unpopped

end Call

/-- The states reached by calls each of which is allowed in the state it is made in. -/
inductive Reach (allowed : World → Call → Prop) : World → Prop
  | init : Reach allowed World.init
  | step {w w' : World} {answer : Answer} (call : Call) : Reach allowed w → allowed w call →
      w.step call = some (w', answer) → Reach allowed w'

end Xvr.Runtime
