/-
  Xvr.Runtime.ScopeDeclare — declarations, whatever the key and the type are.

  A scope takes any literal for a key: the dictionaries turn some kinds away without a word,
  and keep the others. So nothing is assumed here of the calls that led to a state but that
  they returned.

  Proved:
  - `reach_searchable`: in every state an identifier is found in the tables of a scope exactly
    when one of the entries has an equal key.
  - `declare_finds`: after a declaration of a key the tables keep, both of them find it.
  - `declares_right_iff`: a declaration does what it should exactly when the key is an
    identifier, the type is none, or the key is found before.
-/

import Xvr.Runtime.ScopeFrames

namespace Xvr.Runtime

open Xvr.Lib.LinearProbe
open scoped List

/-! ## Identifiers as keys -/

/-- `XVR_IS_IDENTIFIER`. -/
def Literal.isIdentifier (l : Literal) : Bool := l.kind == .identifier

theorem isIdentifier_iff {l : Literal} : l.isIdentifier = true ↔ ∃ name, l = .identifier name := by
  cases l <;> simp [Literal.isIdentifier, Literal.kind]

theorem identifier_accepted {key : Literal} (h : key.isIdentifier = true) : rejectedKey key = false := by
  obtain ⟨name, rfl⟩ := isIdentifier_iff.mp h
  rfl

theorem identifier_copied {key : Literal} (h : key.isIdentifier = true) : copyLiteral key = key := by
  obtain ⟨name, rfl⟩ := isIdentifier_iff.mp h
  rfl

theorem copy_isIdentifier (l : Literal) : (copyLiteral l).isIdentifier = l.isIdentifier := by
  rw [Literal.isIdentifier, copyLiteral_kind, Literal.isIdentifier]

theorem strncmpEqual_refl (text : List Char) : strncmpEqual text text = true := by
  induction text with
  | nil => rfl
  | cons c text ih => simp [strncmpEqual, ih]

theorem equal_identifiers (name other : List Char) : literalsAreEqual (.identifier name) (.identifier other) =
    (hashString name == hashString other && equalsRefString name other) := rfl

theorem identifier_equal_self {key : Literal} (h : key.isIdentifier = true) : literalsAreEqual key key = true := by
  obtain ⟨name, rfl⟩ := isIdentifier_iff.mp h
  simp [equal_identifiers, equalsRefString, strncmpEqual_refl]

/-- What equals an identifier is one, with the same hash. -/
theorem identifier_equal {key other : Literal} (h : key.isIdentifier = true) (heq : literalsAreEqual key other = true) :
    other.isIdentifier = true ∧ hashLiteral key = hashLiteral other := by
  obtain ⟨name, rfl⟩ := isIdentifier_iff.mp h
  cases other with
  | identifier otherName =>
    rw [equal_identifiers, Bool.and_eq_true, beq_iff_eq] at heq
    exact ⟨rfl, heq.1⟩
  | _ => exact absurd heq (by simp [literalsAreEqual, literalFns, equalBody, Literal.kind, Literal.isInteger, Literal.isFloat])

/-! ## Tables with any keys -/

/-- What holds of a table whatever keys it was given: there is room, and identifiers are where
    a search gets to. -/
structure Searchable (d : Dictionary) : Prop where
  room : Room d.entries d.contains
  reachable : ReachableOn realFns (fun key => key.isIdentifier = true) d.entries

/-- An entry of the table has an equal key. -/
def HasKey (d : Dictionary) (key : Literal) : Prop := ∃ e ∈ liveEntries d.entries, literalsAreEqual key e.key = true

theorem searchable_init : Searchable initLiteralDictionary where
  room := init_inv.toRoom (F := realFns)
  reachable := (reachable_replicate _).on _

namespace Searchable

variable {d d' : Dictionary} {key value : Literal}

/-- A key the tables keep is set in the slot a search for it gets to. -/
theorem set_slot (h : Searchable d) (hk : rejectedKey key = false) (value : Literal) :
    ∃ d' array i, setLiteralDictionary realFns d key value = some d' ∧
      d'.entries = array.set i (setEntryValues realFns key value) ∧
      getEntryArray realFns array key (hashLiteral key) false = some i ∧ Searchable d' := by
  obtain ⟨array, i, hgrow, hroom, hload, -, -, hfind, hset⟩ := set_room lawful_realFns h.room value hk
  obtain ⟨-, hchain⟩ := getEntryArray_some hfind
  have hlive := setEntryValues_live lawful_realFns hk value
  have hreach : ReachableOn realFns (fun key => key.isIdentifier = true) array := by
    rcases growEntries_reachable lawful_realFns h.room hgrow with rfl | hall
    · exact h.reachable
    · exact hall.on _
  refine ⟨_, array, i, hset, rfl, hfind, room_set hroom hload hchain.lt hlive, ?_⟩
  refine reachableOn_set hreach hchain.lt (live_unused hlive) fun _ hkey => ?_
  -- an identifier is kept as it is, so its home is where the search began
  have hidentifier : key.isIdentifier = true := by rw [← copy_isIdentifier]; exact hkey
  have hsame : (setEntryValues realFns key value).key = key := identifier_copied hidentifier
  rw [hsame]
  exact chain_used hchain

theorem set_total (h : Searchable d) (key value : Literal) :
    ∃ d', setLiteralDictionary realFns d key value = some d' ∧ Searchable d' := by
  cases hk : rejectedKey key with
  | true => exact ⟨d, by simp [setLiteralDictionary, hk], h⟩
  | false =>
    obtain ⟨d', _, _, hset, _, _, hd'⟩ := h.set_slot hk value
    exact ⟨d', hset, hd'⟩

theorem set (h : Searchable d) (hset : setLiteralDictionary realFns d key value = some d') : Searchable d' := by
  obtain ⟨d'', hset', hd''⟩ := h.set_total key value
  rwa [Option.some.inj (hset.symm.trans hset')]

theorem exists_total (h : Searchable d) (key : Literal) : ∃ b, existsLiteralDictionary realFns d key = some b := by
  obtain ⟨i, hi⟩ := getEntryArray_isSome (F := realFns) h.room.free key (hashLiteral key)
  exact ⟨_, by rw [existsLiteralDictionary, show realFns.hash key = hashLiteral key from rfl, hi]; rfl⟩

/-- An identifier is found exactly when it is there. -/
theorem exists_identifier (h : Searchable d) (hk : key.isIdentifier = true) :
    existsLiteralDictionary realFns d key = some true ↔ HasKey d key := by
  obtain ⟨i, hi⟩ := getEntryArray_isSome (F := realFns) h.room.free key (realFns.hash key)
  obtain ⟨hstop, hchain⟩ := getEntryArray_some hi
  rw [existsLiteralDictionary, hi]
  show some (!(entryAt d.entries i).unused) = some true ↔ _
  cases hu : (entryAt d.entries i).unused with
  | false =>
    rcases stopsAt_false.mp hstop with hunused | ⟨hlive, hequal⟩
    · rw [hu] at hunused
      cases hunused
    · exact ⟨fun _ => ⟨_, mem_liveEntries.mpr ⟨i, hchain.lt, rfl, hlive⟩, hequal⟩, fun _ => rfl⟩
  | true =>
    refine ⟨fun hfound => absurd hfound (by simp), ?_⟩
    rintro ⟨e, he, hequal⟩
    have hpassed := search_passed_on h.reachable (fun _ _ heq => identifier_equal hk heq) hi hu e he
    rw [show realFns.equal key e.key = literalsAreEqual key e.key from rfl, hequal] at hpassed
    cases hpassed

end Searchable

/-- A search that ended at a slot ends there again when the key is written into it. -/
theorem search_written {array : List (Entry Literal)} {key : Literal} {hash : BitVec 32} {i : Nat}
    (h : getEntryArray realFns array key hash false = some i) {e : Entry Literal} (hlive : e.live = true)
    (hequal : realFns.equal key e.key = true) (mustExist : Bool) :
    getEntryArray realFns (array.set i e) key hash mustExist = some i := by
  obtain ⟨hstop, k, hk, hslot, hpass⟩ := getEntryArray_some h
  have hlt : i < array.length := by
    rw [← hslot]
    exact slot_lt (by omega) _ _
  have hhit : stopsAt realFns key mustExist (entryAt (array.set i e) i) = true := by
    rw [entryAt_set hlt, if_pos rfl]
    cases mustExist with
    | true => exact stopsAt_true.mpr ⟨hlive, hequal⟩
    | false => exact stopsAt_false.mpr (.inr ⟨hlive, hequal⟩)
  refine search_of_chain hhit ⟨k, by rwa [List.length_set], by rwa [List.length_set], fun j hj => ?_⟩
  have hbefore : stopsAt realFns key false (entryAt array (slot array.length hash.toNat j)) = false := hpass j hj
  have hne : slot array.length hash.toNat j ≠ i := by
    intro heq
    rw [heq, hstop] at hbefore
    cases hbefore
  simp only [List.length_set, entryAt_set hlt, if_neg hne]
  cases mustExist with
  | false => exact hbefore
  | true =>
    -- what a search that must find stops at stops every search
    rw [← Bool.not_eq_true, stopsAt_false] at hbefore
    rw [← Bool.not_eq_true, stopsAt_true]
    exact fun hstops => hbefore (.inr hstops)

theorem Searchable.set_found {d : Dictionary} {key : Literal} (h : Searchable d) (hk : key.isIdentifier = true)
    (value : Literal) : ∃ d', setLiteralDictionary realFns d key value = some d' ∧
      existsLiteralDictionary realFns d' key = some true ∧
      getLiteralDictionary realFns d' key = copyLiteral (copyLiteral value) := by
  have haccepted := identifier_accepted hk
  obtain ⟨d', array, i, hset, hentries, hfind, -⟩ := h.set_slot haccepted value
  have hlt := (getEntryArray_some hfind).2.lt
  have hlive := setEntryValues_live lawful_realFns haccepted value
  have hequal : realFns.equal key (setEntryValues realFns key value).key = true := by
    show literalsAreEqual key (copyLiteral key) = true
    rw [identifier_copied hk]
    exact identifier_equal_self hk
  have hentry : entryAt d'.entries i = setEntryValues realFns key value := by rw [hentries, entryAt_set hlt, if_pos rfl]
  have hsearch (mustExist : Bool) : getEntryArray realFns d'.entries key (realFns.hash key) mustExist = some i := by
    rw [hentries]
    exact search_written hfind hlive hequal mustExist
  refine ⟨d', hset, ?_, ?_⟩
  · rw [existsLiteralDictionary, hsearch]
    show some (!(entryAt d'.entries i).unused) = some true
    rw [hentry, live_unused hlive]
    rfl
  · rw [getLiteralDictionary, if_neg (by simp [haccepted]), hsearch]
    show copyLiteral (entryAt d'.entries i).value = _
    rw [hentry]
    rfl

/-! ## The scopes of a state -/

/-- The tables of every scope, freed or not. -/
def AllSearchable (heap : Heap) : Prop := ∀ c ∈ heap, Searchable c.scope.vars ∧ Searchable c.scope.types

namespace AllSearchable

variable {heap heap' : Heap} {p : Nat} {scope : Scope}

theorem read (h : AllSearchable heap) (hread : heap.read p = some scope) :
    Searchable scope.vars ∧ Searchable scope.types := h _ (List.mem_of_getElem? (Heap.read_eq.mp hread))

theorem write (h : AllSearchable heap) (hv : Searchable scope.vars) (ht : Searchable scope.types) :
    AllSearchable (heap.write p scope) := by
  intro c hc
  rcases List.mem_or_eq_of_mem_set hc with hc | rfl
  · exact h c hc
  · exact ⟨hv, ht⟩

theorem free (h : AllSearchable heap) (p : Nat) : AllSearchable (heap.free p) := by
  intro c hc
  obtain ⟨q, hq⟩ := List.mem_iff_getElem?.mp hc
  rw [Heap.getElem?_free] at hq
  split at hq
  · obtain ⟨c', hc', rfl⟩ := Option.map_eq_some_iff.mp hq
    exact h c' (List.mem_of_getElem? hc')
  · exact h c (List.mem_of_getElem? hq)

theorem append (h : AllSearchable heap) {c : Cell} (hc : Searchable c.scope.vars ∧ Searchable c.scope.types) :
    AllSearchable (heap ++ [c]) := by
  intro c' hc'
  rcases List.mem_append.mp hc' with hc' | hc'
  · exact h c' hc'
  · rw [List.mem_singleton.mp hc']
    exact hc

theorem tickUp {n : Nat} {handle : Option Nat} (h : AllSearchable heap)
    (ht : Xvr.Runtime.tickUp n heap handle = some heap') : AllSearchable heap' := by
  induction n generalizing heap handle with
  | zero =>
    cases handle with
    | none => exact Option.some.inj ht ▸ h
    | some p => cases ht
  | succ n ih =>
    cases handle with
    | none => exact Option.some.inj ht ▸ h
    | some p =>
      obtain ⟨scope, hread, hrest⟩ := Option.bind_eq_some_iff.mp ht
      obtain ⟨hv, htypes⟩ := h.read hread
      have hwritten : AllSearchable (heap.write p { scope with references := scope.references + 1 }) := h.write hv htypes
      exact ih hwritten hrest

theorem freeAncestorChain {n p : Nat} (h : AllSearchable heap)
    (hf : Xvr.Runtime.freeAncestorChain n heap p = some heap') : AllSearchable heap' := by
  induction n generalizing heap heap' p with
  | zero => cases hf
  | succ n ih =>
    obtain ⟨scope, hread, hf⟩ := Option.bind_eq_some_iff.mp hf
    obtain ⟨above, habove, hf⟩ := Option.bind_eq_some_iff.mp hf
    obtain ⟨again, -, hf⟩ := Option.bind_eq_some_iff.mp hf
    obtain ⟨hv, htypes⟩ := h.read hread
    have hwritten : AllSearchable (heap.write p { scope with references := scope.references - 1 }) := h.write hv htypes
    have habove' : AllSearchable above := by
      obtain ⟨_ | a, references, vars, types⟩ := scope
      · exact Option.some.inj habove ▸ hwritten
      · exact ih hwritten habove
    split at hf
    · exact Option.some.inj hf ▸ habove'
    · exact Option.some.inj hf ▸ habove'.free p

theorem allocate {ancestor : Option Nat} (h : AllSearchable heap)
    (ha : Xvr.Runtime.allocate heap ancestor = some (heap', p)) : AllSearchable heap' := by
  obtain ⟨ticked, ht, heq⟩ := Option.bind_eq_some_iff.mp ha
  obtain ⟨rfl, -⟩ := Prod.mk.inj (Option.some.inj heq)
  exact (h.append ⟨searchable_init, searchable_init⟩).tickUp ht

end AllSearchable

theorem copyEntries_searchable {d d' : Dictionary} (h : copyEntries d = some d') : Searchable d' := by
  have hfold (entries : List (Entry Literal)) : ∀ copy, Searchable copy →
      entries.foldlM (fun copy e => if e.key.isNull then some copy else setLiteralDictionary realFns copy e.key e.value)
        copy = some d' → Searchable d' := by
    induction entries with
    | nil => exact fun copy hcopy heq => Option.some.inj heq ▸ hcopy
    | cons e entries ih =>
      intro copy hcopy heq
      obtain ⟨next, hnext, hrest⟩ := Option.bind_eq_some_iff.mp heq
      refine ih next ?_ hrest
      dsimp only at hnext
      split at hnext
      · exact Option.some.inj hnext ▸ hcopy
      · exact hcopy.set hnext
  exact hfold d.entries _ searchable_init h

namespace AllSearchable

variable {heap heap' : Heap}

theorem copyScope {original p : Nat} (h : AllSearchable heap)
    (hcopy : Xvr.Runtime.copyScope heap original = some (heap', p)) : AllSearchable heap' := by
  obtain ⟨_, -, hcopy⟩ := Option.bind_eq_some_iff.mp hcopy
  obtain ⟨⟨allocated, q⟩, hallocate, hcopy⟩ := Option.bind_eq_some_iff.mp hcopy
  obtain ⟨_, -, hcopy⟩ := Option.bind_eq_some_iff.mp hcopy
  obtain ⟨_, -, hcopy⟩ := Option.bind_eq_some_iff.mp hcopy
  obtain ⟨vars, hvars, hcopy⟩ := Option.bind_eq_some_iff.mp hcopy
  obtain ⟨types, htypes, hcopy⟩ := Option.bind_eq_some_iff.mp hcopy
  obtain ⟨rfl, -⟩ := Prod.mk.inj (Option.some.inj hcopy)
  exact (h.allocate hallocate).write (copyEntries_searchable hvars) (copyEntries_searchable htypes)

theorem popScope {scope ancestor : Option Nat} (h : AllSearchable heap)
    (hpop : Xvr.Runtime.popScope heap scope = some (heap', ancestor)) : AllSearchable heap' := by
  cases scope with
  | none => exact (Prod.mk.inj (Option.some.inj hpop)).1 ▸ h
  | some p =>
    obtain ⟨_, -, hpop⟩ := Option.bind_eq_some_iff.mp hpop
    obtain ⟨freed, hfree, hpop⟩ := Option.bind_eq_some_iff.mp hpop
    exact (Prod.mk.inj (Option.some.inj hpop)).1 ▸ h.freeAncestorChain hfree

theorem declareScopeVariable {p : Nat} {key type : Literal} {declared : Bool} (h : AllSearchable heap)
    (hdeclare : Xvr.Runtime.declareScopeVariable heap p key type = some (heap', declared)) : AllSearchable heap' := by
  obtain ⟨scope, hread, hdeclare⟩ := Option.bind_eq_some_iff.mp hdeclare
  obtain ⟨found, -, hdeclare⟩ := Option.bind_eq_some_iff.mp hdeclare
  obtain ⟨hv, ht⟩ := h.read hread
  split at hdeclare
  · exact (Prod.mk.inj (Option.some.inj hdeclare)).1 ▸ h
  split at hdeclare
  · exact (Prod.mk.inj (Option.some.inj hdeclare)).1 ▸ h
  obtain ⟨types, htypes, hdeclare⟩ := Option.bind_eq_some_iff.mp hdeclare
  obtain ⟨vars, hvars, hdeclare⟩ := Option.bind_eq_some_iff.mp hdeclare
  exact (Prod.mk.inj (Option.some.inj hdeclare)).1 ▸ h.write (hv.set hvars) (ht.set htypes)

theorem setScopeVariable {handle : Option Nat} {key value : Literal} {constCheck assigned : Bool}
    (h : AllSearchable heap)
    (hset : Xvr.Runtime.setScopeVariable heap handle key value constCheck = some (heap', assigned)) :
    AllSearchable heap' := by
  obtain ⟨owner, -, hset⟩ := Option.bind_eq_some_iff.mp hset
  cases owner with
  | none => exact (Prod.mk.inj (Option.some.inj hset)).1 ▸ h
  | some p =>
    obtain ⟨scope, hread, hset⟩ := Option.bind_eq_some_iff.mp hset
    obtain ⟨checked, -, hset⟩ := Option.bind_eq_some_iff.mp hset
    obtain ⟨hv, ht⟩ := h.read hread
    split at hset
    · obtain ⟨vars, hvars, hset⟩ := Option.bind_eq_some_iff.mp hset
      exact (Prod.mk.inj (Option.some.inj hset)).1 ▸ h.write (hv.set hvars) ht
    · exact (Prod.mk.inj (Option.some.inj hset)).1 ▸ h

end AllSearchable

/-- Whatever calls returned, the tables are as a search needs them. -/
theorem step_searchable {w w' : World} {call : Call} {answer : Answer} (h : AllSearchable w.heap)
    (hstep : w.step call = some (w', answer)) : AllSearchable w'.heap := by
  cases call with
  | push ancestor =>
    obtain ⟨⟨heap, p⟩, hpush, heq⟩ := Option.bind_eq_some_iff.mp hstep
    obtain ⟨rfl, -⟩ := Prod.mk.inj (Option.some.inj heq)
    exact h.allocate hpush
  | copy original =>
    obtain ⟨⟨heap, p⟩, hcopy, heq⟩ := Option.bind_eq_some_iff.mp hstep
    obtain ⟨rfl, -⟩ := Prod.mk.inj (Option.some.inj heq)
    exact h.copyScope hcopy
  | pop scope =>
    obtain ⟨⟨heap, ancestor⟩, hpop, heq⟩ := Option.bind_eq_some_iff.mp hstep
    obtain ⟨rfl, -⟩ := Prod.mk.inj (Option.some.inj heq)
    exact h.popScope hpop
  | declare p key type =>
    obtain ⟨⟨heap, declared⟩, hdeclare, heq⟩ := Option.bind_eq_some_iff.mp hstep
    obtain ⟨rfl, -⟩ := Prod.mk.inj (Option.some.inj heq)
    exact h.declareScopeVariable hdeclare
  | set handle key value constCheck =>
    obtain ⟨⟨heap, assigned⟩, hset, heq⟩ := Option.bind_eq_some_iff.mp hstep
    obtain ⟨rfl, -⟩ := Prod.mk.inj (Option.some.inj heq)
    exact h.setScopeVariable hset
  | isDeclared scope key => rw [step_question hstep]; exact h
  | get scope key => rw [step_question hstep]; exact h
  | getType scope key => rw [step_question hstep]; exact h

theorem reach_searchable {allowed : World → Call → Prop} {w : World} (h : Reach allowed w) : AllSearchable w.heap := by
  induction h with
  | init => exact List.forall_mem_nil _
  | step call _ _ hstep ih => exact step_searchable ih hstep

/-! ## One declaration -/

/-- The variable is there, of the type and without a value. What a table answers is a copy of
    the copy it keeps. -/
structure DeclaredAs (scope : Scope) (key type : Literal) : Prop where
  found : existsLiteralDictionary realFns scope.vars key = some true
  value : getLiteralDictionary realFns scope.vars key = .null
  type : getLiteralDictionary realFns scope.types key = copyLiteral (copyLiteral type)

/-- A type as the language has them is answered as it was declared. -/
theorem DeclaredAs.wellFormed {scope : Scope} {key type : Literal} (h : DeclaredAs scope key type)
    (hw : wellFormedType type = true) : getLiteralDictionary realFns scope.types key = type := by
  rw [h.type, copyLiteral_wellFormed hw, copyLiteral_wellFormed hw]

/-- The declaration returns true exactly for a new identifier and a type, and then the variable
    is declared; else nothing has changed. -/
def DeclaresRight (heap : Heap) (p : Nat) (scope : Scope) (key type : Literal) : Prop :=
  ∃ heap' declared, declareScopeVariable heap p key type = some (heap', declared) ∧
    (declared = true ↔ key.isIdentifier = true ∧ ¬ HasKey scope.vars key ∧ type.isType = true) ∧
    (declared = true → ∃ scope', heap'.read p = some scope' ∧ DeclaredAs scope' key type) ∧
    (declared = false → heap' = heap)

section

variable {heap : Heap} {p : Nat} {scope : Scope} (h : AllSearchable heap) (hread : heap.read p = some scope)

include h hread

/-- What a declaration makes of a key and a type. -/
theorem declare_cases (key type : Literal) :
    ∃ found vars types, existsLiteralDictionary realFns scope.vars key = some found ∧
      setLiteralDictionary realFns scope.vars key .null = some vars ∧
      setLiteralDictionary realFns scope.types key type = some types ∧
      declareScopeVariable heap p key type =
        some (if found || !type.isType then (heap, false) else (heap.write p { scope with vars, types }, true)) := by
  obtain ⟨hv, ht⟩ := h.read hread
  obtain ⟨found, hfound⟩ := hv.exists_total key
  obtain ⟨vars, hvars, -⟩ := hv.set_total key .null
  obtain ⟨types, htypes, -⟩ := ht.set_total key type
  refine ⟨found, vars, types, hfound, hvars, htypes, ?_⟩
  simp only [declareScopeVariable, hread, Option.bind_eq_bind, Option.bind_some, hfound, hvars, htypes, Option.pure_def]
  cases found <;> cases type.isType <;> rfl

/-- After the two writes both tables find an identifier. -/
theorem declare_finds {key type : Literal} (hk : key.isIdentifier = true) {vars types : Dictionary}
    (hvars : setLiteralDictionary realFns scope.vars key .null = some vars)
    (htypes : setLiteralDictionary realFns scope.types key type = some types) :
    ∃ scope', (heap.write p { scope with vars, types }).read p = some scope' ∧ DeclaredAs scope' key type := by
  obtain ⟨hv, ht⟩ := h.read hread
  obtain ⟨vars', hvars', hfound, hvalue⟩ := hv.set_found hk .null
  obtain ⟨types', htypes', -, htype⟩ := ht.set_found hk type
  obtain rfl := Option.some.inj (hvars.symm.trans hvars')
  obtain rfl := Option.some.inj (htypes.symm.trans htypes')
  have hread' : (heap.write p { scope with vars, types }).read p = some { scope with vars, types } := by
    rw [Heap.read_write (Heap.lt_of_read hread), if_pos rfl]
  have hnull : copyLiteral (copyLiteral .null) = .null := rfl
  exact ⟨{ scope with vars, types }, hread', ⟨hfound, hvalue.trans hnull, htype⟩⟩

theorem declares_identifier {key : Literal} (hk : key.isIdentifier = true) (type : Literal) :
    DeclaresRight heap p scope key type := by
  obtain ⟨found, vars, types, hfound, hvars, htypes, hdeclare⟩ := declare_cases h hread key type
  have hhas : found = true ↔ HasKey scope.vars key := by
    rw [← (h.read hread).1.exists_identifier hk, hfound, Option.some.injEq]
  cases hnew : found || !type.isType with
  | true =>
    rw [hnew, if_pos rfl] at hdeclare
    refine ⟨heap, false, hdeclare, iff_of_false Bool.false_ne_true ?_, fun hfalse => absurd hfalse Bool.false_ne_true,
      fun _ => rfl⟩
    rintro ⟨-, hfresh, htype⟩
    rw [htype] at hnew
    exact hfresh (hhas.mp (by simpa using hnew))
  | false =>
    rw [hnew, if_neg Bool.false_ne_true] at hdeclare
    obtain ⟨hfresh, htype⟩ := Bool.or_eq_false_iff.mp hnew
    refine ⟨_, true, hdeclare, iff_of_true rfl ⟨hk, ?_, by simpa using htype⟩, ?_,
      fun hfalse => absurd hfalse.symm Bool.false_ne_true⟩
    · rw [← hhas, hfresh]
      exact Bool.false_ne_true
    · exact fun _ => declare_finds h hread hk hvars htypes

/-- A declaration that is turned away. -/
theorem declares_refused {key type : Literal}
    (hrefused : type.isType = false ∨ existsLiteralDictionary realFns scope.vars key = some true)
    (hk : key.isIdentifier = false) : DeclaresRight heap p scope key type := by
  obtain ⟨found, vars, types, hfound, -, -, hdeclare⟩ := declare_cases h hread key type
  have hold : (found || !type.isType) = true := by
    rcases hrefused with htype | hexists
    · simp [htype]
    · simp [Option.some.inj (hfound.symm.trans hexists)]
  rw [hold, if_pos rfl] at hdeclare
  exact ⟨heap, false, hdeclare, by simp [hk], fun hfalse => absurd hfalse (by simp), fun _ => rfl⟩

/-- In any scope, for any key and any type: a declaration does what it should exactly when it is
    given an identifier, or is turned away for another reason. -/
theorem declares_iff (key type : Literal) :
    DeclaresRight heap p scope key type ↔
      key.isIdentifier = true ∨ type.isType = false ∨ existsLiteralDictionary realFns scope.vars key = some true := by
  cases hk : key.isIdentifier with
  | true => exact iff_of_true (declares_identifier h hread hk type) (.inl rfl)
  | false =>
    constructor
    · rintro ⟨heap', declared, hdeclare, hiff, -⟩
      obtain ⟨found, vars, types, hfound, -, -, hcases⟩ := declare_cases h hread key type
      cases hnew : found || !type.isType with
      | true =>
        refine .inr ?_
        cases found with
        | true => exact .inr hfound
        | false => exact .inl (by simpa using hnew)
      | false =>
        -- it is declared, and no identifier
        rw [hcases, hnew] at hdeclare
        obtain ⟨-, rfl⟩ := Prod.mk.inj (Option.some.inj hdeclare)
        have hidentifier := (hiff.mp rfl).1
        rw [hk] at hidentifier
        cases hidentifier
    · rintro (hfalse | hrefused)
      · cases hfalse
      · exact declares_refused h hread hrefused hk

end

/-- The same of every scope of every state that calls lead to. -/
theorem declares_right_iff (w : World) (hw : Reach (fun _ _ => True) w) (p : Nat) (scope : Scope)
    (hread : w.heap.read p = some scope) (key type : Literal) :
    DeclaresRight w.heap p scope key type ↔
      key.isIdentifier = true ∨ type.isType = false ∨ existsLiteralDictionary realFns scope.vars key = some true :=
  declares_iff (reach_searchable hw) hread key type

/-- A new name in a new scope. -/
theorem declares_right_name : ∃ (w : World) (scope : Scope), w.heap.read 0 = some scope ∧
    DeclaresRight w.heap 0 scope (.identifier ['x']) (.type .integer false []) := by
  have hreach : Reach (fun _ _ => True) _ := Reach.init.step (.push none) trivial rfl
  exact ⟨_, _, rfl, (declares_right_iff _ hreach 0 _ rfl (.identifier ['x']) (.type .integer false [])).mpr (.inl rfl)⟩

/-- The key 1 in a new scope: true, and no identifier. -/
theorem number_declared : ¬ ∀ w : World, Reach (fun _ _ => True) w → ∀ p scope, w.heap.read p = some scope →
    ∀ key type, DeclaresRight w.heap p scope key type := by
  intro h
  have hreach : Reach (fun _ _ => True) _ := Reach.init.step (.push none) trivial rfl
  obtain ⟨heap', declared, hdeclare, hiff, -⟩ := h _ hreach 0 _ rfl (.integer 1) (.type .integer false [])
  obtain ⟨-, rfl⟩ := Prod.mk.inj (Option.some.inj hdeclare)
  exact absurd (hiff.mp rfl).1 (by decide)

end Xvr.Runtime
