/-
  Xvr.Runtime.RefCounts — the reference counts of strings balance.

  Every step of copying and freeing shifts counts: from a state raised by some amounts
  (`Strings.raise`) it goes to one raised by others. A copy raises each count by its
  occurrences in the copy, freeing it takes exactly those back, and what a set frees is
  what the slot held, which was counted. So no count falls below what it was before.

  Proved (`reference_counts`): the copy erases to the copy of the erased literal, no string
  is released, freeing the copy restores the state; and the counts rise by the occurrences
  in the original where no entry with a string is written over (`Keeps`).
-/

import Xvr.Runtime.RefLiteral
import Xvr.Runtime.DeepCopy

namespace Xvr.Runtime

/-! ## Raised counts -/

namespace Strings

/-- Every count raised by the given amount. -/
def raise (s : Strings) (by_ : Nat → Nat) : Strings :=
  { s with refs := fun p => { s.refs p with refCount := (s.refs p).refCount + by_ p } }

@[simp] theorem text_raise (s : Strings) (d : Nat → Nat) : (s.raise d).text = s.text := rfl

@[simp] theorem released_raise (s : Strings) (d : Nat → Nat) : (s.raise d).released = s.released := rfl

@[simp] theorem refCount_raise (s : Strings) (d : Nat → Nat) (p : Nat) :
    ((s.raise d).refs p).refCount = (s.refs p).refCount + d p := rfl

theorem raise_zero (s : Strings) : s.raise (fun _ => 0) = s := by
  simp [raise]

theorem raise_raise (s : Strings) (d d' : Nat → Nat) : (s.raise d).raise d' = s.raise fun p => d p + d' p := by
  simp only [raise, Strings.mk.injEq, and_true]
  funext p
  simp only [RefString.mk.injEq, true_and]
  omega

theorem raise_congr (s : Strings) {d d' : Nat → Nat} (h : ∀ p, d p = d' p) : s.raise d = s.raise d' :=
  congrArg s.raise (funext h)

end Strings

theorem run_bind {α β : Type} {m : StateM Strings α} {f : α → StateM Strings β} {s t : Strings} {a : α}
    (h : m.run s = (a, t)) : (m >>= f).run s = (f a).run t := by
  rw [StateT.run_bind, h]
  rfl

theorem copyRefString_run (p : Nat) (s : Strings) :
    (copyRefString p).run s = ((), s.raise fun r => if p = r then 1 else 0) := by
  show ((), s.setCount p ((s.refs p).refCount + 1)) = _
  simp only [Strings.setCount, Strings.raise, Prod.mk.injEq, Strings.mk.injEq, true_and, and_true]
  funext r
  by_cases h : r = p
  · subst h
    simp
  · simp [h, Ne.symm h]

/-- A deletion takes back one that was counted, and leaves the string referred to. -/
theorem deleteRefString_run {p : Nat} {s : Strings} {d : Nat → Nat} (h : 0 < (s.refs p).refCount) :
    (deleteRefString p).run (s.raise fun r => d r + if p = r then 1 else 0) = ((), s.raise d) := by
  have hcount : ¬ (s.refs p).refCount + ((d p + 1 : Nat) : Int) - 1 ≤ 0 := by omega
  have hrun : ∀ t : Strings, ¬ (t.refs p).refCount - 1 ≤ 0 →
      (deleteRefString p).run t = ((), t.setCount p ((t.refs p).refCount - 1)) := by
    intro t ht
    show ((), if (t.refs p).refCount - 1 ≤ 0 then _ else _) = _
    rw [if_neg ht]
  rw [hrun _ (by simpa using hcount)]
  apply congrArg (Prod.mk ())
  simp only [Strings.setCount, Strings.raise, Strings.mk.injEq, and_true]
  funext r
  by_cases hr : r = p
  · subst hr
    simp only [if_true, RefString.mk.injEq, true_and]
    omega
  · simp [hr, Ne.symm hr]

/-! ## Freeing -/

/-- Every string the literal refers to has been counted. -/
def RefLiteral.Alive (s : Strings) (a : RefLiteral) : Prop := ∀ r, 0 < a.occurrences r → 0 < (s.refs r).refCount

mutual

/-- Freeing takes back what was counted for the literal. -/
theorem freeLiteral_run : ∀ (a : RefLiteral) (s : Strings) (d : Nat → Nat), a.Alive s →
    (freeLiteral a).run (s.raise fun r => d r + a.occurrences r) = ((), s.raise d)
  | .scalar _, _, _, _ => rfl
  | .string p, s, d, h => deleteRefString_run (h p (by simp [RefLiteral.occurrences]))
  | .identifier p, s, d, h => deleteRefString_run (h p (by simp [RefLiteral.occurrences]))
  | .array es, s, d, h => freeLiteralArray_run es s d h
  | .arrayIntermediate es, s, d, h => freeLiteralArray_run es s d h
  | .dictionaryIntermediate es, s, d, h => freeLiteralArray_run es s d h
  | .typeIntermediate es, s, d, h => freeLiteralArray_run es s d h
  | .type _ _ es, s, d, h => freeLiteralArray_run es s d h
  | .dictionary held, s, d, h => freeLiteralDictionary_run held s d h

theorem freeLiteralArray_run : ∀ (es : List RefLiteral) (s : Strings) (d : Nat → Nat),
    (∀ r, 0 < occurrencesList r es → 0 < (s.refs r).refCount) →
      (freeLiteralArray es).run (s.raise fun r => d r + occurrencesList r es) = ((), s.raise d)
  | [], _, _, _ => rfl
  | l :: ls, s, d, h => by
    have hfirst := freeLiteral_run l s (fun r => d r + occurrencesList r ls)
      fun r hr => h r (by rw [occurrencesList]; omega)
    have hrest := freeLiteralArray_run ls s d fun r hr => h r (by rw [occurrencesList]; omega)
    rw [s.raise_congr fun r => show d r + occurrencesList r (l :: ls) =
      (d r + occurrencesList r ls) + l.occurrences r by rw [occurrencesList]; omega]
    exact (run_bind hfirst).trans hrest

theorem freeLiteralDictionary_run : ∀ (held : LiteralDictionary RefLiteral) (s : Strings) (d : Nat → Nat),
    (∀ r, 0 < occurrencesDictionary r held → 0 < (s.refs r).refCount) →
      (freeLiteralDictionary held).run (s.raise fun r => d r + occurrencesDictionary r held) = ((), s.raise d)
  | ⟨entries, _, _⟩, s, d, h => freeEntryArray_run entries s d h

theorem freeEntryArray_run : ∀ (es : List (Entry RefLiteral)) (s : Strings) (d : Nat → Nat),
    (∀ r, 0 < occurrencesEntries r es → 0 < (s.refs r).refCount) →
      (freeEntryArray es).run (s.raise fun r => d r + occurrencesEntries r es) = ((), s.raise d)
  | [], _, _, _ => rfl
  | e :: es, s, d, h => by
    have hfirst := freeEntry_run e s (fun r => d r + occurrencesEntries r es)
      fun r hr => h r (by rw [occurrencesEntries]; omega)
    have hrest := freeEntryArray_run es s d fun r hr => h r (by rw [occurrencesEntries]; omega)
    rw [s.raise_congr fun r => show d r + occurrencesEntries r (e :: es) =
      (d r + occurrencesEntries r es) + occurrencesEntry r e by rw [occurrencesEntries]; omega]
    exact (run_bind hfirst).trans hrest

theorem freeEntry_run : ∀ (e : Entry RefLiteral) (s : Strings) (d : Nat → Nat),
    (∀ r, 0 < occurrencesEntry r e → 0 < (s.refs r).refCount) →
      (freeEntry e).run (s.raise fun r => d r + occurrencesEntry r e) = ((), s.raise d)
  | ⟨key, value⟩, s, d, h => by
    simp only [occurrencesEntry] at h ⊢
    cases hn : key.isNull with
    | true =>
      simp only [freeEntry, hn, if_true]
      rfl
    | false =>
      simp only [freeEntry, hn, Bool.false_eq_true, if_false] at h ⊢
      have hkey := freeLiteral_run key s (fun r => d r + value.occurrences r) fun r hr => h r (by omega)
      have hvalue := freeLiteral_run value s d fun r hr => h r (by omega)
      rw [s.raise_congr fun r => show d r + (key.occurrences r + value.occurrences r) =
        (d r + value.occurrences r) + key.occurrences r by omega]
      exact (run_bind hkey).trans hvalue

end

/-! ## Erasing -/

theorem eraseList_map (text : Nat → List Char) (es : List RefLiteral) : eraseList text es = es.map (RefLiteral.erase text) := by
  induction es with
  | nil => rfl
  | cons e es ih => rw [eraseList, ih, List.map_cons]

theorem eraseEntry_eq (text : Nat → List Char) (e : Entry RefLiteral) :
    eraseEntry text e = ⟨e.key.erase text, e.value.erase text⟩ := by
  obtain ⟨key, value⟩ := e
  rfl

theorem eraseEntries_map (text : Nat → List Char) (es : List (Entry RefLiteral)) :
    eraseEntries text es = es.map (eraseEntry text) := by
  induction es with
  | nil => rfl
  | cons e es ih => rw [eraseEntries, ih, List.map_cons]

theorem eraseDictionary_eq (text : Nat → List Char) (d : RefDictionary) :
    eraseDictionary text d = ⟨d.entries.map (eraseEntry text), d.count, d.contains⟩ := by
  obtain ⟨entries, count, contains⟩ := d
  rw [eraseDictionary, eraseEntries_map]

@[simp] theorem isNull_erase (text : Nat → List Char) (a : RefLiteral) : (a.erase text).isNull = a.isNull := by
  cases a <;> rfl

theorem entryAt_erase (text : Nat → List Char) (array : List (Entry RefLiteral)) (i : Nat) :
    entryAt (array.map (eraseEntry text)) i = eraseEntry text (refEntryAt array i) := by
  simp only [entryAt, refEntryAt, List.getD_eq_getElem?_getD, List.getElem?_map]
  cases array[i]? <;> rfl

/-! ## Occurrences -/

theorem occurrencesEntry_eq (r : Nat) (e : Entry RefLiteral) :
    occurrencesEntry r e = if e.key.isNull then 0 else e.key.occurrences r + e.value.occurrences r := by
  obtain ⟨key, value⟩ := e
  rfl

theorem occurrencesDictionary_eq (r : Nat) (d : RefDictionary) :
    occurrencesDictionary r d = occurrencesEntries r d.entries := by
  obtain ⟨entries, count, contains⟩ := d
  rfl

theorem occurrencesEntries_replicate (r n : Nat) : occurrencesEntries r (List.replicate n RefEntry.empty) = 0 := by
  induction n with
  | zero => rfl
  | succ n ih => rw [List.replicate_succ, occurrencesEntries, ih]; rfl

/-- Writing a slot exchanges what it held for the new entry. -/
theorem occurrencesEntries_set (r : Nat) : ∀ {array : List (Entry RefLiteral)} {i : Nat} (e : Entry RefLiteral),
    i < array.length → occurrencesEntries r (array.set i e) + occurrencesEntry r (refEntryAt array i) =
      occurrencesEntries r array + occurrencesEntry r e
  | x :: array, 0, e, _ => by
    simp only [List.set_cons_zero, occurrencesEntries, refEntryAt, List.getD_cons_zero]
    omega
  | x :: array, i + 1, e, h => by
    have ih := occurrencesEntries_set r e (Nat.lt_of_succ_lt_succ h)
    simp only [List.set_cons_succ, occurrencesEntries, refEntryAt, List.getD_cons_succ] at ih ⊢
    omega

theorem occurrencesEntries_mem (r : Nat) {array : List (Entry RefLiteral)} {e : Entry RefLiteral} (h : e ∈ array) :
    occurrencesEntry r e ≤ occurrencesEntries r array := by
  induction array with
  | nil => cases h
  | cons x array ih =>
    rw [occurrencesEntries]
    rcases List.mem_cons.mp h with rfl | h
    · omega
    · have := ih h
      omega

/-! ## Growth -/

section Growth

variable {text : Nat → List Char}

/-- What the slot found for a key holds: nothing that is counted, or an equal key's entry. -/
structure FoundSlot (text : Nat → List Char) (array : List (Entry RefLiteral)) (key : Literal) (i : Nat)
    (old : Entry RefLiteral) : Prop where
  lt : i < array.length
  at_slot : refEntryAt array i = old
  counted : ∀ r, occurrencesEntry r old = old.key.occurrences r + old.value.occurrences r
  held : (∀ r, occurrencesEntry r old = 0) ∨ old.key.isNull = false ∧ literalsAreEqual key (old.key.erase text) = true

theorem FoundSlot.mem {array : List (Entry RefLiteral)} {key : Literal} {i : Nat} {old : Entry RefLiteral}
    (h : FoundSlot text array key i old) : old ∈ array := by
  rw [← h.at_slot, refEntryAt, List.getD_eq_getElem?_getD, List.getElem?_eq_getElem h.lt]
  exact List.getElem_mem h.lt

theorem found_slot {array : List (Entry RefLiteral)} {key : Literal} {hash : BitVec 32} {i : Nat}
    (h : getRefEntry text array key hash = some i) : FoundSlot text array key i (refEntryAt array i) := by
  rw [getRefEntry, eraseEntries_map] at h
  obtain ⟨hstop, hchain⟩ := getEntryArray_some h
  have hlt := hchain.lt
  rw [List.length_map] at hlt
  rw [entryAt_erase, eraseEntry_eq] at hstop
  have hnull (a : RefLiteral) (ha : a.isNull = true) (r : Nat) : a.occurrences r = 0 := by
    cases a <;> simp_all [RefLiteral.isNull, RefLiteral.occurrences]
  rcases stopsAt_false.mp hstop with hu | ⟨hl, heq⟩
  · simp only [Entry.unused, isNull_erase, Bool.and_eq_true] at hu
    have hzero (r : Nat) : occurrencesEntry r (refEntryAt array i) = 0 := by simp [occurrencesEntry_eq, hu.1]
    refine ⟨hlt, rfl, fun r => ?_, Or.inl hzero⟩
    rw [hzero, hnull _ hu.1, hnull _ hu.2]
  · simp only [Entry.live, isNull_erase, Bool.not_eq_true'] at hl
    exact ⟨hlt, rfl, fun r => by simp [occurrencesEntry_eq, hl], Or.inr ⟨hl, heq⟩⟩

theorem moveRefEntry_erase (array : List (Entry RefLiteral)) (e : Entry RefLiteral) :
    (moveRefEntry text array e).map (List.map (eraseEntry text)) =
      moveEntry realFns (array.map (eraseEntry text)) (eraseEntry text e) := by
  rw [moveRefEntry, moveEntry, eraseEntry_eq, isNull_erase]
  cases e.key.isNull with
  | true => rfl
  | false =>
    simp only [Bool.false_eq_true, if_false, getRefEntry, eraseEntries_map, Option.bind_eq_bind]
    show _ = (getEntryArray realFns _ .null (hashLiteral (e.key.erase text)) false).bind _
    cases getEntryArray realFns (array.map (eraseEntry text)) .null (hashLiteral (e.key.erase text)) false with
    | none => rfl
    | some i => simp [List.map_set, eraseEntry_eq]

theorem moveRefEntry_some {array array' : List (Entry RefLiteral)} {e : Entry RefLiteral}
    (h : moveRefEntry text array e = some array') :
    (∀ r, occurrencesEntries r array' = occurrencesEntries r array + occurrencesEntry r e) ∧
      ∀ x ∈ array', x ∈ array ∨ x = e := by
  rw [moveRefEntry] at h
  cases hn : e.key.isNull with
  | true =>
    rw [hn, if_pos rfl] at h
    cases h
    refine ⟨?_, fun x hx => .inl hx⟩
    intro r
    rw [occurrencesEntry_eq, hn, if_pos rfl, Nat.add_zero]
  | false =>
    simp only [hn, Bool.false_eq_true, if_false, Option.bind_eq_bind, Option.bind_eq_some_iff, Option.pure_def,
      Option.some.injEq] at h
    obtain ⟨i, hi, rfl⟩ := h
    refine ⟨?_, fun x hx => List.mem_or_eq_of_mem_set hx⟩
    intro r
    have hslot := found_slot hi
    have hset := occurrencesEntries_set r e hslot.lt
    rcases hslot.held with hzero | ⟨hlive, heq⟩
    · rw [hzero r] at hset
      omega
    · rw [literalsAreEqual_rejected rfl (by simpa using hlive)] at heq
      cases heq

theorem moveRefEntries_erase : ∀ (old array : List (Entry RefLiteral)),
    (old.foldlM (moveRefEntry text) array).map (List.map (eraseEntry text)) =
      (old.map (eraseEntry text)).foldlM (moveEntry realFns) (array.map (eraseEntry text))
  | [], _ => rfl
  | e :: old, array => by
    rw [List.foldlM_cons, List.map_cons, List.foldlM_cons, ← moveRefEntry_erase]
    cases moveRefEntry text array e with
    | none => rfl
    | some array' => exact moveRefEntries_erase old array'

theorem moveRefEntries_some : ∀ {old array array' : List (Entry RefLiteral)},
    old.foldlM (moveRefEntry text) array = some array' →
      (∀ r, occurrencesEntries r array' = occurrencesEntries r array + occurrencesEntries r old) ∧
        ∀ x ∈ array', x ∈ array ∨ x ∈ old
  | [], _, _, h => by
    cases h
    exact ⟨fun _ => rfl, fun _ hx => .inl hx⟩
  | e :: old, array, array', h => by
    rw [List.foldlM_cons, Option.bind_eq_bind, Option.bind_eq_some_iff] at h
    obtain ⟨array₁, hmove, hrest⟩ := h
    obtain ⟨hocc₁, hmem₁⟩ := moveRefEntry_some hmove
    obtain ⟨hocc, hmem⟩ := moveRefEntries_some hrest
    constructor
    · intro r
      have h₁ := hocc₁ r
      have h₂ := hocc r
      rw [occurrencesEntries]
      omega
    · intro x hx
      rcases hmem x hx with hx | hx
      · rcases hmem₁ x hx with hx | rfl
        · exact .inl hx
        · exact .inr (List.mem_cons_self ..)
      · exact .inr (List.mem_cons_of_mem _ hx)

/-- Growing moves pointers and copies none. -/
theorem growRefEntries_spec {entries : List (Entry RefLiteral)} {contains : Nat} {array : List (Entry Literal)}
    (h : growEntries realFns (entries.map (eraseEntry text)) contains = some array) :
    ∃ array', growRefEntries text entries contains = some array' ∧ array'.map (eraseEntry text) = array ∧
      (∀ r, occurrencesEntries r array' = occurrencesEntries r entries) ∧
      ∀ x ∈ array', x ∈ entries ∨ x.key.isNull = true := by
  rw [growEntries, List.length_map] at h
  rw [growRefEntries]
  split at h
  · rename_i hload
    rw [if_pos hload]
    have herase := @moveRefEntries_erase text entries
      (List.replicate (growCapacity entries.length) RefEntry.empty)
    rw [List.map_replicate, show eraseEntry text RefEntry.empty = Entry.empty from rfl] at herase
    rw [adjustEntryCapacity, ← herase, Option.map_eq_some_iff] at h
    obtain ⟨array', hgrow, harray⟩ := h
    obtain ⟨hocc, hmem⟩ := moveRefEntries_some hgrow
    refine ⟨array', hgrow, harray, ?_, ?_⟩
    · intro r
      rw [hocc r, occurrencesEntries_replicate, Nat.zero_add]
    · intro x hx
      rcases hmem x hx with hx | hx
      · rw [(List.mem_replicate.mp hx).2]
        exact .inr rfl
      · exact .inl hx
  · rename_i hload
    cases h
    exact ⟨entries, by rw [if_neg hload], rfl, fun _ => rfl, fun _ hx => .inl hx⟩

end Growth

/-! ## Copying -/

/-- The copy `y` of `a`: its occurrences are counted, and it erases to the copy of what
    `a` erases to. -/
structure Copied (text : Nat → List Char) (copy : RefLiteral → StateM Strings RefLiteral) (a y : RefLiteral) : Prop where
  run : ∀ s : Strings, s.text = text → a.Alive s → (copy a).run s = (y, s.raise fun r => y.occurrences r)
  erase : y.erase text = copyLiteral (a.erase text)
  le : ∀ r, y.occurrences r ≤ a.occurrences r

def AliveEntries (s : Strings) (entries : List (Entry RefLiteral)) : Prop :=
  ∀ r, 0 < occurrencesEntries r entries → 0 < (s.refs r).refCount

section Set

variable {text : Nat → List Char} {copy : RefLiteral → StateM Strings RefLiteral}

/-- What the slot held is taken back, what is written is counted. -/
theorem setRefEntryValues_run {old e : Entry RefLiteral} {k v : RefLiteral} (hk : Copied text copy e.key k)
    (hv : Copied text copy e.value v) {s : Strings} (hs : s.text = text) (hold : old.key.Alive s ∧ old.value.Alive s)
    (he : e.key.Alive s ∧ e.value.Alive s) (rest : Nat → Nat) :
    (setRefEntryValues copy old e.key e.value).run
        (s.raise fun r => rest r + (old.key.occurrences r + old.value.occurrences r)) =
      (⟨k, v⟩, s.raise fun r => rest r + (k.occurrences r + v.occurrences r)) := by
  have halive : ∀ {a : RefLiteral} (d : Nat → Nat), a.Alive s → a.Alive (s.raise d) := by
    intro a d ha r hr
    have := ha r hr
    rw [Strings.refCount_raise]
    omega
  have hfree := freeLiteral_run old.key s (fun r => rest r + old.value.occurrences r) hold.1
  have hcopy := hk.run (s.raise fun r => rest r + old.value.occurrences r) hs (halive _ he.1)
  have hfree' := freeLiteral_run old.value s (fun r => rest r + k.occurrences r) hold.2
  have hcopy' := hv.run (s.raise fun r => rest r + k.occurrences r) hs (halive _ he.2)
  rw [Strings.raise_raise] at hcopy hcopy'
  rw [s.raise_congr fun r => show rest r + (old.key.occurrences r + old.value.occurrences r) =
    (rest r + old.value.occurrences r) + old.key.occurrences r by omega]
  rw [s.raise_congr fun r => show (rest r + old.value.occurrences r) + k.occurrences r =
    (rest r + k.occurrences r) + old.value.occurrences r by omega] at hcopy
  rw [s.raise_congr fun r => show (rest r + k.occurrences r) + v.occurrences r =
    rest r + (k.occurrences r + v.occurrences r) by omega] at hcopy'
  exact (run_bind hfree).trans ((run_bind hcopy).trans ((run_bind hfree').trans (run_bind hcopy')))

/-- The dictionary with an entry written to a slot. -/
def writeSlot (d : RefDictionary) (array : List (Entry RefLiteral)) (i : Nat) (old e : Entry RefLiteral) : RefDictionary :=
  if old.key.isNull then ⟨array.set i e, d.count + 1, d.contains + 1⟩ else { d with entries := array.set i e }

theorem writeSlot_entries (d : RefDictionary) (array : List (Entry RefLiteral)) (i : Nat) (old e : Entry RefLiteral) :
    (writeSlot d array i old e).entries = array.set i e := by
  unfold writeSlot
  split <;> rfl

/-- What the entry in the slot held is taken back, what is written is counted. -/
theorem writeSlot_run {d : RefDictionary} {array : List (Entry RefLiteral)} {e old : Entry RefLiteral} {k v : RefLiteral} {i : Nat}
    (ha : rejectedKey (e.key.erase text) = false) (hk : Copied text copy e.key k) (hv : Copied text copy e.value v)
    (hgrow : growRefEntries text d.entries d.contains = some array)
    (hfind : getRefEntry text array (e.key.erase text) (hashLiteral (e.key.erase text)) = some i)
    (hslot : FoundSlot text array (e.key.erase text) i old)
    (hocc : ∀ r, occurrencesEntries r array = occurrencesEntries r d.entries)
    (hsum : ∀ r, occurrencesEntries r (writeSlot d array i old ⟨k, v⟩).entries + occurrencesEntry r old =
      occurrencesEntries r d.entries + (k.occurrences r + v.occurrences r))
    {s : Strings} (hs : s.text = text) (halive : AliveEntries s d.entries) (he : e.key.Alive s ∧ e.value.Alive s) :
    (setRefDictionary copy d e.key e.value).run (s.raise fun r => occurrencesEntries r d.entries) =
      (writeSlot d array i old ⟨k, v⟩, s.raise fun r => occurrencesEntries r (writeSlot d array i old ⟨k, v⟩).entries) := by
  have hle : ∀ r, occurrencesEntry r old ≤ occurrencesEntries r d.entries := by
    intro r
    rw [← hocc r]
    exact occurrencesEntries_mem r hslot.mem
  have hoccold : ∀ r, 0 < occurrencesEntry r old → 0 < (s.refs r).refCount := fun r hr =>
    halive r (Nat.lt_of_lt_of_le hr (hle r))
  have hold : old.key.Alive s ∧ old.value.Alive s :=
    ⟨fun r hr => hoccold r (by rw [hslot.counted r]; omega), fun r hr => hoccold r (by rw [hslot.counted r]; omega)⟩
  have hvalues := setRefEntryValues_run hk hv hs hold he
    (fun r => occurrencesEntries r d.entries - occurrencesEntry r old)
  rw [s.raise_congr fun r => show occurrencesEntries r d.entries - occurrencesEntry r old +
      (old.key.occurrences r + old.value.occurrences r) = occurrencesEntries r d.entries by
    have := hle r
    rw [hslot.counted r] at this ⊢
    omega,
    s.raise_congr fun r => show occurrencesEntries r d.entries - occurrencesEntry r old +
      (k.occurrences r + v.occurrences r) = occurrencesEntries r (writeSlot d array i old ⟨k, v⟩).entries by
    have := hle r
    have := hsum r
    omega] at hvalues
  have htext : (s.raise fun r => occurrencesEntries r d.entries).text = text := hs
  rw [setRefDictionary]
  refine (run_bind (show (get : StateM Strings Strings).run _ = (_, _) from rfl)).trans ?_
  simp only [htext, ha, Bool.false_eq_true, if_false, hgrow, hfind, hslot.at_slot]
  exact run_bind hvalues

/-- A set: the counts follow the dictionary, which erases to what the set of the erased
    literals returns; one slot is exchanged. -/
theorem setRefDictionary_run {d : RefDictionary} (hroom : Room (d.entries.map (eraseEntry text)) d.contains)
    {e : Entry RefLiteral} (ha : rejectedKey (e.key.erase text) = false) {k v : RefLiteral}
    (hk : Copied text copy e.key k) (hv : Copied text copy e.value v) :
    ∃ (d' : RefDictionary) (old : Entry RefLiteral),
      (∀ s : Strings, s.text = text → AliveEntries s d.entries → e.key.Alive s ∧ e.value.Alive s →
        (setRefDictionary copy d e.key e.value).run (s.raise fun r => occurrencesEntries r d.entries) =
          (d', s.raise fun r => occurrencesEntries r d'.entries)) ∧
      setLiteralDictionary realFns (eraseDictionary text d) (e.key.erase text) (e.value.erase text) =
        some (eraseDictionary text d') ∧
      Room (d'.entries.map (eraseEntry text)) d'.contains ∧
      (∀ r, occurrencesEntries r d'.entries + occurrencesEntry r old =
        occurrencesEntries r d.entries + (k.occurrences r + v.occurrences r)) ∧
      ((∀ r, occurrencesEntry r old = 0) ∨ old ∈ d.entries ∧ old.key.isNull = false ∧
        literalsAreEqual (e.key.erase text) (old.key.erase text) = true) ∧
      ∀ x ∈ d'.entries, x.key.isNull = false → x ∈ d.entries ∨ x = ⟨k, v⟩ := by
  have hd := eraseDictionary_eq text d
  have hnull : k.isNull = false := by
    rw [← isNull_erase text, hk.erase, Literal.isNull, copyLiteral_kind]
    exact rejectedKey_null ha
  have hvalues : setEntryValues realFns (e.key.erase text) (e.value.erase text) = eraseEntry text ⟨k, v⟩ := by
    rw [eraseEntry_eq, hk.erase, hv.erase]
    rfl
  obtain ⟨array, i, hgrow, haroom, hload, _, _, hfind, hset⟩ := set_room lawful_realFns
    (d := eraseDictionary text d) (by rw [hd]; exact hroom) (e.value.erase text) ha
  rw [hd] at hgrow hset hload haroom
  obtain ⟨array', hgrow', rfl, hocc, hmem⟩ := growRefEntries_spec hgrow
  have hfind' : getRefEntry text array' (e.key.erase text) (hashLiteral (e.key.erase text)) = some i := by
    rw [getRefEntry, eraseEntries_map]
    exact hfind
  obtain ⟨old, hslot⟩ : ∃ old, FoundSlot text array' (e.key.erase text) i old := ⟨_, found_slot hfind'⟩
  have hlive : (eraseEntry text ⟨k, v⟩).live = true := by
    rw [eraseEntry_eq]
    simp [Entry.live, hnull]
  have hroom' := room_set haroom hload (by rw [List.length_map]; exact hslot.lt) hlive
  rw [entryAt_erase, hslot.at_slot, eraseEntry_eq text old, isNull_erase] at hset hroom'
  have hentries := writeSlot_entries d array' i old ⟨k, v⟩
  have hsum : ∀ r, occurrencesEntries r (writeSlot d array' i old ⟨k, v⟩).entries + occurrencesEntry r old =
      occurrencesEntries r d.entries + (k.occurrences r + v.occurrences r) := by
    intro r
    have := occurrencesEntries_set r ⟨k, v⟩ hslot.lt
    rw [hslot.at_slot, occurrencesEntry_eq r ⟨k, v⟩, hnull, hocc r] at this
    rw [hentries]
    exact this
  refine ⟨writeSlot d array' i old ⟨k, v⟩, old, ?_, ?_, ?_, hsum, ?_, ?_⟩
  · exact fun s hs halive he => writeSlot_run ha hk hv hgrow' hfind' hslot hocc hsum hs halive he
  · rw [hd, hset, eraseDictionary_eq, hentries, List.map_set, hvalues]
    unfold writeSlot
    cases old.key.isNull <;> rfl
  · rw [hentries, List.map_set]
    unfold writeSlot
    cases hn : old.key.isNull <;> simpa [hn] using hroom'
  · refine hslot.held.imp_right fun hkey => ⟨?_, hkey⟩
    exact (hmem old hslot.mem).resolve_right (by simp [hkey.1])
  · intro x hx hn
    rw [hentries] at hx
    rcases List.mem_or_eq_of_mem_set hx with hx | hx
    · exact .inl ((hmem x hx).resolve_right (by simp [hn]))
    · exact .inr hx

/-- What an earlier entry is stored as is written over only where it holds no string. -/
def EntryKept (text : Nat → List Char) (e e' : Entry RefLiteral) : Prop :=
  literalsAreEqual (e'.key.erase text) (copyLiteral (e.key.erase text)) = false ∨ ∀ r, occurrencesEntry r e = 0

/-- The entry `y` is stored for `e`; where `keeps` holds of both its literals it has all
    their strings. -/
structure EntryCopied (text : Nat → List Char) (copy : RefLiteral → StateM Strings RefLiteral)
    (keeps : RefLiteral → Prop) (e y : Entry RefLiteral) : Prop where
  accepted : rejectedKey (e.key.erase text) = false
  key : Copied text copy e.key y.key
  value : Copied text copy e.value y.value
  kept : keeps e.key → keeps e.value → ∀ r, occurrencesEntry r y = occurrencesEntry r e

/-- What a dictionary holds is stored for entries set before, string for string. -/
def ComesFrom (text : Nat → List Char) (entries before : List (Entry RefLiteral)) : Prop :=
  ∀ y ∈ entries, y.key.isNull = false → ∃ x ∈ before, y.key.erase text = copyLiteral (x.key.erase text) ∧
    ∀ r, occurrencesEntry r y = occurrencesEntry r x

theorem ComesFrom.cons {entries entries' before : List (Entry RefLiteral)} (h : ComesFrom text entries before)
    {e y : Entry RefLiteral} (hy : y.key.erase text = copyLiteral (e.key.erase text))
    (hocc : ∀ r, occurrencesEntry r y = occurrencesEntry r e)
    (hmem : ∀ x ∈ entries', x.key.isNull = false → x ∈ entries ∨ x = y) : ComesFrom text entries' (before ++ [e]) := by
  intro x hx hn
  rcases hmem x hx hn with hx | rfl
  · obtain ⟨z, hz, hkey, hsum⟩ := h x hx hn
    exact ⟨z, List.mem_append_left _ hz, hkey, hsum⟩
  · exact ⟨e, List.mem_append_right _ (List.mem_cons_self ..), hy, hocc⟩

theorem EntryCopied.live {keeps : RefLiteral → Prop} {e y : Entry RefLiteral} (h : EntryCopied text copy keeps e y) :
    e.key.isNull = false ∧ y.key.isNull = false := by
  have he : e.key.isNull = false := by
    rw [← isNull_erase text]
    exact rejectedKey_null h.accepted
  refine ⟨he, ?_⟩
  rw [← isNull_erase text, h.key.erase, Literal.isNull, copyLiteral_kind]
  exact rejectedKey_null h.accepted

/-- The loop over the entries with a key. -/
theorem setRefEntries_run {keeps : RefLiteral → Prop} : ∀ {entries : List (Entry RefLiteral)} {d : RefDictionary},
    Room (d.entries.map (eraseEntry text)) d.contains → (∀ e ∈ entries, ∃ y, EntryCopied text copy keeps e y) →
      ∃ d' : RefDictionary,
        (∀ s : Strings, s.text = text → AliveEntries s d.entries → AliveEntries s entries →
          (setRefEntries copy entries d).run (s.raise fun r => occurrencesEntries r d.entries) =
            (d', s.raise fun r => occurrencesEntries r d'.entries)) ∧
        eraseDictionary text d' = setEntries (eraseDictionary text d) (entries.map (eraseEntry text)) ∧
        (∀ r, occurrencesEntries r d'.entries ≤ occurrencesEntries r d.entries + occurrencesEntries r entries) ∧
        ∀ before, ComesFrom text d.entries before → (before ++ entries).Pairwise (EntryKept text) →
          (∀ e ∈ entries, keeps e.key ∧ keeps e.value) →
          ∀ r, occurrencesEntries r d'.entries = occurrencesEntries r d.entries + occurrencesEntries r entries
  | [], d, _, _ => ⟨d, fun _ _ _ _ => rfl, rfl, fun _ => Nat.le_refl _, fun _ _ _ _ _ => rfl⟩
  | e :: entries, d, hroom, hcopied => by
    obtain ⟨y, hy⟩ := hcopied e (List.mem_cons_self ..)
    obtain ⟨hn, hny⟩ := hy.live
    obtain ⟨d₁, old, hset, herase, hroom₁, hsum, hold, hmem⟩ := setRefDictionary_run hroom hy.accepted hy.key hy.value
    obtain ⟨d', hrun, herase', hle, hkeep⟩ :=
      setRefEntries_run hroom₁ fun x hx => hcopied x (List.mem_cons_of_mem e hx)
    have hentry : ∀ r, occurrencesEntry r e = e.key.occurrences r + e.value.occurrences r := fun r => by
      rw [occurrencesEntry_eq, hn]
      rfl
    have hstored : ∀ r, occurrencesEntry r y = y.key.occurrences r + y.value.occurrences r := fun r => by
      rw [occurrencesEntry_eq, hny]
      rfl
    have hfirst : ∀ r, y.key.occurrences r + y.value.occurrences r ≤ occurrencesEntry r e := fun r => by
      rw [hentry r]
      exact Nat.add_le_add (hy.key.le r) (hy.value.le r)
    have hall : ∀ r, occurrencesEntries r (e :: entries) = occurrencesEntry r e + occurrencesEntries r entries :=
      fun r => by rw [occurrencesEntries]
    refine ⟨d', ?_, ?_, ?_, ?_⟩
    · intro s hs hd he
      have he₁ : ∀ r, 0 < occurrencesEntry r e → 0 < (s.refs r).refCount := fun r hr => he r (by rw [hall r]; omega)
      have hfirstrun := hset s hs hd
        ⟨fun r hr => he₁ r (by rw [hentry r]; omega), fun r hr => he₁ r (by rw [hentry r]; omega)⟩
      have hd₁ : AliveEntries s d₁.entries := by
        intro r hr
        have h₁ := hsum r
        have h₂ := hfirst r
        by_cases hz : occurrencesEntries r d.entries = 0
        · exact he₁ r (by omega)
        · exact hd r (by omega)
      simp only [setRefEntries, hn, Bool.false_eq_true, if_false]
      exact (run_bind hfirstrun).trans (hrun s hs hd₁ fun r hr => he r (by rw [hall r]; omega))
    · rw [herase', List.map_cons, setEntries, setEntries, List.foldl_cons]
      congr 1
      rw [eraseEntry_eq, herase]
      rfl
    · intro r
      have h₁ := hle r
      have h₂ := hsum r
      have h₃ := hfirst r
      have h₄ := hall r
      omega
    · intro before hfrom hpair hkeeps r
      obtain ⟨hkey, hvalue⟩ := hkeeps e (List.mem_cons_self ..)
      have hexact := hy.kept hkey hvalue
      -- what is written over is stored for an earlier entry, so it holds no string
      have hlost : ∀ r, occurrencesEntry r old = 0 := by
        rcases hold with hz | ⟨hin, hno, heq⟩
        · exact hz
        · obtain ⟨x, hx, hxkey, hxsum⟩ := hfrom old hin hno
          rcases (List.pairwise_append.mp hpair).2.2 x hx e (List.mem_cons_self ..) with hapart | hz
          · rw [← hxkey, heq] at hapart
            cases hapart
          · intro r
            rw [hxsum r, hz r]
      have hfrom₁ := hfrom.cons (y := ⟨y.key, y.value⟩) hy.key.erase hexact hmem
      have hlast := hkeep (before ++ [e]) hfrom₁ (by rwa [List.append_assoc]) (fun x hx => hkeeps x (List.mem_cons_of_mem e hx)) r
      have h₁ := hsum r
      have h₂ := hlost r
      have h₃ := hexact r
      have h₄ := hstored r
      have h₅ := hall r
      omega

/-- The entries with a key. -/
def liveRefs (entries : List (Entry RefLiteral)) : List (Entry RefLiteral) := entries.filter fun e => !e.key.isNull

theorem liveRefs_erase (entries : List (Entry RefLiteral)) :
    liveEntries (entries.map (eraseEntry text)) = (liveRefs entries).map (eraseEntry text) := by
  rw [liveEntries, liveRefs, List.filter_map]
  congr 2
  funext e
  rw [Function.comp_apply, eraseEntry_eq, Entry.live, isNull_erase]

theorem setRefEntries_live (entries : List (Entry RefLiteral)) (d : RefDictionary) :
    setRefEntries copy entries d = setRefEntries copy (liveRefs entries) d := by
  induction entries generalizing d with
  | nil => rfl
  | cons e entries ih =>
    cases hn : e.key.isNull with
    | true =>
      rw [setRefEntries, if_pos hn, ih, liveRefs, liveRefs, List.filter_cons_of_neg (by simp [hn])]
    | false =>
      have hno : ¬ e.key.isNull = true := by simp [hn]
      rw [setRefEntries, if_neg hno, liveRefs, List.filter_cons_of_pos (by simp [hn]), setRefEntries, if_neg hno]
      congr 1
      funext d'
      exact ih d'

theorem occurrences_liveRefs (r : Nat) (entries : List (Entry RefLiteral)) :
    occurrencesEntries r (liveRefs entries) = occurrencesEntries r entries := by
  induction entries with
  | nil => rfl
  | cons e entries ih =>
    rw [liveRefs] at ih ⊢
    rw [occurrencesEntries, occurrencesEntry_eq]
    cases hn : e.key.isNull with
    | true => rw [List.filter_cons_of_neg (by simp [hn]), ih, if_pos rfl, Nat.zero_add]
    | false => rw [List.filter_cons_of_pos (by simp [hn]), occurrencesEntries, ih, occurrencesEntry_eq, hn]

/-- Pushing elements counts the occurrences in what is pushed. -/
structure Pushed (text : Nat → List Char) (push : StateM Strings (List RefLiteral)) (es ys : List RefLiteral)
    (image : Literal → Literal) (keeps : RefLiteral → Prop) : Prop where
  run : ∀ s : Strings, s.text = text → (∀ r, 0 < occurrencesList r es → 0 < (s.refs r).refCount) →
    push.run s = (ys, s.raise fun r => occurrencesList r ys)
  erase : eraseList text ys = (eraseList text es).map image
  le : ∀ r, occurrencesList r ys ≤ occurrencesList r es
  kept : (∀ x ∈ es, keeps x) → ∀ r, occurrencesList r ys = occurrencesList r es

theorem pushElements_run {keeps : RefLiteral → Prop} : ∀ {es : List RefLiteral},
    (∀ x ∈ es, ∃ y, Copied text copy x y ∧ (keeps x → ∀ r, y.occurrences r = x.occurrences r)) →
      ∃ ys, Pushed text (pushElements copy es) es ys copyLiteral keeps
  | [], _ => ⟨[], fun s _ _ => by rw [pushElements]; exact congrArg (Prod.mk []) s.raise_zero.symm, rfl,
      fun _ => Nat.le_refl _, fun _ _ => rfl⟩
  | x :: es, h => by
    obtain ⟨y, hy, hkept⟩ := h x (List.mem_cons_self ..)
    obtain ⟨ys, hrun, herase, hle, hkeep⟩ := pushElements_run fun z hz => h z (List.mem_cons_of_mem x hz)
    have hall : ∀ r, occurrencesList r (x :: es) = x.occurrences r + occurrencesList r es := fun r => by
      rw [occurrencesList]
    refine ⟨y :: ys, ⟨?_, ?_, ?_, ?_⟩⟩
    · intro s hs halive
      have hfirst := hy.run s hs fun r hr => halive r (by rw [hall r]; omega)
      have hrest := hrun (s.raise fun r => y.occurrences r) hs fun r hr => by
        have := halive r (by rw [hall r]; omega)
        rw [Strings.refCount_raise]
        omega
      rw [Strings.raise_raise] at hrest
      rw [pushElements]
      refine (run_bind hfirst).trans ((run_bind hrest).trans ?_)
      exact congrArg (Prod.mk (y :: ys)) (s.raise_congr fun r => by rw [occurrencesList])
    · rw [eraseList, eraseList, List.map_cons, hy.erase, herase]
    · intro r
      rw [hall r, occurrencesList]
      exact Nat.add_le_add (hy.le r) (hle r)
    · intro hkeeps r
      rw [hall r, occurrencesList, hkept (hkeeps x (List.mem_cons_self ..)) r,
        hkeep (fun z hz => hkeeps z (List.mem_cons_of_mem x hz)) r]

/-- The temporary copy of an element of an intermediate is counted, copied and freed. -/
theorem pushOnce_run {x y z : RefLiteral} (hy : Copied text copy x y) (hz : Copied text copy y z) {s : Strings}
    (hs : s.text = text) (halive : x.Alive s) {β : Type} (f : RefLiteral → StateM Strings β) :
    (do let literal ← copy x
        let pushed ← copy literal
        freeLiteral literal
        f pushed : StateM Strings β).run s = (f z).run (s.raise fun r => z.occurrences r) := by
  have halive' : y.Alive s := fun r hr => halive r (Nat.lt_of_lt_of_le hr (hy.le r))
  have hcopy := hz.run (s.raise fun r => y.occurrences r) hs fun r hr => by
    have := halive' r hr
    rw [Strings.refCount_raise]
    omega
  rw [Strings.raise_raise, s.raise_congr fun r => Nat.add_comm (y.occurrences r) (z.occurrences r)] at hcopy
  exact (run_bind (hy.run s hs halive)).trans ((run_bind hcopy).trans
    (run_bind (freeLiteral_run y s (fun r => z.occurrences r) halive')))

theorem pushIntermediate_run {keeps : RefLiteral → Prop} : ∀ {es : List RefLiteral},
    (∀ x ∈ es, ∃ y z, Copied text copy x y ∧ Copied text copy y z ∧
      (keeps x → ∀ r, z.occurrences r = x.occurrences r)) →
      ∃ ys, Pushed text (pushIntermediate copy es) es ys (fun x => copyLiteral (copyLiteral x)) keeps
  | [], _ => ⟨[], fun s _ _ => by rw [pushIntermediate]; exact congrArg (Prod.mk []) s.raise_zero.symm, rfl,
      fun _ => Nat.le_refl _, fun _ _ => rfl⟩
  | x :: es, h => by
    obtain ⟨y, z, hy, hz, hkept⟩ := h x (List.mem_cons_self ..)
    obtain ⟨ys, hrun, herase, hle, hkeep⟩ := pushIntermediate_run fun z hz => h z (List.mem_cons_of_mem x hz)
    have hall : ∀ r, occurrencesList r (x :: es) = x.occurrences r + occurrencesList r es := fun r => by
      rw [occurrencesList]
    refine ⟨z :: ys, ⟨?_, ?_, ?_, ?_⟩⟩
    · intro s hs halive
      have hrest := hrun (s.raise fun r => z.occurrences r) hs fun r hr => by
        have := halive r (by rw [hall r]; omega)
        rw [Strings.refCount_raise]
        omega
      rw [Strings.raise_raise] at hrest
      rw [pushIntermediate]
      refine (pushOnce_run hy hz hs (fun r hr => halive r (by rw [hall r]; omega)) _).trans ?_
      refine (run_bind hrest).trans ?_
      exact congrArg (Prod.mk (z :: ys)) (s.raise_congr fun r => by rw [occurrencesList])
    · rw [eraseList, eraseList, List.map_cons, hz.erase, hy.erase, herase]
    · intro r
      rw [hall r, occurrencesList]
      exact Nat.add_le_add (Nat.le_trans (hz.le r) (hy.le r)) (hle r)
    · intro hkeeps r
      rw [hall r, occurrencesList, hkept (hkeeps x (List.mem_cons_self ..)) r,
        hkeep (fun w hw => hkeeps w (List.mem_cons_of_mem x hw)) r]

end Set

/-! ## Whole literals -/

/-- What a literal is well formed by: a type has at most 128 subtypes, a dictionary holds
    keys that a set takes. -/
def formed : Literal → Bool
  | .type _ _ subtypes => subtypes.length ≤ 128
  | .dictionary d => (liveEntries d.entries).all fun e => !rejectedKey e.key
  | _ => true

def RefLiteral.parts : RefLiteral → List RefLiteral
  | .array es | .arrayIntermediate es | .dictionaryIntermediate es | .typeIntermediate es => es
  | .type _ _ subtypes => subtypes
  | _ => []

def RefLiteral.isIntermediate : RefLiteral → Bool
  | .arrayIntermediate _ | .dictionaryIntermediate _ | .typeIntermediate _ => true
  | _ => false

/-- No entry with a string is written over, neither in the copy nor in the copies of the
    temporaries that an intermediate's elements pass through. -/
inductive Keeps (text : Nat → List Char) : RefLiteral → Prop
  | plain {a : RefLiteral} : (∀ d, a ≠ .dictionary d) → (∀ x ∈ a.parts, Keeps text x) →
      (a.isIntermediate = true → ∀ x ∈ a.parts, ∀ y : RefLiteral, y.erase text = copyLiteral (x.erase text) →
        (∀ r, y.occurrences r = x.occurrences r) → Keeps text y) → Keeps text a
  | dictionary {d : RefDictionary} : (liveRefs d.entries).Pairwise (EntryKept text) →
      (∀ e ∈ liveRefs d.entries, Keeps text e.key) → (∀ e ∈ liveRefs d.entries, Keeps text e.value) →
      Keeps text (.dictionary d)

namespace Keeps

variable {text : Nat → List Char}

theorem part {a : RefLiteral} (h : Keeps text a) : ∀ x ∈ a.parts, Keeps text x := by
  cases h with
  | plain _ hparts _ => exact hparts
  | dictionary => exact fun x hx => (List.not_mem_nil hx).elim

theorem temporary {a : RefLiteral} (h : Keeps text a) (hi : a.isIntermediate = true) : ∀ x ∈ a.parts,
    ∀ y : RefLiteral, y.erase text = copyLiteral (x.erase text) → (∀ r, y.occurrences r = x.occurrences r) →
      Keeps text y := by
  cases h with
  | plain _ _ htemp => exact htemp hi
  | dictionary => cases hi

theorem entries {d : RefDictionary} (h : Keeps text (.dictionary d)) :
    (liveRefs d.entries).Pairwise (EntryKept text) ∧ ∀ e ∈ liveRefs d.entries, Keeps text e.key ∧ Keeps text e.value := by
  cases h with
  | plain hno => exact absurd rfl (hno d)
  | dictionary hpair hkeys hvalues => exact ⟨hpair, fun e he => ⟨hkeys e he, hvalues e he⟩⟩

end Keeps

/-- A copy is well formed. -/
theorem formed_copy {a : Literal} (h : a.everywhere formed = true) : (copyLiteral a).everywhere formed = true := by
  induction hn : a.depth using Nat.strong_induction_on generalizing a with
  | _ n ih =>
    subst hn
    by_cases hk : a.kind = .dictionary
    · obtain ⟨d, rfl⟩ := kind_dictionary hk
      have haccepted : ∀ e ∈ liveEntries d.entries, rejectedKey e.key = false := by
        simpa [formed] using everywhere_self h
      have horigin : ∀ x ∈ liveEntries (copyDictionary realFns d).entries, ∃ e ∈ liveEntries d.entries,
          x = setEntryValues realFns e.key e.value := by
        intro x hx
        obtain ⟨e, he, hlive, hxe⟩ := copyDictionary_mem (List.mem_of_mem_filter hx) (List.of_mem_filter hx)
        exact ⟨e, List.mem_filter.mpr ⟨he, hlive⟩, hxe⟩
      rw [copyLiteral_eq, copyBody]
      apply everywhere_dictionary
      · simp only [formed, List.all_eq_true, Bool.not_eq_true']
        intro x hx
        obtain ⟨e, he, rfl⟩ := horigin x hx
        have hkind : rejectedKey (copyLiteral e.key) = rejectedKey e.key := by
          simp only [rejectedKey, Literal.isNull, Literal.isFunction, Literal.isFunctionNative, Literal.isFunctionHook,
            Literal.isOpaque, copyLiteral_kind]
        exact hkind.trans (haccepted e he)
      · intro x hx
        obtain ⟨e, he, rfl⟩ := horigin x hx
        exact ⟨ih _ (entry_depth he).1 (everywhere_entry h he).1 rfl, ih _ (entry_depth he).2 (everywhere_entry h he).2 rfl⟩
    · have hshell : (copyLiteral a).shell = a.shell := by rw [copyLiteral_eq]; exact shell_copy realFns a
      have hparts := parts_copy realFns a
      rw [← copyLiteral_eq] at hparts
      have hkc : (copyLiteral a).kind ≠ .dictionary := by rw [copyLiteral_kind]; exact hk
      have honce : ∀ x ∈ a.parts, (copyLiteral x).everywhere formed = true := fun x hx =>
        ih _ (parts_depth hx) (everywhere_part h hx) rfl
      refine everywhere_plain hkc ?_ ?_
      · have hself := everywhere_self h
        rw [copyLiteral_eq]
        cases a <;> first | rfl | exact absurd rfl hk | simpa [formed, copyBody] using hself
      · intro y hy
        rcases hparts with hp | hp
        · rw [hp] at hy
          obtain ⟨x, hx, rfl⟩ := List.mem_map.mp hy
          exact honce x hx
        · rw [hp] at hy
          obtain ⟨x, hx, rfl⟩ := List.mem_map.mp hy
          have hlt : (copyLiteral x).depth < a.depth := Nat.lt_of_le_of_lt (copyLiteral_depth x) (parts_depth hx)
          exact ih _ hlt (honce x hx) rfl

theorem scalar_copy (l : Scalar) : copyLiteral l.1 = l.1 := by
  obtain ⟨l, hl⟩ := l
  rw [copyLiteral_eq]
  cases l <;> first | rfl | cases hl

section Copy

variable {text : Nat → List Char} {n : Nat}
  (ih : ∀ a : RefLiteral, (a.erase text).depth < n → (a.erase text).everywhere formed = true →
    ∃ y, Copied text (copyRefAt n) a y ∧ (Keeps text a → ∀ r, y.occurrences r = a.occurrences r))

include ih

theorem elements_pushed {es : List RefLiteral} (hdepth : depthList (eraseList text es) < n)
    (hformed : ∀ x ∈ eraseList text es, x.everywhere formed = true) :
    ∃ ys, Pushed text (pushElements (copyRefAt n) es) es ys copyLiteral (Keeps text) := by
  apply pushElements_run
  intro x hx
  have hmem : x.erase text ∈ eraseList text es := by
    rw [eraseList_map]
    exact List.mem_map_of_mem hx
  exact ih x (Nat.lt_of_le_of_lt (depth_mem hmem) hdepth) (hformed _ hmem)

/-- The temporary an element passes through is well formed, and nested no deeper. -/
theorem intermediate_pushed {es : List RefLiteral} (hdepth : depthList (eraseList text es) < n)
    (hformed : ∀ x ∈ eraseList text es, x.everywhere formed = true) :
    ∃ ys, Pushed text (pushIntermediate (copyRefAt n) es) es ys (fun x => copyLiteral (copyLiteral x)) fun x =>
      Keeps text x ∧ ∀ y : RefLiteral, y.erase text = copyLiteral (x.erase text) →
        (∀ r, y.occurrences r = x.occurrences r) → Keeps text y := by
  apply pushIntermediate_run
  intro x hx
  have hmem : x.erase text ∈ eraseList text es := by
    rw [eraseList_map]
    exact List.mem_map_of_mem hx
  have hlt := Nat.lt_of_le_of_lt (depth_mem hmem) hdepth
  obtain ⟨y, hy, hkeep⟩ := ih x hlt (hformed _ hmem)
  have hle := copyLiteral_depth (x.erase text)
  obtain ⟨z, hz, hkeep'⟩ := ih y (by rw [hy.erase]; omega) (by rw [hy.erase]; exact formed_copy (hformed _ hmem))
  refine ⟨y, z, hy, hz, ?_⟩
  intro hkeeps r
  have hexact := hkeep hkeeps.1
  rw [hkeep' (hkeeps.2 y hy.erase hexact) r, hexact r]

omit ih in
/-- A literal built from what is pushed. -/
theorem built_copied (build : List RefLiteral → RefLiteral) {a : RefLiteral} {es ys : List RefLiteral}
    {push : StateM Strings (List RefLiteral)} {image : Literal → Literal} {keeps : RefLiteral → Prop}
    (hpush : Pushed text push es ys image keeps) (hbody : copyRefBody (copyRefAt n) a = (do return build (← push)))
    (hocc : ∀ r, a.occurrences r = occurrencesList r es)
    (hbuild : ∀ r, (build ys).occurrences r = occurrencesList r ys)
    (herase : eraseList text ys = (eraseList text es).map image → (build ys).erase text = copyLiteral (a.erase text))
    (hkeeps : Keeps text a → ∀ x ∈ es, keeps x) :
    ∃ y, Copied text (copyRefAt (n + 1)) a y ∧ (Keeps text a → ∀ r, y.occurrences r = a.occurrences r) := by
  refine ⟨build ys, ⟨?_, herase hpush.erase, ?_⟩, ?_⟩
  · intro s hs halive
    rw [copyRefAt, hbody]
    refine (run_bind (hpush.run s hs fun r hr => halive r (by rw [hocc r]; exact hr))).trans ?_
    exact congrArg (Prod.mk (build ys)) (s.raise_congr fun r => (hbuild r).symm)
  · intro r
    rw [hbuild r, hocc r]
    exact hpush.le r
  · intro hk r
    rw [hbuild r, hocc r]
    exact hpush.kept (hkeeps hk) r

theorem dictionary_copied_refs {d : RefDictionary} (hdepth : (Literal.dictionary (eraseDictionary text d)).depth < n + 1)
    (hformed : (Literal.dictionary (eraseDictionary text d)).everywhere formed = true) :
    ∃ y, Copied text (copyRefAt (n + 1)) (.dictionary d) y ∧
      (Keeps text (.dictionary d) → ∀ r, y.occurrences r = (RefLiteral.dictionary d).occurrences r) := by
  have hlive : liveEntries (eraseDictionary text d).entries = (liveRefs d.entries).map (eraseEntry text) := by
    rw [eraseDictionary_eq, liveRefs_erase]
  have haccepted : ∀ e ∈ liveEntries (eraseDictionary text d).entries, rejectedKey e.key = false := by
    simpa [formed] using everywhere_self hformed
  have hentries : ∀ e ∈ liveRefs d.entries, ∃ y, EntryCopied text (copyRefAt n) (Keeps text) e y := by
    intro e he
    have hmem : eraseEntry text e ∈ liveEntries (eraseDictionary text d).entries := by
      rw [hlive]
      exact List.mem_map_of_mem he
    have hd := entry_depth hmem
    have hf := everywhere_entry hformed hmem
    have ha := haccepted _ hmem
    rw [eraseEntry_eq] at hd hf ha
    simp only at hd
    obtain ⟨k, hk, hkeepk⟩ := ih e.key (by omega) hf.1
    obtain ⟨v, hv, hkeepv⟩ := ih e.value (by omega) hf.2
    have hn : k.isNull = e.key.isNull := by
      rw [← isNull_erase text, hk.erase, Literal.isNull, copyLiteral_kind, ← isNull_erase text e.key]
      rfl
    refine ⟨⟨k, v⟩, ha, hk, hv, ?_⟩
    intro hkk hkv r
    rw [occurrencesEntry_eq, occurrencesEntry_eq, hn, hkeepk hkk r, hkeepv hkv r]
  have hinit : Room (initRefDictionary.entries.map (eraseEntry text)) initRefDictionary.contains :=
    (init_inv (F := realFns)).toRoom
  have hzero : ∀ r, occurrencesEntries r initRefDictionary.entries = 0 := fun r => occurrencesEntries_replicate r _
  obtain ⟨d', hrun, herase, hle, hkeep⟩ := setRefEntries_run hinit hentries
  refine ⟨.dictionary d', ⟨?_, ?_, ?_⟩, ?_⟩
  · intro s hs halive
    have hloop := hrun s hs (fun r hr => absurd hr (by rw [hzero r]; omega)) fun r hr =>
      halive r (by rw [RefLiteral.occurrences, occurrencesDictionary_eq, ← occurrences_liveRefs]; exact hr)
    rw [s.raise_congr hzero, s.raise_zero, ← setRefEntries_live] at hloop
    rw [copyRefAt, copyRefBody]
    refine (run_bind hloop).trans (congrArg (Prod.mk _) (s.raise_congr fun r => ?_))
    rw [RefLiteral.occurrences, occurrencesDictionary_eq]
  · rw [RefLiteral.erase, herase, RefLiteral.erase, copyLiteral_eq, copyBody, copyDictionary_loop, hlive]
    rfl
  · intro r
    have := hle r
    rw [hzero r, occurrences_liveRefs] at this
    rw [RefLiteral.occurrences, RefLiteral.occurrences, occurrencesDictionary_eq, occurrencesDictionary_eq]
    omega
  · intro hk r
    obtain ⟨hpair, hkeeps⟩ := hk.entries
    have := hkeep [] (fun y hy hn => by rw [(List.mem_replicate.mp hy).2] at hn; cases hn) hpair hkeeps r
    rw [hzero r, occurrences_liveRefs] at this
    rw [RefLiteral.occurrences, RefLiteral.occurrences, occurrencesDictionary_eq, occurrencesDictionary_eq]
    omega

end Copy

theorem copyRefAt_copied (text : Nat → List Char) : ∀ (n : Nat) (a : RefLiteral), (a.erase text).depth < n →
    (a.erase text).everywhere formed = true →
      ∃ y, Copied text (copyRefAt n) a y ∧ (Keeps text a → ∀ r, y.occurrences r = a.occurrences r)
  | 0, _, hdepth, _ => absurd hdepth (Nat.not_lt_zero _)
  | n + 1, a, hdepth, hformed => by
    have ih := copyRefAt_copied text n
    have hstring : ∀ (p : Nat) (b : RefLiteral), copyRefBody (copyRefAt n) b = (do copyRefString p; return b) →
        (∀ r, b.occurrences r = if p = r then 1 else 0) → b.erase text = copyLiteral (b.erase text) →
        ∃ y, Copied text (copyRefAt (n + 1)) b y ∧ (Keeps text b → ∀ r, y.occurrences r = b.occurrences r) := by
      intro p b hbody hocc herase
      refine ⟨b, ⟨?_, herase, fun _ => Nat.le_refl _⟩, fun _ _ => rfl⟩
      intro s _ _
      rw [copyRefAt, hbody]
      refine (run_bind (copyRefString_run p s)).trans ?_
      exact congrArg (Prod.mk b) (s.raise_congr fun r => (hocc r).symm)
    cases a with
    | scalar l =>
      refine ⟨.scalar l, ⟨?_, (scalar_copy l).symm, fun _ => Nat.le_refl _⟩, fun _ _ => rfl⟩
      intro s _ _
      exact congrArg (Prod.mk (RefLiteral.scalar l)) s.raise_zero.symm
    | string p => exact hstring p (.string p) rfl (fun _ => rfl) (by rw [copyLiteral_eq]; rfl)
    | identifier p => exact hstring p (.identifier p) rfl (fun _ => rfl) (by rw [copyLiteral_eq]; rfl)
    | dictionary d => exact dictionary_copied_refs ih hdepth hformed
    | array es =>
      obtain ⟨ys, hpush⟩ := elements_pushed ih (Nat.lt_of_succ_lt_succ hdepth) fun x hx => everywhere_part hformed hx
      refine built_copied .array hpush rfl (fun _ => rfl) (fun _ => rfl) ?_ Keeps.part
      intro h
      rw [RefLiteral.erase, h, RefLiteral.erase, copyLiteral_eq]
      rfl
    | type t c es =>
      obtain ⟨ys, hpush⟩ := elements_pushed ih (Nat.lt_of_succ_lt_succ hdepth) fun x hx => everywhere_part hformed hx
      refine built_copied (.type t c) hpush rfl (fun _ => rfl) (fun _ => rfl) ?_ Keeps.part
      intro h
      rw [RefLiteral.erase, h, RefLiteral.erase, copyLiteral_eq]
      rfl
    | arrayIntermediate es =>
      obtain ⟨ys, hpush⟩ := intermediate_pushed ih (Nat.lt_of_succ_lt_succ hdepth) fun x hx => everywhere_part hformed hx
      refine built_copied .arrayIntermediate hpush rfl (fun _ => rfl) (fun _ => rfl) ?_
        fun hk x hx => ⟨hk.part x hx, hk.temporary rfl x hx⟩
      intro h
      rw [RefLiteral.erase, h, RefLiteral.erase, copyLiteral_eq]
      rfl
    | dictionaryIntermediate es =>
      obtain ⟨ys, hpush⟩ := intermediate_pushed ih (Nat.lt_of_succ_lt_succ hdepth) fun x hx => everywhere_part hformed hx
      refine built_copied .dictionaryIntermediate hpush rfl (fun _ => rfl) (fun _ => rfl) ?_
        fun hk x hx => ⟨hk.part x hx, hk.temporary rfl x hx⟩
      intro h
      rw [RefLiteral.erase, h, RefLiteral.erase, copyLiteral_eq]
      rfl
    | typeIntermediate es =>
      obtain ⟨ys, hpush⟩ := intermediate_pushed ih (Nat.lt_of_succ_lt_succ hdepth) fun x hx => everywhere_part hformed hx
      refine built_copied .typeIntermediate hpush rfl (fun _ => rfl) (fun _ => rfl) ?_
        fun hk x hx => ⟨hk.part x hx, hk.temporary rfl x hx⟩
      intro h
      rw [RefLiteral.erase, h, RefLiteral.erase, copyLiteral_eq]
      rfl

/-- Copying raises the counts by what the copy refers to, releases nothing, and freeing the
    copy restores every count; the counts rise by the occurrences in the original where no
    entry with a string is written over. -/
theorem reference_counts (a : RefLiteral) (s : Strings) (hformed : (a.erase s.text).everywhere formed = true)
    (halive : a.Alive s) :
    ∃ copy t, (copyRefLiteral a).run s = (copy, t) ∧ copy.erase s.text = copyLiteral (a.erase s.text) ∧
      t.text = s.text ∧ t.released = s.released ∧ (∀ r, (s.refs r).refCount ≤ (t.refs r).refCount) ∧
      (freeLiteral copy).run t = ((), s) ∧
      (Keeps s.text a → ∀ r, (t.refs r).refCount = (s.refs r).refCount + a.occurrences r) := by
  obtain ⟨copy, hcopy, hkeep⟩ := copyRefAt_copied s.text _ a (Nat.lt_succ_self _) hformed
  refine ⟨copy, s.raise fun r => copy.occurrences r, ?_, hcopy.erase, rfl, rfl, ?_, ?_, ?_⟩
  · exact (run_bind (show (get : StateM Strings Strings).run s = (s, s) from rfl)).trans (hcopy.run s rfl halive)
  · intro r
    rw [Strings.refCount_raise]
    omega
  · have hfree := freeLiteral_run copy s (fun _ => 0) fun r hr => halive r (Nat.lt_of_lt_of_le hr (hcopy.le r))
    rw [s.raise_zero, s.raise_congr fun r => Nat.zero_add (copy.occurrences r)] at hfree
    exact hfree
  · intro hk r
    rw [Strings.refCount_raise, hkeep hk r]

/-- Every string is referred to once. -/
def heldOnce : Strings := ⟨fun p => ⟨if p = 0 then ['a'] else ['b'], 1⟩, []⟩

/-- An array that holds one string twice, and as the value of a dictionary. -/
def sharedString : RefLiteral := .array [.string 0,
  .dictionary ⟨⟨.string 1, .string 0⟩ :: List.replicate 7 RefEntry.empty, 1, 1⟩, .string 0]

theorem keeps_string (text : Nat → List Char) (p : Nat) : Keeps text (.string p) :=
  .plain (by simp) (by simp [RefLiteral.parts]) (by simp [RefLiteral.isIntermediate])

theorem sharedString_keeps (text : Nat → List Char) : Keeps text sharedString := by
  refine .plain (by simp [sharedString]) ?_ (by simp [sharedString, RefLiteral.isIntermediate])
  intro x hx
  simp only [sharedString, RefLiteral.parts, List.mem_cons, List.not_mem_nil, or_false] at hx
  rcases hx with rfl | rfl | rfl
  · exact keeps_string text 0
  · refine .dictionary (List.pairwise_singleton _ _) ?_ ?_
    · intro e he
      rw [List.mem_singleton.mp he]
      exact keeps_string text 1
    · intro e he
      rw [List.mem_singleton.mp he]
      exact keeps_string text 0
  · exact keeps_string text 0

theorem reference_counts_shared :
    ∃ copy t, (copyRefLiteral sharedString).run heldOnce = (copy, t) ∧ (freeLiteral copy).run t = ((), heldOnce) ∧
      (t.refs 0).refCount = 4 := by
  obtain ⟨copy, t, hrun, _, _, _, _, hfree, hcount⟩ :=
    reference_counts sharedString heldOnce (by decide +kernel) fun _ _ => Int.one_pos
  exact ⟨copy, t, hrun, hfree, hcount (sharedString_keeps _) 0⟩

/-! ## A string that is not counted -/

def refInteger (value : BitVec 32) : RefLiteral := .scalar ⟨.integer value, rfl⟩

def refFalse : RefLiteral := .scalar ⟨.boolean false, rfl⟩

/-- What a run of sets leaves. -/
def refDictionaryOf (entries : List (Entry RefLiteral)) : RefDictionary :=
  ((setRefEntries copyRefLiteral entries initRefDictionary).run heldOnce).1

def smallRefKey : RefLiteral := .dictionary (refDictionaryOf [⟨refInteger 4, refInteger 4⟩])

def largeRefKey : RefLiteral := .dictionary (refDictionaryOf [⟨refInteger 4, refInteger 4⟩, ⟨refFalse, refFalse⟩])

/-- Binds two keys that hash alike to two strings, the smaller one in the last slot and the
    larger, after it, in the first. -/
def twoRefKeys : RefLiteral :=
  .dictionary (refDictionaryOf [⟨smallRefKey, .string 0⟩, ⟨largeRefKey, .string 1⟩])

/-- The copy sets the larger key first, then the smaller one over it, which equals it: the
    string bound to the larger is not counted. -/
theorem copy_loses_string :
    ¬ ∀ (a : RefLiteral) (s : Strings), (a.erase s.text).everywhere formed = true → a.Alive s →
      (a.erase s.text).everywhere keysConsistent = true →
      ∀ r, (((copyRefLiteral a).run s).2.refs r).refCount = (s.refs r).refCount + a.occurrences r := by
  intro h
  have hcount := h twoRefKeys heldOnce (by decide +kernel) (fun _ _ => Int.one_pos) (by decide +kernel) 1
  have hlost : (((copyRefLiteral twoRefKeys).run heldOnce).2.refs 1).refCount = 1 := by decide +kernel
  have hheld : twoRefKeys.occurrences 1 = 1 := by decide +kernel
  rw [hlost, hheld] at hcount
  cases hcount

end Xvr.Runtime
