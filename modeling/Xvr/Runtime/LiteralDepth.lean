/-
  Xvr.Runtime.LiteralDepth — the literal functions call themselves on what is inside.

  `literalFns n` is right below depth `n`: from there on more depth changes nothing
  (`agree_of_le`). So the source's three functions satisfy the equations of their bodies
  (`literalsAreEqual_eq`, `hashLiteral_eq`, `copyLiteral_eq`), which is all that proofs
  about them use.
-/

import Xvr.Runtime.DictionaryTable

namespace Xvr.Runtime

open Xvr.Lib.LinearProbe

/-! ## Depth -/

theorem depth_mem : ∀ {es : List Literal} {e : Literal}, e ∈ es → e.depth ≤ depthList es
  | [], _, h => by cases h
  | x :: es, e, h => by
    rw [depthList]
    rcases List.mem_cons.mp h with rfl | h
    · exact Nat.le_max_left ..
    · exact Nat.le_trans (depth_mem h) (Nat.le_max_right ..)

theorem depthEntries_mem : ∀ {es : List (Entry Literal)} {e : Entry Literal}, e ∈ es → depthEntry e ≤ depthEntries es
  | [], _, h => by cases h
  | x :: es, e, h => by
    rw [depthEntries]
    rcases List.mem_cons.mp h with rfl | h
    · exact Nat.le_max_left ..
    · exact Nat.le_trans (depthEntries_mem h) (Nat.le_max_right ..)

theorem depthList_le {n : Nat} : ∀ {es : List Literal}, (∀ e ∈ es, e.depth ≤ n) → depthList es ≤ n
  | [], _ => Nat.zero_le _
  | e :: es, h => by
    rw [depthList]
    exact Nat.max_le.mpr ⟨h e (List.mem_cons_self ..), depthList_le fun x hx => h x (List.mem_cons_of_mem _ hx)⟩

theorem depthEntries_le {n : Nat} : ∀ {es : List (Entry Literal)}, (∀ e ∈ es, depthEntry e ≤ n) → depthEntries es ≤ n
  | [], _ => Nat.zero_le _
  | e :: es, h => by
    rw [depthEntries]
    exact Nat.max_le.mpr ⟨h e (List.mem_cons_self ..), depthEntries_le fun x hx => h x (List.mem_cons_of_mem _ hx)⟩

theorem depthEntry_eq (e : Entry Literal) : depthEntry e = max e.key.depth e.value.depth := by
  obtain ⟨k, v⟩ := e
  rfl

theorem depth_dictionary (d : Dictionary) : (Literal.dictionary d).depth = depthEntries d.entries + 1 := by
  obtain ⟨entries, count, contains⟩ := d
  rfl

/-! ## Functions that agree below a depth -/

structure Agree (F G : LiteralFns) (n : Nat) : Prop where
  equal : ∀ a b : Literal, a.depth < n → b.depth < n → F.equal a b = G.equal a b
  hash : ∀ a : Literal, a.depth < n → F.hash a = G.hash a
  copy : ∀ a : Literal, a.depth < n → F.copy a = G.copy a
  depth : ∀ a : Literal, (F.copy a).depth ≤ a.depth

section Congruence

variable {F G : LiteralFns} {n : Nat} (h : Agree F G n)

/-- Nothing in the array is nested deeper than the functions agree. -/
def Shallow (n : Nat) (array : List (Entry Literal)) : Prop := ∀ e ∈ array, depthEntry e < n

theorem shallow_entryAt (hn : 0 < n) {array : List (Entry Literal)} (hs : Shallow n array) (i : Nat) :
    depthEntry (entryAt array i) < n := by
  by_cases hi : i < array.length
  · rw [entryAt_eq hi]
    exact hs _ (List.getElem_mem hi)
  · rw [entryAt, List.getD_eq_getElem?_getD, List.getElem?_eq_none (by omega)]
    exact hn

theorem shallow_replicate (hn : 0 < n) (capacity : Nat) : Shallow n (List.replicate capacity Entry.empty) := by
  intro e he
  rw [(List.mem_replicate.mp he).2]
  exact hn

include h

theorem stopsAt_congr {key : Literal} (hk : key.depth < n) (mustExist : Bool) {e : Entry Literal} (he : depthEntry e < n) :
    stopsAt F key mustExist e = stopsAt G key mustExist e := by
  rw [depthEntry_eq] at he
  rw [stopsAt, stopsAt, h.equal key e.key hk (by omega)]

theorem getEntryArray_congr {array : List (Entry Literal)} (hs : Shallow n array) {key : Literal} (hk : key.depth < n)
    (hash : BitVec 32) (mustExist : Bool) :
    getEntryArray F array key hash mustExist = getEntryArray G array key hash mustExist := by
  rw [getEntryArray, getEntryArray]
  congr 1
  funext i
  exact stopsAt_congr h hk mustExist (shallow_entryAt (by omega) hs i)

theorem moveEntry_congr {array : List (Entry Literal)} (hs : Shallow n array) {e : Entry Literal} (he : depthEntry e < n) :
    moveEntry F array e = moveEntry G array e := by
  have hd := depthEntry_eq e
  rw [moveEntry, moveEntry, h.hash e.key (by omega),
    getEntryArray_congr h hs (show Literal.null.depth < n from Nat.lt_of_le_of_lt (Nat.zero_le _) he)]

theorem moveEntries_congr : ∀ {old array : List (Entry Literal)}, Shallow n old → Shallow n array →
    old.foldlM (moveEntry F) array = old.foldlM (moveEntry G) array
  | [], _, _, _ => rfl
  | e :: old, array, ho, hs => by
    rw [List.foldlM_cons, List.foldlM_cons, moveEntry_congr h hs (ho e (List.mem_cons_self ..))]
    cases hm : moveEntry G array e with
    | none => rfl
    | some array' =>
      refine moveEntries_congr (fun x hx => ho x (List.mem_cons_of_mem _ hx)) ?_
      intro x hx
      rcases moveEntry_mem hm hx with hx | rfl
      · exact hs x hx
      · exact ho _ (List.mem_cons_self ..)

theorem growEntries_congr (hn : 0 < n) {array : List (Entry Literal)} (hs : Shallow n array) (contains : Nat) :
    growEntries F array contains = growEntries G array contains := by
  rw [growEntries, growEntries, adjustEntryCapacity, adjustEntryCapacity,
    moveEntries_congr h hs (shallow_replicate hn _)]

theorem setEntryValues_congr {key value : Literal} (hk : key.depth < n) (hv : value.depth < n) :
    setEntryValues F key value = setEntryValues G key value := by
  rw [setEntryValues, setEntryValues, h.copy key hk, h.copy value hv]

theorem set_congr {d : Dictionary} (hs : Shallow n d.entries) {key value : Literal} (hk : key.depth < n)
    (hv : value.depth < n) : setLiteralDictionary F d key value = setLiteralDictionary G d key value := by
  have hn : 0 < n := by omega
  rw [setLiteralDictionary, setLiteralDictionary, setEntryArray, setEntryArray, growEntries_congr h hn hs, h.hash key hk,
    setEntryValues_congr h hk hv]
  split
  · rfl
  · cases hg : growEntries G d.entries d.contains with
    | none => rfl
    | some array =>
      have hs' : Shallow n array := by
        intro x hx
        rw [growEntries] at hg
        split at hg
        · rcases moveEntries_mem d.entries hg hx with hx | hx
          · exact shallow_replicate hn _ x hx
          · exact hs x hx
        · cases hg; exact hs x hx
      simp only [Option.bind_eq_bind, Option.bind_some, getEntryArray_congr h hs' hk]

theorem set_shallow {d d' : Dictionary} (hs : Shallow n d.entries) {key value : Literal} (hk : key.depth < n)
    (hv : value.depth < n) (hset : setLiteralDictionary F d key value = some d') : Shallow n d'.entries := by
  intro x hx
  rcases set_mem hset hx with hx | rfl | rfl
  · exact hs x hx
  · have h1 := h.depth key
    have h2 := h.depth value
    rw [depthEntry_eq, setEntryValues]
    simp only
    omega
  · exact Nat.lt_of_le_of_lt (Nat.zero_le _) hk

theorem get_congr {d : Dictionary} (hs : Shallow n d.entries) {key : Literal} (hk : key.depth < n) :
    getLiteralDictionary F d key = getLiteralDictionary G d key := by
  rw [getLiteralDictionary, getLiteralDictionary, h.hash key hk, getEntryArray_congr h hs hk]
  split
  · rfl
  · cases getEntryArray G d.entries key (G.hash key) true with
    | none => rfl
    | some i =>
      have he := shallow_entryAt (Nat.lt_of_le_of_lt (Nat.zero_le _) hk) hs i
      rw [depthEntry_eq] at he
      exact h.copy _ (by omega)

theorem exists_congr {d : Dictionary} (hs : Shallow n d.entries) {key : Literal} (hk : key.depth < n) :
    existsLiteralDictionary F d key = existsLiteralDictionary G d key := by
  rw [existsLiteralDictionary, existsLiteralDictionary, h.hash key hk, getEntryArray_congr h hs hk]

theorem get_depth {d : Dictionary} (hs : Shallow n d.entries) (hn : 0 < n) (key : Literal) :
    (getLiteralDictionary F d key).depth < n := by
  rw [getLiteralDictionary]
  split
  · exact hn
  · split
    · rename_i i _
      have he := shallow_entryAt hn hs i
      have hd := h.depth (entryAt d.entries i).value
      rw [depthEntry_eq] at he
      omega
    · exact hn

/-! ## The bodies -/

theorem elements_congr {as bs : List Literal} (ha : ∀ e ∈ as, e.depth < n) (hb : ∀ e ∈ bs, e.depth < n) :
    elementsAreEqual F as bs = elementsAreEqual G as bs := by
  rw [elementsAreEqual, elementsAreEqual]
  congr 1
  rw [Bool.eq_iff_iff, List.all_eq_true, List.all_eq_true]
  apply forall₂_congr
  intro p hp
  rw [h.equal p.1 p.2 (ha _ (List.of_mem_zip hp).1) (hb _ (List.of_mem_zip hp).2)]

theorem dictionaries_congr {a b : Dictionary} (ha : Shallow n a.entries) (hb : Shallow n b.entries) :
    dictionariesAreEqual F a b = dictionariesAreEqual G a b := by
  rw [dictionariesAreEqual, dictionariesAreEqual, Bool.eq_iff_iff, List.all_eq_true, List.all_eq_true]
  apply forall₂_congr
  intro e he
  have hd := ha e he
  rw [depthEntry_eq] at hd
  have hget := get_depth h hb (by omega) e.key
  rw [get_congr h hb (by omega)] at hget
  rw [exists_congr h hb (by omega), get_congr h hb (by omega), h.equal e.value _ (by omega) hget]

end Congruence

theorem shallow_of_depth {n : Nat} {d : Dictionary} (h : (Literal.dictionary d).depth < n + 1) : Shallow n d.entries := by
  intro e he
  rw [depth_dictionary] at h
  exact Nat.lt_of_le_of_lt (depthEntries_mem he) (by omega)

theorem equalBody_congr {F G : LiteralFns} {n : Nat} (h : Agree F G n) {a b : Literal} (ha : a.depth < n + 1)
    (hb : b.depth < n + 1) : equalBody F a b = equalBody G a b := by
  rw [equalBody, equalBody]
  split
  · rfl
  · have hlist : ∀ {es : List Literal}, depthList es + 1 < n + 1 → ∀ e ∈ es, e.depth < n := fun hd e he =>
      Nat.lt_of_le_of_lt (depth_mem he) (by omega)
    cases a <;> cases b <;> try rfl
    · exact elements_congr h (hlist ha) (hlist hb)
    · exact dictionaries_congr h (shallow_of_depth ha) (shallow_of_depth hb)
    · simp only [equalOfKind]
      congr 1
      split
      · exact elements_congr h (hlist ha) (hlist hb)
      · rfl
    · exact elements_congr h (hlist ha) (hlist hb)
    · exact elements_congr h (hlist ha) (hlist hb)
    · exact elements_congr h (hlist ha) (hlist hb)

theorem hashBody_congr {F G : LiteralFns} {n : Nat} (h : Agree F G n) {a : Literal} (ha : a.depth < n + 1) :
    hashBody F a = hashBody G a := by
  cases a with
  | array es =>
    have hd : depthList es + 1 < n + 1 := ha
    rw [hashBody, hashBody]
    congr 1
    apply List.foldl_ext
    intro res e he
    rw [h.hash e (Nat.lt_of_le_of_lt (depth_mem he) (by omega))]
  | dictionary d =>
    rw [hashBody, hashBody]
    congr 1
    apply List.foldl_ext
    intro res e he
    have hd := shallow_of_depth ha e (List.mem_of_mem_filter he)
    rw [depthEntry_eq] at hd
    rw [h.hash e.key (by omega), h.hash e.value (by omega)]
  | _ => rfl

/-- The loop that copies a dictionary, on two sets of functions. -/
theorem copyEntries_congr {F G : LiteralFns} {n : Nat} (h : Agree F G n) : ∀ {entries : List (Entry Literal)}
    {copy : Dictionary}, Shallow n entries → Shallow n copy.entries →
      entries.foldl (fun copy e => (setLiteralDictionary F copy e.key e.value).getD copy) copy =
        entries.foldl (fun copy e => (setLiteralDictionary G copy e.key e.value).getD copy) copy
  | [], _, _, _ => rfl
  | e :: entries, copy, he, hc => by
    have hd := he e (List.mem_cons_self ..)
    rw [depthEntry_eq] at hd
    have hk : e.key.depth < n := by omega
    have hv : e.value.depth < n := by omega
    rw [List.foldl_cons, List.foldl_cons, ← set_congr h hc hk hv]
    apply copyEntries_congr h (fun x hx => he x (List.mem_cons_of_mem _ hx))
    cases hs : setLiteralDictionary F copy e.key e.value with
    | none => exact hc
    | some copy' => exact set_shallow h hc hk hv hs

theorem copyBody_congr {F G : LiteralFns} {n : Nat} (h : Agree F G n) {a : Literal} (ha : a.depth < n + 1) :
    copyBody F a = copyBody G a := by
  have hmap : ∀ {es : List Literal}, depthList es + 1 < n + 1 → es.map F.copy = es.map G.copy := by
    intro es hd
    apply List.map_congr_left
    intro e he
    exact h.copy e (Nat.lt_of_le_of_lt (depth_mem he) (by omega))
  have hmap₂ : ∀ {es : List Literal}, depthList es + 1 < n + 1 →
      (es.map fun e => F.copy (F.copy e)) = es.map fun e => G.copy (G.copy e) := by
    intro es hd
    apply List.map_congr_left
    intro e he
    have hle := h.depth e
    have hlt : e.depth < n := Nat.lt_of_le_of_lt (depth_mem he) (by omega)
    rw [h.copy (F.copy e) (by omega), h.copy e hlt]
  cases a with
  | array es => rw [copyBody, copyBody, hmap ha]
  | type t c subtypes => rw [copyBody, copyBody, hmap ha]
  | arrayIntermediate es => rw [copyBody, copyBody, hmap₂ ha]
  | dictionaryIntermediate es => rw [copyBody, copyBody, hmap₂ ha]
  | typeIntermediate es => rw [copyBody, copyBody, hmap₂ ha]
  | dictionary d =>
    rw [copyBody, copyBody, copyDictionary, copyDictionary]
    congr 1
    apply copyEntries_congr h
    · intro e he
      exact shallow_of_depth ha e (List.mem_of_mem_filter he)
    · exact shallow_replicate (by have := depth_dictionary d; omega) _
  | _ => rfl

/-- A copy is nested no deeper. -/
theorem copyBody_depth {F : LiteralFns} (h : ∀ a : Literal, (F.copy a).depth ≤ a.depth) (a : Literal) :
    (copyBody F a).depth ≤ a.depth := by
  have hmap : ∀ {es : List Literal}, depthList (es.map F.copy) ≤ depthList es := by
    intro es
    apply depthList_le
    intro e he
    obtain ⟨e₀, he₀, rfl⟩ := List.mem_map.mp he
    exact Nat.le_trans (h e₀) (depth_mem he₀)
  have hmap₂ : ∀ {es : List Literal}, depthList (es.map fun e => F.copy (F.copy e)) ≤ depthList es := by
    intro es
    apply depthList_le
    intro e he
    obtain ⟨e₀, he₀, rfl⟩ := List.mem_map.mp he
    exact Nat.le_trans (h _) (Nat.le_trans (h e₀) (depth_mem he₀))
  cases a with
  | array es => exact Nat.succ_le_succ hmap
  | type t c subtypes => exact Nat.succ_le_succ hmap
  | arrayIntermediate es => exact Nat.succ_le_succ hmap₂
  | dictionaryIntermediate es => exact Nat.succ_le_succ hmap₂
  | typeIntermediate es => exact Nat.succ_le_succ hmap₂
  | dictionary d =>
    rw [copyBody, depth_dictionary, depth_dictionary]
    apply Nat.succ_le_succ
    apply depthEntries_le
    intro x hx
    rcases copyDictionary_slot hx with rfl | ⟨e, he, _, rfl⟩
    · exact Nat.zero_le _
    · have hd := depthEntries_mem he
      have h1 := h e.key
      have h2 := h e.value
      rw [depthEntry_eq] at hd ⊢
      simp only [setEntryValues]
      omega
  | _ => exact Nat.le_refl _

/-! ## The source's functions -/

theorem literalFns_depth : ∀ (n : Nat) (a : Literal), ((literalFns n).copy a).depth ≤ a.depth
  | 0, _ => Nat.le_refl _
  | n + 1, a => copyBody_depth (literalFns_depth n) a

/-- From depth `n` on, more depth changes nothing. -/
theorem agree_of_le : ∀ {n m : Nat}, n ≤ m → Agree (literalFns n) (literalFns m) n
  | 0, m, _ => ⟨fun _ _ h => absurd h (Nat.not_lt_zero _), fun _ h => absurd h (Nat.not_lt_zero _),
      fun _ h => absurd h (Nat.not_lt_zero _), literalFns_depth 0⟩
  | n + 1, 0, h => absurd h (by omega)
  | n + 1, m + 1, h =>
    have ih := agree_of_le (Nat.le_of_succ_le_succ h)
    ⟨fun _ _ ha hb => equalBody_congr ih ha hb, fun _ ha => hashBody_congr ih ha, fun _ ha => copyBody_congr ih ha,
      literalFns_depth (n + 1)⟩

theorem agree_realFns (n : Nat) : Agree (literalFns n) realFns n where
  equal a b ha hb := ((agree_of_le (show max a.depth b.depth + 1 ≤ n by omega)).equal a b (by omega) (by omega)).symm
  hash a ha := ((agree_of_le (show a.depth + 1 ≤ n by omega)).hash a (by omega)).symm
  copy a ha := ((agree_of_le (show a.depth + 1 ≤ n by omega)).copy a (by omega)).symm
  depth := literalFns_depth n

theorem literalsAreEqual_eq (a b : Literal) : literalsAreEqual a b = equalBody realFns a b :=
  equalBody_congr (agree_realFns (max a.depth b.depth)) (by omega) (by omega)

theorem hashLiteral_eq (a : Literal) : hashLiteral a = hashBody realFns a :=
  hashBody_congr (agree_realFns a.depth) (by omega)

theorem copyLiteral_eq (a : Literal) : copyLiteral a = copyBody realFns a :=
  copyBody_congr (agree_realFns a.depth) (by omega)

theorem copyLiteral_depth (a : Literal) : (copyLiteral a).depth ≤ a.depth := literalFns_depth _ a

end Xvr.Runtime
