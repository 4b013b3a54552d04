/-
  Xvr.Runtime.DictionaryInv — the representation invariant of the literal dictionary.

  `Inv`: the capacity is `8 * 2 ^ k`; at most `contains` slots are not unused; `contains`
  is at most three quarters of the capacity; and every live key is reached from its home
  slot over slots that are not unused. The load bound leaves an unused slot, so a search
  with mustExist = false never answers NULL.

  `Room`, its part that reads no key, holds whatever the keys are; the chains hold where the
  copies that are stored hash as the keys.

  Proved: `grow_spec` (a growth keeps the live entries and restores the load bound),
  `step_room` and `step_inv`, and over whole runs `dictionary_inv`.
-/

import Xvr.Runtime.LiteralFns
import Mathlib.Data.List.Perm.Basic

namespace Xvr.Runtime

open Xvr.Lib.LinearProbe
open scoped List

variable {F : LiteralFns}

/-! ## Entry arrays -/

def liveEntries (array : List (Entry Literal)) : List (Entry Literal) := array.filter Entry.live

/-- The slots that are not unused: live ones and tombstones. -/
def usedSlots (array : List (Entry Literal)) : Nat := array.countP fun e => !e.unused

theorem live_unused {e : Entry Literal} (h : e.live = true) : e.unused = false := by
  simp only [Entry.live, Bool.not_eq_true'] at h
  simp [Entry.unused, h]

theorem entryAt_eq {array : List (Entry Literal)} {i : Nat} (h : i < array.length) : entryAt array i = array[i] := by
  simp [entryAt, h]

theorem entryAt_set {array : List (Entry Literal)} {i : Nat} (h : i < array.length) (e : Entry Literal) (j : Nat) :
    entryAt (array.set i e) j = if j = i then e else entryAt array j := by
  simp only [entryAt, List.getD_eq_getElem?_getD]
  by_cases hj : j = i
  · subst hj; simp [h]
  · rw [List.getElem?_set_ne (Ne.symm hj), if_neg hj]

theorem entryAt_replicate (n i : Nat) : entryAt (List.replicate n Entry.empty) i = Entry.empty := by
  simp only [entryAt, List.getD_eq_getElem?_getD, List.getElem?_replicate]
  split <;> rfl

theorem mem_liveEntries {array : List (Entry Literal)} {e : Entry Literal} :
    e ∈ liveEntries array ↔ ∃ i < array.length, entryAt array i = e ∧ e.live = true := by
  rw [liveEntries, List.mem_filter, List.mem_iff_getElem]
  constructor
  · rintro ⟨⟨i, hi, rfl⟩, he⟩
    exact ⟨i, hi, entryAt_eq hi, he⟩
  · rintro ⟨i, hi, rfl, he⟩
    exact ⟨⟨i, hi, (entryAt_eq hi).symm⟩, he⟩

/-- Writing one slot swaps that slot's live entry, if any, for the new one, if live. -/
theorem liveEntries_set {array : List (Entry Literal)} {i : Nat} (h : i < array.length) :
    ∃ others, liveEntries array ~ liveEntries [entryAt array i] ++ others ∧
      ∀ e, liveEntries (array.set i e) ~ liveEntries [e] ++ others := by
  refine ⟨liveEntries (array.take i ++ array.drop (i + 1)), ?_, fun e => ?_⟩
  · have hsplit : array = array.take i ++ entryAt array i :: array.drop (i + 1) := by
      rw [entryAt_eq h, List.getElem_cons_drop, List.take_append_drop]
    conv_lhs => rw [hsplit]
    exact (@List.perm_middle _ _ (array.take i) (array.drop (i + 1))).filter Entry.live |>.trans
      (by rw [liveEntries, liveEntries, ← List.filter_append]; rfl)
  · rw [List.set_eq_take_append_cons_drop, if_pos h]
    exact (@List.perm_middle _ _ (array.take i) (array.drop (i + 1))).filter Entry.live |>.trans
      (by rw [liveEntries, liveEntries, ← List.filter_append]; rfl)

theorem usedSlots_set {array : List (Entry Literal)} {i : Nat} (h : i < array.length) {e : Entry Literal}
    (he : e.unused = false) :
    usedSlots (array.set i e) = usedSlots array + if (entryAt array i).unused then 1 else 0 := by
  have hle : (if !(entryAt array i).unused then 1 else 0) ≤ usedSlots array := by
    split
    · rename_i hu
      exact List.countP_pos_iff.mpr ⟨_, by rw [entryAt_eq h]; exact List.getElem_mem h, hu⟩
    · exact Nat.zero_le _
  rw [entryAt_eq h] at hle ⊢
  rw [usedSlots, List.countP_set h]
  simp only [he, Bool.not_false, if_true]
  simp only [usedSlots] at hle ⊢
  cases hu : (array[i]).unused <;> simp_all

theorem liveEntries_length_le (array : List (Entry Literal)) : (liveEntries array).length ≤ usedSlots array := by
  rw [liveEntries, ← List.countP_eq_length_filter]
  exact List.countP_mono_left fun e _ he => by simp [live_unused he]

/-- An array with fewer used slots than slots has an unused one. -/
theorem exists_unused {array : List (Entry Literal)} (h : usedSlots array < array.length) :
    ∃ i < array.length, (entryAt array i).unused = true := by
  by_contra hno
  have : usedSlots array = array.length := List.countP_eq_length.mpr fun e he => by
    obtain ⟨i, hi, rfl⟩ := List.mem_iff_getElem.mp he
    rw [← entryAt_eq hi]
    simpa using fun hu => hno ⟨i, hi, hu⟩
  omega

/-! ## Searches -/

/-- What the dictionary needs of the literal functions on any literal. -/
structure Lawful (F : LiteralFns) : Prop where
  rejected : ∀ {k x : Literal}, rejectedKey k = true → x.isNull = false → F.equal k x = false
  copy_isNull : ∀ k : Literal, (F.copy k).isNull = k.isNull

theorem stopsAt_false {key : Literal} {e : Entry Literal} :
    stopsAt F key false e = true ↔ e.unused = true ∨ e.live = true ∧ F.equal key e.key = true := by
  simp only [stopsAt, Entry.unused, Entry.live]
  cases e.key.isNull <;> simp

theorem stopsAt_true {key : Literal} {e : Entry Literal} :
    stopsAt F key true e = true ↔ e.live = true ∧ F.equal key e.key = true := by
  simp only [stopsAt, Entry.live]
  cases e.key.isNull <;> simp

theorem getEntryArray_some {array : List (Entry Literal)} {key : Literal} {hash : BitVec 32} {mustExist : Bool}
    {i : Nat} (h : getEntryArray F array key hash mustExist = some i) :
    stopsAt F key mustExist (entryAt array i) = true ∧
      Chain (fun s => stopsAt F key mustExist (entryAt array s) = false) array.length hash.toNat i := by
  rcases Nat.eq_zero_or_pos array.length with h0 | hpos
  · rw [getEntryArray, search, h0, walk] at h
    cases h
  · exact (search_eq_some hpos).mp h

theorem getEntryArray_none {array : List (Entry Literal)} {key : Literal} {hash : BitVec 32} {mustExist : Bool}
    (hpos : 0 < array.length) :
    getEntryArray F array key hash mustExist = none ↔
      ∀ i < array.length, stopsAt F key mustExist (entryAt array i) = false := search_eq_none hpos

/-- A search that may return an unused slot finds one when there is one. -/
theorem getEntryArray_isSome {array : List (Entry Literal)} (h : usedSlots array < array.length) (key : Literal)
    (hash : BitVec 32) : ∃ i, getEntryArray F array key hash false = some i := by
  obtain ⟨i, hi, hu⟩ := exists_unused h
  rcases hs : getEntryArray F array key hash false with _ | j
  · have := (getEntryArray_none (by omega)).mp hs i hi
    rw [stopsAt_false.mpr (Or.inl hu)] at this
    cases this
  · exact ⟨j, rfl⟩

/-- Every slot passed over by such a search is in use. -/
theorem chain_used {array : List (Entry Literal)} {key : Literal} {home i : Nat}
    (h : Chain (fun s => stopsAt F key false (entryAt array s) = false) array.length home i) :
    Chain (fun s => (entryAt array s).unused = false) array.length home i :=
  h.mono fun s _ hs => by
    cases hu : (entryAt array s).unused
    · rfl
    · rw [stopsAt_false.mpr (Or.inl hu)] at hs; cases hs

/-! ## Reachability -/

/-- Every live key is reached from its home slot without passing an unused slot. -/
def Reachable (F : LiteralFns) (array : List (Entry Literal)) : Prop :=
  ∀ i < array.length, (entryAt array i).live = true →
    Chain (fun s => (entryAt array s).unused = false) array.length (F.hash (entryAt array i).key).toNat i

theorem reachable_replicate (n : Nat) : Reachable F (List.replicate n Entry.empty) := by
  intro i _ hl
  rw [entryAt_replicate] at hl
  cases hl

/-- The same of the keys in a set only. -/
def ReachableOn (F : LiteralFns) (S : Literal → Prop) (array : List (Entry Literal)) : Prop :=
  ∀ i < array.length, (entryAt array i).live = true → S (entryAt array i).key →
    Chain (fun s => (entryAt array s).unused = false) array.length (F.hash (entryAt array i).key).toNat i

theorem Reachable.on {array : List (Entry Literal)} (h : Reachable F array) (S : Literal → Prop) :
    ReachableOn F S array := fun i hi hl _ => h i hi hl

/-- No slot becomes unused, so the chains of the other keys stay. -/
theorem reachableOn_set {S : Literal → Prop} {array : List (Entry Literal)} (hr : ReachableOn F S array) {i : Nat}
    (hi : i < array.length) {e : Entry Literal} (he : e.unused = false)
    (hc : e.live = true → S e.key →
      Chain (fun s => (entryAt array s).unused = false) array.length (F.hash e.key).toNat i) :
    ReachableOn F S (array.set i e) := by
  have hkeep : ∀ s, (entryAt array s).unused = false → (entryAt (array.set i e) s).unused = false := by
    intro s hs
    rw [entryAt_set hi]
    split
    · exact he
    · exact hs
  intro j hj hl hkey
  rw [List.length_set] at hj ⊢
  rw [entryAt_set hi] at hl hkey ⊢
  by_cases hji : j = i
  · subst hji
    rw [if_pos rfl] at hl hkey ⊢
    exact (hc hl hkey).mono fun s _ => hkeep s
  · rw [if_neg hji] at hl hkey ⊢
    exact (hr j hj hl hkey).mono fun s _ => hkeep s

theorem reachable_set {array : List (Entry Literal)} (hr : Reachable F array) {i : Nat} (hi : i < array.length)
    {e : Entry Literal} (he : e.unused = false)
    (hc : e.live = true → Chain (fun s => (entryAt array s).unused = false) array.length (F.hash e.key).toNat i) :
    Reachable F (array.set i e) := by
  have hset := reachableOn_set (hr.on fun _ => True) hi he fun hl _ => hc hl
  exact fun j hj hl => hset j hj hl trivial

/-! ## Growth -/

theorem lawful_null (hF : Lawful F) {e : Entry Literal} : stopsAt F .null false e = e.unused := by
  rw [Bool.eq_iff_iff, stopsAt_false]
  constructor
  · rintro (h | ⟨hl, he⟩)
    · exact h
    · rw [hF.rejected rfl (by simpa [Entry.live] using hl)] at he; cases he
  · exact Or.inl

/-- A rehashed key lands in an unused slot of the new array. -/
theorem moveEntry_spec (hF : Lawful F) {array : List (Entry Literal)} (hr : Reachable F array)
    (hu : usedSlots array < array.length) {e : Entry Literal} (he : e.live = true) :
    ∃ array', moveEntry F array e = some array' ∧ array'.length = array.length ∧ Reachable F array' ∧
      usedSlots array' = usedSlots array + 1 ∧ liveEntries array' ~ e :: liveEntries array := by
  obtain ⟨i, hi⟩ := getEntryArray_isSome (F := F) hu .null (F.hash e.key)
  obtain ⟨hstop, hchain⟩ := getEntryArray_some hi
  have hlt := hchain.lt
  rw [lawful_null hF] at hstop
  have hnull : e.key.isNull = false := by simpa [Entry.live] using he
  refine ⟨array.set i e, ?_, List.length_set, ?_, ?_, ?_⟩
  · simp [moveEntry, hnull, hi]
  · exact reachable_set hr hlt (live_unused he) fun _ => chain_used hchain
  · rw [usedSlots_set hlt (live_unused he), if_pos hstop]
  · obtain ⟨others, hold, hnew⟩ := liveEntries_set hlt
    have hdead : (entryAt array i).live = false := by
      cases hl : (entryAt array i).live
      · rfl
      · rw [live_unused hl] at hstop; cases hstop
    refine (hnew e).trans ?_
    simp only [liveEntries, List.filter_cons, hdead, he, List.filter_nil, if_true, Bool.false_eq_true, if_false,
      List.nil_append, List.cons_append] at hold ⊢
    exact hold.symm.cons e

theorem moveEntries_spec (hF : Lawful F) (old : List (Entry Literal)) :
    ∀ array, Reachable F array → usedSlots array + (liveEntries old).length ≤ array.length →
      ∃ array', old.foldlM (moveEntry F) array = some array' ∧ array'.length = array.length ∧ Reachable F array' ∧
        usedSlots array' = usedSlots array + (liveEntries old).length ∧
        liveEntries array' ~ liveEntries old ++ liveEntries array := by
  induction old with
  | nil => intro array hr _; exact ⟨array, rfl, rfl, hr, rfl, List.Perm.refl _⟩
  | cons e old ih =>
    intro array hr hroom
    by_cases he : e.live = true
    · simp only [liveEntries, List.filter_cons, he, if_true, List.length_cons] at hroom ⊢
      obtain ⟨a₁, h₁, hlen₁, hr₁, hu₁, hp₁⟩ := moveEntry_spec hF hr (by omega) he
      obtain ⟨a₂, h₂, hlen₂, hr₂, hu₂, hp₂⟩ := ih a₁ hr₁ (by simp only [liveEntries]; omega)
      refine ⟨a₂, ?_, by omega, hr₂, ?_, ?_⟩
      · rw [List.foldlM_cons, h₁]; exact h₂
      · simp only [liveEntries] at hu₂; omega
      · exact hp₂.trans ((hp₁.append_left _).trans List.perm_middle)
    · have hnull : e.key.isNull = true := by simpa [Entry.live] using he
      simp only [liveEntries, List.filter_cons, he, if_false, Bool.false_eq_true] at hroom ⊢
      rw [List.foldlM_cons, moveEntry, if_pos hnull]
      exact ih array hr hroom

theorem usedSlots_replicate (n : Nat) : usedSlots (List.replicate n Entry.empty) = 0 := by
  rw [usedSlots, List.countP_replicate]; rfl

theorem liveEntries_replicate (n : Nat) : liveEntries (List.replicate n Entry.empty) = [] := by
  rw [liveEntries, List.filter_replicate]; rfl

/-- Growing keeps the live entries, drops the tombstones and loses no chain. -/
theorem adjustEntryCapacity_spec (hF : Lawful F) (old : List (Entry Literal)) (capacity : Nat)
    (h : (liveEntries old).length ≤ capacity) :
    ∃ array, adjustEntryCapacity F old capacity = some array ∧ array.length = capacity ∧ Reachable F array ∧
      usedSlots array = (liveEntries old).length ∧ liveEntries array ~ liveEntries old := by
  have := moveEntries_spec hF old (List.replicate capacity Entry.empty) (reachable_replicate capacity)
    (by rw [usedSlots_replicate, List.length_replicate]; omega)
  rw [usedSlots_replicate, List.length_replicate, liveEntries_replicate, List.append_nil, Nat.zero_add] at this
  exact this

/-! ## The invariant -/

/-- The part of the invariant that only reads the slots. -/
structure Slots (F : LiteralFns) (array : List (Entry Literal)) (contains : Nat) : Prop where
  capacity : ∃ k, array.length = 8 * 2 ^ k
  used : usedSlots array ≤ contains
  load : 4 * contains ≤ 3 * array.length
  reachable : Reachable F array

def Inv (F : LiteralFns) (d : Dictionary) : Prop := Slots F d.entries d.contains

theorem Slots.pos {array : List (Entry Literal)} {contains : Nat} (h : Slots F array contains) : 8 ≤ array.length := by
  obtain ⟨k, hk⟩ := h.capacity
  have := Nat.one_le_two_pow (n := k)
  omega

theorem Slots.room {array : List (Entry Literal)} {contains : Nat} (h : Slots F array contains) :
    usedSlots array < array.length := by
  have := h.used
  have := h.load
  have := h.pos
  omega

theorem init_inv : Inv F initLiteralDictionary where
  capacity := ⟨0, rfl⟩
  used := by simp only [initLiteralDictionary]; rw [usedSlots_replicate]
  load := Nat.zero_le _
  reachable := reachable_replicate _

/-- The part that does not read the keys. -/
structure Room (array : List (Entry Literal)) (contains : Nat) : Prop where
  capacity : ∃ k, array.length = 8 * 2 ^ k
  used : usedSlots array ≤ contains
  load : 4 * contains ≤ 3 * array.length

theorem Slots.toRoom {array : List (Entry Literal)} {contains : Nat} (h : Slots F array contains) :
    Room array contains := ⟨h.capacity, h.used, h.load⟩

/-- After the load test there is room for one more insertion. -/
theorem grow_room (hF : Lawful F) {array : List (Entry Literal)} {contains : Nat} (h : Room array contains) :
    ∃ array', growEntries F array contains = some array' ∧ Room array' contains ∧
      4 * (contains + 1) ≤ 3 * array'.length ∧ liveEntries array' ~ liveEntries array ∧
      (Reachable F array → Reachable F array') := by
  obtain ⟨⟨k, hk⟩, hused, hload⟩ := h
  have hpos := Nat.one_le_two_pow (n := k)
  rw [growEntries]
  split
  · have hlive := liveEntries_length_le array
    have hgrow : growCapacity array.length = array.length * 2 := by rw [growCapacity, if_neg (by omega)]
    obtain ⟨array', ha, hlen, hr, hu, hp⟩ :=
      adjustEntryCapacity_spec hF array (growCapacity array.length) (by omega)
    refine ⟨array', ha, ⟨⟨k + 1, by rw [Nat.pow_succ]; omega⟩, by omega, by omega⟩, by omega, hp, fun _ => hr⟩
  · exact ⟨array, rfl, ⟨⟨k, hk⟩, hused, hload⟩, by omega, List.Perm.refl _, id⟩

/-- A growth that moves the entries moves every one to where it is found. -/
theorem growEntries_reachable (hF : Lawful F) {array array' : List (Entry Literal)} {contains : Nat}
    (h : Room array contains) (hg : growEntries F array contains = some array') : array' = array ∨ Reachable F array' := by
  rw [growEntries] at hg
  split at hg
  · have hlive := liveEntries_length_le array
    have hload := h.load
    have hused := h.used
    have hgrow : array.length ≤ growCapacity array.length := by
      unfold growCapacity
      split <;> omega
    obtain ⟨moved, hmoved, -, hr, -⟩ := adjustEntryCapacity_spec hF array (growCapacity array.length) (by omega)
    rw [← Option.some.inj (hmoved.symm.trans hg)]
    exact .inr hr
  · exact .inl (Option.some.inj hg).symm

theorem grow_spec (hF : Lawful F) {array : List (Entry Literal)} {contains : Nat} (h : Slots F array contains) :
    ∃ array', growEntries F array contains = some array' ∧ Slots F array' contains ∧
      4 * (contains + 1) ≤ 3 * array'.length ∧ liveEntries array' ~ liveEntries array := by
  obtain ⟨array', ha, hroom, hload, hp, hr⟩ := grow_room hF h.toRoom
  exact ⟨array', ha, ⟨hroom.capacity, hroom.used, hroom.load, hr h.reachable⟩, hload, hp⟩

theorem Room.free {array : List (Entry Literal)} {contains : Nat} (h : Room array contains) :
    usedSlots array < array.length := by
  obtain ⟨⟨k, hk⟩, hused, hload⟩ := h
  have := Nat.one_le_two_pow (n := k)
  omega

/-- What a set does: grow if the load asks for it, find a slot, write it. -/
theorem set_room (hF : Lawful F) {d : Dictionary} (h : Room d.entries d.contains) {key : Literal} (value : Literal)
    (hk : rejectedKey key = false) :
    ∃ array i, growEntries F d.entries d.contains = some array ∧ Room array d.contains ∧
      4 * (d.contains + 1) ≤ 3 * array.length ∧ liveEntries array ~ liveEntries d.entries ∧
      (Reachable F d.entries → Reachable F array) ∧ getEntryArray F array key (F.hash key) false = some i ∧
      setLiteralDictionary F d key value = some
        { entries := array.set i (setEntryValues F key value)
          count := if (entryAt array i).key.isNull then d.count + 1 else d.count
          contains := if (entryAt array i).key.isNull then d.contains + 1 else d.contains } := by
  obtain ⟨array, hg, hs, hload, hp, hr⟩ := grow_room hF h
  obtain ⟨i, hi⟩ := getEntryArray_isSome (F := F) hs.free key (F.hash key)
  refine ⟨array, i, hg, hs, hload, hp, hr, hi, ?_⟩
  simp only [setLiteralDictionary, hk, setEntryArray, hg, hi, Option.bind_eq_bind, Option.bind_some, Option.pure_def,
    Bool.false_eq_true, if_false]
  split <;> rfl

theorem setLiteralDictionary_cases (hF : Lawful F) {d : Dictionary} (h : Inv F d) {key : Literal} (value : Literal)
    (hk : rejectedKey key = false) :
    ∃ array i, growEntries F d.entries d.contains = some array ∧ Slots F array d.contains ∧
      4 * (d.contains + 1) ≤ 3 * array.length ∧ liveEntries array ~ liveEntries d.entries ∧
      getEntryArray F array key (F.hash key) false = some i ∧
      setLiteralDictionary F d key value = some
        { entries := array.set i (setEntryValues F key value)
          count := if (entryAt array i).key.isNull then d.count + 1 else d.count
          contains := if (entryAt array i).key.isNull then d.contains + 1 else d.contains } := by
  obtain ⟨array, i, hg, hs, hload, hp, hr, hi, hset⟩ := set_room hF h.toRoom value hk
  exact ⟨array, i, hg, ⟨hs.capacity, hs.used, hs.load, hr h.reachable⟩, hload, hp, hi, hset⟩

theorem rejectedKey_null {key : Literal} (h : rejectedKey key = false) : key.isNull = false := by
  simp only [rejectedKey, Bool.or_eq_false_iff] at h
  exact h.1.1

theorem setEntryValues_live (hF : Lawful F) {key : Literal} (h : rejectedKey key = false) (value : Literal) :
    (setEntryValues F key value).live = true := by
  simp [setEntryValues, Entry.live, hF.copy_isNull, rejectedKey_null h]

/-- Writing a live entry into a slot uses up at most one. -/
theorem room_set {array : List (Entry Literal)} {contains : Nat} (h : Room array contains)
    (hload : 4 * (contains + 1) ≤ 3 * array.length) {i : Nat} (hi : i < array.length) {e : Entry Literal}
    (he : e.live = true) :
    Room (array.set i e) (if (entryAt array i).key.isNull then contains + 1 else contains) := by
  have hused := h.used
  have hold := h.load
  refine ⟨?_, ?_, ?_⟩
  · rw [List.length_set]
    exact h.capacity
  · rw [usedSlots_set hi (live_unused he)]
    cases hn : (entryAt array i).key.isNull
    · simpa [Entry.unused, hn] using hused
    · simp only [Entry.unused, hn, Bool.true_and, if_true]
      split <;> omega
  · rw [List.length_set]
    split <;> omega

theorem set_inv (hF : Lawful F) {d : Dictionary} (h : Inv F d) {key : Literal}
    (hh : F.hash (F.copy key) = F.hash key) (value : Literal) :
    ∃ d', setLiteralDictionary F d key value = some d' ∧ Inv F d' := by
  by_cases hk : rejectedKey key = true
  · exact ⟨d, by simp [setLiteralDictionary, hk], h⟩
  have hk : rejectedKey key = false := by simpa using hk
  obtain ⟨array, i, _, hs, hload, _, hi, hset⟩ := setLiteralDictionary_cases hF h value hk
  obtain ⟨hstop, hchain⟩ := getEntryArray_some hi
  have hlive := setEntryValues_live hF hk value
  have hroom := room_set hs.toRoom hload hchain.lt hlive
  refine ⟨_, hset, hroom.capacity, hroom.used, hroom.load, ?_⟩
  refine reachable_set hs.reachable hchain.lt (live_unused hlive) fun _ => ?_
  rw [setEntryValues, hh]
  exact chain_used hchain

theorem tombstone_unused : Entry.tombstone.unused = false := rfl

theorem remove_room {array : List (Entry Literal)} {contains : Nat} (h : Room array contains) {key : Literal}
    {hash : BitVec 32} {i : Nat} (hi : getEntryArray F array key hash true = some i) :
    Room (array.set i Entry.tombstone) contains := by
  obtain ⟨hstop, hchain⟩ := getEntryArray_some hi
  have hlive := (stopsAt_true.mp hstop).1
  refine ⟨?_, ?_, ?_⟩
  · rw [List.length_set]; exact h.capacity
  · rw [usedSlots_set hchain.lt tombstone_unused, live_unused hlive]; exact h.used
  · rw [List.length_set]; exact h.load

theorem remove_inv {d : Dictionary} (h : Inv F d) (key : Literal) : Inv F (removeLiteralDictionary F d key) := by
  rw [removeLiteralDictionary]
  split
  · exact h
  split
  · rename_i i hi
    have hroom := remove_room h.toRoom hi
    obtain ⟨_, hchain⟩ := getEntryArray_some hi
    exact ⟨hroom.capacity, hroom.used, hroom.load,
      reachable_set h.reachable hchain.lt tombstone_unused fun hl => by cases hl⟩
  · exact h

theorem exists_isSome {d : Dictionary} (h : Room d.entries d.contains) (key : Literal) :
    ∃ b, existsLiteralDictionary F d key = some b := by
  obtain ⟨i, hi⟩ := getEntryArray_isSome (F := F) h.free key (F.hash key)
  exact ⟨_, by rw [existsLiteralDictionary, hi]; rfl⟩

/-- Whatever the keys are, no call dereferences NULL and the room stays. -/
theorem step_room (hF : Lawful F) {d : Dictionary} (h : Room d.entries d.contains) (op : Op Literal) :
    ∃ d' out, step F d op = some (d', out) ∧ Room d'.entries d'.contains := by
  cases op with
  | set k v =>
    by_cases hk : rejectedKey k = true
    · exact ⟨d, .done, by simp [step, setLiteralDictionary, hk], h⟩
    have hk : rejectedKey k = false := by simpa using hk
    obtain ⟨array, i, -, hroom, hload, -, -, hi, hset⟩ := set_room hF h v hk
    obtain ⟨-, hchain⟩ := getEntryArray_some hi
    exact ⟨_, .done, by rw [step, hset]; rfl, room_set hroom hload hchain.lt (setEntryValues_live hF hk v)⟩
  | get k => exact ⟨d, _, rfl, h⟩
  | remove k =>
    refine ⟨_, _, rfl, ?_⟩
    rw [removeLiteralDictionary]
    split
    · exact h
    split
    · rename_i i hi
      exact remove_room h hi
    · exact h
  | has k =>
    obtain ⟨b, hb⟩ := exists_isSome h k
    exact ⟨d, .found b, by rw [step, hb]; rfl, h⟩

theorem run_room (hF : Lawful F) (ops : List (Op Literal)) {d : Dictionary} (h : Room d.entries d.contains) :
    ∃ d' outs, run F d ops = some (d', outs) ∧ Room d'.entries d'.contains := by
  induction ops generalizing d with
  | nil => exact ⟨d, [], rfl, h⟩
  | cons op ops ih =>
    obtain ⟨d₁, out, hstep, h₁⟩ := step_room hF h op
    obtain ⟨d₂, outs, hrun, h₂⟩ := ih h₁
    exact ⟨d₂, out :: outs, by rw [run, hstep]; simp [hrun], h₂⟩

/-! ## Keys -/

/-- Equal keys hash alike. -/
def HashAgrees (F : LiteralFns) (S : Literal → Prop) : Prop :=
  ∀ a b : Literal, S a → S b → F.equal a b = true → F.hash a = F.hash b

/-- The copy of a key, which is what the dictionary stores, is an equal key of the set. -/
def CopyAgrees (F : LiteralFns) (S : Literal → Prop) : Prop :=
  ∀ k : Literal, S k → S (F.copy k) ∧ F.equal k (F.copy k) = true

/-- Keys the dictionary can find again. -/
structure KeySet (F : LiteralFns) (S : Literal → Prop) : Prop where
  hash : HashAgrees F S
  copy : CopyAgrees F S

/-- With an equality that is symmetric and transitive on the set (so an equivalence). -/
structure KeyEquiv (F : LiteralFns) (S : Literal → Prop) : Prop extends KeySet F S where
  symm : ∀ a b : Literal, S a → S b → F.equal a b = true → F.equal b a = true
  trans : ∀ a b c : Literal, S a → S b → S c → F.equal a b = true → F.equal b c = true → F.equal a c = true

variable {S : Literal → Prop}

theorem KeySet.copy_hash (hS : KeySet F S) {k : Literal} (hk : S k) : F.hash (F.copy k) = F.hash k :=
  (hS.hash _ _ hk (hS.copy k hk).1 (hS.copy k hk).2).symm

theorem KeyEquiv.refl (hS : KeyEquiv F S) {k : Literal} (hk : S k) : F.equal k k = true :=
  have ⟨hc, he⟩ := hS.copy k hk
  hS.trans _ _ _ hk hc hk he (hS.symm _ _ hk hc he)

/-- Two keys one of which equals a third are equal to the others alike. -/
theorem KeyEquiv.equal_congr (hS : KeyEquiv F S) {a b c : Literal} (ha : S a) (hb : S b) (hc : S c)
    (h : F.equal a b = true) : F.equal a c = F.equal b c := by
  rw [Bool.eq_iff_iff]
  exact ⟨fun hac => hS.trans _ _ _ hb ha hc (hS.symm _ _ ha hb h) hac, fun hbc => hS.trans _ _ _ ha hb hc h hbc⟩

/-- Every key held is one of the set. -/
def Stored (S : Literal → Prop) (array : List (Entry Literal)) : Prop := ∀ e ∈ liveEntries array, S e.key

/-- No two entries hold equal keys. -/
def Distinct (F : LiteralFns) (array : List (Entry Literal)) : Prop :=
  (liveEntries array).Pairwise fun a b => F.equal a.key b.key = false ∧ F.equal b.key a.key = false

def others (F : LiteralFns) (key : Literal) (array : List (Entry Literal)) : List (Entry Literal) :=
  (liveEntries array).filter fun e => !F.equal key e.key

theorem distinct_perm {a b : List (Entry Literal)} (h : liveEntries a ~ liveEntries b) : Distinct F a ↔ Distinct F b :=
  h.pairwise_iff fun h => ⟨h.2, h.1⟩

theorem others_perm {a b : List (Entry Literal)} (h : liveEntries a ~ liveEntries b) (key : Literal) :
    others F key a ~ others F key b := h.filter _

/-- A search that ends at an unused slot passed every slot an equal key could be in. -/
theorem search_passed_on {S : Literal → Prop} {array : List (Entry Literal)} (hr : ReachableOn F S array) {key : Literal}
    (hash : ∀ e ∈ liveEntries array, F.equal key e.key = true → S e.key ∧ F.hash key = F.hash e.key) {i : Nat}
    (h : getEntryArray F array key (F.hash key) false = some i) (hu : (entryAt array i).unused = true) :
    ∀ e ∈ liveEntries array, F.equal key e.key = false := by
  intro e he
  obtain ⟨j, hj, rfl, hl⟩ := mem_liveEntries.mp he
  by_contra heq
  have heq : F.equal key (entryAt array j).key = true := by simpa using heq
  obtain ⟨hkey, hsame⟩ := hash _ he heq
  obtain ⟨_, ki, hki, rfl, hpass⟩ := getEntryArray_some h
  obtain ⟨kj, hkj, hslot, hused⟩ := hr j hj hl hkey
  rw [← hsame] at hslot hused
  rcases Nat.lt_trichotomy ki kj with hlt | rfl | hlt
  · rw [hused ki hlt] at hu; cases hu
  · rw [hslot, live_unused hl] at hu; cases hu
  · have := hpass kj hlt
    simp only [hslot] at this
    rw [stopsAt_false.mpr (Or.inr ⟨hl, heq⟩)] at this; cases this

theorem search_passed {array : List (Entry Literal)} (hr : Reachable F array) {key : Literal}
    (hash : ∀ e ∈ liveEntries array, F.equal key e.key = true → F.hash key = F.hash e.key) {i : Nat}
    (h : getEntryArray F array key (F.hash key) false = some i) (hu : (entryAt array i).unused = true) :
    ∀ e ∈ liveEntries array, F.equal key e.key = false :=
  search_passed_on (hr.on fun _ => True) (fun e he heq => ⟨trivial, hash e he heq⟩) h hu

theorem search_absent (hS : KeySet F S) {array : List (Entry Literal)} (hr : Reachable F array) (hst : Stored S array)
    {key : Literal} (hk : S key) {i : Nat} (h : getEntryArray F array key (F.hash key) false = some i)
    (hu : (entryAt array i).unused = true) : ∀ e ∈ liveEntries array, F.equal key e.key = false :=
  search_passed hr (fun _ he heq => hS.hash _ _ hk (hst _ he) heq) h hu

/-- A search for an existing key looks at every slot before it gives up. -/
theorem search_none {array : List (Entry Literal)} (hpos : 0 < array.length) {key : Literal} {hash : BitVec 32}
    (h : getEntryArray F array key hash true = none) : ∀ e ∈ liveEntries array, F.equal key e.key = false := by
  intro e he
  obtain ⟨j, hj, rfl, hl⟩ := mem_liveEntries.mp he
  have := (getEntryArray_none hpos).mp h j hj
  rw [← Bool.not_eq_true, stopsAt_true] at this
  simpa using fun heq => this ⟨hl, heq⟩

/-- Beside an entry with an equal key, the others are the rest of the table. -/
theorem others_of_found (hS : KeyEquiv F S) {array rest : List (Entry Literal)} (hst : Stored S array)
    (hd : Distinct F array) {key : Literal} (hk : S key) {i : Nat} (hlt : i < array.length)
    (hl : (entryAt array i).live = true) (heq : F.equal key (entryAt array i).key = true)
    (hold : liveEntries array ~ liveEntries [entryAt array i] ++ rest) : others F key array ~ rest := by
  have hone : liveEntries [entryAt array i] = [entryAt array i] := by simp [liveEntries, hl]
  rw [hone] at hold
  have hpair := (hold.pairwise_iff fun h => ⟨h.2, h.1⟩).mp hd
  have hmem : ∀ x, x ∈ rest → x ∈ liveEntries array := fun x hx => hold.symm.subset (by simp [hx])
  have hi : S (entryAt array i).key := hst _ (mem_liveEntries.mpr ⟨i, hlt, rfl, hl⟩)
  refine (hold.filter _).trans ?_
  rw [List.singleton_append, List.filter_cons, if_neg (by simp [heq]), List.filter_eq_self.mpr]
  intro x hx
  rw [hS.equal_congr hk hi (hst x (hmem x hx)) heq, ((List.pairwise_cons.mp hpair).1 x hx).1]
  rfl

/-- The entry a set writes to, and what stays beside it. -/
theorem search_others (hS : KeyEquiv F S) {array : List (Entry Literal)} (hr : Reachable F array)
    (hst : Stored S array) (hd : Distinct F array) {key : Literal} (hk : S key) {i : Nat}
    (h : getEntryArray F array key (F.hash key) false = some i) (e : Entry Literal) :
    liveEntries (array.set i e) ~ liveEntries [e] ++ others F key array ∧
      (others F key array).length + (if (entryAt array i).key.isNull then 0 else 1) = (liveEntries array).length := by
  obtain ⟨hstop, hchain⟩ := getEntryArray_some h
  obtain ⟨rest, hold, hnew⟩ := liveEntries_set hchain.lt
  rcases stopsAt_false.mp hstop with hu | ⟨hl, heq⟩
  · have habsent := search_absent hS.toKeySet hr hst hk h hu
    have hall : others F key array = liveEntries array :=
      List.filter_eq_self.mpr fun x hx => by simp [habsent x hx]
    have hdead : liveEntries [entryAt array i] = [] := by
      simp only [Entry.unused, Bool.and_eq_true] at hu
      simp [liveEntries, Entry.live, hu.1]
    rw [hdead, List.nil_append] at hold
    rw [hall]
    refine ⟨(hnew e).trans (hold.symm.append_left _), ?_⟩
    simp only [Entry.unused, Bool.and_eq_true] at hu
    simp [hu.1]
  · have hrest := others_of_found hS hst hd hk hchain.lt hl heq hold
    have hone : liveEntries [entryAt array i] = [entryAt array i] := by simp [liveEntries, hl]
    rw [hone] at hold
    refine ⟨(hnew e).trans (hrest.symm.append_left _), ?_⟩
    simp only [Entry.live, Bool.not_eq_true'] at hl
    rw [hold.length_eq, hrest.length_eq, hl]
    simp [Nat.add_comm]

theorem stored_perm {a b : List (Entry Literal)} (h : liveEntries a ~ liveEntries b) (hb : Stored S b) : Stored S a :=
  fun e he => hb e (h.subset he)

theorem stored_cons (hS : KeySet F S) {array array' : List (Entry Literal)} {key value : Literal} (hk : S key)
    (hst : Stored S array) (h : liveEntries array' ~ setEntryValues F key value :: others F key array) :
    Stored S array' := by
  intro e he
  rcases List.mem_cons.mp (h.subset he) with rfl | he
  · exact (hS.copy key hk).1
  · exact hst e (List.mem_of_mem_filter he)

theorem distinct_cons (hS : KeyEquiv F S) {array array' : List (Entry Literal)} {key value : Literal} (hk : S key)
    (hst : Stored S array) (hd : Distinct F array)
    (h : liveEntries array' ~ setEntryValues F key value :: others F key array) : Distinct F array' := by
  refine (h.pairwise_iff fun h => ⟨h.2, h.1⟩).mpr (List.pairwise_cons.mpr ⟨?_, hd.filter _⟩)
  intro e he
  obtain ⟨he, hne⟩ := List.mem_filter.mp he
  obtain ⟨hc, hkc⟩ := hS.copy key hk
  have hek := hst e he
  have hno : F.equal (F.copy key) e.key = false := by
    rw [← hS.equal_congr hk hc hek hkc]; simpa using hne
  refine ⟨hno, ?_⟩
  cases hr : F.equal e.key (setEntryValues F key value).key
  · rfl
  · rw [hS.symm _ _ hek hc hr] at hno; cases hno

/-- A set replaces the entry of an equal key, or adds one. -/
theorem set_live (hF : Lawful F) (hS : KeyEquiv F S) {d : Dictionary} (hi : Inv F d) (hst : Stored S d.entries)
    (hd : Distinct F d.entries) {key : Literal} (hk : S key) (ha : rejectedKey key = false) (value : Literal) :
    ∃ d', setLiteralDictionary F d key value = some d' ∧
      liveEntries d'.entries ~ setEntryValues F key value :: others F key d.entries ∧
      d'.count = d.count + (((others F key d.entries).length + 1 : Nat) - (liveEntries d.entries).length : Int) := by
  obtain ⟨array, i, _, hs, _, hp, hfind, hset⟩ := setLiteralDictionary_cases hF hi value ha
  obtain ⟨hl, hn⟩ := search_others hS hs.reachable (stored_perm hp hst) ((distinct_perm hp).mpr hd) hk hfind
    (setEntryValues F key value)
  have ho := others_perm (F := F) hp key
  refine ⟨_, hset, ?_, ?_⟩
  · have hone : liveEntries [setEntryValues F key value] = [setEntryValues F key value] := by
      simp [liveEntries, setEntryValues_live hF ha]
    rw [hone] at hl
    exact hl.trans (ho.cons _)
  · rw [ho.length_eq, hp.length_eq] at hn
    simp only
    split <;> simp_all

/-- A remove drops the entry of an equal key. -/
theorem remove_live (hS : KeyEquiv F S) {d : Dictionary} (hi : Inv F d) (hst : Stored S d.entries)
    (hd : Distinct F d.entries) {key : Literal} (hk : S key) (ha : rejectedKey key = false) :
    liveEntries (removeLiteralDictionary F d key).entries ~ others F key d.entries ∧
      (removeLiteralDictionary F d key).count =
        d.count + ((others F key d.entries).length - (liveEntries d.entries).length : Int) := by
  simp only [removeLiteralDictionary, ha, Bool.false_eq_true, if_false]
  rcases hs : getEntryArray F d.entries key (F.hash key) true with _ | i
  · have hno := search_none (by have := hi.pos; omega) hs
    have hall : others F key d.entries = liveEntries d.entries :=
      List.filter_eq_self.mpr fun e he => by rw [hno e he]; rfl
    simp [hall]
  · obtain ⟨hstop, hchain⟩ := getEntryArray_some hs
    obtain ⟨hl, heq⟩ := stopsAt_true.mp hstop
    obtain ⟨rest, hold, hnew⟩ := liveEntries_set hchain.lt
    have hrest := others_of_found hS hst hd hk hchain.lt hl heq hold
    have hone : liveEntries [entryAt d.entries i] = [entryAt d.entries i] := by simp [liveEntries, hl]
    have hlen := hold.length_eq
    rw [hone, List.singleton_append, List.length_cons] at hlen
    refine ⟨(hnew Entry.tombstone).trans hrest.symm, ?_⟩
    simp only [hrest.length_eq]
    omega

theorem init_stored : Stored S initLiteralDictionary.entries := by
  intro e he
  rw [initLiteralDictionary, liveEntries_replicate] at he
  cases he

theorem init_distinct : Distinct F initLiteralDictionary.entries := by
  rw [Distinct, initLiteralDictionary, liveEntries_replicate]
  exact List.Pairwise.nil

/-- A set of keys as a caller may mix it with keys the dictionary rejects. -/
def Allowed (S : Literal → Prop) (key : Literal) : Prop := S key ∨ rejectedKey key = true

/-- What is stored of a key hashes as the key. -/
def KeepsHash (F : LiteralFns) (key : Literal) : Prop := rejectedKey key = false → F.hash (F.copy key) = F.hash key

theorem KeySet.keepsHash (hS : KeySet F S) {key : Literal} (hk : Allowed S key) : KeepsHash F key := by
  intro ha
  exact hS.copy_hash (hk.resolve_right (by simp [ha]))

theorem step_inv (hF : Lawful F) {d : Dictionary} (h : Inv F d) (op : Op Literal) (hk : KeepsHash F op.key) :
    ∃ d' out, step F d op = some (d', out) ∧ Inv F d' := by
  cases op with
  | set k v =>
    by_cases ha : rejectedKey k = true
    · exact ⟨d, .done, by simp [step, setLiteralDictionary, ha], h⟩
    have hcopied : F.hash (F.copy k) = F.hash k := hk (by simpa [Op.key] using ha)
    obtain ⟨d', hs, hd⟩ := set_inv hF h hcopied v
    exact ⟨d', .done, by rw [step, hs]; rfl, hd⟩
  | get k => exact ⟨d, _, rfl, h⟩
  | remove k => exact ⟨_, _, rfl, remove_inv h k⟩
  | has k =>
    obtain ⟨b, hb⟩ := exists_isSome h.toRoom k
    exact ⟨d, .found b, by rw [step, hb]; rfl, h⟩

theorem step_distinct (hF : Lawful F) (hS : KeyEquiv F S) {d d' : Dictionary} {op : Op Literal} {out : Out}
    (hk : Allowed S op.key) (hi : Inv F d) (hst : Stored S d.entries) (hd : Distinct F d.entries)
    (h : step F d op = some (d', out)) : Stored S d'.entries ∧ Distinct F d'.entries := by
  cases op with
  | set k v =>
    by_cases ha : rejectedKey k = true
    · simp only [step, setLiteralDictionary, ha, if_true] at h
      cases h; exact ⟨hst, hd⟩
    have hk : S k := hk.resolve_right ha
    obtain ⟨d₁, hs, hl, _⟩ := set_live hF hS hi hst hd hk (by simpa using ha) v
    rw [step, hs] at h
    cases h
    exact ⟨stored_cons hS.toKeySet hk hst hl, distinct_cons hS hk hst hd hl⟩
  | get k => cases h; exact ⟨hst, hd⟩
  | remove k =>
    cases h
    by_cases ha : rejectedKey k = true
    · simpa [removeLiteralDictionary, ha] using ⟨hst, hd⟩
    have hk : S k := hk.resolve_right ha
    obtain ⟨hl, _⟩ := remove_live hS hi hst hd hk (by simpa using ha)
    refine ⟨fun e he => hst e (List.mem_of_mem_filter (hl.subset he)), ?_⟩
    exact (hl.pairwise_iff fun h => ⟨h.2, h.1⟩).mpr (hd.filter _)
  | has k =>
    obtain ⟨b, hb⟩ := exists_isSome hi.toRoom k
    rw [step, hb] at h
    cases h; exact ⟨hst, hd⟩

theorem run_inv (hF : Lawful F) (ops : List (Op Literal)) (hk : ∀ op ∈ ops, KeepsHash F op.key) :
    ∀ d, Inv F d → ∃ d' outs, run F d ops = some (d', outs) ∧ Inv F d' := by
  induction ops with
  | nil => intro d h; exact ⟨d, [], rfl, h⟩
  | cons op ops ih =>
    intro d h
    obtain ⟨d₁, out, hstep, h₁⟩ := step_inv hF h op (hk op (List.mem_cons_self ..))
    obtain ⟨d₂, outs, hrun, h₂⟩ := ih (fun o ho => hk o (List.mem_cons_of_mem _ ho)) d₁ h₁
    exact ⟨d₂, out :: outs, by rw [run, hstep]; simp [hrun], h₂⟩

theorem run_distinct (hF : Lawful F) (hS : KeyEquiv F S) (ops : List (Op Literal))
    (hk : ∀ op ∈ ops, Allowed S op.key) : ∀ d d' outs, Inv F d → Stored S d.entries → Distinct F d.entries →
      run F d ops = some (d', outs) → Distinct F d'.entries := by
  induction ops with
  | nil => intro d d' outs _ _ hd h; cases h; exact hd
  | cons op ops ih =>
    intro d d' outs hi hst hd h
    have hop := hk op (List.mem_cons_self ..)
    obtain ⟨d₁, out, hstep, h₁⟩ := step_inv hF hi op (hS.toKeySet.keepsHash hop)
    obtain ⟨hst₁, hd₁⟩ := step_distinct hF hS hop hi hst hd hstep
    rw [run, hstep] at h
    rcases hrun : run F d₁ ops with _ | ⟨d₂, outs₂⟩
    · simp [hrun] at h
    · simp only [hrun, Option.bind_eq_bind, Option.bind_some, Option.pure_def, Option.some.injEq, Prod.mk.injEq] at h
      exact h.1 ▸ ih (fun o ho => hk o (List.mem_cons_of_mem _ ho)) d₁ d₂ outs₂ h₁ hst₁ hd₁ hrun

/-- Distinctness slot by slot. -/
theorem distinct_slots {array : List (Entry Literal)} (h : Distinct F array) {i j : Nat} (hi : i < array.length)
    (hj : j < array.length) (hij : i ≠ j) (hli : (entryAt array i).live = true) (hlj : (entryAt array j).live = true) :
    F.equal (entryAt array i).key (entryAt array j).key = false := by
  have h := List.pairwise_iff_getElem.mp (List.pairwise_filter.mp h)
  rw [entryAt_eq hi] at hli ⊢
  rw [entryAt_eq hj] at hlj ⊢
  rcases Nat.lt_or_gt_of_ne hij with hlt | hlt
  · exact (h i j hi hj hlt hli hlj).1
  · exact (h j i hj hi hlt hlj hli).2

/-! ## The source's dictionary -/

/-- The source's equality and copy, over any hash. -/
def fnsWith (hash : Literal → BitVec 32) : LiteralFns := ⟨literalsAreEqual, hash, copyLiteral⟩

theorem lawful_fnsWith (hash : Literal → BitVec 32) : Lawful (fnsWith hash) where
  rejected := literalsAreEqual_rejected
  copy_isNull k := by rw [Literal.isNull, fnsWith, copyLiteral_kind, Literal.isNull]

/-! ## Keys the source's functions keep apart -/

theorem strncmpEqual_iff : ∀ {a b : List Char}, a.length = b.length → '\x00' ∉ a → (strncmpEqual a b = true ↔ a = b)
  | [], [], _, _ => by simp [strncmpEqual]
  | c :: a, d :: b, hlen, hn => by
    have ih := strncmpEqual_iff (a := a) (b := b) (by simpa using hlen) (fun h => hn (List.mem_cons_of_mem _ h))
    have hc : c ≠ '\x00' := fun h => hn (by simp [h])
    simp [strncmpEqual, ih, hc]

theorem equalsRefString_iff {a b : List Char} (hn : '\x00' ∉ a) : equalsRefString a b = true ↔ a = b := by
  simp only [equalsRefString, Bool.and_eq_true, beq_iff_eq]
  constructor
  · rintro ⟨hlen, h⟩
    exact (strncmpEqual_iff hlen hn).mp h
  · rintro rfl
    exact ⟨rfl, (strncmpEqual_iff rfl hn).mpr rfl⟩

/-- Keys on which equality is identity and that are copied unchanged meet every demand. -/
theorem identical_keys (hash : Literal → BitVec 32) {S : Literal → Prop}
    (he : ∀ a b, S a → S b → (literalsAreEqual a b = true ↔ a = b)) (hc : ∀ k, S k → copyLiteral k = k) :
    KeyEquiv (fnsWith hash) S where
  hash a b ha hb h := congrArg hash ((he a b ha hb).mp h)
  copy k hk := by
    have hcopy : (fnsWith hash).copy k = k := hc k hk
    rw [hcopy]
    exact ⟨hk, (he k k hk hk).mpr rfl⟩
  symm a b ha hb h := (he b a hb ha).mpr ((he a b ha hb).mp h).symm
  trans a b c ha hb hc' h h' := (he a c ha hc').mpr (((he a b ha hb).mp h).trans ((he b c hb hc').mp h'))

def StringKey (k : Literal) : Prop := ∃ text, '\x00' ∉ text ∧ k = .string text
def IdentifierKey (k : Literal) : Prop := ∃ name, '\x00' ∉ name ∧ k = .identifier name
def IntegerKey (k : Literal) : Prop := ∃ value, k = .integer value

theorem string_keys (hash : Literal → BitVec 32) : KeyEquiv (fnsWith hash) StringKey := by
  refine identical_keys hash ?_ ?_
  · rintro _ _ ⟨a, ha, rfl⟩ ⟨b, _, rfl⟩
    rw [Literal.string.injEq]
    exact equalsRefString_iff ha
  · rintro _ ⟨a, _, rfl⟩; rfl

theorem identifier_keys (hash : Literal → BitVec 32) : KeyEquiv (fnsWith hash) IdentifierKey := by
  refine identical_keys hash ?_ ?_
  · rintro _ _ ⟨a, ha, rfl⟩ ⟨b, _, rfl⟩
    rw [Literal.identifier.injEq, ← equalsRefString_iff ha]
    show (hashString a == hashString b && equalsRefString a b) = true ↔ _
    rw [Bool.and_eq_true, and_iff_right_iff_imp]
    intro h
    rw [(equalsRefString_iff ha).mp h, beq_self_eq_true]
  · rintro _ ⟨a, _, rfl⟩; rfl

theorem integer_keys (hash : Literal → BitVec 32) : KeyEquiv (fnsWith hash) IntegerKey := by
  refine identical_keys hash ?_ ?_
  · rintro _ _ ⟨a, rfl⟩ ⟨b, rfl⟩
    rw [Literal.integer.injEq]
    exact beq_iff_eq (a := a) (b := b)
  · rintro _ ⟨a, rfl⟩; rfl

/-! ## The invariant over runs -/

/-- The live keys of an array are pairwise unequal. -/
def PairwiseUnequal (array : List (Entry Literal)) : Prop :=
  ∀ i j, i < array.length → j < array.length → i ≠ j → (entryAt array i).live = true →
    (entryAt array j).live = true → literalsAreEqual (entryAt array i).key (entryAt array j).key = false

/-- The representation invariant after any run. Whatever the keys and their hashes are, the slots
    keep their bounds, and every unguarded search of the run, and every one that could follow it,
    finds an entry. The chains need copies that hash as the keys, and that live keys are unequal
    an equality that is an equivalence on them besides. -/
theorem dictionary_inv (hash : Literal → BitVec 32) (ops : List (Op Literal)) :
    ∃ d outs, run (fnsWith hash) initLiteralDictionary ops = some (d, outs) ∧
      (∃ k, d.capacity = 8 * 2 ^ k) ∧ usedSlots d.entries ≤ d.contains ∧ 4 * d.contains ≤ 3 * d.capacity ∧
      (∃ i < d.capacity, (entryAt d.entries i).unused = true) ∧
      (∀ key h, ∃ i, getEntryArray (fnsWith hash) d.entries key h false = some i) ∧
      ((∀ op ∈ ops, KeepsHash (fnsWith hash) op.key) → Reachable (fnsWith hash) d.entries) ∧
      (∀ S, KeyEquiv (fnsWith hash) S → (∀ op ∈ ops, Allowed S op.key) → PairwiseUnequal d.entries) := by
  have hF := lawful_fnsWith hash
  have hinit : Inv (fnsWith hash) initLiteralDictionary := init_inv
  obtain ⟨d, outs, hrun, hroom⟩ := run_room hF ops hinit.toRoom
  refine ⟨d, outs, hrun, hroom.capacity, hroom.used, hroom.load, exists_unused hroom.free,
    fun key h => getEntryArray_isSome hroom.free key h, fun hk => ?_, fun S hS hk => ?_⟩
  · obtain ⟨d', outs', hrun', hi⟩ := run_inv hF ops hk _ hinit
    rw [hrun] at hrun'
    cases hrun'
    exact hi.reachable
  · have hd := run_distinct hF hS ops hk _ _ _ hinit init_stored init_distinct hrun
    exact fun i j hi hj hij => distinct_slots hd hi hj hij

theorem dictionary_inv_strings :
    ∃ d outs, run realFns initLiteralDictionary
        [.set (.string ['a']) (.integer 1), .remove (.string ['a']), .has .null, .set (.string ['b']) .null] =
          some (d, outs) ∧ usedSlots d.entries ≤ d.contains ∧ PairwiseUnequal d.entries := by
  have hk : ∀ op ∈ [Op.set (.string ['a']) (.integer 1), .remove (.string ['a']), .has .null,
      .set (.string ['b']) .null], Allowed StringKey op.key := by
    simp only [List.forall_mem_cons, Op.key]
    exact ⟨.inl ⟨_, by decide, rfl⟩, .inl ⟨_, by decide, rfl⟩, .inr rfl, .inl ⟨_, by decide, rfl⟩, by simp⟩
  obtain ⟨d, outs, hrun, _, hused, _, _, _, _, hd⟩ := dictionary_inv hashLiteral [.set (.string ['a']) (.integer 1),
    .remove (.string ['a']), .has .null, .set (.string ['b']) .null]
  exact ⟨d, outs, hrun, hused, hd StringKey (string_keys hashLiteral) hk⟩

/-- A dictionary as a program builds it. -/
def dictionaryOf (ops : List (Op Literal)) : Dictionary :=
  ((run realFns initLiteralDictionary ops).map Prod.fst).getD initLiteralDictionary

def noKeys : Literal := .dictionary initLiteralDictionary
def falseKey : Literal := .dictionary (dictionaryOf [.set (.boolean false) (.boolean false)])

/-- Binds a key in the last slot and, in the first, one with more keys. A copy sets that one
    first, and writes it over when it finds the other equal to it. -/
def lossyKey : Literal := .dictionary (dictionaryOf
  [.set (.dictionary (dictionaryOf [.set (.integer 16) (.boolean false)])) .null,
   .set (.dictionary (dictionaryOf [.set (.integer 16) (.boolean false), .set (.boolean false) (.boolean false)]))
     (.boolean true)])

/-- Setting `lossyKey` twice stores two keys that are equal, and not where they are searched. -/
theorem lossy_key_misplaced {d : Dictionary} {outs : List Out}
    (h : run realFns initLiteralDictionary [.set lossyKey .null, .set lossyKey .null] = some (d, outs)) :
    ¬ Reachable realFns d.entries ∧ ¬ PairwiseUnequal d.entries := by
  have hentries : d.entries = (dictionaryOf [.set lossyKey .null, .set lossyKey .null]).entries := by
    rw [dictionaryOf, h]; rfl
  constructor
  · intro hr
    have hchain := hr 6 (by rw [hentries]; decide +kernel) (by rw [hentries]; decide +kernel)
    have hlen : d.entries.length = 8 := by rw [hentries]; decide +kernel
    have hhome : (realFns.hash (entryAt d.entries 6).key).toNat % 8 = 7 := by rw [hentries]; decide +kernel
    have hfree : (entryAt d.entries 0).unused = true := by rw [hentries]; decide +kernel
    generalize (realFns.hash (entryAt d.entries 6).key).toNat = home at hchain hhome
    rw [hlen] at hchain
    obtain ⟨k, hk, hslot, hused⟩ := hchain
    have hone : slot 8 home 1 = 0 := by unfold slot; omega
    have hlt : 1 < k := by unfold slot at hslot; omega
    have huse := hused 1 hlt
    rw [hone, hfree] at huse
    cases huse
  · intro hd
    have hsame := hd 6 7 (by rw [hentries]; decide +kernel) (by rw [hentries]; decide +kernel) (by decide)
      (by rw [hentries]; decide +kernel) (by rw [hentries]; decide +kernel)
    rw [hentries] at hsame
    exact absurd hsame (by decide +kernel)

set_option maxRecDepth 4000 in
/-- `{}` equals `{false: false}` and not the other way round, so setting the larger key, the
    smaller and the larger again leaves two live keys of which one equals the other. -/
theorem subset_key_kept_twice {d : Dictionary} {outs : List Out}
    (h : run realFns initLiteralDictionary [.set falseKey .null, .set noKeys .null, .set falseKey .null] = some (d, outs)) :
    ¬ PairwiseUnequal d.entries := by
  intro hd
  have hentries : d.entries = (dictionaryOf [.set falseKey .null, .set noKeys .null, .set falseKey .null]).entries := by
    rw [dictionaryOf, h]; rfl
  have hsame := hd 0 1 (by rw [hentries]; decide) (by rw [hentries]; decide) (by decide) (by rw [hentries]; decide)
    (by rw [hentries]; decide)
  rw [hentries] at hsame
  revert hsame
  decide

/-- Equal hashes of equal keys are not enough: neither where equality is an equivalence on the
    keys and a copy differs from its original, nor where copies agree and equality has a direction. -/
theorem keys_misplaced_and_kept_twice :
    (¬ ∀ S : Literal → Prop, HashAgrees realFns S →
        (∀ a b, S a → S b → literalsAreEqual a b = true → literalsAreEqual b a = true) →
        (∀ a b c, S a → S b → S c → literalsAreEqual a b = true → literalsAreEqual b c = true →
          literalsAreEqual a c = true) →
        ∀ ops : List (Op Literal), (∀ op ∈ ops, S op.key) →
          ∃ d outs, run realFns initLiteralDictionary ops = some (d, outs) ∧
            (Reachable realFns d.entries ∨ PairwiseUnequal d.entries)) ∧
      ¬ ∀ S : Literal → Prop, HashAgrees realFns S → CopyAgrees realFns S →
        ∀ ops : List (Op Literal), (∀ op ∈ ops, S op.key) →
          ∃ d outs, run realFns initLiteralDictionary ops = some (d, outs) ∧ PairwiseUnequal d.entries := by
  constructor
  · intro h
    obtain ⟨d, outs, hrun, hd⟩ := h (· = lossyKey) (by rintro a b rfl rfl _; rfl) (by rintro a b rfl rfl heq; exact heq)
      (by rintro a b c rfl rfl rfl heq _; exact heq) [.set lossyKey .null, .set lossyKey .null] (by simp [Op.key])
    obtain ⟨hchain, hpair⟩ := lossy_key_misplaced hrun
    exact hd.elim hchain hpair
  · intro h
    -- the two keys hash alike: every literal inside them hashes to 0
    obtain ⟨d, outs, hrun, hd⟩ := h (fun k => k = noKeys ∨ k = falseKey) (by rintro a b (rfl | rfl) (rfl | rfl) _ <;> rfl)
      (by rintro k (rfl | rfl)
          · exact ⟨.inl rfl, rfl⟩
          · exact ⟨.inr rfl, rfl⟩)
      [.set falseKey .null, .set noKeys .null, .set falseKey .null] (by simp [Op.key])
    exact subset_key_kept_twice hrun hd

end Xvr.Runtime
