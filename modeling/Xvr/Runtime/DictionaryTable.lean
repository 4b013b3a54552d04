/-
  Xvr.Runtime.DictionaryTable — what a dictionary binds its keys to.

  `bound d key` is the value of the live entry with an equal key. On keys that equality
  partitions (`KeyEquiv`) there is at most one (`Table`), and the operations are those of
  a table: a set binds the key to a copy of the value (`table_set`), a get answers a copy
  of what the key is bound to (`table_get`), exists whether it is bound (`table_has`).
-/

import Xvr.Runtime.DictionaryInv
import Mathlib.Data.List.Find
import Mathlib.Data.List.Pairwise

namespace Xvr.Runtime

open scoped List

variable {F : LiteralFns} {S : Literal → Prop}

/-- A dictionary whose keys are in the set, no two of them equal. -/
structure Table (F : LiteralFns) (S : Literal → Prop) (d : Dictionary) : Prop where
  inv : Inv F d
  stored : Stored S d.entries
  distinct : Distinct F d.entries

def bound (F : LiteralFns) (d : Dictionary) (key : Literal) : Option Literal :=
  ((liveEntries d.entries).find? fun e => F.equal key e.key).map Entry.value

theorem table_init : Table F S initLiteralDictionary := ⟨init_inv, init_stored, init_distinct⟩

theorem bound_init (key : Literal) : bound F initLiteralDictionary key = none := by
  rw [bound, initLiteralDictionary, liveEntries_replicate]; rfl

theorem bound_none {d : Dictionary} {key : Literal} :
    bound F d key = none ↔ ∀ e ∈ liveEntries d.entries, F.equal key e.key = false := by
  simp [bound, List.find?_eq_none]

/-- Two entries with keys equal to one key are one entry. -/
theorem entry_unique (hS : KeyEquiv F S) {d : Dictionary} (h : Table F S d) {key : Literal} (hk : S key)
    {a b : Entry Literal} (ha : a ∈ liveEntries d.entries) (hb : b ∈ liveEntries d.entries)
    (hka : F.equal key a.key = true) (hkb : F.equal key b.key = true) : a = b := by
  by_contra hab
  have hsymm : Std.Symm fun a b : Entry Literal => F.equal a.key b.key = false ∧ F.equal b.key a.key = false :=
    ⟨fun _ _ h => ⟨h.2, h.1⟩⟩
  have hpair := h.distinct.forall ha hb hab
  have heq := hS.trans _ _ _ (h.stored a ha) hk (h.stored b hb) (hS.symm _ _ hk (h.stored a ha) hka) hkb
  rw [hpair.1] at heq
  cases heq

theorem bound_some (hS : KeyEquiv F S) {d : Dictionary} (h : Table F S d) {key : Literal} (hk : S key) {v : Literal} :
    bound F d key = some v ↔ ∃ e ∈ liveEntries d.entries, F.equal key e.key = true ∧ e.value = v := by
  rw [bound, Option.map_eq_some_iff]
  constructor
  · rintro ⟨e, he, hv⟩
    exact ⟨e, List.mem_of_find?_eq_some he, by simpa using List.find?_some he, hv⟩
  · rintro ⟨e, he, hke, hv⟩
    cases hf : (liveEntries d.entries).find? fun e => F.equal key e.key with
    | none => simp [List.find?_eq_none.mp hf e he] at hke
    | some e' =>
      refine ⟨e', rfl, ?_⟩
      rw [entry_unique hS h hk (List.mem_of_find?_eq_some hf) he (by simpa using List.find?_some hf) hke, hv]

/-- Equal keys are bound alike. -/
theorem bound_congr (hS : KeyEquiv F S) {d : Dictionary} (h : Table F S d) {a b : Literal} (ha : S a) (hb : S b)
    (hab : F.equal a b = true) : bound F d a = bound F d b := by
  rw [bound, bound]
  congr 1
  apply List.find?_congr
  intro e he
  exact hS.equal_congr ha hb (h.stored e he) hab

theorem mem_others {array : List (Entry Literal)} {key : Literal} {e : Entry Literal} :
    e ∈ others F key array ↔ e ∈ liveEntries array ∧ F.equal key e.key = false := by
  rw [others, List.mem_filter, Bool.not_eq_true']

/-- What a table holds once the entries with an equal key are gone. -/
theorem bound_others (hS : KeyEquiv F S) {d d' : Dictionary} (h : Table F S d) (h' : Table F S d') {key q : Literal}
    (hk : S key) (hq : S q) (hqk : F.equal q key = false)
    (hmem : ∀ e, F.equal q e.key = true → (e ∈ liveEntries d'.entries ↔ e ∈ others F key d.entries)) :
    bound F d' q = bound F d q := by
  apply Option.ext
  intro v
  rw [bound_some hS h' hq, bound_some hS h hq]
  constructor
  · rintro ⟨e, he, heq, hv⟩
    exact ⟨e, (mem_others.mp ((hmem e heq).mp he)).1, heq, hv⟩
  · rintro ⟨e, he, heq, hv⟩
    refine ⟨e, (hmem e heq).mpr (mem_others.mpr ⟨he, ?_⟩), heq, hv⟩
    by_contra hc
    have hes := h.stored e he
    have hc : F.equal key e.key = true := by simpa using hc
    rw [hS.trans _ _ _ hq hes hk heq (hS.symm _ _ hk hes hc)] at hqk
    cases hqk

/-! ## The operations -/

theorem table_set (hF : Lawful F) (hS : KeyEquiv F S) {d : Dictionary} (h : Table F S d) {key : Literal} (hk : S key)
    (ha : rejectedKey key = false) (value : Literal) :
    ∃ d', setLiteralDictionary F d key value = some d' ∧ Table F S d' ∧
      ∀ q, S q → bound F d' q = if F.equal q key then some (F.copy value) else bound F d q := by
  obtain ⟨d', hset, hl, _⟩ := set_live hF hS h.inv h.stored h.distinct hk ha value
  obtain ⟨d₁, hset₁, hinv⟩ := set_inv hF h.inv (hS.copy_hash hk) value
  rw [hset] at hset₁
  cases hset₁
  have h' : Table F S d' :=
    ⟨hinv, stored_cons hS.toKeySet hk h.stored hl, distinct_cons hS hk h.stored h.distinct hl⟩
  obtain ⟨hcm, hce⟩ := hS.copy key hk
  refine ⟨d', hset, h', ?_⟩
  intro q hq
  by_cases hqk : F.equal q key = true
  · rw [if_pos hqk, bound_some hS h' hq]
    exact ⟨setEntryValues F key value, hl.symm.subset (List.mem_cons_self ..), hS.trans _ _ _ hq hk hcm hqk hce, rfl⟩
  · have hqk : F.equal q key = false := by simpa using hqk
    simp only [hqk, Bool.false_eq_true, if_false]
    apply bound_others hS h h' hk hq hqk
    intro e heq
    rw [hl.mem_iff, List.mem_cons]
    constructor
    · rintro (rfl | he)
      · have := hS.trans _ _ _ hq hcm hk heq (hS.symm _ _ hk hcm hce)
        rw [this] at hqk
        cases hqk
      · exact he
    · exact Or.inr

theorem table_remove (hS : KeyEquiv F S) {d : Dictionary} (h : Table F S d) {key : Literal} (hk : S key)
    (ha : rejectedKey key = false) : Table F S (removeLiteralDictionary F d key) ∧
      ∀ q, S q → bound F (removeLiteralDictionary F d key) q = if F.equal q key then none else bound F d q := by
  obtain ⟨hl, _⟩ := remove_live hS h.inv h.stored h.distinct hk ha
  have h' : Table F S (removeLiteralDictionary F d key) :=
    ⟨remove_inv h.inv key, fun e he => h.stored e (mem_others.mp (hl.mem_iff.mp he)).1,
      (hl.pairwise_iff fun h => ⟨h.2, h.1⟩).mpr (h.distinct.filter _)⟩
  refine ⟨h', ?_⟩
  intro q hq
  by_cases hqk : F.equal q key = true
  · rw [if_pos hqk, bound_none]
    intro e he
    obtain ⟨he, hno⟩ := mem_others.mp (hl.mem_iff.mp he)
    rw [hS.equal_congr hq hk (h.stored e he) hqk, hno]
  · have hqk : F.equal q key = false := by simpa using hqk
    simp only [hqk, Bool.false_eq_true, if_false]
    exact bound_others hS h h' hk hq hqk fun e _ => hl.mem_iff

theorem table_get (hS : KeyEquiv F S) {d : Dictionary} (h : Table F S d) {key : Literal} (hk : S key)
    (ha : rejectedKey key = false) : getLiteralDictionary F d key = ((bound F d key).map F.copy).getD .null := by
  simp only [getLiteralDictionary, ha, Bool.false_eq_true, if_false]
  cases hs : getEntryArray F d.entries key (F.hash key) true with
  | none =>
    have hpos := h.inv.pos
    rw [bound_none.mpr (search_none (by omega) hs)]
    rfl
  | some i =>
    obtain ⟨hstop, hchain⟩ := getEntryArray_some hs
    obtain ⟨hl, heq⟩ := stopsAt_true.mp hstop
    rw [(bound_some hS h hk).mpr ⟨_, mem_liveEntries.mpr ⟨i, hchain.lt, rfl, hl⟩, heq, rfl⟩]
    rfl

theorem table_has (hS : KeyEquiv F S) {d : Dictionary} (h : Table F S d) {key : Literal} (hk : S key) :
    existsLiteralDictionary F d key = some (bound F d key).isSome := by
  obtain ⟨i, hi⟩ := getEntryArray_isSome (F := F) h.inv.room key (F.hash key)
  obtain ⟨hstop, hchain⟩ := getEntryArray_some hi
  rw [existsLiteralDictionary, hi]
  rcases stopsAt_false.mp hstop with hu | ⟨hl, heq⟩
  · rw [bound_none.mpr (search_absent hS.toKeySet h.inv.reachable h.stored hk hi hu)]
    simp [hu]
  · rw [(bound_some hS h hk).mpr ⟨_, mem_liveEntries.mpr ⟨i, hchain.lt, rfl, hl⟩, heq, rfl⟩]
    simp [live_unused hl]

/-! ## Entries, whatever the keys -/

theorem moveEntry_mem {array array' : List (Entry Literal)} {e x : Entry Literal} (h : moveEntry F array e = some array')
    (hx : x ∈ array') : x ∈ array ∨ x = e := by
  rw [moveEntry] at h
  split at h
  · cases h; exact .inl hx
  · simp only [Option.bind_eq_bind, Option.bind_eq_some_iff, Option.pure_def, Option.some.injEq] at h
    obtain ⟨i, _, rfl⟩ := h
    exact List.mem_or_eq_of_mem_set hx

theorem moveEntries_mem (old : List (Entry Literal)) : ∀ {array array' : List (Entry Literal)} {x : Entry Literal},
    old.foldlM (moveEntry F) array = some array' → x ∈ array' → x ∈ array ∨ x ∈ old := by
  induction old with
  | nil => intro array array' x h hx; cases h; exact .inl hx
  | cons e old ih =>
    intro array array' x h hx
    rw [List.foldlM_cons, Option.bind_eq_bind, Option.bind_eq_some_iff] at h
    obtain ⟨array₁, hmove, hrest⟩ := h
    rcases ih hrest hx with hx | hx
    · rcases moveEntry_mem hmove hx with hx | rfl
      · exact .inl hx
      · exact .inr (List.mem_cons_self ..)
    · exact .inr (List.mem_cons_of_mem _ hx)

/-- A set adds one entry; every other one was there, or is a slot of a grown array. -/
theorem set_mem {d d' : Dictionary} {key value : Literal} (h : setLiteralDictionary F d key value = some d')
    {x : Entry Literal} (hx : x ∈ d'.entries) : x ∈ d.entries ∨ x = setEntryValues F key value ∨ x = Entry.empty := by
  rw [setLiteralDictionary] at h
  split at h
  · cases h; exact .inl hx
  · simp only [Option.bind_eq_bind, Option.bind_eq_some_iff, Option.pure_def, setEntryArray, Option.some.injEq] at h
    obtain ⟨⟨entries, increment⟩, ⟨array, hgrow, i, _, hset⟩, hd⟩ := h
    simp only [Prod.mk.injEq] at hset
    have hmem : x ∈ array.set i (setEntryValues F key value) := by
      rw [hset.1]
      split at hd <;> (cases hd; exact hx)
    rcases List.mem_or_eq_of_mem_set hmem with hx | hx
    · rw [growEntries] at hgrow
      split at hgrow
      · rcases moveEntries_mem d.entries hgrow hx with hx | hx
        · exact .inr (.inr (List.mem_replicate.mp hx).2)
        · exact .inl hx
      · cases hgrow; exact .inl hx
    · exact .inr (.inl hx)

/-- Every slot of a copied dictionary is empty or a copy of a live entry. -/
theorem copyDictionary_slot {d : Dictionary} {x : Entry Literal} (hx : x ∈ (copyDictionary F d).entries) :
    x = Entry.empty ∨ ∃ e ∈ d.entries, e.live = true ∧ x = setEntryValues F e.key e.value := by
  have hfold : ∀ (entries : List (Entry Literal)) (copy : Dictionary),
      x ∈ (entries.foldl (fun copy e => (setLiteralDictionary F copy e.key e.value).getD copy) copy).entries →
        x ∈ copy.entries ∨ x = Entry.empty ∨ ∃ e ∈ entries, x = setEntryValues F e.key e.value := by
    intro entries
    induction entries with
    | nil => intro copy h; exact .inl h
    | cons e entries ih =>
      intro copy h
      rw [List.foldl_cons] at h
      rcases ih _ h with h | h | ⟨e', he', rfl⟩
      · cases hs : setLiteralDictionary F copy e.key e.value with
        | none => rw [hs] at h; exact .inl h
        | some copy' =>
          rw [hs] at h
          rcases set_mem hs h with h | h | h
          · exact .inl h
          · exact .inr (.inr ⟨e, List.mem_cons_self .., h⟩)
          · exact .inr (.inl h)
      · exact .inr (.inl h)
      · exact .inr (.inr ⟨e', List.mem_cons_of_mem _ he', rfl⟩)
  rcases hfold _ _ hx with h | h | ⟨e, he, rfl⟩
  · rw [initLiteralDictionary] at h
    exact .inl (List.mem_replicate.mp h).2
  · exact .inl h
  · obtain ⟨he, hlive⟩ := List.mem_filter.mp he
    exact .inr ⟨e, he, hlive, rfl⟩

theorem copyDictionary_mem {d : Dictionary} {x : Entry Literal} (hx : x ∈ (copyDictionary F d).entries)
    (hl : x.live = true) : ∃ e ∈ d.entries, e.live = true ∧ x = setEntryValues F e.key e.value := by
  rcases copyDictionary_slot hx with rfl | h
  · cases hl
  · exact h

end Xvr.Runtime
