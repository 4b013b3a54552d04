/-
  Xvr.Runtime.DictionaryRefines — the literal dictionary refines a finite map.

  The map's keys are the classes of equal keys. A call with a rejected key is the call
  without a key, which changes nothing. `Rel` ties a dictionary to a map: the invariant,
  and for every key of the set the map's value is the value of the live entry holding an
  equal key. Every step keeps it and answers what the map answers.

  Proved: `dictionary_refines`, over every sequence of calls.
-/

import Xvr.Runtime.DictionaryTable
import Mathlib.Data.Finmap

namespace Xvr.Runtime

open scoped List

/-! ## The finite map -/

section Map

variable {K : Type} [DecidableEq K]

/-- A finite map from keys to literals. -/
abbrev LiteralMap (K : Type) := Finmap fun _ : K => Literal

/-- The calls on the map; `none` is a key the dictionary rejects. -/
def mapStep (m : LiteralMap K) : Op (Option K) → LiteralMap K × Out
  | .set (some k) v => (m.insert k v, .done)
  | .set none _ => (m, .done)
  | .get (some k) => (m, .value ((m.lookup k).getD .null))
  | .get none => (m, .value .null)
  | .remove (some k) => (m.erase k, .done)
  | .remove none => (m, .done)
  | .has (some k) => (m, .found (m.lookup k).isSome)
  | .has none => (m, .found false)

def mapRun (m : LiteralMap K) : List (Op (Option K)) → LiteralMap K × List Out
  | [] => (m, [])
  | op :: ops =>
    let (m, out) := mapStep m op
    let (m, outs) := mapRun m ops
    (m, out :: outs)

end Map

/-! ## Classes of keys -/

/-- The source's equality is an equivalence on the set. -/
structure EqualIsEquiv (S : Literal → Prop) : Prop where
  refl : ∀ a, S a → literalsAreEqual a a = true
  symm : ∀ a b, S a → S b → literalsAreEqual a b = true → literalsAreEqual b a = true
  trans : ∀ a b c, S a → S b → S c → literalsAreEqual a b = true → literalsAreEqual b c = true →
    literalsAreEqual a c = true

variable {S : Literal → Prop}

def keySetoid (hE : EqualIsEquiv S) : Setoid {k // S k} where
  r a b := literalsAreEqual a.1 b.1 = true
  iseqv := ⟨fun a => hE.refl a.1 a.2, fun {a b} => hE.symm a.1 b.1 a.2 b.2,
    fun {a b c} => hE.trans a.1 b.1 c.1 a.2 b.2 c.2⟩

/-- A key of the map. -/
abbrev KeyClass (hE : EqualIsEquiv S) := Quotient (keySetoid hE)

instance (hE : EqualIsEquiv S) : DecidableEq (KeyClass hE) :=
  @Quotient.decidableEq _ (keySetoid hE) fun a b => inferInstanceAs (Decidable (literalsAreEqual a.1 b.1 = true))

def classOf (hE : EqualIsEquiv S) {k : Literal} (hk : S k) : KeyClass hE := Quotient.mk (keySetoid hE) ⟨k, hk⟩

theorem classOf_eq (hE : EqualIsEquiv S) {a b : Literal} (ha : S a) (hb : S b) :
    classOf hE ha = classOf hE hb ↔ literalsAreEqual a b = true :=
  ⟨fun h => Quotient.exact (s := keySetoid hE) h, fun h => Quotient.sound (s := keySetoid hE) h⟩

/-- The class of an allowed key; a rejected key has none. -/
def mapKey (hE : EqualIsEquiv S) (k : {k // Allowed S k}) : Option (KeyClass hE) :=
  if h : rejectedKey k.1 = true then none else some (classOf hE (k.2.resolve_right h))

/-! ## The refinement relation -/

variable {hash : Literal → BitVec 32}

/-- Every value held is one that a copy leaves unchanged. -/
def Unchanged (array : List (Entry Literal)) : Prop := ∀ e ∈ liveEntries array, copyLiteral e.value = e.value

def Holds (array : List (Entry Literal)) (k v : Literal) : Prop :=
  ∃ e ∈ liveEntries array, literalsAreEqual k e.key = true ∧ e.value = v

structure Rel (hash : Literal → BitVec 32) (hE : EqualIsEquiv S) (d : Dictionary) (m : LiteralMap (KeyClass hE)) :
    Prop where
  inv : Inv (fnsWith hash) d
  stored : Stored S d.entries
  distinct : Distinct (fnsWith hash) d.entries
  unchanged : Unchanged d.entries
  count : d.count = (liveEntries d.entries).length
  lookup : ∀ k (hk : S k) v, m.lookup (classOf hE hk) = some v ↔ Holds d.entries k v

theorem init_rel (hE : EqualIsEquiv S) : Rel hash hE initLiteralDictionary ∅ where
  inv := init_inv
  stored := init_stored
  distinct := init_distinct
  unchanged := by
    intro e he
    rw [initLiteralDictionary, liveEntries_replicate] at he
    cases he
  count := by rw [initLiteralDictionary, liveEntries_replicate]; rfl
  lookup k hk v := by simp [Holds, initLiteralDictionary, liveEntries_replicate]

theorem Rel.table {hE : EqualIsEquiv S} {d : Dictionary} {m : LiteralMap (KeyClass hE)} (h : Rel hash hE d m) :
    Table (fnsWith hash) S d := ⟨h.inv, h.stored, h.distinct⟩

/-- The map holds for a key's class what the table binds the key to. -/
theorem lookup_bound {hE : EqualIsEquiv S} (hS : KeyEquiv (fnsWith hash) S) {d : Dictionary}
    {m : LiteralMap (KeyClass hE)} (h : Rel hash hE d m) {k : Literal} (hk : S k) :
    m.lookup (classOf hE hk) = bound (fnsWith hash) d k := by
  apply Option.ext
  intro v
  rw [h.lookup k hk v, bound_some hS h.table hk]
  rfl

/-- A table that binds every key to what the map holds is related to it. -/
theorem rel_of_bound {hE : EqualIsEquiv S} (hS : KeyEquiv (fnsWith hash) S) {d : Dictionary}
    {m : LiteralMap (KeyClass hE)} (ht : Table (fnsWith hash) S d) (hu : Unchanged d.entries)
    (hc : d.count = (liveEntries d.entries).length)
    (hb : ∀ k (hk : S k), m.lookup (classOf hE hk) = bound (fnsWith hash) d k) : Rel hash hE d m where
  inv := ht.inv
  stored := ht.stored
  distinct := ht.distinct
  unchanged := hu
  count := hc
  lookup k hk v := by
    rw [hb k hk, bound_some hS ht hk]
    rfl

theorem set_rel (hE : EqualIsEquiv S) (hS : KeyEquiv (fnsWith hash) S) {d : Dictionary} {m : LiteralMap (KeyClass hE)}
    (h : Rel hash hE d m) {key value : Literal} (hk : S key) (ha : rejectedKey key = false)
    (hv : copyLiteral value = value) : ∃ d', setLiteralDictionary (fnsWith hash) d key value = some d' ∧
      Rel hash hE d' (m.insert (classOf hE hk) value) := by
  obtain ⟨d', hset, ht, hb⟩ := table_set (lawful_fnsWith hash) hS h.table hk ha value
  obtain ⟨d₁, hset₁, hl, hcount⟩ := set_live (lawful_fnsWith hash) hS h.inv h.stored h.distinct hk ha value
  rw [hset] at hset₁
  cases hset₁
  have hvalue : (setEntryValues (fnsWith hash) key value).value = value := hv
  refine ⟨d', hset, rel_of_bound hS ht ?_ ?_ ?_⟩
  · intro e he
    rcases List.mem_cons.mp (hl.subset he) with rfl | he
    · rw [hvalue, hv]
    · exact h.unchanged e (mem_others.mp he).1
  · rw [hcount, h.count, hl.length_eq, List.length_cons]; omega
  · intro q hq
    rw [hb q hq]
    by_cases hqk : (fnsWith hash).equal q key = true
    · rw [(classOf_eq hE hq hk).mpr hqk, Finmap.lookup_insert, if_pos hqk]
      exact congrArg some hvalue.symm
    · rw [Finmap.lookup_insert_of_ne _ (fun hc => hqk ((classOf_eq hE _ _).mp hc)), if_neg hqk, lookup_bound hS h hq]

theorem remove_rel (hE : EqualIsEquiv S) (hS : KeyEquiv (fnsWith hash) S) {d : Dictionary}
    {m : LiteralMap (KeyClass hE)} (h : Rel hash hE d m) {key : Literal} (hk : S key) (ha : rejectedKey key = false) :
    Rel hash hE (removeLiteralDictionary (fnsWith hash) d key) (m.erase (classOf hE hk)) := by
  obtain ⟨ht, hb⟩ := table_remove hS h.table hk ha
  obtain ⟨hl, hcount⟩ := remove_live hS h.inv h.stored h.distinct hk ha
  apply rel_of_bound hS ht
  · intro e he
    exact h.unchanged e (mem_others.mp (hl.mem_iff.mp he)).1
  · rw [hcount, h.count, hl.length_eq]; omega
  · intro q hq
    rw [hb q hq]
    by_cases hqk : (fnsWith hash).equal q key = true
    · rw [(classOf_eq hE hq hk).mpr hqk, Finmap.lookup_erase, if_pos hqk]
    · rw [Finmap.lookup_erase_ne (fun hc => hqk ((classOf_eq hE _ _).mp hc)), if_neg hqk, lookup_bound hS h hq]

theorem get_rel {hE : EqualIsEquiv S} (hS : KeyEquiv (fnsWith hash) S) {d : Dictionary}
    {m : LiteralMap (KeyClass hE)} (h : Rel hash hE d m) {k : Literal} (hk : S k) (ha : rejectedKey k = false) :
    getLiteralDictionary (fnsWith hash) d k = (m.lookup (classOf hE hk)).getD .null := by
  rw [table_get hS h.table hk ha, lookup_bound hS h hk]
  cases hb : bound (fnsWith hash) d k with
  | none => rfl
  | some v =>
    obtain ⟨e, he, _, rfl⟩ := (bound_some hS h.table hk).mp hb
    exact h.unchanged e he

theorem has_rel {hE : EqualIsEquiv S} (hS : KeyEquiv (fnsWith hash) S) {d : Dictionary}
    {m : LiteralMap (KeyClass hE)} (h : Rel hash hE d m) {k : Literal} (hk : S k) :
    existsLiteralDictionary (fnsWith hash) d k = some (m.lookup (classOf hE hk)).isSome := by
  rw [table_has hS h.table hk, lookup_bound hS h hk]

/-- A rejected key equals no key held, so its search ends at an unused slot. -/
theorem has_rejected {d : Dictionary} (h : Inv (fnsWith hash) d) {k : Literal} (hk : rejectedKey k = true) :
    existsLiteralDictionary (fnsWith hash) d k = some false := by
  obtain ⟨i, hi⟩ := getEntryArray_isSome (F := fnsWith hash) h.room k ((fnsWith hash).hash k)
  obtain ⟨hstop, _⟩ := getEntryArray_some hi
  rcases stopsAt_false.mp hstop with hu | ⟨hl, heq⟩
  · rw [existsLiteralDictionary, hi]
    simp [hu]
  · rw [(lawful_fnsWith hash).rejected hk (by simpa [Entry.live] using hl)] at heq
    cases heq

/-! ## Runs -/

/-- The value a set stores is copied unchanged. -/
def ValueUnchanged {κ : Type} : Op κ → Prop
  | .set _ v => copyLiteral v = v
  | _ => True

theorem step_rel (hE : EqualIsEquiv S) (hS : KeyEquiv (fnsWith hash) S) {d : Dictionary}
    {m : LiteralMap (KeyClass hE)} (h : Rel hash hE d m) (op : Op {k // Allowed S k}) (hv : ValueUnchanged op) :
    ∃ d', step (fnsWith hash) d (op.map Subtype.val) = some (d', (mapStep m (op.map (mapKey hE))).2) ∧
      Rel hash hE d' (mapStep m (op.map (mapKey hE))).1 := by
  obtain ⟨⟨k, hk⟩, hkey⟩ : ∃ k, op.key = k := ⟨_, rfl⟩
  by_cases ha : rejectedKey k = true
  · have hnone : mapKey hE ⟨k, hk⟩ = none := dif_pos ha
    cases op with
    | set q v => cases hkey; exact ⟨d, by simp [step, Op.map, setLiteralDictionary, ha, hnone, mapStep],
        by simpa [Op.map, hnone, mapStep] using h⟩
    | get q => cases hkey; exact ⟨d, by simp [step, Op.map, getLiteralDictionary, ha, hnone, mapStep],
        by simpa [Op.map, hnone, mapStep] using h⟩
    | remove q => cases hkey; exact ⟨d, by simp [step, Op.map, removeLiteralDictionary, ha, hnone, mapStep],
        by simpa [Op.map, hnone, mapStep] using h⟩
    | has q => cases hkey; exact ⟨d, by simp [step, Op.map, has_rejected h.inv ha, hnone, mapStep],
        by simpa [Op.map, hnone, mapStep] using h⟩
  · have hsk : S k := hk.resolve_right ha
    have hsome : mapKey hE ⟨k, hk⟩ = some (classOf hE hsk) := dif_neg ha
    have ha : rejectedKey k = false := by simpa using ha
    cases op with
    | set q v =>
      cases hkey
      obtain ⟨d', hset, hrel⟩ := set_rel hE hS h hsk ha hv
      exact ⟨d', by simp [step, Op.map, hset, hsome, mapStep], by simpa [Op.map, hsome, mapStep] using hrel⟩
    | get q =>
      cases hkey
      exact ⟨d, by simp [step, Op.map, get_rel hS h hsk ha, hsome, mapStep], by simpa [Op.map, hsome, mapStep] using h⟩
    | remove q =>
      cases hkey
      exact ⟨removeLiteralDictionary (fnsWith hash) d k, by simp [step, Op.map, hsome, mapStep],
        by simpa [Op.map, hsome, mapStep] using remove_rel hE hS h hsk ha⟩
    | has q =>
      cases hkey
      exact ⟨d, by simp [step, Op.map, has_rel hS h hsk, hsome, mapStep],
        by simpa [Op.map, hsome, mapStep] using h⟩

theorem run_rel (hE : EqualIsEquiv S) (hS : KeyEquiv (fnsWith hash) S) (ops : List (Op {k // Allowed S k})) :
    ∀ d m, Rel hash hE d m → (∀ op ∈ ops, ValueUnchanged op) →
      ∃ d', run (fnsWith hash) d (ops.map (Op.map Subtype.val)) =
          some (d', (mapRun m (ops.map (Op.map (mapKey hE)))).2) ∧
        Rel hash hE d' (mapRun m (ops.map (Op.map (mapKey hE)))).1 := by
  induction ops with
  | nil => intro d m h _; exact ⟨d, rfl, h⟩
  | cons op ops ih =>
    intro d m h hv
    obtain ⟨d₁, hstep, h₁⟩ := step_rel hE hS h op (hv op (List.mem_cons_self ..))
    obtain ⟨d₂, hrun, h₂⟩ := ih d₁ _ h₁ fun o ho => hv o (List.mem_cons_of_mem _ ho)
    exact ⟨d₂, by simp [run, hstep, hrun, mapRun], h₂⟩

/-- The classes of the live keys, in slot order. -/
def liveClasses (hE : EqualIsEquiv S) {array : List (Entry Literal)} (hst : Stored S array) : List (KeyClass hE) :=
  (liveEntries array).pmap (P := fun e => S e.key) (fun _ he => classOf hE he) fun e he => hst e he

/-- The keys of the map are the classes of the live entries, which are distinct. -/
theorem count_keys {hE : EqualIsEquiv S} {d : Dictionary} {m : LiteralMap (KeyClass hE)} (h : Rel hash hE d m) :
    d.count = m.keys.card := by
  have hkeys : m.keys = (liveClasses hE h.stored).toFinset := by
    ext c
    rw [Finmap.mem_keys, ← Finmap.lookup_isSome, List.mem_toFinset, liveClasses, List.mem_pmap]
    obtain ⟨⟨k, hk⟩, rfl⟩ := Quotient.exists_rep (s := keySetoid hE) c
    show (m.lookup (classOf hE hk)).isSome = true ↔ _
    rw [Option.isSome_iff_exists]
    constructor
    · rintro ⟨v, hv⟩
      obtain ⟨e, he, heq, _⟩ := (h.lookup k hk v).mp hv
      exact ⟨e, he, (classOf_eq hE _ _).mpr (hE.symm _ _ hk (h.stored e he) heq)⟩
    · rintro ⟨e, he, hc⟩
      exact ⟨e.value, (h.lookup k hk _).mpr ⟨e, he, hE.symm _ _ (h.stored e he) hk ((classOf_eq hE _ _).mp hc), rfl⟩⟩
  have hnodup : (liveClasses hE h.stored).Nodup := h.distinct.pmap h.stored fun a ha b hb hab hc => by
    have : literalsAreEqual a.key b.key = true := (classOf_eq hE _ _).mp hc
    rw [show literalsAreEqual a.key b.key = false from hab.1] at this
    cases this
  rw [h.count, hkeys, List.toFinset_card_of_nodup hnodup, liveClasses, List.length_pmap]

/-- Every call answers what the map answers, and the count is the number of its keys. -/
def Refines (hash : Literal → BitVec 32) (hE : EqualIsEquiv S) (ops : List (Op {k // Allowed S k})) : Prop :=
  ∃ d outs, run (fnsWith hash) initLiteralDictionary (ops.map (Op.map Subtype.val)) = some (d, outs) ∧
    outs = (mapRun ∅ (ops.map (Op.map (mapKey hE)))).2 ∧
    d.count = (mapRun ∅ (ops.map (Op.map (mapKey hE)))).1.keys.card

/-- The dictionary refines a finite map, for any hash that respects equality and any keys
    whose copies are equal to them. -/
theorem dictionary_refines (hash : Literal → BitVec 32) (S : Literal → Prop) (hE : EqualIsEquiv S)
    (hH : HashAgrees (fnsWith hash) S) (hC : CopyAgrees (fnsWith hash) S) (ops : List (Op {k // Allowed S k}))
    (hv : ∀ op ∈ ops, ValueUnchanged op) : Refines hash hE ops := by
  obtain ⟨d, hrun, hrel⟩ := run_rel hE ⟨⟨hH, hC⟩, hE.symm, hE.trans⟩ ops _ _ (init_rel hE) hv
  exact ⟨d, _, hrun, rfl, count_keys hrel⟩

theorem string_equal_isEquiv : EqualIsEquiv StringKey where
  refl _ ha := (string_keys hashLiteral).refl ha
  symm := (string_keys hashLiteral).symm
  trans := (string_keys hashLiteral).trans

theorem dictionary_refines_strings :
    Refines hashLiteral string_equal_isEquiv
      [.set ⟨.string ['a'], .inl ⟨_, by decide, rfl⟩⟩ (.integer 1), .remove ⟨.string ['a'], .inl ⟨_, by decide, rfl⟩⟩,
        .get ⟨.string ['a'], .inl ⟨_, by decide, rfl⟩⟩, .has ⟨.null, .inr rfl⟩] :=
  dictionary_refines hashLiteral StringKey string_equal_isEquiv (string_keys hashLiteral).hash
    (string_keys hashLiteral).copy _ (by simp only [List.forall_mem_cons]; exact ⟨rfl, trivial, trivial, trivial, by simp⟩)

/-! ## A key that is not copied to an equal key -/

def smallKey : Literal := .dictionary (dictionaryOf [.set (.integer 4) (.integer 4)])

def largeKey : Literal :=
  .dictionary (dictionaryOf [.set (.integer 4) (.integer 4), .set (.boolean false) (.boolean false)])

/-- Holds both, the smaller in the last slot and the larger, after it, in the first. -/
def bothKeys : Literal := .dictionary (dictionaryOf [.set smallKey .null, .set largeKey .null])

theorem bothKeys_isEquiv (hr : literalsAreEqual bothKeys bothKeys = true) : EqualIsEquiv (· = bothKeys) where
  refl := by rintro _ rfl; exact hr
  symm := by rintro _ _ rfl rfl h; exact h
  trans := by rintro _ _ _ rfl rfl rfl h _; exact h

set_option maxRecDepth 4000 in
/-- An equivalence alone is not enough. Copying `bothKeys` sets the larger key first, then
    the smaller one over it, because the smaller equals it: the copy the dictionary stores
    is no longer equal to the key, and the value set is not found. -/
theorem copied_key_not_found :
    ¬ ∀ (hash : Literal → BitVec 32) (S : Literal → Prop) (hE : EqualIsEquiv S), HashAgrees (fnsWith hash) S →
      ∀ ops : List (Op {k // Allowed S k}), (∀ op ∈ ops, ValueUnchanged op) → Refines hash hE ops := by
  intro h
  have hr : literalsAreEqual bothKeys bothKeys = true := by decide
  obtain ⟨d, outs, hrun, houts, _⟩ := h hashLiteral (· = bothKeys) (bothKeys_isEquiv hr)
    (by rintro _ _ rfl rfl _; rfl)
    [.set ⟨bothKeys, .inl rfl⟩ (.boolean true), .get ⟨bothKeys, .inl rfl⟩]
    (by simp only [List.forall_mem_cons]; exact ⟨rfl, trivial, by simp⟩)
  have hnull : ((run realFns initLiteralDictionary [.set bothKeys (.boolean true), .get bothKeys]).map Prod.snd) =
      some [.done, .value .null] := by rfl
  have hkept : outs = [.done, .value (.boolean true)] := by
    rw [houts]
    have hk : rejectedKey bothKeys = false := by decide
    simp [Op.map, mapKey, hk, mapRun, mapStep]
  rw [show run realFns initLiteralDictionary [.set bothKeys (.boolean true), .get bothKeys] = some (d, outs) from hrun,
    Option.map_some, hkept] at hnull
  cases hnull

end Xvr.Runtime
