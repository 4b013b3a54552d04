/-
  Xvr.Runtime.LiteralSame — structural identity of literals.

  `Same` is the same kind and the same contents, part by part; two dictionaries are the
  same when their entries can be matched both ways, whatever slots they are in. It calls
  none of the source's functions.

  `Settled`: no dictionary inside, at any depth, holds two keys that are the same, and
  each of them is a table over keys that equality keeps apart.

  Proved: `Same` is an equivalence; the copy of a settled literal is the same literal and
  settled (`copyLiteral_same`); and, of any two dictionaries that compare equal, each entry
  of the first has one with an equal key in the second (`dictionariesAreEqual_sound`).
-/

import Xvr.Runtime.LiteralDepth
import Xvr.Runtime.ScopeInv
import Mathlib.Data.List.Perm.Subperm

namespace Xvr.Runtime

open scoped List

/-! ## Shells and parts -/

/-- The literals a literal other than a dictionary holds. -/
def Literal.parts : Literal → List Literal
  | .array es | .arrayIntermediate es | .dictionaryIntermediate es | .typeIntermediate es => es
  | .type _ _ subtypes => subtypes
  | _ => []

/-- The literal with everything it holds taken out. -/
def Literal.shell : Literal → Literal
  | .array _ => .array []
  | .arrayIntermediate _ => .arrayIntermediate []
  | .dictionaryIntermediate _ => .dictionaryIntermediate []
  | .typeIntermediate _ => .typeIntermediate []
  | .type t c _ => .type t c []
  | .dictionary _ => .dictionary initLiteralDictionary
  | l => l

theorem shell_kind (a : Literal) : a.shell.kind = a.kind := by cases a <;> rfl

theorem shell_copy (F : LiteralFns) (a : Literal) : (copyBody F a).shell = a.shell := by cases a <;> rfl

/-- The parts of an array and of a type are copied once, those of an intermediate twice. -/
theorem parts_copy (F : LiteralFns) (a : Literal) :
    (copyBody F a).parts = a.parts.map F.copy ∨ (copyBody F a).parts = a.parts.map fun x => F.copy (F.copy x) := by
  cases a <;> simp [copyBody, Literal.parts]

theorem kind_dictionary {a : Literal} (h : a.kind = .dictionary) : ∃ d, a = .dictionary d := by
  cases a <;> simp_all [Literal.kind]

theorem parts_depth {a x : Literal} (h : x ∈ a.parts) : x.depth < a.depth := by
  cases a <;> simp only [Literal.parts, List.not_mem_nil] at h <;> exact Nat.lt_succ_of_le (depth_mem h)

theorem entry_depth {d : Dictionary} {e : Entry Literal} (h : e ∈ liveEntries d.entries) :
    e.key.depth < (Literal.dictionary d).depth ∧ e.value.depth < (Literal.dictionary d).depth := by
  have hd := depthEntries_mem (List.mem_of_mem_filter h)
  rw [depthEntry_eq] at hd
  rw [depth_dictionary]
  omega

theorem live_key {d : Dictionary} {e : Entry Literal} (h : e ∈ liveEntries d.entries) : e.key.isNull = false := by
  simpa [Entry.live] using List.of_mem_filter h

/-- A literal without parts is its shell. -/
theorem shell_self {a : Literal} (hk : a.kind ≠ .dictionary) (hp : a.parts = []) : a.shell = a := by
  cases a <;> simp_all [Literal.shell, Literal.parts, Literal.kind]

/-- Literals of one shell without parts are one literal. -/
theorem shell_inj {a b : Literal} (hk : a.kind ≠ .dictionary) (hshell : a.shell = b.shell)
    (hlen : a.parts.length = b.parts.length) (hp : a.parts = []) : a = b := by
  have hb : b.parts = [] := List.eq_nil_of_length_eq_zero (by rw [← hlen, hp]; rfl)
  have hkb : b.kind ≠ .dictionary := by rw [← shell_kind, ← hshell, shell_kind]; exact hk
  rw [← shell_self hk hp, hshell, shell_self hkb hb]

/-! ## Hashes -/

theorem hash_elements (es : List Literal) :
    hashLiteral (.array es) = hashUInt ((es.map hashLiteral).foldl (· + ·) 0) := by
  rw [hashLiteral_eq, hashBody, List.foldl_map]
  rfl

/-- What an entry adds to the hash of its dictionary. -/
def entryHash (e : Entry Literal) : BitVec 32 := hashLiteral e.key + hashLiteral e.value

theorem hash_entries (d : Dictionary) :
    hashLiteral (.dictionary d) = hashUInt (((liveEntries d.entries).map entryHash).foldl (· + ·) 0) := by
  rw [hashLiteral_eq, hashBody, List.foldl_map]
  congr 1
  apply List.foldl_ext
  intro res e _
  exact BitVec.add_assoc res (hashLiteral e.key) (hashLiteral e.value)

/-- The sum of hashes does not depend on the order. -/
theorem hash_sum_perm {as bs : List (BitVec 32)} (h : as ~ bs) : as.foldl (· + ·) 0 = bs.foldl (· + ·) 0 := by
  have hcomm : RightCommutative fun a b : BitVec 32 => a + b := ⟨fun a b c => by
    rw [BitVec.add_assoc, BitVec.add_assoc, BitVec.add_comm b c]⟩
  exact h.foldl_eq 0

/-- Only arrays and dictionaries hash what they hold. -/
theorem hash_shell {a : Literal} (hd : a.kind ≠ .dictionary) (ha : a.kind ≠ .array) :
    hashLiteral a = hashLiteral a.shell := by
  rw [hashLiteral_eq, hashLiteral_eq]
  cases a with
  | dictionary => exact absurd rfl hd
  | array => exact absurd rfl ha
  | _ => rfl

/-! ## Identity -/

inductive Same : Literal → Literal → Prop
  | plain {a b : Literal} : a.kind ≠ .dictionary → a.shell = b.shell → a.parts.length = b.parts.length →
      (∀ (i : Nat) (x y : Literal), a.parts[i]? = some x → b.parts[i]? = some y → Same x y) → Same a b
  | dictionary {d d' : Dictionary} (there back : Entry Literal → Entry Literal) :
      (∀ e ∈ liveEntries d.entries, there e ∈ liveEntries d'.entries) →
      (∀ e ∈ liveEntries d.entries, Same e.key (there e).key) →
      (∀ e ∈ liveEntries d.entries, Same e.value (there e).value) →
      (∀ e ∈ liveEntries d'.entries, back e ∈ liveEntries d.entries) →
      (∀ e ∈ liveEntries d'.entries, Same (back e).key e.key) →
      (∀ e ∈ liveEntries d'.entries, Same (back e).value e.value) → Same (.dictionary d) (.dictionary d')

namespace Same

variable {a b c : Literal}

theorem refl (a : Literal) : Same a a := by
  induction hn : a.depth using Nat.strong_induction_on generalizing a with
  | _ n ih =>
    subst hn
    by_cases hk : a.kind = .dictionary
    · obtain ⟨d, rfl⟩ := kind_dictionary hk
      have hkey : ∀ e ∈ liveEntries d.entries, Same e.key e.key := fun e he => ih _ (entry_depth he).1 _ rfl
      have hvalue : ∀ e ∈ liveEntries d.entries, Same e.value e.value := fun e he => ih _ (entry_depth he).2 _ rfl
      exact dictionary id id (fun _ he => he) hkey hvalue (fun _ he => he) hkey hvalue
    · refine plain hk rfl rfl ?_
      intro i x y hx hy
      rw [hx] at hy
      cases hy
      exact ih _ (parts_depth (List.mem_of_getElem? hx)) x rfl

theorem kind_eq (h : Same a b) : a.kind = b.kind := by
  cases h with
  | plain _ hshell _ _ => rw [← shell_kind a, hshell, shell_kind]
  | dictionary => rfl

theorem symm (h : Same a b) : Same b a := by
  induction h with
  | @plain a b hk hshell hlen _ ih =>
    refine plain ?_ hshell.symm hlen.symm fun i x y hx hy => ih i y x hy hx
    rw [← shell_kind, ← hshell, shell_kind]
    exact hk
  | dictionary there back hin _ _ hin' _ _ ihk ihv ihk' ihv' => exact dictionary back there hin' ihk' ihv' hin ihk ihv

theorem trans (h : Same a b) : Same b c → Same a c := by
  induction h generalizing c with
  | @plain a b hk hshell hlen _ ih =>
    intro h
    cases h with
    | plain _ hshell' hlen' hparts' =>
      refine plain hk (hshell.trans hshell') (hlen.trans hlen') ?_
      intro i x z hx hz
      have hi := (List.getElem?_eq_some_iff.mp hx).1
      exact ih i x _ hx (List.getElem?_eq_getElem (hlen ▸ hi)) (hparts' i _ z (List.getElem?_eq_getElem (hlen ▸ hi)) hz)
    | dictionary =>
      have := shell_kind a
      rw [hshell] at this
      exact absurd this.symm hk
  | @dictionary d d' there back hin _ _ hin' _ _ ihk ihv ihk' ihv' =>
    intro h
    cases h with
    | plain hk => exact absurd rfl hk
    | dictionary there' back' h1 h2 h3 h4 h5 h6 =>
      refine dictionary (fun e => there' (there e)) (fun e => back (back' e)) (fun e he => h1 _ (hin e he)) ?_ ?_
        (fun e he => hin' _ (h4 e he)) ?_ ?_
      · intro e he
        exact ihk e he (h2 _ (hin e he))
      · intro e he
        exact ihv e he (h3 _ (hin e he))
      · intro e he
        exact ihk' _ (h4 e he) (h5 e he)
      · intro e he
        exact ihv' _ (h4 e he) (h6 e he)

end Same

/-! ## Lookups -/

/-- What `exists` finds is a slot on the probe chain of the key. -/
theorem exists_found {d : Dictionary} {key : Literal} (h : existsLiteralDictionary realFns d key = some true) :
    ∃ i, Lib.LinearProbe.Chain (fun s => (entryAt d.entries s).unused = false) d.entries.length (realFns.hash key).toNat i ∧
      (entryAt d.entries i).live = true ∧ realFns.equal key (entryAt d.entries i).key = true := by
  simp only [existsLiteralDictionary, Option.bind_eq_bind, Option.bind_eq_some_iff, Option.pure_def,
    Option.some.injEq] at h
  obtain ⟨i, hi, hused⟩ := h
  obtain ⟨hstop, hchain⟩ := getEntryArray_some hi
  exact ⟨i, chain_used hchain, (stopsAt_false.mp hstop).resolve_left (by simpa using hused)⟩

/-- What `exists` and `get` find is an entry whose key equals the key. -/
theorem get_found {d : Dictionary} {key : Literal} (h : existsLiteralDictionary realFns d key = some true) :
    ∃ e ∈ liveEntries d.entries, literalsAreEqual key e.key = true ∧
      getLiteralDictionary realFns d key = copyLiteral e.value := by
  obtain ⟨i, hchain, hlive, heq⟩ := exists_found h
  have hlt := hchain.lt
  have haccepted : rejectedKey key = false := by
    by_contra hr
    have hno := @literalsAreEqual_rejected key _ (by simpa using hr) (by simpa [Entry.live] using hlive)
    rw [show realFns.equal key _ = literalsAreEqual key _ from rfl, hno] at heq
    cases heq
  rw [getLiteralDictionary, if_neg (by simp [haccepted])]
  cases hs : getEntryArray realFns d.entries key (realFns.hash key) true with
  | none =>
    have := search_none (by omega) hs _ (mem_liveEntries.mpr ⟨i, hlt, rfl, hlive⟩)
    rw [heq] at this
    cases this
  | some j =>
    obtain ⟨hstop', hchain'⟩ := getEntryArray_some hs
    obtain ⟨hlive', heq'⟩ := stopsAt_true.mp hstop'
    exact ⟨_, mem_liveEntries.mpr ⟨j, hchain'.lt, rfl, hlive'⟩, heq', rfl⟩

theorem dictionariesAreEqual_exists {a b : Dictionary} (h : dictionariesAreEqual realFns a b = true)
    {e : Entry Literal} (he : e ∈ liveEntries a.entries) : existsLiteralDictionary realFns b e.key = some true ∧
      literalsAreEqual e.value (getLiteralDictionary realFns b e.key) = true := by
  rw [dictionariesAreEqual, List.all_eq_true] at h
  have hthere := h e (List.mem_of_mem_filter he)
  rw [live_key he, Bool.false_or, Bool.and_eq_true] at hthere
  refine ⟨?_, hthere.2⟩
  cases hx : existsLiteralDictionary realFns b e.key with
  | none => simp [hx] at hthere
  | some found => simpa [hx] using hthere.1

theorem dictionariesAreEqual_sound {a b : Dictionary} (h : dictionariesAreEqual realFns a b = true)
    {e : Entry Literal} (he : e ∈ liveEntries a.entries) :
    ∃ e' ∈ liveEntries b.entries, literalsAreEqual e.key e'.key = true ∧
      literalsAreEqual e.value (copyLiteral e'.value) = true := by
  obtain ⟨hexists, hvalue⟩ := dictionariesAreEqual_exists h he
  obtain ⟨e', he', hkey, hget⟩ := get_found hexists
  rw [hget] at hvalue
  exact ⟨e', he', hkey, hvalue⟩

theorem literalsAreEqual_kind {a b : Literal} (h : a.kind = b.kind) : literalsAreEqual a b = equalOfKind realFns a b := by
  rw [literalsAreEqual_eq, equalBody, if_neg (by simpa using h)]

theorem elementsAreEqual_iff {F : LiteralFns} {as bs : List Literal} : elementsAreEqual F as bs = true ↔
    as.length = bs.length ∧ ∀ (i : Nat) (x y : Literal), as[i]? = some x → bs[i]? = some y → F.equal x y = true := by
  rw [elementsAreEqual, Bool.and_eq_true, beq_iff_eq, List.all_eq_true]
  apply and_congr_right
  intro _
  constructor
  · intro h i x y hx hy
    exact h (x, y) (List.mem_iff_getElem?.mpr ⟨i, List.getElem?_zip_eq_some.mpr ⟨hx, hy⟩⟩)
  · rintro h ⟨x, y⟩ hp
    obtain ⟨i, hi⟩ := List.mem_iff_getElem?.mp hp
    obtain ⟨hx, hy⟩ := List.getElem?_zip_eq_some.mp hi
    exact h i x y hx hy

/-! ## Matched entries -/

instance : Nonempty (Entry Literal) := ⟨Entry.empty⟩

theorem matched_onto {l l' : List (Entry Literal)} {there : Entry Literal → Entry Literal}
    (hin : ∀ e ∈ l, there e ∈ l') (hapart : l.Pairwise fun a b => there a ≠ there b) (hlen : l'.length ≤ l.length) :
    l.map there ~ l' := by
  have hsub : l.map there ⊆ l' := by
    intro x hx
    obtain ⟨e, he, rfl⟩ := List.mem_map.mp hx
    exact hin e he
  have hnodup : (l.map there).Nodup := List.pairwise_map.mpr hapart
  exact (List.subperm_of_subset hnodup hsub).perm_of_length_le (by rwa [List.length_map])

/-- The entry an entry is matched with. -/
theorem matched_back {l l' : List (Entry Literal)} {there : Entry Literal → Entry Literal} (h : l.map there ~ l') :
    ∃ back : Entry Literal → Entry Literal, ∀ x ∈ l', back x ∈ l ∧ there (back x) = x := by
  have hback : ∀ x ∈ l', ∃ e, e ∈ l ∧ there e = x := fun x hx => List.mem_map.mp (h.mem_iff.mpr hx)
  choose! back hback using hback
  exact ⟨back, hback⟩

/-! ## Copies -/

inductive Settled : Literal → Prop
  | plain {a : Literal} : a.kind ≠ .dictionary → (∀ x ∈ a.parts, Settled x) → Settled a
  | dictionary {d : Dictionary} (K : Literal → Prop) : VariableKeys K → Table realFns K d →
      (liveEntries d.entries).Pairwise (fun a b => ¬ Same a.key b.key) →
      (∀ e ∈ liveEntries d.entries, Settled e.key) → (∀ e ∈ liveEntries d.entries, Settled e.value) →
      Settled (.dictionary d)

theorem Settled.part {a x : Literal} (h : Settled a) (hx : x ∈ a.parts) : Settled x := by
  cases h with
  | plain _ hparts => exact hparts x hx
  | dictionary => cases hx

theorem Settled.entry {d : Dictionary} (h : Settled (.dictionary d)) {e : Entry Literal}
    (he : e ∈ liveEntries d.entries) : Settled e.key ∧ Settled e.value := by
  cases h with
  | plain hk => exact absurd rfl hk
  | dictionary _ _ _ _ hkeys hvalues => exact ⟨hkeys e he, hvalues e he⟩

theorem Settled.table {d : Dictionary} (h : Settled (.dictionary d)) {K : Literal → Prop}
    (hK : ∀ e ∈ liveEntries d.entries, K e.key) : Table realFns K d := by
  cases h with
  | plain hk => exact absurd rfl hk
  | dictionary _ _ htable => exact ⟨htable.inv, hK, htable.distinct⟩

/-- Copying a dictionary literal and copying a dictionary of a scope is one loop. -/
theorem copyDictionary_eq {d d' : Dictionary} (h : copyEntries d = some d') : copyDictionary realFns d = d' := by
  have hfold : ∀ (entries : List (Entry Literal)) (copy : Dictionary),
      entries.foldlM (fun copy e => if e.key.isNull then some copy else setLiteralDictionary realFns copy e.key e.value)
        copy = some d' →
      (entries.filter Entry.live).foldl (fun copy e => (setLiteralDictionary realFns copy e.key e.value).getD copy)
        copy = d' := by
    intro entries
    induction entries with
    | nil => intro copy h; cases h; rfl
    | cons e entries ih =>
      intro copy h
      rw [List.foldlM_cons, Option.bind_eq_bind, Option.bind_eq_some_iff] at h
      obtain ⟨copy', hset, hrest⟩ := h
      cases hnull : e.key.isNull with
      | true =>
        rw [if_pos hnull, Option.some.injEq] at hset
        rw [List.filter_cons_of_neg (by simp [Entry.live, hnull]), hset]
        exact ih copy' hrest
      | false =>
        rw [if_neg (by simp [hnull])] at hset
        rw [List.filter_cons_of_pos (by simp [Entry.live, hnull]), List.foldl_cons, hset]
        exact ih copy' hrest
  exact hfold _ _ h

/-- A copied table is a table, and its entries are the copies of the original's. -/
theorem copyDictionary_table {K : Literal → Prop} (hK : VariableKeys K) {d : Dictionary} (h : Table realFns K d) :
    Table realFns K (copyDictionary realFns d) ∧ ∀ x, x ∈ liveEntries (copyDictionary realFns d).entries ↔
      ∃ e ∈ liveEntries d.entries, x = setEntryValues realFns e.key e.value := by
  obtain ⟨d', hcopy, htable, hbound⟩ := copyEntries_spec hK h
  rw [copyDictionary_eq hcopy]
  have hmem : ∀ x ∈ liveEntries d'.entries, ∃ e ∈ liveEntries d.entries, x = setEntryValues realFns e.key e.value := by
    intro x hx
    rw [← copyDictionary_eq hcopy] at hx
    obtain ⟨e, he, hlive, rfl⟩ := copyDictionary_mem (List.mem_of_mem_filter hx) (List.of_mem_filter hx)
    exact ⟨e, List.mem_filter.mpr ⟨he, hlive⟩, rfl⟩
  refine ⟨htable, fun x => ⟨hmem x, ?_⟩⟩
  rintro ⟨e, he, rfl⟩
  have hk := h.stored e he
  -- the copy binds the key, and only this entry's key equals it
  have hb : bound realFns d' e.key = some (copyLiteral e.value) := by
    rw [hbound e.key hk, (bound_some hK.toKeyEquiv h hk).mpr ⟨e, he, hK.toKeyEquiv.refl hk, rfl⟩]
    rfl
  obtain ⟨x, hx, hkx, _⟩ := (bound_some hK.toKeyEquiv htable hk).mp hb
  obtain ⟨e₀, he₀, rfl⟩ := hmem x hx
  have hk₀ := h.stored e₀ he₀
  obtain ⟨hc₀, hkc₀⟩ := hK.copy _ hk₀
  have heq := hK.trans _ _ _ hk hc₀ hk₀ hkx (hK.symm _ _ hk₀ hc₀ hkc₀)
  rw [entry_unique hK.toKeyEquiv h hk he he₀ (hK.toKeyEquiv.refl hk) heq]
  exact hx

/-- What is copied part by part, by a copy that keeps the parts. -/
theorem plain_copied {a b : Literal} (hk : a.kind ≠ .dictionary) (hshell : b.shell = a.shell) {g : Literal → Literal}
    (hparts : b.parts = a.parts.map g) (hg : ∀ x ∈ a.parts, Same x (g x) ∧ Settled (g x)) : Same a b ∧ Settled b := by
  have hkb : b.kind ≠ .dictionary := by rw [← shell_kind, hshell, shell_kind]; exact hk
  refine ⟨.plain hk hshell.symm (by rw [hparts, List.length_map]) ?_, .plain hkb ?_⟩
  · intro i x y hx hy
    rw [hparts, List.getElem?_map, hx] at hy
    cases hy
    exact (hg x (List.mem_of_getElem? hx)).1
  · intro y hy
    rw [hparts, List.mem_map] at hy
    obtain ⟨x, hx, rfl⟩ := hy
    exact (hg x hx).2

theorem dictionary_copied {K : Literal → Prop} (hK : VariableKeys K) {d : Dictionary} (h : Table realFns K d)
    (hpair : (liveEntries d.entries).Pairwise fun a b => ¬ Same a.key b.key)
    (hcopy : ∀ e ∈ liveEntries d.entries, (Same e.key (copyLiteral e.key) ∧ Settled (copyLiteral e.key)) ∧
      Same e.value (copyLiteral e.value) ∧ Settled (copyLiteral e.value)) :
    Same (.dictionary d) (.dictionary (copyDictionary realFns d)) ∧
      Settled (.dictionary (copyDictionary realFns d)) := by
  obtain ⟨htable, hmem⟩ := copyDictionary_table hK h
  -- the entry a copied entry is the copy of
  have hback : ∀ x ∈ liveEntries (copyDictionary realFns d).entries, ∃ e, e ∈ liveEntries d.entries ∧
      x = setEntryValues realFns e.key e.value := fun x hx => (hmem x).mp hx
  choose! back hback using hback
  have hsame : ∀ x ∈ liveEntries (copyDictionary realFns d).entries,
      Same (back x).key x.key ∧ Same (back x).value x.value ∧ Settled x.key ∧ Settled x.value := by
    intro x hx
    obtain ⟨he, hxe⟩ := hback x hx
    obtain ⟨⟨hk, hsk⟩, hv, hsv⟩ := hcopy _ he
    have hxk : x.key = copyLiteral (back x).key := congrArg Entry.key hxe
    have hxv : x.value = copyLiteral (back x).value := congrArg Entry.value hxe
    rw [hxk, hxv]
    exact ⟨hk, hv, hsk, hsv⟩
  constructor
  · exact .dictionary (fun e => setEntryValues realFns e.key e.value) back (fun e he => (hmem _).mpr ⟨e, he, rfl⟩)
      (fun e he => (hcopy e he).1.1) (fun e he => (hcopy e he).2.1) (fun x hx => (hback x hx).1)
      (fun x hx => (hsame x hx).1) (fun x hx => (hsame x hx).2.1)
  · refine .dictionary K hK htable ?_ (fun x hx => (hsame x hx).2.2.1) (fun x hx => (hsame x hx).2.2.2)
    apply htable.distinct.imp_of_mem
    intro x y hx hy hne hxy
    obtain ⟨hex, hxe⟩ := hback x hx
    obtain ⟨hey, hye⟩ := hback y hy
    have horigin : Same (back x).key (back y).key := ((hsame x hx).1.trans hxy).trans (hsame y hy).1.symm
    have hsymm : Std.Symm fun a b : Entry Literal => ¬ Same a.key b.key := ⟨fun _ _ h h' => h h'.symm⟩
    have heq : back x = back y := by
      by_contra hb
      exact hpair.forall hex hey hb horigin
    rw [hxe, hye, heq] at hne
    have hrefl := hK.toKeyEquiv.refl (hK.copy _ (h.stored _ hey)).1
    rw [show (setEntryValues realFns (back y).key (back y).value).key = realFns.copy (back y).key from rfl, hrefl] at hne
    cases hne.1

theorem copyLiteral_same {a : Literal} (h : Settled a) : Same a (copyLiteral a) ∧ Settled (copyLiteral a) := by
  induction hn : a.depth using Nat.strong_induction_on generalizing a with
  | _ n ih =>
    subst hn
    rw [copyLiteral_eq]
    cases h with
    | plain hk hparts =>
      have honce : ∀ x ∈ a.parts, Same x (copyLiteral x) ∧ Settled (copyLiteral x) := fun x hx =>
        ih _ (parts_depth hx) (hparts x hx) rfl
      rcases parts_copy realFns a with hp | hp
      · exact plain_copied hk (shell_copy realFns a) hp honce
      · refine plain_copied hk (shell_copy realFns a) hp ?_
        intro x hx
        obtain ⟨hs, hsettled⟩ := honce x hx
        have hlt : (copyLiteral x).depth < a.depth := Nat.lt_of_le_of_lt (copyLiteral_depth x) (parts_depth hx)
        obtain ⟨hs', hsettled'⟩ := ih _ hlt hsettled rfl
        exact ⟨hs.trans hs', hsettled'⟩
    | dictionary K hK htable hpair hkeys hvalues =>
      refine dictionary_copied hK htable hpair ?_
      intro e he
      exact ⟨ih _ (entry_depth he).1 (hkeys e he) rfl, ih _ (entry_depth he).2 (hvalues e he) rfl⟩

end Xvr.Runtime
