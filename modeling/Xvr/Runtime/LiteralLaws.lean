/-
  Xvr.Runtime.LiteralLaws — the laws of equality and of the hash.

  Proved, on every universe of literals:
  - `equality_laws`: where no dictionary holds a key twice, and the texts and integers
    inside keys hash as they read, equality is an equivalence exactly when the integers are
    apart, no dictionary is a proper part of another, and every key is where its hash leads.
  - `equal_hash`: under all these conditions equal literals hash equally, and setting an
    equal key overwrites; where equal literals hash equally, integers that read alike have
    one word to hash and strings that read alike one hash.
  `{}` is within every dictionary: `empty_within_one` is the run both laws fail on.
-/

import Xvr.Runtime.LiteralEquality

namespace Xvr.Runtime

open scoped List

variable {U K : Literal → Prop}

/-! ## Equivalence -/

/-- Equality is reflexive, symmetric and transitive on the set. -/
structure EquivalenceOn (U : Literal → Prop) : Prop where
  refl : ∀ a, U a → literalsAreEqual a a = true
  symm : ∀ a b, U a → U b → literalsAreEqual a b = true → literalsAreEqual b a = true
  trans : ∀ a b c, U a → U b → U c → literalsAreEqual a b = true → literalsAreEqual b c = true →
    literalsAreEqual a c = true

theorem version_of (hU : Tabled U K) (h : ∀ n, Decided U K n) {a : Literal} (ha : U a) {n : Nat} (hd : a.depth < n) :
    Version U n a := by
  cases n with
  | zero => exact absurd hd (Nat.not_lt_zero _)
  | succ n => exact version_deeper hU (h n) ha hd

theorem equivalence_of_decided (hU : Tabled U K) (h : ∀ n, Decided U K n) : EquivalenceOn U where
  refl a ha := by
    have hv := version_of hU h ha (Nat.lt_succ_self a.depth)
    exact ((h _).equal_iff a a hv hv).mpr (.of_same (.refl a))
  symm a b ha hb heq := by
    have hva := version_of hU h ha (show a.depth < max a.depth b.depth + 1 by omega)
    have hvb := version_of hU h hb (show b.depth < max a.depth b.depth + 1 by omega)
    exact ((h _).equal_iff b a hvb hva).mpr ((h _).symm a b hva hvb (((h _).equal_iff a b hva hvb).mp heq))
  trans a b c ha hb hc heq heq' := by
    have hva := version_of hU h ha (show a.depth < max a.depth (max b.depth c.depth) + 1 by omega)
    have hvb := version_of hU h hb (show b.depth < max a.depth (max b.depth c.depth) + 1 by omega)
    have hvc := version_of hU h hc (show c.depth < max a.depth (max b.depth c.depth) + 1 by omega)
    exact ((h _).equal_iff a c hva hvc).mpr ((h _).trans a b c hva hvb hvc (((h _).equal_iff a b hva hvb).mp heq)
      (((h _).equal_iff b c hvb hvc).mp heq'))

theorem integersApart_of_equivalence (hU : Universe U K) (h : EquivalenceOn U) : IntegersApart U := by
  intro a b c ha hb hc hia hib hk hne hf hf'
  have hca := hU.comparable a ha
  have hcb := hU.comparable b hb
  have hcc := hU.comparable c hc
  have hic : c.isInteger = true := by
    rw [Literal.isInteger, ← hk, ← Literal.isInteger]
    exact hia
  have hab := (equal_kinds hca hcb hne).mpr (.numbers hia hib hne hf)
  have hne' : b.kind ≠ c.kind := by rw [← hk]; exact hne.symm
  have hbc := (equal_kinds hcb hcc hne').mpr (.numbers hib hic hne' hf')
  exact (equal_word (integer_word hia) hk).mp (h.trans a b c ha hb hc hab hbc)

/-- A dictionary that equals itself finds each of its keys from the hash of that key, and
    nowhere but in the slot the key is in. -/
theorem keysReached_of_equivalence (hD : KeysDistinct U) (h : EquivalenceOn U) : KeysReached U := by
  intro d hd i hi hlive
  have hself : dictionariesAreEqual realFns d d = true := by
    rw [← h.refl _ hd, literalsAreEqual_kind (a := .dictionary d) (b := .dictionary d) rfl, equalOfKind]
  have he : entryAt d.entries i ∈ liveEntries d.entries := mem_liveEntries.mpr ⟨i, hi, rfl, hlive⟩
  obtain ⟨j, hchain, hlive', heq⟩ := exists_found (dictionariesAreEqual_exists hself he).1
  have hij : i = j := by
    by_contra hne
    have hapart := distinct_slots (hD d hd) hi hchain.lt hne hlive hlive'
    rw [heq] at hapart
    cases hapart
  rw [hij] at hchain ⊢
  exact hchain

/-- Where equality is symmetric, a dictionary within another is not smaller. -/
theorem dictionariesApart_deeper (hU : Tabled U K) (h : EquivalenceOn U) {n : Nat} (hd : Decided U K n) :
    DictionariesApart fun a => U a ∧ a.depth < n + 1 := by
  intro d d' ⟨ha, hda⟩ ⟨hb, hdb⟩ hw
  have hva := version_deeper hU hd ha hda
  have hvb := version_deeper hU hd hb hdb
  have heq := h.symm _ _ ha hb ((equal_dictionary hU hd hva hvb).mpr hw)
  exact length_within hU hd hvb hva ((equal_dictionary hU hd hvb hva).mp heq)

theorem decided_of_equivalence (hU : Tabled U K) (h : EquivalenceOn U) (hT : TextsAgree K) (hH : WordsAgree K) :
    ∀ n, Decided U K n
  | 0 => decided_zero
  | n + 1 =>
    have hd := decided_of_equivalence hU h hT hH n
    decided_deeper hU (integersApart_of_equivalence hU.toUniverse h) hT hH (dictionariesApart_deeper hU h hd) hd

/-- On a universe of literals where no dictionary holds two keys of which one equals the
    other, and the texts and integers inside keys hash as they read, equality is an
    equivalence if and only if no two integers of one kind read alike as a third of another
    kind, no dictionary is within one with more keys, and every key is on the probe chain
    of its hash. -/
theorem equality_laws (U K : Literal → Prop) (hU : Universe U K) (hK : KeysDistinct U) (hT : TextsAgree K)
    (hH : WordsAgree K) : EquivalenceOn U ↔ IntegersApart U ∧ DictionariesApart U ∧ KeysReached U := by
  constructor
  · intro h
    have hR := keysReached_of_equivalence hK h
    refine ⟨integersApart_of_equivalence hU h, ?_, hR⟩
    intro d d' ha hb hw
    have hd := decided_of_equivalence ⟨hU, hR, hK⟩ h hT hH (max (Literal.dictionary d).depth (Literal.dictionary d').depth)
    exact dictionariesApart_deeper ⟨hU, hR, hK⟩ h hd d d' ⟨ha, by omega⟩ ⟨hb, by omega⟩ hw
  · rintro ⟨hN, hD, hR⟩
    exact equivalence_of_decided ⟨hU, hR, hK⟩ (decided ⟨hU, hR, hK⟩ hN hD hT hH)

/-! ## A small universe -/

def oneKey : Literal := .dictionary (dictionaryOf [.set (.integer 1) (.integer 1)])

theorem oneKey_called : Called (dictionaryOf [.set (.integer 1) (.integer 1)]) := by
  obtain ⟨d, outs, hrun, _⟩ := run_room lawful_realFns [.set (.integer 1) (.integer 1)] (init_inv (F := realFns)).toRoom
  refine ⟨[.set (.integer 1) (.integer 1)], outs, ?_⟩
  rw [dictionaryOf, hrun]
  rfl

theorem oneKey_table : Table realFns (· = .integer 1) (dictionaryOf [.set (.integer 1) (.integer 1)]) := by
  have hS : KeyEquiv realFns (· = .integer 1) :=
    { hash := by rintro _ _ rfl rfl _; rfl
      copy := by rintro _ rfl; exact ⟨rfl, rfl⟩
      symm := by rintro _ _ rfl rfl h; exact h
      trans := by rintro _ _ _ rfl rfl rfl h _; exact h }
  obtain ⟨d, hset, ht, _⟩ := table_set lawful_realFns hS table_init rfl rfl (.integer 1)
  have hd : dictionaryOf [.set (.integer 1) (.integer 1)] = d := by
    rw [dictionaryOf, run, step, hset]
    rfl
  rw [hd]
  exact ht

theorem oneKey_live : liveEntries (dictionaryOf [.set (.integer 1) (.integer 1)]).entries = [⟨.integer 1, .integer 1⟩] := rfl

/-- `{}`, `{1: 1}` and `1`, or some of them. -/
theorem small_universe (h₁ : U (.integer 1)) (hU : ∀ a, U a → a = noKeys ∨ a = oneKey ∨ a = .integer 1) :
    Universe U U ∧ KeysReached U ∧ KeysDistinct U := by
  have hentries : ∀ (d : Dictionary) (e : Entry Literal), U (.dictionary d) → e ∈ liveEntries d.entries →
      U e.key ∧ U e.value := by
    intro d e hd he
    rcases hU _ hd with hd | hd | hd <;> cases hd
    · cases he
    · rw [oneKey_live, List.mem_singleton] at he
      rw [he]
      exact ⟨h₁, h₁⟩
  refine ⟨⟨?_, ?_, hentries, ?_, fun _ ha => ha, ?_, fun d e hd he => (hentries d e hd he).2⟩, ?_, ?_⟩
  · intro a ha
    rcases hU a ha with rfl | rfl | rfl <;> trivial
  · intro a x ha hx
    rcases hU a ha with rfl | rfl | rfl <;> cases hx
  · intro d hd
    rcases hU _ hd with hd | hd | hd <;> cases hd
    · exact ⟨[], [], rfl⟩
    · exact oneKey_called
  · intro a x ha hx
    rcases hU a ha with rfl | rfl | rfl <;> cases hx
  · intro d hd
    rcases hU _ hd with hd | hd | hd <;> cases hd
    · exact init_inv.reachable
    · exact oneKey_table.inv.reachable
  · intro d hd
    rcases hU _ hd with hd | hd | hd <;> cases hd
    · exact init_distinct
    · exact oneKey_table.distinct

def OneKey (a : Literal) : Prop := a = oneKey ∨ a = .integer 1

theorem oneKey_universe : Universe OneKey OneKey ∧ KeysReached OneKey ∧ KeysDistinct OneKey :=
  small_universe (.inr rfl) fun _ ha => .inr ha

theorem oneKey_integer {a : Literal} (h : OneKey a) (hi : a.isInteger = true) : a = .integer 1 := by
  rcases h with rfl | rfl
  · cases hi
  · rfl

theorem oneKey_texts : TextsAgree OneKey := by
  rintro s t (hs | hs) _ _ <;> cases hs

theorem oneKey_words : WordsAgree OneKey := by
  intro a b ha hb hia hib hk
  rw [oneKey_integer ha hia, oneKey_integer hb hib] at hk
  exact absurd rfl hk

theorem oneKey_integers : IntegersApart OneKey := by
  intro a b c ha hb _ hia hib _ hk
  rw [oneKey_integer ha hia, oneKey_integer hb hib] at hk
  exact absurd rfl hk

theorem oneKey_dictionaries : DictionariesApart OneKey := by
  rintro d d' (hd | hd) (hd' | hd') _ <;> cases hd <;> cases hd'
  exact Nat.le_refl _

theorem equality_laws_one : EquivalenceOn OneKey :=
  (equality_laws OneKey OneKey oneKey_universe.1 oneKey_universe.2.2 oneKey_texts oneKey_words).mpr
    ⟨oneKey_integers, oneKey_dictionaries, oneKey_universe.2.1⟩

/-- Every key of `{}` is in `{1: 1}`, and not the other way round. -/
theorem empty_within_one : ¬ ∀ U K : Literal → Prop, Universe U K → EquivalenceOn U := by
  intro h
  have hU : Universe (fun a => a = noKeys ∨ a = oneKey ∨ a = .integer 1) _ :=
    (small_universe (.inr (.inr rfl)) fun _ ha => ha).1
  have hsymm := (h _ _ hU).symm noKeys oneKey (.inl rfl) (.inr (.inl rfl)) (by decide)
  revert hsymm
  decide

/-! ## Hashes -/

/-- Shifting by half the width and adding undoes itself. -/
theorem xorShift_xorShift (x : BitVec 32) : ((x >>> 16 ^^^ x) >>> 16) ^^^ (x >>> 16 ^^^ x) = x := by
  rw [BitVec.ushiftRight_xor_distrib, ← BitVec.shiftRight_add, BitVec.ushiftRight_eq_zero (by decide), BitVec.zero_xor,
    ← BitVec.xor_assoc, BitVec.xor_self, BitVec.zero_xor]

theorem xorShift_injective {x y : BitVec 32} (h : x >>> 16 ^^^ x = y >>> 16 ^^^ y) : x = y := by
  rw [← xorShift_xorShift x, h, xorShift_xorShift]

/-- The factor of the hash is odd, so it has an inverse. -/
theorem factor_injective {x y : BitVec 32} (h : x * 0x45d9f3b = y * 0x45d9f3b) : x = y := by
  have hinverse : ∀ z : BitVec 32, z * 0x45d9f3b * 0x119de1f3 = z := by
    intro z
    rw [BitVec.mul_assoc, show (0x45d9f3b : BitVec 32) * 0x119de1f3 = 1#32 from by decide, BitVec.mul_one]
  rw [← hinverse x, h, hinverse]

theorem hashUInt_injective {x y : BitVec 32} (h : hashUInt x = hashUInt y) : x = y := by
  rw [hashUInt, hashUInt] at h
  exact xorShift_injective (factor_injective (xorShift_injective (factor_injective (xorShift_injective h))))

/-- Equal literals hash equally. -/
def HashesAgree (U : Literal → Prop) : Prop :=
  ∀ a b, U a → U b → literalsAreEqual a b = true → hashLiteral a = hashLiteral b

theorem hashesAgree_of_decided (hU : Tabled U U) (h : ∀ n, Decided U U n) : HashesAgree U := by
  intro a b ha hb heq
  have hva := version_of hU h ha (show a.depth < max a.depth b.depth + 1 by omega)
  have hvb := version_of hU h hb (show b.depth < max a.depth b.depth + 1 by omega)
  exact (h _).hash a b hva hvb (((h _).equal_iff a b hva hvb).mp heq)

theorem wordsAgree_of_hashesAgree (hU : Universe U U) (h : HashesAgree U) : WordsAgree U := by
  intro a b ha hb hia hib hne hf
  have heq := (equal_kinds (hU.comparable a ha) (hU.comparable b hb) hne).mpr (.numbers hia hib hne hf)
  have hhash := h a b ha hb heq
  rw [hash_integer hia, hash_integer hib] at hhash
  exact hashUInt_injective hhash

theorem textsAgree_of_hashesAgree (h : HashesAgree U) : TextsAgree U := by
  intro s t hs ht heq
  have hequal : literalsAreEqual (.string s) (.string t) = true := by
    rw [literalsAreEqual_kind (a := .string s) (b := .string t) rfl, equalOfKind]
    exact heq
  have hhash := h _ _ hs ht hequal
  rw [hashLiteral_eq, hashLiteral_eq, hashBody, hashBody] at hhash
  exact hhash

/-! ## Overwriting -/

section Overwriting

variable {S : Literal → Prop}

/-- A run of calls with keys of the set, or keys that are rejected, leaves a table. -/
theorem run_table (hS : VariableKeys S) {ops : List (Op Literal)} (hk : ∀ op ∈ ops, Allowed S op.key) :
    ∀ {d d' : Dictionary} {outs : List Out}, Table realFns S d → run realFns d ops = some (d', outs) →
      Table realFns S d' := by
  induction ops with
  | nil => intro d d' outs h hrun; cases hrun; exact h
  | cons op ops ih =>
    intro d d' outs h hrun
    obtain ⟨d₁, out, hstep, hinv⟩ := step_inv lawful_realFns h.inv op (hS.toKeySet.keepsHash (hk op (List.mem_cons_self ..)))
    obtain ⟨hstored, hdistinct⟩ := step_distinct lawful_realFns hS.toKeyEquiv (hk op (List.mem_cons_self ..)) h.inv h.stored
      h.distinct hstep
    rw [run, hstep] at hrun
    simp only [Option.bind_eq_bind, Option.bind_some, Option.bind_eq_some_iff, Option.pure_def, Option.some.injEq,
      Prod.mk.injEq] at hrun
    obtain ⟨⟨d₂, outs₂⟩, hrest, hd, _⟩ := hrun
    rw [← hd]
    exact ih (fun op hop => hk op (List.mem_cons_of_mem _ hop)) ⟨hinv, hstored, hdistinct⟩ hrest

/-- Setting a key equal to the one set before adds no entry. -/
theorem set_overwrites (hS : VariableKeys S) {d : Dictionary} (h : Table realFns S d) {a b : Literal} (ha : S a)
    (hb : S b) (hab : literalsAreEqual a b = true) (v w : Literal) :
    ∃ d₁ d₂, setLiteralDictionary realFns d a v = some d₁ ∧ setLiteralDictionary realFns d₁ b w = some d₂ ∧
      d₂.count = d₁.count := by
  obtain ⟨d₁, hset₁, ht₁, _⟩ := table_set lawful_realFns hS.toKeyEquiv h ha (hS.accepted a ha) v
  obtain ⟨d₁', hset₁', hlive, _⟩ :=
    set_live lawful_realFns hS.toKeyEquiv h.inv h.stored h.distinct ha (hS.accepted a ha) v
  rw [hset₁] at hset₁'
  cases hset₁'
  obtain ⟨d₂, hset₂, _, hcount⟩ :=
    set_live lawful_realFns hS.toKeyEquiv ht₁.inv ht₁.stored ht₁.distinct hb (hS.accepted b hb) w
  refine ⟨d₁, d₂, hset₁, hset₂, ?_⟩
  -- what is beside the key in the new dictionary is what was beside it in the old one
  have hothers : others realFns b d₁.entries ~ others realFns a d.entries := by
    rw [others]
    refine (hlive.filter _).trans ?_
    obtain ⟨hc, hac⟩ := hS.copy a ha
    have hbc := hS.trans _ _ _ hb ha hc (hS.symm _ _ ha hb hab) hac
    rw [List.filter_cons, if_neg (by simp [setEntryValues, hbc]), List.filter_eq_self.mpr]
    intro e he
    obtain ⟨hmem, hno⟩ := mem_others.mp he
    rw [← hS.toKeyEquiv.equal_congr ha hb (h.stored e hmem) hab, hno]
    rfl
  rw [hcount, hothers.length_eq, hlive.length_eq, List.length_cons]
  omega

end Overwriting

/-- The versions of keys of any depth. -/
theorem variableKeys_all (hU : Universe U U) (h : ∀ n, Decided U U n) : VariableKeys fun k => ∃ n, KeyOf U n k where
  hash a b := by
    rintro ⟨n, ha⟩ ⟨m, hb⟩
    exact ((h (max n m)).variableKeys hU).hash a b (ha.mono (Nat.le_max_left ..)) (hb.mono (Nat.le_max_right ..))
  copy k := by
    rintro ⟨n, hk⟩
    obtain ⟨hc, heq⟩ := ((h n).variableKeys hU).copy k hk
    exact ⟨⟨n, hc⟩, heq⟩
  symm a b := by
    rintro ⟨n, ha⟩ ⟨m, hb⟩
    exact ((h (max n m)).variableKeys hU).symm a b (ha.mono (Nat.le_max_left ..)) (hb.mono (Nat.le_max_right ..))
  trans a b c := by
    rintro ⟨n, ha⟩ ⟨m, hb⟩ ⟨k, hc⟩
    exact ((h (max n (max m k))).variableKeys hU).trans a b c (ha.mono (by omega)) (hb.mono (by omega)) (hc.mono (by omega))
  accepted k := by
    rintro ⟨n, hk⟩
    exact ((h n).variableKeys hU).accepted k hk

/-- On every universe of literals: when its integers are apart, no dictionary is within one
    with more keys, every key is in one place and on the probe chain of its hash, and texts
    and integers that read alike hash alike, equal literals hash equally, and after any
    calls with such keys setting one key and then an equal one overwrites. The conditions on
    texts and integers are necessary: where equal literals hash equally, integers that read
    alike have one word and strings that read alike one hash. -/
theorem equal_hash (U : Literal → Prop) (hU : Universe U U) :
    (IntegersApart U → DictionariesApart U → KeysReached U → KeysDistinct U → TextsAgree U → WordsAgree U →
      HashesAgree U ∧ ∀ a b, U a → U b → a.isNull = false → b.isNull = false → literalsAreEqual a b = true →
        ∀ ops : List (Op Literal), (∀ op ∈ ops, Allowed U op.key) →
          ∃ d outs, run realFns initLiteralDictionary ops = some (d, outs) ∧ ∀ v w, ∃ d₁ d₂,
            setLiteralDictionary realFns d a v = some d₁ ∧ setLiteralDictionary realFns d₁ b w = some d₂ ∧
              d₂.count = d₁.count) ∧
    (HashesAgree U → TextsAgree U ∧ WordsAgree U) := by
  refine ⟨?_, fun h => ⟨textsAgree_of_hashesAgree h, wordsAgree_of_hashesAgree hU h⟩⟩
  intro hN hD hR hK hT hH
  have hU : Tabled U U := ⟨hU, hR, hK⟩
  have h := decided hU hN hD hT hH
  have hS := variableKeys_all hU.toUniverse h
  have hkey : ∀ k, U k → k.isNull = false → ∃ n, KeyOf U n k := fun k hk hn =>
    ⟨k.depth + 1, version_of hU h hk (Nat.lt_succ_self _), hn⟩
  refine ⟨hashesAgree_of_decided hU h, ?_⟩
  intro a b ha hb hna hnb heq ops hops
  have hallowed : ∀ op ∈ ops, Allowed (fun k => ∃ n, KeyOf U n k) op.key := by
    intro op hop
    rcases hops op hop with hk | hr
    · by_cases hn : op.key.isNull = true
      · exact .inr (by rw [rejectedKey, hn]; rfl)
      · exact .inl (hkey _ hk (by simpa using hn))
    · exact .inr hr
  obtain ⟨d, outs, hrun, _⟩ := run_inv lawful_realFns ops (fun op hop => hS.toKeySet.keepsHash (hallowed op hop)) _ init_inv
  have ht := run_table hS hallowed table_init hrun
  exact ⟨d, outs, hrun, set_overwrites hS ht (hkey a ha hna) (hkey b hb hnb) heq⟩

theorem equal_hash_one : HashesAgree OneKey :=
  ((equal_hash OneKey oneKey_universe.1).1 oneKey_integers oneKey_dictionaries oneKey_universe.2.1 oneKey_universe.2.2
    oneKey_texts oneKey_words).1

/-- `{}` equals `{1: 1}` and hashes to 0. -/
theorem empty_hashes_apart : ¬ ∀ U : Literal → Prop, Universe U U → HashesAgree U := by
  intro h
  have hU : Universe (fun a => a = noKeys ∨ a = oneKey ∨ a = .integer 1) _ :=
    (small_universe (.inr (.inr rfl)) fun _ ha => ha).1
  have hhash := h _ hU noKeys oneKey (.inl rfl) (.inr (.inl rfl)) (by decide)
  revert hhash
  decide

end Xvr.Runtime
