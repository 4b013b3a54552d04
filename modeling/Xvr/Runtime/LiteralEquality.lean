/-
  Xvr.Runtime.LiteralEquality — when `Xvr_literalsAreEqual` is an equivalence and agrees
  with `Xvr_hashLiteral`.

  A `Universe` is a set of literals of the kinds a dictionary takes as keys (and null),
  with everything inside them, whose dictionaries are what calls leave. What goes wrong in
  one, and the condition that it does not:
  - two integers of one kind both read as the float of an integer of another kind
    (`IntegersApart`);
  - a dictionary is a proper part of another (`DictionariesApart`);
  - a key is not where its hash leads (`KeysReached`), or is in its dictionary twice
    (`KeysDistinct`), as after a copy that lost a key of its own;
  - integers of two kinds read alike and hash differently (`WordsAgree`), or texts are
    alike up to a NUL and hash differently (`TextsAgree`).

  Equality looks dictionaries up by hash, and what it looks up are keys it compares, so
  everything is proved together by depth (`Decided`): equality decides `Within`, which is
  symmetric and transitive, and agrees with the hash.
-/

import Xvr.Runtime.LiteralWithin

namespace Xvr.Runtime

open scoped List

/-! ## Universes -/

/-- The literals compared: keys of a dictionary, and null. -/
def Literal.Comparable : Literal → Prop
  | .null | .boolean _ | .integer _ | .int8 _ | .int16 _ | .int32 _ | .int64 _ => True
  | .uint8 _ | .uint16 _ | .uint32 _ | .uint64 _ => True
  | .string _ | .identifier _ | .array _ | .dictionary _ | .type _ _ _ => True
  | _ => False

/-- A dictionary some calls leave behind, whatever their keys. -/
def Called (d : Dictionary) : Prop := ∃ ops outs, run realFns initLiteralDictionary ops = some (d, outs)

/-- A set of literals with everything inside them; the keys of its dictionaries, and
    everything inside those, are in `K`. -/
structure Universe (U K : Literal → Prop) : Prop where
  comparable : ∀ a, U a → a.Comparable
  parts : ∀ a x, U a → x ∈ a.parts → U x
  entries : ∀ (d : Dictionary) (e : Entry Literal), U (.dictionary d) → e ∈ liveEntries d.entries → K e.key ∧ U e.value
  called : ∀ d : Dictionary, U (.dictionary d) → Called d
  keys : ∀ a, K a → U a
  keyParts : ∀ a x, K a → x ∈ a.parts → K x
  keyEntries : ∀ (d : Dictionary) (e : Entry Literal), K (.dictionary d) → e ∈ liveEntries d.entries → K e.value

/-- No two integers of one kind read as the float of one integer of another kind. -/
def IntegersApart (U : Literal → Prop) : Prop :=
  ∀ a b c, U a → U b → U c → a.isInteger = true → b.isInteger = true → a.kind = c.kind → a.kind ≠ b.kind →
    (comparedAs a == comparedAs b) = true → (comparedAs b == comparedAs c) = true → a = c

/-- A dictionary that is within another holds as many keys. -/
def DictionariesApart (U : Literal → Prop) : Prop :=
  ∀ d d' : Dictionary, U (.dictionary d) → U (.dictionary d') → Within (.dictionary d) (.dictionary d') →
    (liveEntries d'.entries).length ≤ (liveEntries d.entries).length

/-- Every key of a dictionary is on the probe chain of its own hash. -/
def KeysReached (U : Literal → Prop) : Prop := ∀ d : Dictionary, U (.dictionary d) → Reachable realFns d.entries

/-- No dictionary holds two keys of which one equals the other. -/
def KeysDistinct (U : Literal → Prop) : Prop := ∀ d : Dictionary, U (.dictionary d) → Distinct realFns d.entries

/-- Strings that equality does not tell apart have one hash. -/
def TextsAgree (U : Literal → Prop) : Prop :=
  ∀ s t, U (.string s) → U (.string t) → equalsRefString s t = true → hashString s = hashString t

/-- The word of an integer that is hashed. -/
def Literal.hashedWord : Literal → BitVec 32
  | .integer v | .int32 v | .uint32 v => v
  | .int8 v => v.signExtend 32
  | .int16 v => v.signExtend 32
  | .uint8 v => v.zeroExtend 32
  | .uint16 v => v.zeroExtend 32
  | .int64 v | .uint64 v => foldWord v
  | _ => 0

/-- Integers of different kinds that read alike have one word to hash. -/
def WordsAgree (U : Literal → Prop) : Prop :=
  ∀ a b, U a → U b → a.isInteger = true → b.isInteger = true → a.kind ≠ b.kind →
    (comparedAs a == comparedAs b) = true → a.hashedWord = b.hashedWord

variable {U K : Literal → Prop} {n : Nat}

/-- The keys are a universe of their own. -/
theorem Universe.ofKeys (hU : Universe U K) : Universe K K where
  comparable a ha := hU.comparable a (hU.keys a ha)
  parts := hU.keyParts
  entries d e hd he := ⟨(hU.entries d e (hU.keys _ hd) he).1, hU.keyEntries d e hd he⟩
  called d hd := hU.called d (hU.keys _ hd)
  keys _ ha := ha
  keyParts := hU.keyParts
  keyEntries := hU.keyEntries

theorem Called.room {d : Dictionary} (h : Called d) : Room d.entries d.contains := by
  obtain ⟨ops, outs, hrun⟩ := h
  obtain ⟨d', outs', hrun', hroom⟩ := run_room lawful_realFns ops (init_inv (F := realFns)).toRoom
  rw [hrun] at hrun'
  cases hrun'
  exact hroom

/-- A universe whose dictionaries are tables. -/
structure Tabled (U K : Literal → Prop) : Prop extends Universe U K where
  reached : KeysReached U
  distinct : KeysDistinct U

theorem Tabled.inv (hU : Tabled U K) {d : Dictionary} (hd : U (.dictionary d)) : Inv realFns d :=
  have hroom := (hU.called d hd).room
  ⟨hroom.capacity, hroom.used, hroom.load, hU.reached d hd⟩

theorem Tabled.ofKeys (hU : Tabled U K) : Tabled K K where
  toUniverse := hU.toUniverse.ofKeys
  reached d hd := hU.reached d (hU.keys _ hd)
  distinct d hd := hU.distinct d (hU.keys _ hd)

/-! ## Versions -/

/-- The same as a literal of the universe: a copy, for one. -/
structure Version (U : Literal → Prop) (n : Nat) (x : Literal) : Prop where
  depth : x.depth < n
  settled : Settled x
  origin : ∃ a, U a ∧ a.depth < n ∧ Same a x

theorem comparable_same {a x : Literal} (h : Same a x) (ha : a.Comparable) : x.Comparable := by
  cases h with
  | dictionary => trivial
  | plain hk hshell hlen _ =>
    by_cases hp : a.parts = []
    · rw [← shell_inj hk hshell hlen hp]
      exact ha
    · cases a <;> first | exact absurd rfl hp | exact ha.elim | skip
      all_goals cases x <;> simp_all [Literal.shell, Literal.Comparable]

namespace Version

variable {x y : Literal}

theorem mono {m : Nat} (h : Version U n x) (hm : n ≤ m) : Version U m x :=
  have ⟨a, ha, hd, hs⟩ := h.origin
  ⟨by have := h.depth; omega, h.settled, a, ha, by omega, hs⟩

theorem sub {V : Literal → Prop} (h : Version U n x) (hV : ∀ a, U a → V a) : Version V n x :=
  have ⟨a, ha, hd, hs⟩ := h.origin
  ⟨h.depth, h.settled, a, hV a ha, hd, hs⟩

theorem comparable (hU : Universe U K) (h : Version U n x) : x.Comparable := by
  obtain ⟨a, ha, _, hs⟩ := h.origin
  exact comparable_same hs (hU.comparable a ha)

theorem copy (h : Version U n x) : Version U n (copyLiteral x) ∧ Same x (copyLiteral x) := by
  obtain ⟨a, ha, hd, hs⟩ := h.origin
  obtain ⟨hsame, hsettled⟩ := copyLiteral_same h.settled
  exact ⟨⟨Nat.lt_of_le_of_lt (copyLiteral_depth x) h.depth, hsettled, a, ha, hd, hs.trans hsame⟩, hsame⟩

/-- A version of a literal that holds none is that literal. -/
theorem scalar (h : Version U n x) (hk : x.kind ≠ .dictionary) (hp : x.parts = []) : U x := by
  obtain ⟨a, ha, _, hs⟩ := h.origin
  rw [same_scalar hs.symm hk hp]
  exact ha

theorem integer (h : Version U n x) (hi : x.isInteger = true) : U x :=
  h.scalar (integer_parts hi).1 (integer_parts hi).2

theorem part (hU : Universe U K) (h : Version U (n + 1) x) (hy : y ∈ x.parts) : Version U n y := by
  obtain ⟨a, ha, hd, hs⟩ := h.origin
  have hdx := h.depth
  have hdy := parts_depth hy
  refine ⟨by omega, h.settled.part hy, ?_⟩
  cases hs with
  | dictionary => cases hy
  | plain _ _ hlen hparts =>
    obtain ⟨i, hi⟩ := List.mem_iff_getElem?.mp hy
    have hlt : i < a.parts.length := by
      rw [hlen]
      exact (List.getElem?_eq_some_iff.mp hi).1
    have hmem := List.getElem_mem hlt
    have hdb := parts_depth hmem
    exact ⟨_, hU.parts a _ ha hmem, by omega, hparts i _ y (List.getElem?_eq_getElem hlt) hi⟩

theorem entry (hU : Universe U K) {d : Dictionary} (h : Version U (n + 1) (.dictionary d)) {e : Entry Literal}
    (he : e ∈ liveEntries d.entries) : Version K n e.key ∧ Version U n e.value := by
  obtain ⟨a, ha, hd, hs⟩ := h.origin
  have hdx := h.depth
  obtain ⟨hk, hv⟩ := entry_depth he
  obtain ⟨hsk, hsv⟩ := h.settled.entry he
  cases hs with
  | plain _ hshell =>
    have hka := shell_kind a
    rw [hshell] at hka
    obtain ⟨da, rfl⟩ := kind_dictionary hka.symm
    contradiction
  | dictionary there back hin hkey hvalue hback hbackKey hbackValue =>
    obtain ⟨hdk, hdv⟩ := entry_depth (hback e he)
    obtain ⟨hUk, hUv⟩ := hU.entries _ _ ha (hback e he)
    exact ⟨⟨by omega, hsk, _, hUk, by omega, hbackKey e he⟩, ⟨by omega, hsv, _, hUv, by omega, hbackValue e he⟩⟩

end Version

/-! ## What holds up to a depth -/

structure Decided (U K : Literal → Prop) (n : Nat) : Prop where
  equal_iff : ∀ x y, Version U n x → Version U n y → (literalsAreEqual x y = true ↔ Within x y)
  symm : ∀ x y, Version U n x → Version U n y → Within x y → Within y x
  trans : ∀ x y z, Version U n x → Version U n y → Version U n z → Within x y → Within y z → Within x z
  hash : ∀ x y, Version K n x → Version K n y → Within x y → hashLiteral x = hashLiteral y

/-- The versions a dictionary takes as keys. -/
def KeyOf (K : Literal → Prop) (n : Nat) (k : Literal) : Prop := Version K n k ∧ k.isNull = false

theorem KeyOf.mono {k : Literal} {m : Nat} (h : KeyOf K n k) (hm : n ≤ m) : KeyOf K m k := ⟨h.1.mono hm, h.2⟩

theorem comparable_accepted {k : Literal} (h : k.Comparable) (hn : k.isNull = false) : rejectedKey k = false := by
  cases k <;> first | rfl | exact h.elim | cases hn

theorem Decided.ofKeys (hU : Universe U K) (h : Decided U K n) : Decided K K n where
  equal_iff x y hx hy := h.equal_iff x y (hx.sub hU.keys) (hy.sub hU.keys)
  symm x y hx hy := h.symm x y (hx.sub hU.keys) (hy.sub hU.keys)
  trans x y z hx hy hz := h.trans x y z (hx.sub hU.keys) (hy.sub hU.keys) (hz.sub hU.keys)
  hash := h.hash

theorem Decided.variableKeys (hU : Universe K K) (h : Decided K K n) : VariableKeys (KeyOf K n) where
  hash a b ha hb heq := h.hash a b ha.1 hb.1 ((h.equal_iff a b ha.1 hb.1).mp heq)
  copy k hk := by
    obtain ⟨hc, hs⟩ := hk.1.copy
    refine ⟨⟨hc, ?_⟩, (h.equal_iff k _ hk.1 hc).mpr (.of_same hs)⟩
    show (copyLiteral k).isNull = false
    rw [Literal.isNull, copyLiteral_kind, ← Literal.isNull]
    exact hk.2
  symm a b ha hb heq := (h.equal_iff b a hb.1 ha.1).mpr (h.symm a b ha.1 hb.1 ((h.equal_iff a b ha.1 hb.1).mp heq))
  trans a b c ha hb hc heq heq' := (h.equal_iff a c ha.1 hc.1).mpr
    (h.trans a b c ha.1 hb.1 hc.1 ((h.equal_iff a b ha.1 hb.1).mp heq) ((h.equal_iff b c hb.1 hc.1).mp heq'))
  accepted k hk := comparable_accepted (hk.1.comparable hU) hk.2

/-! ## Shells -/

theorem shell_integer {x y : Literal} (hshell : x.shell = y.shell) (hlen : x.parts.length = y.parts.length)
    (hy : y.isInteger = true) : x = y := by
  obtain ⟨hk, hp⟩ := integer_parts hy
  exact (shell_inj hk hshell.symm hlen.symm hp).symm

theorem shell_type {x : Literal} {t : LiteralType} {c : Bool} {bs : List Literal}
    (h : x.shell = (Literal.type t c bs).shell) : ∃ as, x = .type t c as := by
  cases x <;> simp only [Literal.shell, reduceCtorEq, Literal.type.injEq] at h
  obtain ⟨rfl, rfl, _⟩ := h
  exact ⟨_, rfl⟩

/-! ## Scalars -/

theorem hash_integer {a : Literal} (h : a.isInteger = true) : hashLiteral a = hashUInt a.hashedWord := by
  rw [hashLiteral_eq]
  cases a <;> simp [Literal.isInteger, Literal.kind] at h <;> rw [hashBody, Literal.hashedWord]

/-- Null, and the kinds compared by the word they hold. -/
def Literal.isWord : Literal → Bool
  | .null | .boolean _ | .integer _ | .int8 _ | .int16 _ | .int32 _ | .int64 _ => true
  | .uint8 _ | .uint16 _ | .uint32 _ | .uint64 _ => true
  | _ => false

theorem Literal.Comparable.cases {x : Literal} (h : x.Comparable) : x.isWord = true ∨ (∃ s, x = .string s) ∨
    (∃ s, x = .identifier s) ∨ (∃ es, x = .array es) ∨ (∃ d, x = .dictionary d) ∨ ∃ t c ss, x = .type t c ss := by
  cases x <;> simp_all [Literal.Comparable, Literal.isWord]

theorem integer_word {x : Literal} (h : x.isInteger = true) : x.isWord = true := by
  cases x <;> first | rfl | cases h

theorem equal_word {x y : Literal} (hx : x.isWord = true) (hk : x.kind = y.kind) :
    literalsAreEqual x y = true ↔ x = y := by
  rw [literalsAreEqual_kind hk]
  cases x <;> cases hx <;> cases y <;> cases hk <;> simp [equalOfKind]

theorem within_word {x y : Literal} (hx : x.isWord = true) (hk : x.kind = y.kind) : Within x y ↔ x = y := by
  constructor
  · intro h
    cases h with
    | plain hd hshell hlen _ => exact shell_inj hd hshell hlen (by cases x <;> first | rfl | cases hx)
    | numbers _ _ hne => exact absurd hk hne
    | strings | identifiers | types | dictionary => cases hx
  · rintro rfl
    exact .of_same (.refl x)

theorem equal_string (s t : List Char) :
    literalsAreEqual (.string s) (.string t) = true ↔ Within (.string s) (.string t) := by
  rw [literalsAreEqual_kind (a := .string s) (b := .string t) rfl, equalOfKind]
  constructor
  · exact .strings
  · intro h
    cases h with
    | plain _ hshell => cases hshell; exact equalsRefString_refl s
    | numbers ha => cases ha
    | strings heq => exact heq

theorem equal_identifier (s t : List Char) :
    literalsAreEqual (.identifier s) (.identifier t) = true ↔ Within (.identifier s) (.identifier t) := by
  rw [literalsAreEqual_kind (a := .identifier s) (b := .identifier t) rfl, equalOfKind, Bool.and_eq_true, beq_iff_eq]
  constructor
  · rintro ⟨hhash, heq⟩
    exact .identifiers hhash heq
  · intro h
    cases h with
    | plain _ hshell => cases hshell; exact ⟨rfl, equalsRefString_refl s⟩
    | numbers ha => cases ha
    | identifiers hhash heq => exact ⟨hhash, heq⟩

/-- Literals of different kinds are equal as numbers or not at all. -/
theorem equal_kinds {x y : Literal} (hx : x.Comparable) (hy : y.Comparable) (hk : x.kind ≠ y.kind) :
    literalsAreEqual x y = true ↔ Within x y := by
  have hfloat : ∀ {l : Literal}, l.Comparable → l.isFloat = false := by
    intro l hl
    cases l <;> first | rfl | exact hl.elim
  rw [literalsAreEqual_eq, equalBody, if_pos hk, hfloat hx, hfloat hy, Bool.or_false, Bool.or_false]
  simp only [Bool.and_eq_true]
  constructor
  · rintro ⟨⟨ha, hb⟩, hf⟩
    exact .numbers ha hb hk hf
  · intro h
    cases h with
    | plain _ hshell =>
      rw [← shell_kind x, hshell, shell_kind] at hk
      exact absurd rfl hk
    | numbers ha hb _ hf => exact ⟨⟨ha, hb⟩, hf⟩
    | strings | identifiers | types | dictionary => exact absurd rfl hk

/-! ## One level deeper -/

section Deeper

variable (hU : Tabled U K) (h : Decided U K n)

include hU

/-- The table of a dictionary one level deeper. -/
theorem table_deeper {d : Dictionary} (hx : Version U (n + 1) (.dictionary d)) : Table realFns (KeyOf K n) d :=
  hx.settled.table fun _ he => ⟨(hx.entry hU.toUniverse he).1, live_key he⟩

include h

theorem settled_deeper {a : Literal} (ha : U a) (hd : a.depth < n + 1) : Settled a := by
  induction hm : a.depth using Nat.strong_induction_on generalizing a with
  | _ m ih =>
    subst hm
    by_cases hk : a.kind = .dictionary
    · obtain ⟨d, rfl⟩ := kind_dictionary hk
      have hdistinct := hU.distinct d ha
      have hkeys : ∀ e ∈ liveEntries d.entries, Settled e.key ∧ Settled e.value := by
        intro e he
        obtain ⟨hdk, hdv⟩ := entry_depth he
        obtain ⟨hUk, hUv⟩ := hU.entries d e ha he
        exact ⟨ih _ hdk (hU.keys _ hUk) (by omega) rfl, ih _ hdv hUv (by omega) rfl⟩
      have hversion : ∀ e ∈ liveEntries d.entries, Version K n e.key := by
        intro e he
        have hdk := (entry_depth he).1
        exact ⟨by omega, (hkeys e he).1, _, (hU.entries d e ha he).1, by omega, .refl _⟩
      refine .dictionary (KeyOf K n) ((h.ofKeys hU.toUniverse).variableKeys hU.toUniverse.ofKeys)
        ⟨hU.inv ha, fun e he => ⟨hversion e he, live_key he⟩, hdistinct⟩ ?_ (fun e he => (hkeys e he).1)
        (fun e he => (hkeys e he).2)
      apply hdistinct.imp_of_mem
      intro x y hx hy hne hsame
      have heq := ((h.ofKeys hU.toUniverse).equal_iff _ _ (hversion x hx) (hversion y hy)).mpr (.of_same hsame)
      rw [show realFns.equal = literalsAreEqual from rfl, heq] at hne
      cases hne.1
    · refine .plain hk ?_
      intro x hx
      have hdx := parts_depth hx
      exact ih _ hdx (hU.parts a x ha hx) (by omega) rfl

theorem version_deeper {a : Literal} (ha : U a) (hd : a.depth < n + 1) : Version U (n + 1) a :=
  ⟨hd, settled_deeper hU h ha hd, a, ha, hd, .refl a⟩

theorem elements_deeper {x y : Literal} (hx : Version U (n + 1) x) (hy : Version U (n + 1) y) :
    elementsAreEqual realFns x.parts y.parts = true ↔ x.parts.length = y.parts.length ∧
      ∀ (i : Nat) (u v : Literal), x.parts[i]? = some u → y.parts[i]? = some v → Within u v := by
  rw [elementsAreEqual_iff]
  apply and_congr_right
  intro _
  apply forall_congr'
  intro i
  apply forall₂_congr
  intro u v
  apply forall₂_congr
  intro hu hv
  exact h.equal_iff u v (hx.part hU.toUniverse (List.mem_of_getElem? hu)) (hy.part hU.toUniverse (List.mem_of_getElem? hv))

theorem equal_dictionary {d d' : Dictionary} (hx : Version U (n + 1) (.dictionary d))
    (hy : Version U (n + 1) (.dictionary d')) :
    literalsAreEqual (.dictionary d) (.dictionary d') = true ↔ Within (.dictionary d) (.dictionary d') := by
  have hkeys := h.ofKeys hU.toUniverse
  have hK := hkeys.variableKeys hU.toUniverse.ofKeys
  have htable := table_deeper hU hy
  rw [literalsAreEqual_kind (a := .dictionary d) (b := .dictionary d') rfl]
  constructor
  · intro heq
    have hmatch : ∀ e ∈ liveEntries d.entries, ∃ e', e' ∈ liveEntries d'.entries ∧ Within e.key e'.key ∧
        Within e.value e'.value := by
      intro e he
      obtain ⟨e', he', hkey, hvalue⟩ := dictionariesAreEqual_sound heq he
      obtain ⟨hxk, hxv⟩ := hx.entry hU.toUniverse he
      obtain ⟨hyk, hyv⟩ := hy.entry hU.toUniverse he'
      obtain ⟨hcopy, hsame⟩ := hyv.copy
      refine ⟨e', he', (hkeys.equal_iff _ _ hxk hyk).mp hkey, ?_⟩
      exact ((h.equal_iff _ _ hxv hcopy).mp hvalue).congr (.refl _) hsame.symm
    choose! there hthere using hmatch
    exact .dictionary there (fun e he => (hthere e he).1) (fun e he => (hthere e he).2.1) fun e he => (hthere e he).2.2
  · intro hw
    show dictionariesAreEqual realFns d d' = true
    cases hw with
    | plain hk => exact absurd rfl hk
    | numbers ha => cases ha
    | dictionary there hin hkey hvalue =>
      rw [dictionariesAreEqual, List.all_eq_true]
      intro e he
      cases hnull : e.key.isNull with
      | true => rfl
      | false =>
        have he : e ∈ liveEntries d.entries := List.mem_filter.mpr ⟨he, by simp [Entry.live, hnull]⟩
        obtain ⟨hxk, hxv⟩ := hx.entry hU.toUniverse he
        obtain ⟨hyk, hyv⟩ := hy.entry hU.toUniverse (hin e he)
        obtain ⟨hcopy, hsame⟩ := hyv.copy
        have hk : KeyOf K n e.key := ⟨hxk, hnull⟩
        -- the search finds the entry matched, and get answers a copy of its value
        have hbound : bound realFns d' e.key = some (there e).value :=
          (bound_some hK.toKeyEquiv htable hk).mpr ⟨_, hin e he, (hkeys.equal_iff _ _ hxk hyk).mpr (hkey e he), rfl⟩
        rw [table_has hK.toKeyEquiv htable hk, table_get hK.toKeyEquiv htable hk (hK.accepted _ hk), hbound]
        exact (h.equal_iff _ _ hxv hcopy).mpr ((hvalue e he).congr (.refl _) hsame)

theorem equal_array {as bs : List Literal} (hx : Version U (n + 1) (.array as)) (hy : Version U (n + 1) (.array bs)) :
    literalsAreEqual (.array as) (.array bs) = true ↔ Within (.array as) (.array bs) := by
  rw [literalsAreEqual_kind (a := .array as) (b := .array bs) rfl]
  refine (elements_deeper hU h hx hy).trans ⟨?_, ?_⟩
  · rintro ⟨hlen, hparts⟩
    exact .plain (by simp [Literal.kind]) rfl hlen hparts
  · intro hw
    cases hw with
    | plain _ _ hlen hparts => exact ⟨hlen, hparts⟩
    | numbers ha => cases ha

theorem equal_type {t u : LiteralType} {c d : Bool} {as bs : List Literal} (hx : Version U (n + 1) (.type t c as))
    (hy : Version U (n + 1) (.type u d bs)) :
    literalsAreEqual (.type t c as) (.type u d bs) = true ↔ Within (.type t c as) (.type u d bs) := by
  have helements := elements_deeper hU h hx hy
  rw [literalsAreEqual_kind (a := .type t c as) (b := .type u d bs) rfl]
  simp only [equalOfKind, Bool.and_eq_true, beq_iff_eq]
  constructor
  · rintro ⟨⟨⟨rfl, rfl⟩, hlen⟩, hsub⟩
    split at hsub
    · exact .plain (by simp [Literal.kind]) rfl hlen (helements.mp hsub).2
    · rename_i hno
      rw [not_or] at hno
      exact .types hno.1 hno.2 hlen
  · intro hw
    cases hw with
    | plain _ hshell hlen hparts =>
      simp only [Literal.shell, Literal.type.injEq] at hshell
      refine ⟨⟨⟨hshell.1, hshell.2.1⟩, hlen⟩, ?_⟩
      split
      · exact helements.mpr ⟨hlen, hparts⟩
      · rfl
    | numbers ha => cases ha
    | types ht ht' hlen => exact ⟨⟨⟨rfl, rfl⟩, hlen⟩, by rw [if_neg (by simp [ht, ht'])]⟩

theorem equal_deeper {x y : Literal} (hx : Version U (n + 1) x) (hy : Version U (n + 1) y) :
    literalsAreEqual x y = true ↔ Within x y := by
  have hcx := hx.comparable hU.toUniverse
  by_cases hk : x.kind = y.kind
  · rcases hcx.cases with hs | ⟨s, rfl⟩ | ⟨s, rfl⟩ | ⟨as, rfl⟩ | ⟨d, rfl⟩ | ⟨t, c, as, rfl⟩
    · rw [equal_word hs hk, within_word hs hk]
    all_goals cases y <;> cases hk
    · exact equal_string _ _
    · exact equal_identifier _ _
    · exact equal_array hU h hx hy
    · exact equal_dictionary hU h hx hy
    · exact equal_type hU h hx hy
  · exact equal_kinds hcx (hy.comparable hU.toUniverse) hk

theorem trans_deeper (hN : IntegersApart U) {x y z : Literal} (hx : Version U (n + 1) x) (hy : Version U (n + 1) y)
    (hz : Version U (n + 1) z) (hxy : Within x y) (hyz : Within y z) : Within x z := by
  cases hxy with
  | plain hk hshell hlen hparts =>
    cases hyz with
    | plain _ hshell' hlen' hparts' =>
      refine .plain hk (hshell.trans hshell') (hlen.trans hlen') ?_
      intro i u w hu hw
      have hlt := (List.getElem?_eq_some_iff.mp hu).1
      have hv := List.getElem?_eq_getElem (hlen ▸ hlt)
      exact h.trans u _ w (hx.part hU.toUniverse (List.mem_of_getElem? hu)) (hy.part hU.toUniverse (List.mem_of_getElem? hv))
        (hz.part hU.toUniverse (List.mem_of_getElem? hw)) (hparts i u _ hu hv) (hparts' i _ w hv hw)
    | numbers ha hb hne hf =>
      rw [shell_integer hshell hlen ha]
      exact .numbers ha hb hne hf
    | strings heq =>
      rw [shell_inj hk hshell hlen (List.eq_nil_of_length_eq_zero hlen)]
      exact .strings heq
    | identifiers hhash heq =>
      rw [shell_inj hk hshell hlen (List.eq_nil_of_length_eq_zero hlen)]
      exact .identifiers hhash heq
    | types ht ht' hlen' =>
      obtain ⟨as, rfl⟩ := shell_type hshell
      exact .types ht ht' (hlen.trans hlen')
    | dictionary =>
      rw [← shell_kind x, hshell] at hk
      exact absurd rfl hk
  | numbers ha hb hne hf =>
    cases hyz with
    | plain _ hshell' hlen' _ =>
      rw [← shell_inj (integer_parts hb).1 hshell' hlen' (integer_parts hb).2]
      exact .numbers ha hb hne hf
    | numbers _ hc hne' hf' =>
      by_cases hk : x.kind = z.kind
      · rw [hN x y z (hx.integer ha) (hy.integer hb) (hz.integer hc) ha hb hk hne hf hf']
        exact .of_same (.refl z)
      · exact .numbers ha hc hk (float_trans hf hf')
    | strings | identifiers | types | dictionary => cases hb
  | strings heq =>
    cases hyz with
    | plain hk hshell' hlen' =>
      rw [← shell_inj hk hshell' hlen' rfl]
      exact .strings heq
    | numbers ha => cases ha
    | strings heq' => exact .strings (equalsRefString_trans heq heq')
  | identifiers hhash heq =>
    cases hyz with
    | plain hk hshell' hlen' =>
      rw [← shell_inj hk hshell' hlen' rfl]
      exact .identifiers hhash heq
    | numbers ha => cases ha
    | identifiers hhash' heq' => exact .identifiers (hhash.trans hhash') (equalsRefString_trans heq heq')
  | types ht ht' hlen =>
    cases hyz with
    | plain _ hshell' hlen' _ =>
      obtain ⟨cs, rfl⟩ := shell_type hshell'.symm
      exact .types ht ht' (hlen.trans hlen')
    | numbers ha => cases ha
    | types _ _ hlen' => exact .types ht ht' (hlen.trans hlen')
  | dictionary there hin hkey hvalue =>
    cases hyz with
    | plain hk => exact absurd rfl hk
    | numbers ha => cases ha
    | dictionary there' hin' hkey' hvalue' =>
      refine .dictionary (fun e => there' (there e)) (fun e he => hin' _ (hin e he)) ?_ ?_
      · intro e he
        exact (h.ofKeys hU.toUniverse).trans _ _ _ (hx.entry hU.toUniverse he).1 (hy.entry hU.toUniverse (hin e he)).1 (hz.entry hU.toUniverse (hin' _ (hin e he))).1
          (hkey e he) (hkey' _ (hin e he))
      · intro e he
        exact h.trans _ _ _ (hx.entry hU.toUniverse he).2 (hy.entry hU.toUniverse (hin e he)).2 (hz.entry hU.toUniverse (hin' _ (hin e he))).2
          (hvalue e he) (hvalue' _ (hin e he))

/-- No two entries of a dictionary are matched with one entry. -/
theorem there_apart {d d' : Dictionary} (hx : Version U (n + 1) (.dictionary d)) (hy : Version U (n + 1) (.dictionary d'))
    {there : Entry Literal → Entry Literal} (hin : ∀ e ∈ liveEntries d.entries, there e ∈ liveEntries d'.entries)
    (hkey : ∀ e ∈ liveEntries d.entries, Within e.key (there e).key) :
    (liveEntries d.entries).Pairwise fun a b => there a ≠ there b := by
  apply (table_deeper hU hx).distinct.imp_of_mem
  intro a b ha hb hne heq
  have hkeys := h.ofKeys hU.toUniverse
  have hva := (hx.entry hU.toUniverse ha).1
  have hvb := (hx.entry hU.toUniverse hb).1
  have hvt := (hy.entry hU.toUniverse (hin b hb)).1
  have hkb := hkeys.symm _ _ hvb hvt (hkey b hb)
  have hka := hkey a ha
  rw [heq] at hka
  have hab := (hkeys.equal_iff _ _ hva hvb).mpr (hkeys.trans _ _ _ hva hvt hvb hka hkb)
  rw [show realFns.equal = literalsAreEqual from rfl, hab] at hne
  cases hne.1

theorem length_within {d d' : Dictionary} (hx : Version U (n + 1) (.dictionary d)) (hy : Version U (n + 1) (.dictionary d'))
    (hw : Within (.dictionary d) (.dictionary d')) : (liveEntries d.entries).length ≤ (liveEntries d'.entries).length := by
  cases hw with
  | plain hk => exact absurd rfl hk
  | numbers ha => cases ha
  | dictionary there hin hkey _ =>
    have hapart := there_apart hU h hx hy hin hkey
    have hsub : (liveEntries d.entries).map there ⊆ liveEntries d'.entries := by
      intro e he
      obtain ⟨e₀, he₀, rfl⟩ := List.mem_map.mp he
      exact hin e₀ he₀
    have hle := (List.subperm_of_subset (List.pairwise_map.mpr hapart) hsub).length_le
    rwa [List.length_map] at hle

/-- The entries of a dictionary within another are all the entries of the other. -/
theorem within_perm (hD : DictionariesApart fun a => U a ∧ a.depth < n + 1) {d d' : Dictionary}
    (hx : Version U (n + 1) (.dictionary d)) (hy : Version U (n + 1) (.dictionary d'))
    (hw : Within (.dictionary d) (.dictionary d')) :
    ∃ there : Entry Literal → Entry Literal, (∀ e ∈ liveEntries d.entries, there e ∈ liveEntries d'.entries) ∧
      (∀ e ∈ liveEntries d.entries, Within e.key (there e).key) ∧
      (∀ e ∈ liveEntries d.entries, Within e.value (there e).value) ∧
      (liveEntries d.entries).map there ~ liveEntries d'.entries := by
  have hlen : (liveEntries d'.entries).length ≤ (liveEntries d.entries).length := by
    obtain ⟨a, ha, hda, hsa⟩ := hx.origin
    obtain ⟨b, hb, hdb, hsb⟩ := hy.origin
    obtain ⟨da, rfl⟩ := kind_dictionary hsa.kind_eq
    obtain ⟨db, rfl⟩ := kind_dictionary hsb.kind_eq
    have h₁ := length_within hU h hy (version_deeper hU h hb hdb) (.of_same hsb.symm)
    have h₂ := hD da db ⟨ha, hda⟩ ⟨hb, hdb⟩ (hw.congr hsa.symm hsb.symm)
    have h₃ := length_within hU h (version_deeper hU h ha hda) hx (.of_same hsa)
    omega
  cases hw with
  | plain hk => exact absurd rfl hk
  | numbers ha => cases ha
  | dictionary there hin hkey hvalue =>
    exact ⟨there, hin, hkey, hvalue, matched_onto hin (there_apart hU h hx hy hin hkey) hlen⟩

theorem symm_deeper (hD : DictionariesApart fun a => U a ∧ a.depth < n + 1) {x y : Literal}
    (hx : Version U (n + 1) x) (hy : Version U (n + 1) y) (hxy : Within x y) : Within y x := by
  have hw := hxy
  cases hxy with
  | plain hk hshell hlen hparts =>
    refine .plain ?_ hshell.symm hlen.symm ?_
    · rw [← shell_kind, ← hshell, shell_kind]
      exact hk
    · intro i u v hu hv
      exact h.symm v u (hx.part hU.toUniverse (List.mem_of_getElem? hv)) (hy.part hU.toUniverse (List.mem_of_getElem? hu)) (hparts i v u hv hu)
  | numbers ha hb hne hf => exact .numbers hb ha hne.symm (float_symm hf)
  | strings heq => exact .strings (equalsRefString_symm heq)
  | identifiers hhash heq => exact .identifiers hhash.symm (equalsRefString_symm heq)
  | types ht ht' hlen => exact .types ht ht' hlen.symm
  | @dictionary d d' =>
    obtain ⟨there, hin, hkey, hvalue, hperm⟩ := within_perm hU h hD hx hy hw
    obtain ⟨back, hback⟩ := matched_back hperm
    have hmatched : ∀ x ∈ liveEntries d'.entries, Within x.key (back x).key ∧ Within x.value (back x).value := by
      intro x hx'
      obtain ⟨he, hex⟩ := hback x hx'
      have hk := hkey _ he
      have hv := hvalue _ he
      rw [hex] at hk hv
      obtain ⟨hxk, hxv⟩ := hx.entry hU.toUniverse he
      obtain ⟨hyk, hyv⟩ := hy.entry hU.toUniverse hx'
      exact ⟨(h.ofKeys hU.toUniverse).symm _ _ hxk hyk hk, h.symm _ _ hxv hyv hv⟩
    exact .dictionary back (fun x hx => (hback x hx).1) (fun x hx => (hmatched x hx).1) fun x hx => (hmatched x hx).2

end Deeper

section Hash

variable (hU : Tabled K K) (h : Decided K K n)

include hU h

theorem hash_array {as bs : List Literal} (hx : Version K (n + 1) (.array as)) (hy : Version K (n + 1) (.array bs))
    (hw : Within (.array as) (.array bs)) : hashLiteral (.array as) = hashLiteral (.array bs) := by
  have hmap : as.map hashLiteral = bs.map hashLiteral := by
    cases hw with
    | numbers ha => cases ha
    | plain _ _ hlen hparts =>
      have hlen : as.length = bs.length := hlen
      apply List.ext_getElem (by rw [List.length_map, List.length_map, hlen])
      intro i hi hi'
      rw [List.length_map] at hi hi'
      rw [List.getElem_map, List.getElem_map]
      exact h.hash _ _ (hx.part hU.toUniverse (List.getElem_mem hi)) (hy.part hU.toUniverse (List.getElem_mem hi'))
        (hparts i _ _ (List.getElem?_eq_getElem hi) (List.getElem?_eq_getElem hi'))
  rw [hash_elements, hash_elements, hmap]

theorem hash_dictionary (hD : DictionariesApart fun a => K a ∧ a.depth < n + 1) {d d' : Dictionary}
    (hx : Version K (n + 1) (.dictionary d)) (hy : Version K (n + 1) (.dictionary d'))
    (hw : Within (.dictionary d) (.dictionary d')) :
    hashLiteral (.dictionary d) = hashLiteral (.dictionary d') := by
  obtain ⟨there, hin, hkey, hvalue, hperm⟩ := within_perm hU h hD hx hy hw
  have hmap : (liveEntries d.entries).map entryHash = ((liveEntries d.entries).map there).map entryHash := by
    rw [List.map_map]
    apply List.map_congr_left
    intro e he
    obtain ⟨hxk, hxv⟩ := hx.entry hU.toUniverse he
    obtain ⟨hyk, hyv⟩ := hy.entry hU.toUniverse (hin e he)
    rw [Function.comp_apply, entryHash, entryHash, h.hash _ _ hxk hyk (hkey e he), h.hash _ _ hxv hyv (hvalue e he)]
  rw [hash_entries, hash_entries, hmap, hash_sum_perm (hperm.map entryHash)]

theorem hash_deeper (hD : DictionariesApart fun a => K a ∧ a.depth < n + 1) (hT : TextsAgree K) (hH : WordsAgree K)
    {x y : Literal} (hx : Version K (n + 1) x) (hy : Version K (n + 1) y) (hw : Within x y) :
    hashLiteral x = hashLiteral y := by
  have hcx := hx.comparable hU.toUniverse
  by_cases hk : x.kind = y.kind
  · rcases hcx.cases with hs | ⟨s, rfl⟩ | ⟨s, rfl⟩ | ⟨as, rfl⟩ | ⟨d, rfl⟩ | ⟨t, c, as, rfl⟩
    · rw [(within_word hs hk).mp hw]
    all_goals cases y <;> cases hk
    · rw [hashLiteral_eq, hashLiteral_eq, hashBody, hashBody]
      exact hT _ _ (hx.scalar (by simp [Literal.kind]) rfl) (hy.scalar (by simp [Literal.kind]) rfl)
        ((equal_string _ _).mpr hw)
    · rw [hashLiteral_eq, hashLiteral_eq, hashBody, hashBody]
      exact eq_of_beq (Bool.and_eq_true_iff.mp ((equal_identifier _ _).mpr hw)).1
    · exact hash_array hU h hx hy hw
    · exact hash_dictionary hU h hD hx hy hw
    · rw [hashLiteral_eq, hashLiteral_eq, hashBody, hashBody]
      cases hw with
      | plain _ hshell =>
        simp only [Literal.shell, Literal.type.injEq] at hshell
        rw [hshell.1]
      | numbers ha => cases ha
      | types => rfl
  · cases hw with
    | plain _ hshell =>
      rw [← shell_kind x, hshell, shell_kind] at hk
      exact absurd rfl hk
    | numbers ha hb hne hf =>
      rw [hash_integer ha, hash_integer hb, hH x y (hx.integer ha) (hy.integer hb) ha hb hne hf]
    | strings | identifiers | types | dictionary => exact absurd rfl hk

end Hash

theorem DictionariesApart.sub {V : Literal → Prop} (h : DictionariesApart U) (hV : ∀ a, V a → U a) :
    DictionariesApart V := fun d d' hd hd' => h d d' (hV _ hd) (hV _ hd')

theorem decided_zero : Decided U K 0 where
  equal_iff _ _ hx := absurd hx.depth (Nat.not_lt_zero _)
  symm _ _ hx := absurd hx.depth (Nat.not_lt_zero _)
  trans _ _ _ hx := absurd hx.depth (Nat.not_lt_zero _)
  hash _ _ hx := absurd hx.depth (Nat.not_lt_zero _)

theorem decided_deeper (hU : Tabled U K) (hN : IntegersApart U) (hT : TextsAgree K) (hH : WordsAgree K)
    (hD : DictionariesApart fun a => U a ∧ a.depth < n + 1) (h : Decided U K n) : Decided U K (n + 1) where
  equal_iff _ _ := equal_deeper hU h
  symm _ _ := symm_deeper hU h hD
  trans _ _ _ := trans_deeper hU h hN
  hash _ _ := hash_deeper hU.ofKeys (h.ofKeys hU.toUniverse) (hD.sub fun a ha => ⟨hU.keys a ha.1, ha.2⟩) hT hH

/-- On a universe of tables whose integers and dictionaries are apart, and whose keys hash
    as they read, equality decides `Within` at every depth. -/
theorem decided (hU : Tabled U K) (hN : IntegersApart U) (hD : DictionariesApart U) (hT : TextsAgree K)
    (hH : WordsAgree K) : ∀ n, Decided U K n
  | 0 => decided_zero
  | n + 1 => decided_deeper hU hN hT hH (hD.sub fun _ ha => ha.1) (decided hU hN hD hT hH n)

end Xvr.Runtime
