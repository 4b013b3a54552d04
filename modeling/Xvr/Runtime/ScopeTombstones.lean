/-
  Xvr.Runtime.ScopeTombstones — what the type check of a first value depends on.

  Against null, `checkType` walks every slot of a dictionary: an unused one as a null key
  and a null value, a tombstone as a null key and the boolean true. So its verdict is that
  on the live data (`fits`), unless the value type of some dictionary inside refuses the
  boolean and a tombstone is there (`refusesTombstone`).

  Proved: `checkType_null` (that verdict), `fits_same` (the live data alone decides `fits`),
  `Built.slots` (the slots of every dictionary built by calls), and `type_check_by_value`.
-/

import Xvr.Runtime.DeepCopy
import Xvr.Runtime.ScopeTypes

namespace Xvr.Runtime

open Heap Xvr.Lib.Chains

/-! ## The verdict -/

section Body

variable (constCheck : Bool) (sub : Nat → Literal → Bool)

/-- What the check asks of the data: null where a slot is unused, and every element, live
    key and value. -/
def partsFit (value : Literal) : Bool :=
  match value with
  | .array es => es.all (sub 0)
  | .dictionary d => sub 0 .null && sub 1 .null && (liveEntries d.entries).all fun e => sub 0 e.key && sub 1 e.value
  | _ => true

def fitsBody (typeOf : LiteralType) (constant : Bool) (value : Literal) : Bool :=
  if constCheck && constant && !value.isNull then false
  else if typeOf = .any then true
  else if typeOf = .null then false
  else if value.isNull then true
  else if kindMismatch typeOf value then false
  else
    match value with
    | .array _ => typeOf == .array && partsFit sub value
    | .dictionary _ => typeOf == .dictionary && partsFit sub value
    | _ => true

variable (refuses : Nat → Literal → Bool)

/-- A tombstone under a value type that refuses the boolean true, here or inside. -/
def refusesBody (typeOf : LiteralType) (value : Literal) : Bool :=
  if typeOf = .any then false
  else
    match value with
    | .array es => es.any (refuses 0)
    | .dictionary d => !sub 1 (.boolean true) && d.entries.any (fun e => !e.live && !e.unused) ||
        (liveEntries d.entries).any fun e => refuses 0 e.key || refuses 1 e.value
    | _ => false

end Body

mutual

/-- The live data fits the type. -/
def fits (constCheck : Bool) : Literal → Literal → Bool
  | .type typeOf constant subtypes, value => fitsBody constCheck (fitsAt constCheck subtypes) typeOf constant value
  | _, _ => false

def fitsAt (constCheck : Bool) : List Literal → Nat → Literal → Bool
  | [], _, _ => false
  | subtype :: _, 0, value => fits constCheck subtype value
  | _ :: subtypes, i + 1, value => fitsAt constCheck subtypes i value

end

mutual

def refusesTombstone (constCheck : Bool) : Literal → Literal → Bool
  | .type typeOf _ subtypes, value =>
    refusesBody (fitsAt constCheck subtypes) (refusesTombstoneAt constCheck subtypes) typeOf value
  | _, _ => false

def refusesTombstoneAt (constCheck : Bool) : List Literal → Nat → Literal → Bool
  | [], _, _ => false
  | subtype :: _, 0, value => refusesTombstone constCheck subtype value
  | _ :: subtypes, i + 1, value => refusesTombstoneAt constCheck subtypes i value

end

/-- What `remove` leaves. -/
def Entry.isTombstone : Entry Literal → Bool
  | ⟨.null, .boolean true⟩ => true
  | _ => false

/-- A dictionary with an unused slot, whose slots without a key are unused or tombstones. -/
def slotsBuilt : Literal → Bool
  | .dictionary d => d.entries.any Entry.unused && d.entries.all fun e => e.live || e.unused || e.isTombstone
  | _ => true

/-! ## The check against null -/

theorem isTombstone_iff {e : Entry Literal} : e.isTombstone = true ↔ e = Entry.tombstone := by
  obtain ⟨key, value⟩ := e
  constructor
  · intro h
    unfold Entry.isTombstone at h
    split at h
    · rename_i heq
      exact heq
    · cases h
  · intro h
    rw [h]
    rfl

theorem unused_iff {e : Entry Literal} : e.unused = true ↔ e = Entry.empty := by
  obtain ⟨key, value⟩ := e
  simp [Entry.unused, Entry.empty, Literal.isNull_iff]

theorem null_equal (value : Literal) : literalsAreEqual .null value = value.isNull := by
  cases hn : value.isNull with
  | true =>
    rw [Literal.isNull_iff.mp hn]
    decide
  | false => exact literalsAreEqual_rejected rfl hn

theorem checkEach_some {α : Type} {check : α → Option Bool} {c : α → Bool} :
    ∀ {l : List α}, (∀ x ∈ l, check x = some (c x)) → checkEach check l = some (l.all c)
  | [], _ => rfl
  | x :: l, h => by
    have hrest := checkEach_some fun y hy => h y (List.mem_cons_of_mem x hy)
    rw [checkEach, h x (List.mem_cons_self ..), Option.bind_eq_bind, Option.bind_some, List.all_cons, hrest]
    cases c x <;> rfl

section Null

variable {constCheck : Bool} {sub : Nat → Literal → Literal → Option Bool} {fit refuses : Nat → Literal → Bool} {n : Nat}

/-- What is known of the check against the first `n` subtypes. -/
structure SubtypesNull (sub : Nat → Literal → Literal → Option Bool) (fit refuses : Nat → Literal → Bool) (n : Nat) :
    Prop where
  verdict : ∀ i < n, ∀ value : Literal, value.everywhere slotsBuilt = true →
    sub i .null value = some (fit i value && !refuses i value)
  scalar : ∀ i, refuses i .null = false ∧ refuses i (.boolean true) = false

theorem checkEntry_null (h : SubtypesNull sub fit refuses n) (hn : 1 < n) {e : Entry Literal}
    (hk : e.key.everywhere slotsBuilt = true) (hv : e.value.everywhere slotsBuilt = true) :
    checkEntry sub Entry.empty e =
      some (fit 0 e.key && !refuses 0 e.key && (fit 1 e.value && !refuses 1 e.value)) := by
  rw [checkEntry, show Entry.empty.key = Literal.null from rfl, show Entry.empty.value = Literal.null from rfl,
    h.verdict 0 (by omega) _ hk, h.verdict 1 hn _ hv]
  cases fit 0 e.key && !refuses 0 e.key <;> rfl

/-- The walk over all slots, in terms of what is in them. -/
theorem walk_slots (h : SubtypesNull sub fit refuses n) {d : Dictionary} (hd : slotsBuilt (.dictionary d) = true) :
    (d.entries.all fun e => fit 0 e.key && !refuses 0 e.key && (fit 1 e.value && !refuses 1 e.value)) =
      (partsFit fit (.dictionary d) && !(!fit 1 (.boolean true) && d.entries.any (fun e => !e.live && !e.unused) ||
        (liveEntries d.entries).any fun e => refuses 0 e.key || refuses 1 e.value)) := by
  rw [slotsBuilt, Bool.and_eq_true, List.any_eq_true, List.all_eq_true] at hd
  obtain ⟨⟨empty, hempty, hunused⟩, hslots⟩ := hd
  have hs0 := (h.scalar 0).1
  have hs1 := h.scalar 1
  rw [Bool.eq_iff_iff, List.all_eq_true]
  simp only [partsFit, Bool.and_eq_true, Bool.not_eq_true', Bool.or_eq_false_iff, Bool.and_eq_false_iff,
    List.all_eq_true, List.any_eq_false, Bool.not_eq_false', Bool.or_eq_true, not_or, Bool.not_eq_true]
  constructor
  · intro hall
    have hnull := hall empty hempty
    rw [unused_iff.mp hunused] at hnull
    have hlive : ∀ e ∈ liveEntries d.entries, e ∈ d.entries := fun e he => List.mem_of_mem_filter he
    refine ⟨⟨⟨hnull.1.1, hnull.2.1⟩, fun e he => ⟨(hall e (hlive e he)).1.1, (hall e (hlive e he)).2.1⟩⟩, ?_,
      fun e he => ⟨(hall e (hlive e he)).1.2, (hall e (hlive e he)).2.2⟩⟩
    by_cases htrue : fit 1 (.boolean true) = true
    · exact .inl htrue
    · refine .inr fun e he => ?_
      have hslot := hslots e he
      simp only [Bool.or_eq_true] at hslot
      intro hdead
      rcases hslot with (hl | hu) | ht
      · simp [hl] at hdead
      · simp [hu] at hdead
      · have := hall e he
        rw [isTombstone_iff.mp ht] at this
        exact htrue this.2.1
  · rintro ⟨⟨⟨hk, hv⟩, hfit⟩, htomb, hrefuse⟩ e he
    have hslot := hslots e he
    simp only [Bool.or_eq_true] at hslot
    rcases hslot with (hl | hu) | ht
    · have hmem : e ∈ liveEntries d.entries := List.mem_filter.mpr ⟨he, hl⟩
      exact ⟨⟨(hfit e hmem).1, (hrefuse e hmem).1⟩, (hfit e hmem).2, (hrefuse e hmem).2⟩
    · rw [unused_iff.mp hu]
      exact ⟨⟨hk, hs0⟩, hv, hs1.1⟩
    · rw [isTombstone_iff.mp ht]
      refine ⟨⟨hk, hs0⟩, ?_, hs1.2⟩
      rcases htomb with htrue | hno
      · exact htrue
      · have := hno e he
        rw [isTombstone_iff.mp ht] at this
        exact absurd ⟨rfl, rfl⟩ this

/-- Every slot is checked: a live entry, or null, or the boolean a tombstone holds. -/
theorem slots_checked (h : SubtypesNull sub fit refuses n) (hn : 1 < n) {d : Dictionary}
    (hd : (Literal.dictionary d).everywhere slotsBuilt = true) :
    checkEach (checkEntry sub Entry.empty) d.entries = some (d.entries.all fun e =>
      fit 0 e.key && !refuses 0 e.key && (fit 1 e.value && !refuses 1 e.value)) := by
  refine checkEach_some fun e he => ?_
  have hslots := everywhere_self hd
  rw [slotsBuilt, Bool.and_eq_true, List.all_eq_true] at hslots
  have hslot := hslots.2 e he
  simp only [Bool.or_eq_true] at hslot
  rcases hslot with (hl | hu) | ht
  · obtain ⟨hk, hv⟩ := everywhere_entry hd (List.mem_filter.mpr ⟨he, hl⟩)
    exact checkEntry_null h hn hk hv
  · rw [unused_iff.mp hu]
    exact checkEntry_null h hn rfl rfl
  · rw [isTombstone_iff.mp ht]
    exact checkEntry_null h hn rfl rfl

theorem body_null (h : SubtypesNull sub fit refuses n) {typeOf : LiteralType} (ha : typeOf = .array → 0 < n)
    (hd : typeOf = .dictionary → 1 < n) (constant : Bool) {value : Literal} (hv : value.everywhere slotsBuilt = true) :
    checkBody sub typeOf constant .null value constCheck =
      some (fitsBody constCheck fit typeOf constant value && !refusesBody fit refuses typeOf value) := by
  unfold checkBody fitsBody refusesBody
  rw [null_equal]
  cases hconst : constCheck && constant && !value.isNull with
  | true => rfl
  | false =>
    simp only [Bool.false_eq_true, if_false]
    by_cases hany : typeOf = .any
    · simp only [if_pos hany]
      rfl
    by_cases hnull : typeOf = .null
    · simp only [if_neg hany, if_pos hnull, Bool.false_and]
    by_cases hvn : value.isNull = true
    · rw [Literal.isNull_iff.mp hvn]
      simp [hany, hnull]
    by_cases hkind : kindMismatch typeOf value = true
    · simp only [if_neg hany, if_neg hnull, if_neg hvn, if_pos hkind, Bool.false_and]
    simp only [if_neg hany, if_neg hnull, if_neg hvn, if_neg hkind]
    cases value with
    | array es =>
      by_cases hta : typeOf = .array
      · subst hta
        have hcheck : ∀ x ∈ es, sub 0 .null x = some (fit 0 x && !refuses 0 x) := fun x hx =>
          h.verdict 0 (ha rfl) x (everywhere_part hv hx)
        have hand : es.all (fun x => fit 0 x && !refuses 0 x) = (es.all (fit 0) && !es.any (refuses 0)) := by
          rw [Bool.eq_iff_iff]
          simp [forall_and]
        simp [checkEach_some hcheck, partsFit, hand]
      · simp [hta]
    | dictionary d =>
      by_cases htd : typeOf = .dictionary
      · subst htd
        simp [slots_checked h (hd rfl) hv, walk_slots h (everywhere_self hv)]
      · simp [htd]
    | _ => rfl

end Null

theorem refusesTombstoneAt_scalar (constCheck : Bool) {value : Literal}
    (hv : ∀ t : Literal, refusesTombstone constCheck t value = false) :
    ∀ (subtypes : List Literal) (i : Nat), refusesTombstoneAt constCheck subtypes i value = false
  | [], _ => by rw [refusesTombstoneAt]
  | t :: _, 0 => by rw [refusesTombstoneAt, hv]
  | _ :: ts, i + 1 => by rw [refusesTombstoneAt, refusesTombstoneAt_scalar constCheck hv ts i]

theorem refusesTombstone_null (constCheck : Bool) (t : Literal) : refusesTombstone constCheck t .null = false := by
  cases t <;> simp [refusesTombstone, refusesBody]

theorem refusesTombstone_true (constCheck : Bool) (t : Literal) :
    refusesTombstone constCheck t (.boolean true) = false := by
  cases t <;> simp [refusesTombstone, refusesBody]

mutual

theorem checkType_null (constCheck : Bool) (t value : Literal) (hw : wellFormedType t = true)
    (hv : value.everywhere slotsBuilt = true) :
    checkType constCheck t .null value = some (fits constCheck t value && !refusesTombstone constCheck t value) := by
  cases t with
  | type typeOf constant subtypes =>
    simp only [wellFormedType, Bool.and_eq_true, Bool.or_eq_true, bne_iff_ne, ne_eq, beq_iff_eq] at hw
    obtain ⟨⟨harray, hdict⟩, hsubtypes⟩ := hw
    rw [checkType, fits, refusesTombstone]
    have hsub : SubtypesNull (checkSubtype constCheck subtypes) (fitsAt constCheck subtypes)
        (refusesTombstoneAt constCheck subtypes) subtypes.length := by
      constructor
      · intro i hi v hv
        exact checkSubtype_null constCheck subtypes i v hsubtypes hi hv
      · intro i
        exact ⟨refusesTombstoneAt_scalar constCheck (refusesTombstone_null constCheck) subtypes i,
          refusesTombstoneAt_scalar constCheck (refusesTombstone_true constCheck) subtypes i⟩
    refine body_null hsub ?_ ?_ constant hv
    · intro ht
      have := harray.resolve_left (fun hc => hc ht)
      omega
    · intro ht
      have := hdict.resolve_left (fun hc => hc ht)
      omega
  | _ => simp [wellFormedType] at hw

theorem checkSubtype_null (constCheck : Bool) (subtypes : List Literal) (i : Nat) (value : Literal)
    (hw : wellFormedTypes subtypes = true) (hi : i < subtypes.length) (hv : value.everywhere slotsBuilt = true) :
    checkSubtype constCheck subtypes i .null value =
      some (fitsAt constCheck subtypes i value && !refusesTombstoneAt constCheck subtypes i value) := by
  cases subtypes with
  | nil => simp at hi
  | cons t ts =>
    simp only [wellFormedTypes, Bool.and_eq_true] at hw
    cases i with
    | zero =>
      rw [checkSubtype, fitsAt, refusesTombstoneAt]
      exact checkType_null constCheck t value hw.1 hv
    | succ i =>
      rw [checkSubtype, fitsAt, refusesTombstoneAt]
      exact checkSubtype_null constCheck ts i value hw.2 (by simpa using hi) hv

end

/-! ## The live data -/

section Live

variable {fit : Nat → Literal → Bool} {a b : Literal}

theorem partsFit_same (hfit : ∀ i x y, Same x y → fit i x = true → fit i y = true) (h : Same a b)
    (ha : partsFit fit a = true) : partsFit fit b = true := by
  cases h with
  | plain hk hshell hlen hparts =>
    cases a <;> cases b <;> first | rfl | simp [Literal.shell] at hshell
    · rename_i es es'
      rw [partsFit, List.all_eq_true] at ha ⊢
      intro y hy
      obtain ⟨i, hi, rfl⟩ := List.mem_iff_getElem.mp hy
      have hlen : es.length = es'.length := hlen
      have hlt : i < es.length := hlen ▸ hi
      exact hfit 0 _ _ (hparts i _ _ (List.getElem?_eq_getElem hlt) (List.getElem?_eq_getElem hi))
        (ha _ (List.getElem_mem hlt))
    · exact absurd rfl hk
  | dictionary there back hin hkey hvalue hin' hkey' hvalue' =>
    simp only [partsFit, Bool.and_eq_true, List.all_eq_true] at ha ⊢
    refine ⟨ha.1, fun e he => ?_⟩
    obtain ⟨hk, hv⟩ := ha.2 _ (hin' e he)
    exact ⟨hfit 0 _ _ (hkey' e he) hk, hfit 1 _ _ (hvalue' e he) hv⟩

theorem kindMismatch_kind (typeOf : LiteralType) (h : a.kind = b.kind) : kindMismatch typeOf a = kindMismatch typeOf b := by
  cases typeOf <;> simp [kindMismatch, Literal.isBoolean, Literal.isInteger, Literal.isFloat, Literal.isString,
    Literal.isArray, Literal.isDictionary, Literal.isFunction, Literal.isType, Literal.isOpaque, h]

theorem fitsBody_same {constCheck : Bool} (hfit : ∀ i x y, Same x y → fit i x = true → fit i y = true) (h : Same a b)
    {typeOf : LiteralType} {constant : Bool} (ha : fitsBody constCheck fit typeOf constant a = true) :
    fitsBody constCheck fit typeOf constant b = true := by
  have hkind := h.kind_eq
  have hnull : a.isNull = b.isNull := by rw [Literal.isNull, hkind, Literal.isNull]
  have hparts := partsFit_same hfit h
  unfold fitsBody at ha ⊢
  rw [hnull, kindMismatch_kind typeOf hkind] at ha
  split at ha
  · cases ha
  rename_i hconst
  rw [if_neg hconst]
  split at ha
  · rename_i hany
    rw [if_pos hany]
  rename_i hany
  rw [if_neg hany]
  split at ha
  · cases ha
  rename_i hno
  rw [if_neg hno]
  split at ha
  · rename_i hb
    rw [if_pos hb]
  rename_i hb
  rw [if_neg hb]
  split at ha
  · cases ha
  rename_i hmismatch
  rw [if_neg hmismatch]
  cases a <;> cases b <;> first | rfl | cases hkind
  · simp only [Bool.and_eq_true] at ha ⊢
    exact ⟨ha.1, hparts ha.2⟩
  · simp only [Bool.and_eq_true] at ha ⊢
    exact ⟨ha.1, hparts ha.2⟩

end Live

mutual

theorem fits_of_same {constCheck : Bool} {t a b : Literal} (h : Same a b) (ha : fits constCheck t a = true) :
    fits constCheck t b = true := by
  cases t with
  | type typeOf constant subtypes =>
    rw [fits] at ha ⊢
    exact @fitsBody_same (fitsAt constCheck subtypes) a b _ (fun i x y hxy hx => fitsAt_of_same hxy hx) h _ _ ha
  | _ => simp [fits] at ha

theorem fitsAt_of_same {constCheck : Bool} {subtypes : List Literal} {i : Nat} {a b : Literal} (h : Same a b)
    (ha : fitsAt constCheck subtypes i a = true) : fitsAt constCheck subtypes i b = true := by
  cases subtypes with
  | nil => simp [fitsAt] at ha
  | cons t ts =>
    cases i with
    | zero =>
      rw [fitsAt] at ha ⊢
      exact fits_of_same h ha
    | succ i =>
      rw [fitsAt] at ha ⊢
      exact fitsAt_of_same h ha

end

/-- The verdict on the data is the same for the same data. -/
theorem fits_same {constCheck : Bool} {t a b : Literal} (h : Same a b) : fits constCheck t a = fits constCheck t b := by
  rw [Bool.eq_iff_iff]
  exact ⟨fits_of_same h, fits_of_same h.symm⟩

/-! ## The slots of a dictionary built by calls -/

theorem slotsBuilt_plain {a : Literal} (hk : a.kind ≠ .dictionary) : slotsBuilt a = true := by
  cases a <;> first | rfl | exact absurd rfl hk

/-- The slots and what is in them, however the dictionary came about. -/
structure Accounted (d : Dictionary) : Prop where
  room : Room d.entries d.contains
  slots : ∀ e ∈ d.entries, e.live = true ∨ e.unused = true ∨ e.isTombstone = true
  inside : ∀ e ∈ liveEntries d.entries, e.key.everywhere slotsBuilt = true ∧ e.value.everywhere slotsBuilt = true

theorem Accounted.everywhere {d : Dictionary} (h : Accounted d) : (Literal.dictionary d).everywhere slotsBuilt = true := by
  refine everywhere_dictionary ?_ h.inside
  rw [slotsBuilt, Bool.and_eq_true, List.any_eq_true, List.all_eq_true]
  constructor
  · obtain ⟨i, hi, hu⟩ := exists_unused h.room.free
    rw [entryAt_eq hi] at hu
    exact ⟨_, List.getElem_mem hi, hu⟩
  · intro e he
    rcases h.slots e he with hl | hu | ht <;> simp [*]

theorem accounted_init : Accounted initLiteralDictionary where
  room := (init_inv (F := realFns)).toRoom
  slots e he := by
    rw [List.eq_of_mem_replicate he]
    exact .inr (.inl rfl)
  inside e he := by
    rw [initLiteralDictionary, liveEntries_replicate] at he
    cases he

/-- With as many slots in use as live entries, the others are unused. -/
theorem slots_of_used {array : List (Entry Literal)} (h : usedSlots array = (liveEntries array).length) :
    ∀ e ∈ array, e.live = true ∨ e.unused = true := by
  have hsplit := List.countP_eq_countP_filter_add array (fun e : Entry Literal => !e.unused) Entry.live
  have hlive : (liveEntries array).countP (fun e => !e.unused) = (liveEntries array).length :=
    List.countP_eq_length.mpr fun e he => by simp [live_unused (List.mem_filter.mp he).2]
  rw [usedSlots] at h
  rw [h, show array.filter Entry.live = liveEntries array from rfl, hlive, Nat.left_eq_add,
    List.countP_eq_zero] at hsplit
  intro e he
  cases hl : e.live with
  | true => exact .inl rfl
  | false =>
    have := hsplit e (List.mem_filter.mpr ⟨he, by simp [hl]⟩)
    exact .inr (by simpa using this)

/-- A growth drops the tombstones. -/
theorem grow_slots {array array' : List (Entry Literal)} {contains : Nat} (h : Room array contains)
    (hslots : ∀ e ∈ array, e.live = true ∨ e.unused = true ∨ e.isTombstone = true)
    (hg : growEntries realFns array contains = some array') :
    ∀ e ∈ array', e.live = true ∨ e.unused = true ∨ e.isTombstone = true := by
  rw [growEntries] at hg
  split at hg
  · have hlive := liveEntries_length_le array
    have hroom := h.free
    have hgrow : (liveEntries array).length ≤ growCapacity array.length := by
      rw [growCapacity]
      split <;> omega
    obtain ⟨array₁, ha, _, _, hu, hp⟩ := adjustEntryCapacity_spec lawful_realFns array _ hgrow
    rw [ha, Option.some.injEq] at hg
    subst hg
    intro e he
    exact (slots_of_used (hu.trans hp.length_eq.symm) e he).imp_right .inl
  · rw [Option.some.injEq] at hg
    exact hg ▸ hslots

theorem slots_set {array : List (Entry Literal)} (hslots : ∀ e ∈ array, e.live = true ∨ e.unused = true ∨ e.isTombstone = true)
    {i : Nat} {entry : Entry Literal} (hentry : entry.live = true ∨ entry.unused = true ∨ entry.isTombstone = true) :
    ∀ e ∈ array.set i entry, e.live = true ∨ e.unused = true ∨ e.isTombstone = true := by
  intro e he
  rcases List.mem_or_eq_of_mem_set he with he | rfl
  · exact hslots e he
  · exact hentry

theorem Accounted.set {d : Dictionary} (h : Accounted d) {key value : Literal}
    (hk : (copyLiteral key).everywhere slotsBuilt = true) (hv : (copyLiteral value).everywhere slotsBuilt = true) :
    ∃ d', setLiteralDictionary realFns d key value = some d' ∧ Accounted d' := by
  by_cases hr : rejectedKey key = true
  · exact ⟨d, by simp [setLiteralDictionary, hr], h⟩
  have hr : rejectedKey key = false := by simpa using hr
  obtain ⟨array, i, hg, hroom, hload, hp, _, hi, hset⟩ := set_room lawful_realFns h.room value hr
  obtain ⟨_, hchain⟩ := getEntryArray_some hi
  have hlive : (setEntryValues realFns key value).live = true := setEntryValues_live lawful_realFns hr value
  refine ⟨_, hset, room_set hroom hload hchain.lt hlive, slots_set (grow_slots h.room h.slots hg) (.inl hlive), ?_⟩
  intro e he
  rcases List.mem_or_eq_of_mem_set (List.mem_of_mem_filter he) with hold | rfl
  · exact h.inside e (hp.subset (List.mem_filter.mpr ⟨hold, (List.mem_filter.mp he).2⟩))
  · exact ⟨hk, hv⟩

theorem Accounted.remove {d : Dictionary} (h : Accounted d) (key : Literal) :
    Accounted (removeLiteralDictionary realFns d key) := by
  rw [removeLiteralDictionary]
  split
  · exact h
  split
  · rename_i i hi
    refine ⟨remove_room h.room hi, slots_set h.slots (.inr (.inr rfl)), ?_⟩
    intro e he
    obtain ⟨hmem, hlive⟩ := List.mem_filter.mp he
    rcases List.mem_or_eq_of_mem_set hmem with hold | rfl
    · exact h.inside e (List.mem_filter.mpr ⟨hold, hlive⟩)
    · cases hlive
  · exact h

theorem Accounted.setEntries : ∀ {entries : List (Entry Literal)} {d : Dictionary}, Accounted d →
    (∀ e ∈ entries, (copyLiteral e.key).everywhere slotsBuilt = true ∧
      (copyLiteral e.value).everywhere slotsBuilt = true) → Accounted (setEntries d entries)
  | [], _, h, _ => h
  | e :: entries, d, h, hin => by
    obtain ⟨hk, hv⟩ := hin e (List.mem_cons_self ..)
    obtain ⟨d', hset, h'⟩ := h.set hk hv
    rw [Runtime.setEntries, List.foldl_cons, hset]
    exact h'.setEntries fun x hx => hin x (List.mem_cons_of_mem e hx)

/-- A copy is built anew, at every depth. -/
theorem copy_slots {a : Literal} (h : a.everywhere slotsBuilt = true) : (copyLiteral a).everywhere slotsBuilt = true := by
  induction hn : a.depth using Nat.strong_induction_on generalizing a with
  | _ n ih =>
    subst hn
    by_cases hk : a.kind = .dictionary
    · obtain ⟨d, rfl⟩ := kind_dictionary hk
      have hin : ∀ e ∈ liveEntries d.entries,
          (copyLiteral e.key).everywhere slotsBuilt = true ∧ (copyLiteral e.value).everywhere slotsBuilt = true := by
        intro e he
        obtain ⟨hkey, hvalue⟩ := everywhere_entry h he
        exact ⟨ih _ (entry_depth he).1 hkey rfl, ih _ (entry_depth he).2 hvalue rfl⟩
      rw [copyLiteral_eq, copyBody, copyDictionary_loop]
      exact (accounted_init.setEntries hin).everywhere
    · have hk' : (copyLiteral a).kind ≠ .dictionary := by rwa [copyLiteral_kind]
      refine everywhere_plain hk' (slotsBuilt_plain hk') ?_
      have honce : ∀ x ∈ a.parts, (copyLiteral x).everywhere slotsBuilt = true := fun x hx =>
        ih _ (parts_depth hx) (everywhere_part h hx) rfl
      rw [copyLiteral_eq]
      intro y hy
      rcases parts_copy realFns a with hp | hp
      · rw [hp] at hy
        obtain ⟨x, hx, rfl⟩ := List.mem_map.mp hy
        exact honce x hx
      · rw [hp] at hy
        obtain ⟨x, hx, rfl⟩ := List.mem_map.mp hy
        exact ih _ (Nat.lt_of_le_of_lt (copyLiteral_depth x) (parts_depth hx)) (honce x hx) rfl

/-- The literals a call is given. -/
def Op.literals : Op Literal → List Literal
  | .set key value => [key, value]
  | .get key | .remove key | .has key => [key]

/-- Put together by calls on dictionaries, whatever the keys and whatever their order. -/
inductive Built : Literal → Prop
  | plain {a : Literal} : a.kind ≠ .dictionary → (∀ x ∈ a.parts, Built x) → Built a
  | dictionary {ops : List (Op Literal)} {d : Dictionary} {outs : List Out} :
      (∀ op ∈ ops, ∀ x ∈ op.literals, Built x) → run realFns initLiteralDictionary ops = some (d, outs) →
      Built (.dictionary d)

theorem Accounted.step {d d' : Dictionary} (h : Accounted d) {op : Op Literal} {out : Out}
    (hop : ∀ x ∈ op.literals, x.everywhere slotsBuilt = true) (hstep : step realFns d op = some (d', out)) :
    Accounted d' := by
  cases op with
  | set key value =>
    obtain ⟨d₁, hset, h₁⟩ := h.set (copy_slots (hop key (by simp [Op.literals])))
      (copy_slots (hop value (by simp [Op.literals])))
    rw [Runtime.step, hset] at hstep
    cases hstep
    exact h₁
  | get key =>
    cases hstep
    exact h
  | remove key =>
    cases hstep
    exact h.remove key
  | has key =>
    obtain ⟨b, _, hb⟩ := Option.bind_eq_some_iff.mp hstep
    cases hb
    exact h

theorem Accounted.run {ops : List (Op Literal)} : ∀ {d d' : Dictionary} {outs : List Out}, Accounted d →
    (∀ op ∈ ops, ∀ x ∈ op.literals, x.everywhere slotsBuilt = true) → run realFns d ops = some (d', outs) →
    Accounted d' := by
  induction ops with
  | nil =>
    intro d d' outs h _ hrun
    cases hrun
    exact h
  | cons op ops ih =>
    intro d d' outs h hops hrun
    rw [Runtime.run] at hrun
    obtain ⟨⟨d₁, out⟩, hstep, hrest⟩ := Option.bind_eq_some_iff.mp hrun
    dsimp only at hrest
    obtain ⟨⟨d₂, outs₂⟩, hops', heq⟩ := Option.bind_eq_some_iff.mp hrest
    cases heq
    exact ih (h.step (hops op (List.mem_cons_self ..)) hstep) (fun o ho => hops o (List.mem_cons_of_mem op ho)) hops'

/-- Whatever was set and removed, each slot holds an entry, nothing, or a tombstone. -/
theorem Built.slots {a : Literal} (h : Built a) : a.everywhere slotsBuilt = true := by
  induction h with
  | plain hk _ ih => exact everywhere_plain hk (slotsBuilt_plain hk) ih
  | dictionary _ hrun ih => exact (accounted_init.run ih hrun).everywhere

/-! ## Runs -/

variable {S : Literal → Prop}

theorem reach_related (hS : VariableKeys S) {w : World} (h : Reach (fun w call => call.Proper S w ∧ call.WellFormed) w) :
    ∃ f, Related S w f := by
  induction h with
  | init => exact ⟨Frames.init, Related.init⟩
  | @step w w' answer call _ hcall hstep ih =>
    obtain ⟨f, hr⟩ := ih
    have hlock := step_related hS hr (proper_frames hr hcall.1 hcall.2)
    rw [hstep] at hlock
    cases hf : f.step call with
    | none => rw [hf] at hlock; exact hlock.elim
    | some r => rw [hf] at hlock; exact ⟨r.1, hlock.2⟩

theorem innermost_bound {f : Frames} (ho : Older f.around) {p : Nat} {name : Literal} {b : Binding}
    (h : f.binding p name = some b) : f.innermost (some p) name = some p := by
  rw [Frames.innermost, Frames.enclosing, Option.elim_some, chain_eq ho, List.find?_cons, h]
  rfl

/-- The answer of setting a variable that has just been declared. -/
theorem declared_set (hS : VariableKeys S) {w w' : World} {f : Frames} (hr : Related S w f) {p : Nat}
    (hp : p ∈ w.unpopped) {name type : Literal} (hn : S name) (hw : wellFormedType type = true)
    (hd : w.step (.declare p name type) = some (w', .flag true)) {value : Literal}
    (hv : value.everywhere slotsBuilt = true) (constCheck : Bool) :
    ∃ w'', w'.step (.set (some p) name value constCheck) =
      some (w'', .flag (fits constCheck type value && !refusesTombstone constCheck type value)) := by
  have hpf : p ∈ f.unpopped := hr.unpopped ▸ hp
  have hlock := declare_related hS hr hpf hn fun _ => hw
  rw [hd, Frames.step] at hlock
  by_cases hnew : ((f.binding p name).isSome || !type.isType) = true
  · rw [if_pos hnew] at hlock
    cases hlock.1
  rw [if_neg hnew] at hlock
  obtain ⟨_, hr'⟩ := hlock
  -- the frame declared in is the innermost one, and binds the name to null
  have hlt : p < f.frames.length := hr.length ▸ hr.sound.inside p hp
  have hbind : (f.rebind p name ⟨type, .null⟩).binding p name = some ⟨type, .null⟩ := by
    rw [Frames.binding_rebind hlt, if_pos ⟨rfl, hS.toKeyEquiv.refl hn⟩]
  have hinner := innermost_bound (hr'.around ▸ hr'.sound.older) hbind
  have hlookup : (f.rebind p name ⟨type, .null⟩).lookup (some p) name = some ⟨type, .null⟩ := by
    rw [Frames.lookup, hinner, Option.bind_some, hbind]
  have hunpopped : ∀ q ∈ some p, q ∈ (f.rebind p name ⟨type, .null⟩).unpopped := by
    rintro q ⟨⟩
    exact hpf
  have hset := set_related hS hr' hunpopped hn value constCheck
  simp only [Frames.step, hinner, hlookup] at hset
  rw [show copyLiteral .null = Literal.null from rfl, checkType_null constCheck type value hw hv] at hset
  generalize (fits constCheck type value && !refusesTombstone constCheck type value) = verdict at hset ⊢
  cases hstep : w'.step (.set (some p) name value constCheck) with
  | none =>
    rw [hstep] at hset
    cases verdict <;> exact hset.elim
  | some r =>
    rw [hstep] at hset
    cases verdict <;> exact ⟨r.1, by rw [← hset.1]⟩

/-- Two dictionaries with the same data, set on a variable just declared: both sets answer,
    and they answer alike when the declared types refuse a tombstone in both or in neither,
    or the data does not fit anyway; and only then. -/
theorem type_check_by_value (S : Literal → Prop) (hS : VariableKeys S) (w w' : World)
    (h : Reach (fun w call => call.Proper S w ∧ call.WellFormed) w) (p : Nat) (hp : p ∈ w.unpopped) (name : Literal)
    (hn : S name) (type : Literal) (hw : wellFormedType type = true)
    (hd : w.step (.declare p name type) = some (w', .flag true)) (a b : Dictionary) (ha : Built (.dictionary a))
    (hb : Built (.dictionary b)) (hab : Same (.dictionary a) (.dictionary b)) (constCheck : Bool) :
    ∃ wa x wb y, w'.step (.set (some p) name (.dictionary a) constCheck) = some (wa, .flag x) ∧
      w'.step (.set (some p) name (.dictionary b) constCheck) = some (wb, .flag y) ∧
      (x = y ↔ (fits constCheck type (.dictionary a) = true →
        refusesTombstone constCheck type (.dictionary a) = refusesTombstone constCheck type (.dictionary b))) := by
  obtain ⟨f, hr⟩ := reach_related hS h
  obtain ⟨wa, hsa⟩ := declared_set hS hr hp hn hw hd ha.slots constCheck
  obtain ⟨wb, hsb⟩ := declared_set hS hr hp hn hw hd hb.slots constCheck
  refine ⟨wa, _, wb, _, hsa, hsb, ?_⟩
  rw [← fits_same hab]
  cases fits constCheck type (.dictionary a) with
  | false => simp
  | true => cases refusesTombstone constCheck type (.dictionary a) <;>
      cases refusesTombstone constCheck type (.dictionary b) <;> simp

/-! ## A tombstone that is refused -/

def stringTo (value : LiteralType) : Literal := .type .dictionary false [.type .string false [], .type value false []]

/-- `x` declared in the outermost scope. -/
def declaredX (type : Literal) : World :=
  (((World.init.step (.push none)).bind fun r => r.1.step (.declare 0 (.identifier ['x']) type)).map
    Prod.fst).getD World.init

def setOnce : Dictionary := dictionaryOf [.set (.string ['a']) (.integer 1)]

def setRemoved : Dictionary :=
  dictionaryOf [.set (.string ['b']) (.integer 2), .set (.string ['a']) (.integer 1), .remove (.string ['b'])]

theorem built_scalars (ops : List (Op Literal)) {d : Dictionary} {outs : List Out}
    (hrun : run realFns initLiteralDictionary ops = some (d, outs))
    (h : ∀ op ∈ ops, ∀ x ∈ op.literals, x.kind ≠ .dictionary ∧ x.parts = []) : Built (.dictionary d) := by
  refine .dictionary (fun op hop x hx => ?_) hrun
  obtain ⟨hk, hparts⟩ := h op hop x hx
  refine .plain hk fun y hy => ?_
  rw [hparts] at hy
  cases hy

theorem same_of_live {d d' : Dictionary} (h : liveEntries d.entries = liveEntries d'.entries) :
    Same (.dictionary d) (.dictionary d') :=
  .dictionary id id (fun _ he => h ▸ he) (fun e _ => Same.refl e.key) (fun e _ => Same.refl e.value)
    (fun _ he => h ▸ he) (fun e _ => Same.refl e.key) (fun e _ => Same.refl e.value)

theorem built_setOnce : Built (.dictionary setOnce) :=
  built_scalars [.set (.string ['a']) (.integer 1)] rfl (by simp [Op.literals, Literal.kind, Literal.parts])

theorem built_setRemoved : Built (.dictionary setRemoved) :=
  built_scalars [.set (.string ['b']) (.integer 2), .set (.string ['a']) (.integer 1), .remove (.string ['b'])]
    rfl (by simp [Op.literals, Literal.kind, Literal.parts])

/-- Any value may stand under the type. -/
theorem type_check_by_value_any : ∃ wa wb x,
    (declaredX (stringTo .any)).step (.set (some 0) (.identifier ['x']) (.dictionary setOnce) true) =
        some (wa, .flag x) ∧
      (declaredX (stringTo .any)).step (.set (some 0) (.identifier ['x']) (.dictionary setRemoved) true) =
        some (wb, .flag x) := by
  have h₀ : Reach (fun w call => call.Proper IdentifierKey w ∧ call.WellFormed) World.init := .init
  have h₁ := h₀.step (.push none) ⟨Call.proper_of (by decide) rfl, by rintro _ _ _ ⟨⟩⟩ rfl
  obtain ⟨wa, x, wb, y, hx, hy, hiff⟩ := type_check_by_value IdentifierKey identifier_variableKeys _
    (declaredX (stringTo .any)) h₁ 0 (by decide) (.identifier ['x']) identifierKey_x (stringTo .any) rfl rfl setOnce
    setRemoved built_setOnce built_setRemoved (same_of_live rfl) true
  obtain rfl : x = y := hiff.mpr fun _ => rfl
  exact ⟨wa, wb, x, hx, hy⟩

/-- What a removed key left is a boolean, and no integer. -/
theorem removed_key_refused :
    ¬ ∀ (S : Literal → Prop), VariableKeys S → ∀ w w' : World,
      Reach (fun w call => call.Proper S w ∧ call.WellFormed) w → ∀ p ∈ w.unpopped, ∀ name : Literal, S name →
      ∀ type : Literal, wellFormedType type = true → w.step (.declare p name type) = some (w', .flag true) →
      ∀ a b : Dictionary, Built (.dictionary a) → Built (.dictionary b) → Same (.dictionary a) (.dictionary b) →
      ∀ constCheck : Bool, ∃ wa wb x, w'.step (.set (some p) name (.dictionary a) constCheck) = some (wa, .flag x) ∧
        w'.step (.set (some p) name (.dictionary b) constCheck) = some (wb, .flag x) := by
  intro h
  have h₀ : Reach (fun w call => call.Proper IdentifierKey w ∧ call.WellFormed) World.init := .init
  have h₁ := h₀.step (.push none) ⟨Call.proper_of (by decide) rfl, by rintro _ _ _ ⟨⟩⟩ rfl
  obtain ⟨wa, wb, x, hx, hy⟩ := h IdentifierKey identifier_variableKeys _ (declaredX (stringTo .integer)) h₁ 0
    (by decide) (.identifier ['x']) identifierKey_x (stringTo .integer) rfl rfl setOnce setRemoved built_setOnce
    built_setRemoved (same_of_live rfl) true
  have hset : ((declaredX (stringTo .integer)).step (.set (some 0) (.identifier ['x']) (.dictionary setOnce) true)).map Prod.snd =
      some (.flag true) := rfl
  have hrefused :
      ((declaredX (stringTo .integer)).step (.set (some 0) (.identifier ['x']) (.dictionary setRemoved) true)).map Prod.snd =
      some (.flag false) := rfl
  rw [hx] at hset
  rw [hy] at hrefused
  cases hset
  cases hrefused

end Xvr.Runtime
