/-
  Xvr.Runtime.ScopeTypes — variables and their declared types.

  `conforms` is what a declared type promises: null is of every type but null; any other
  value has the declared kind (any kind for `any`), and so have its elements, keys and
  values for the subtypes. `checkType` does not look everywhere: not at the kind under a
  type it has no test for (the fixed widths) or whose test is wider than the type
  (`XVR_IS_INTEGER`, `XVR_IS_FLOAT`), not at elements beyond the stored array's count and
  not at entries whose key the stored dictionary lacks. `unlooked` is that what stands
  there conforms.

  Proved: `checkType_conforms` (an accepted value conforms exactly when what the check did
  not look at does), `checkType_defined` (beside a stored value that conforms the check
  reads nothing it may not), and over runs `scopes_typed`.
-/

import Xvr.Runtime.ScopeFrames

namespace Xvr.Runtime

open Heap

/-! ## Conformance -/

/-- Every element of an array, and every key and value held in a dictionary. -/
def partsConform (sub : Nat → Literal → Bool) : Literal → Bool
  | .array es => es.all (sub 0)
  | .dictionary d => d.entries.all fun e => !e.live || sub 0 e.key && sub 1 e.value
  | _ => true

def conformsBody (sub : Nat → Literal → Bool) (typeOf : LiteralType) (value : Literal) : Bool :=
  typeOf != .null && (value.isNull || typeOf == .any || value.kind == typeOf && partsConform sub value)

mutual

def conforms : Literal → Literal → Bool
  | .type typeOf _ subtypes, value => conformsBody (conformsAt subtypes) typeOf value
  | _, _ => false

/-- Conformance to the subtype with the given index. -/
def conformsAt : List Literal → Nat → Literal → Bool
  | [], _, _ => false
  | subtype :: _, 0, value => conforms subtype value
  | _ :: subtypes, i + 1, value => conformsAt subtypes i value

end

/-! ## What the check does not look at -/

section Body

variable (sub : Nat → Literal → Literal → Bool) (conform : Nat → Literal → Bool)

def unlookedElements : List Literal → List Literal → Bool
  | _, [] => true
  | [], value :: values => (value :: values).all (conform 0)
  | original :: originals, value :: values => sub 0 original value && unlookedElements originals values

def unlookedEntry (original value : Entry Literal) : Bool :=
  !value.live || sub 0 original.key value.key && sub 1 original.value value.value

def unlookedReplaced (original : Dictionary) (entry : Entry Literal) : Bool :=
  match original.entries.find? fun e => literalsAreEqual e.key entry.key with
  | none => !entry.live || conform 0 entry.key && conform 1 entry.value
  | some found => unlookedEntry sub found entry

def unlookedBody (typeOf : LiteralType) (original value : Literal) : Bool :=
  if typeOf = .any ∨ value.isNull = true then true
  else
    match value with
    | .array elements =>
      match original.asArray with
      | some originals => unlookedElements sub conform originals elements
      | none => elements.all (sub 0 .null)
    | .dictionary held =>
      match original.asDictionary with
      | some replaced => held.entries.all (unlookedReplaced sub conform replaced)
      | none => held.entries.all (unlookedEntry sub Entry.empty)
    | _ => kindMismatch typeOf value || value.kind == typeOf

end Body

mutual

/-- Whatever `checkType` does not look at conforms. -/
def unlooked : Literal → Literal → Literal → Bool
  | .type typeOf _ subtypes, original, value =>
    unlookedBody (unlookedAt subtypes) (conformsAt subtypes) typeOf original value
  | _, _, _ => true

def unlookedAt : List Literal → Nat → Literal → Literal → Bool
  | [], _, _, _ => true
  | subtype :: _, 0, original, value => unlooked subtype original value
  | _ :: subtypes, i + 1, original, value => unlookedAt subtypes i original value

end

/-! ## An accepted value -/

section Sound

variable {sub : Nat → Literal → Literal → Option Bool} {gap : Nat → Literal → Literal → Bool}
  {conform : Nat → Literal → Bool}

/-- What is known of the subtypes. -/
def SubtypesConform (sub : Nat → Literal → Literal → Option Bool) (gap : Nat → Literal → Literal → Bool)
    (conform : Nat → Literal → Bool) : Prop :=
  ∀ i original value, sub i original value = some true → (conform i value = true ↔ gap i original value = true)

theorem checkEach_true {α : Type} {check : α → Option Bool} :
    ∀ {l : List α}, checkEach check l = some true ↔ ∀ x ∈ l, check x = some true
  | [] => by simp [checkEach]
  | x :: l => by
    rw [checkEach, List.forall_mem_cons, ← checkEach_true (l := l)]
    cases hx : check x with
    | none => simp
    | some b => cases b <;> simp

theorem elements_conform (hsub : SubtypesConform sub gap conform) :
    ∀ {originals values : List Literal}, checkElements sub originals values = some true →
      (values.all (conform 0) = true ↔ unlookedElements gap conform originals values = true)
  | _, [], _ => by simp [unlookedElements]
  | [], _ :: _, _ => by simp [unlookedElements]
  | original :: originals, value :: values, h => by
    rw [checkElements] at h
    cases hc : sub 0 original value with
    | none => simp [hc] at h
    | some b =>
      cases b with
      | false => simp [hc] at h
      | true =>
        simp only [hc, Option.bind_eq_bind, Option.bind_some, if_true] at h
        rw [unlookedElements, List.all_cons, Bool.and_eq_true, Bool.and_eq_true, hsub _ _ _ hc,
          elements_conform hsub h]

theorem entry_conform (hsub : SubtypesConform sub gap conform) {original value : Entry Literal}
    (h : checkEntry sub original value = some true) :
    (!value.live || conform 0 value.key && conform 1 value.value) = true ↔ unlookedEntry gap original value = true := by
  rw [checkEntry] at h
  cases hk : sub 0 original.key value.key with
  | none => simp [hk] at h
  | some b =>
    cases b with
    | false => simp [hk] at h
    | true =>
      simp only [hk, Option.bind_eq_bind, Option.bind_some, if_true] at h
      rw [unlookedEntry]
      simp only [Bool.or_eq_true, Bool.and_eq_true, hsub _ _ _ hk, hsub _ _ _ h]

theorem replaced_conform (hsub : SubtypesConform sub gap conform) {original : Dictionary} {entry : Entry Literal}
    (h : checkReplaced sub original entry = some true) :
    (!entry.live || conform 0 entry.key && conform 1 entry.value) = true ↔
      unlookedReplaced gap conform original entry = true := by
  rw [checkReplaced] at h
  rw [unlookedReplaced]
  cases hn : entry.key.isNull with
  | true =>
    have hdead : entry.live = false := by simp [Entry.live, hn]
    simp only [unlookedEntry, hdead, Bool.not_false, Bool.true_or]
    split <;> simp
  | false =>
    simp only [hn, Bool.false_eq_true, if_false] at h
    cases hf : original.entries.find? fun e => literalsAreEqual e.key entry.key with
    | none => simp
    | some found =>
      simp only [hf] at h
      exact entry_conform hsub h

theorem all_congr {α : Type} {p q : α → Bool} {l : List α} (h : ∀ x ∈ l, p x = true ↔ q x = true) :
    l.all p = true ↔ l.all q = true := by
  rw [List.all_eq_true, List.all_eq_true]
  exact forall₂_congr h

theorem body_conform (hsub : SubtypesConform sub gap conform) {typeOf : LiteralType} {constant constCheck : Bool}
    {original value : Literal} (h : checkBody sub typeOf constant original value constCheck = some true) :
    conformsBody conform typeOf value = true ↔ unlookedBody gap conform typeOf original value = true := by
  unfold checkBody at h
  split at h
  · cases h
  split at h
  · rename_i hany
    simp [conformsBody, unlookedBody, hany]
  rename_i hany
  split at h
  · cases h
  rename_i hnull
  split at h
  · rename_i hv
    simp [conformsBody, unlookedBody, hv, hnull]
  rename_i hv
  split at h
  · cases h
  rename_i hkind
  have hv' : value.isNull = false := by simpa using hv
  have hkind' : kindMismatch typeOf value = false := by simpa using hkind
  unfold conformsBody unlookedBody
  rw [if_neg (by simp [hany, hv'])]
  simp only [hv', Bool.false_or, bne_iff_ne, ne_eq, hnull, not_false_eq_true, Bool.and_eq_true, true_and,
    beq_iff_eq, Bool.or_eq_true, hany, false_or]
  cases value with
  | array elements =>
    dsimp only at h
    split at h
    · cases h
    rename_i harray
    have harray : typeOf = .array := by simpa using harray
    split at h
    · rename_i ho
      have ho : original = .null := Literal.isNull_iff.mp ho
      subst ho
      simp only [Literal.kind, harray, true_and, partsConform, Literal.asArray]
      exact all_congr fun x hx => hsub _ _ _ (checkEach_true.mp h x hx)
    · cases ha : original.asArray with
      | none => simp [ha] at h
      | some originals =>
        simp only [ha, Option.bind_eq_bind, Option.bind_some] at h
        simp only [Literal.kind, harray, true_and, partsConform]
        exact elements_conform hsub h
  | dictionary held =>
    dsimp only at h
    split at h
    · cases h
    rename_i hdict
    have hdict : typeOf = .dictionary := by simpa using hdict
    split at h
    · rename_i ho
      have ho : original = .null := Literal.isNull_iff.mp ho
      subst ho
      simp only [Literal.kind, hdict, true_and, partsConform, Literal.asDictionary]
      exact all_congr fun x hx => entry_conform hsub (checkEach_true.mp h x hx)
    · cases hd : original.asDictionary with
      | none => simp [hd] at h
      | some replaced =>
        simp only [hd, Option.bind_eq_bind, Option.bind_some] at h
        simp only [Literal.kind, hdict, true_and, partsConform]
        exact all_congr fun x hx => replaced_conform hsub (checkEach_true.mp h x hx)
  | _ => simp [partsConform, hkind']

end Sound

mutual

/-- An accepted value conforms exactly when what was not looked at does. -/
theorem checkType_conforms (constCheck : Bool) (t original value : Literal)
    (h : checkType constCheck t original value = some true) :
    conforms t value = true ↔ unlooked t original value = true := by
  cases t with
  | type typeOf constant subtypes =>
    rw [checkType] at h
    rw [conforms, unlooked]
    exact body_conform (fun i o v hi => checkSubtype_conforms constCheck subtypes i o v hi) h
  | _ => simp [checkType] at h

theorem checkSubtype_conforms (constCheck : Bool) (subtypes : List Literal) (i : Nat) (original value : Literal)
    (h : checkSubtype constCheck subtypes i original value = some true) :
    conformsAt subtypes i value = true ↔ unlookedAt subtypes i original value = true := by
  cases subtypes with
  | nil => simp [checkSubtype] at h
  | cons t ts =>
    cases i with
    | zero =>
      rw [checkSubtype] at h
      rw [conformsAt, unlookedAt]
      exact checkType_conforms constCheck t original value h
    | succ i =>
      rw [checkSubtype] at h
      rw [conformsAt, unlookedAt]
      exact checkSubtype_conforms constCheck ts i original value h

end

/-! ## Beside a value that conforms -/

section Defined

variable {sub : Nat → Literal → Literal → Option Bool} {conform : Nat → Literal → Bool} {n : Nat}

/-- A literal the check may be given for the original: one never assigned, or one that conforms. -/
def Assigned (conform : Nat → Literal → Bool) (i : Nat) (original : Literal) : Prop :=
  original.isNull = true ∨ conform i original = true

/-- The check answers on the first `n` subtypes. -/
def SubtypesDefined (sub : Nat → Literal → Literal → Option Bool) (conform : Nat → Literal → Bool) (n : Nat) : Prop :=
  ∀ i < n, ∀ original value, Assigned conform i original → ∃ b, sub i original value = some b

theorem checkEach_defined {α : Type} {check : α → Option Bool} :
    ∀ {l : List α}, (∀ x ∈ l, ∃ b, check x = some b) → ∃ b, checkEach check l = some b
  | [], _ => ⟨true, rfl⟩
  | x :: l, h => by
    obtain ⟨b, hb⟩ := h x (List.mem_cons_self ..)
    cases b with
    | false => exact ⟨false, by simp [checkEach, hb]⟩
    | true =>
      obtain ⟨b, hrest⟩ := checkEach_defined fun y hy => h y (List.mem_cons_of_mem _ hy)
      exact ⟨b, by simp [checkEach, hb, hrest]⟩

theorem checkElements_defined (hsub : SubtypesDefined sub conform n) (hn : 0 < n) :
    ∀ {originals values : List Literal}, originals.all (conform 0) = true →
      ∃ b, checkElements sub originals values = some b
  | _, [], _ => ⟨true, by simp [checkElements]⟩
  | [], _ :: _, _ => ⟨true, rfl⟩
  | original :: originals, value :: values, h => by
    rw [List.all_cons, Bool.and_eq_true] at h
    obtain ⟨b, hb⟩ := hsub 0 hn original value (.inr h.1)
    cases b with
    | false => exact ⟨false, by simp [checkElements, hb]⟩
    | true =>
      obtain ⟨b, hrest⟩ := @checkElements_defined hsub hn originals values h.2
      exact ⟨b, by simp [checkElements, hb, hrest]⟩

theorem checkEntry_defined (hsub : SubtypesDefined sub conform n) (hn : 1 < n) {original : Entry Literal}
    (value : Entry Literal) (hk : Assigned conform 0 original.key) (hv : Assigned conform 1 original.value) :
    ∃ b, checkEntry sub original value = some b := by
  obtain ⟨b, hb⟩ := hsub 0 (by omega) original.key value.key hk
  cases b with
  | false => exact ⟨false, by simp [checkEntry, hb]⟩
  | true =>
    obtain ⟨b, hrest⟩ := hsub 1 hn original.value value.value hv
    exact ⟨b, by simp [checkEntry, hb, hrest]⟩

theorem checkReplaced_defined (hsub : SubtypesDefined sub conform n) (hn : 1 < n) {original : Dictionary}
    (ho : original.entries.all (fun e => !e.live || conform 0 e.key && conform 1 e.value) = true)
    (entry : Entry Literal) : ∃ b, checkReplaced sub original entry = some b := by
  rw [checkReplaced]
  cases hnull : entry.key.isNull with
  | true => exact ⟨true, rfl⟩
  | false =>
    cases hf : original.entries.find? fun e => literalsAreEqual e.key entry.key with
    | none => exact ⟨true, rfl⟩
    | some found =>
      have hm := List.all_eq_true.mp ho found (List.mem_of_find?_eq_some hf)
      -- a null key equals no key
      have hlive : found.live = true := by
        by_contra hdead
        have hk : found.key = .null := Literal.isNull_iff.mp (by simpa [Entry.live] using hdead)
        have heq : literalsAreEqual found.key entry.key = true := by simpa using List.find?_some hf
        rw [hk, literalsAreEqual_rejected rfl hnull] at heq
        cases heq
      simp only [hlive, Bool.not_true, Bool.false_or, Bool.and_eq_true] at hm
      exact checkEntry_defined hsub hn entry (.inr hm.1) (.inr hm.2)

theorem conformsBody_parts {typeOf : LiteralType} {value : Literal} (hany : typeOf ≠ .any) (hv : value.isNull = false)
    (h : conformsBody conform typeOf value = true) : value.kind = typeOf ∧ partsConform conform value = true := by
  simp only [conformsBody, hv, Bool.false_or, Bool.and_eq_true, Bool.or_eq_true, beq_iff_eq] at h
  exact h.2.resolve_left hany

theorem body_defined (hsub : SubtypesDefined sub conform n) {typeOf : LiteralType} (ha : typeOf = .array → 0 < n)
    (hd : typeOf = .dictionary → 1 < n) (constant constCheck : Bool) {original : Literal} (value : Literal)
    (ho : original.isNull = true ∨ conformsBody conform typeOf original = true) :
    ∃ b, checkBody sub typeOf constant original value constCheck = some b := by
  unfold checkBody
  split
  · exact ⟨false, rfl⟩
  split
  · exact ⟨true, rfl⟩
  rename_i hany
  split
  · exact ⟨false, rfl⟩
  split
  · exact ⟨true, rfl⟩
  split
  · exact ⟨false, rfl⟩
  cases value with
  | array elements =>
    dsimp only
    split
    · exact ⟨false, rfl⟩
    rename_i harray
    have harray : typeOf = .array := by simpa using harray
    split
    · exact checkEach_defined fun x _ => hsub 0 (ha harray) .null x (.inl rfl)
    rename_i hnull
    obtain ⟨hk, hparts⟩ := conformsBody_parts hany (by simpa using hnull) (ho.resolve_left hnull)
    cases original with
    | array originals => exact checkElements_defined hsub (ha harray) hparts
    | _ => simp [Literal.kind, harray] at hk
  | dictionary held =>
    dsimp only
    split
    · exact ⟨false, rfl⟩
    rename_i hdict
    have hdict : typeOf = .dictionary := by simpa using hdict
    split
    · exact checkEach_defined fun x _ => checkEntry_defined hsub (hd hdict) x (.inl rfl) (.inl rfl)
    rename_i hnull
    obtain ⟨hk, hparts⟩ := conformsBody_parts hany (by simpa using hnull) (ho.resolve_left hnull)
    cases original with
    | dictionary replaced => exact checkEach_defined fun x _ => checkReplaced_defined hsub (hd hdict) hparts x
    | _ => simp [Literal.kind, hdict] at hk
  | _ => exact ⟨true, rfl⟩

end Defined

mutual

theorem checkType_defined (constCheck : Bool) (t original value : Literal) (hw : wellFormedType t = true)
    (ho : original.isNull = true ∨ conforms t original = true) :
    ∃ b, checkType constCheck t original value = some b := by
  cases t with
  | type typeOf constant subtypes =>
    simp only [wellFormedType, Bool.and_eq_true, Bool.or_eq_true, bne_iff_ne, ne_eq, beq_iff_eq] at hw
    obtain ⟨⟨harray, hdict⟩, hsubtypes⟩ := hw
    rw [checkType]
    rw [conforms] at ho
    refine body_defined (n := subtypes.length) ?_ ?_ ?_ constant constCheck value ho
    · intro i hi o v hov
      exact checkSubtype_defined constCheck subtypes i o v hsubtypes hi hov
    · intro ht
      have := harray.resolve_left (fun hc => hc ht)
      omega
    · intro ht
      have := hdict.resolve_left (fun hc => hc ht)
      omega
  | _ => simp [wellFormedType] at hw

theorem checkSubtype_defined (constCheck : Bool) (subtypes : List Literal) (i : Nat) (original value : Literal)
    (hw : wellFormedTypes subtypes = true) (hi : i < subtypes.length)
    (ho : original.isNull = true ∨ conformsAt subtypes i original = true) :
    ∃ b, checkSubtype constCheck subtypes i original value = some b := by
  cases subtypes with
  | nil => simp at hi
  | cons t ts =>
    simp only [wellFormedTypes, Bool.and_eq_true] at hw
    cases i with
    | zero =>
      rw [checkSubtype]
      exact checkType_defined constCheck t original value hw.1 ho
    | succ i =>
      rw [checkSubtype]
      exact checkSubtype_defined constCheck ts i original value hw.2 (by simpa using hi) ho

end

/-! ## Copies -/

theorem conformsAt_eq : ∀ (subtypes : List Literal) (i : Nat) (value : Literal),
    conformsAt subtypes i value = subtypes[i]?.any (conforms · value)
  | [], _, _ => by simp [conformsAt]
  | t :: ts, 0, value => by simp [conformsAt]
  | t :: ts, i + 1, value => by simpa [conformsAt] using conformsAt_eq ts i value

theorem copy_conforms : ∀ (n : Nat) {t value : Literal}, conforms t value = true →
    conforms t ((literalFns n).copy value) = true
  | 0, _, _, h => h
  | n + 1, t, value, h => by
    cases t with
    | type typeOf constant subtypes =>
      have hat : ∀ i v, conformsAt subtypes i v = true → conformsAt subtypes i ((literalFns n).copy v) = true := by
        intro i v hv
        rw [conformsAt_eq] at hv ⊢
        cases ht : subtypes[i]? with
        | none => simp [ht] at hv
        | some s =>
          rw [ht] at hv
          exact copy_conforms n hv
      rw [conforms, conformsBody] at h ⊢
      have hkind := copyBody_kind (literalFns n) value
      have hnull : (copyBody (literalFns n) value).isNull = value.isNull := by
        rw [Literal.isNull, hkind, Literal.isNull]
      show (typeOf != .null && ((copyBody (literalFns n) value).isNull || typeOf == .any ||
        (copyBody (literalFns n) value).kind == typeOf &&
          partsConform (conformsAt subtypes) (copyBody (literalFns n) value))) = true
      rw [hnull, hkind]
      have hparts : partsConform (conformsAt subtypes) value = true →
          partsConform (conformsAt subtypes) (copyBody (literalFns n) value) = true := by
        intro hp
        cases value with
        | array es =>
          rw [partsConform, List.all_eq_true] at hp
          rw [copyBody, partsConform, List.all_map, List.all_eq_true]
          intro e he
          exact hat 0 e (hp e he)
        | dictionary d =>
          rw [partsConform, List.all_eq_true] at hp
          rw [copyBody, partsConform, List.all_eq_true]
          intro e he
          cases hl : e.live with
          | false => rfl
          | true =>
            obtain ⟨e₀, he₀, hl₀, rfl⟩ := copyDictionary_mem he hl
            have := hp e₀ he₀
            simp only [hl₀, Bool.not_true, Bool.false_or, Bool.and_eq_true] at this
            simp [setEntryValues, hat 0 _ this.1, hat 1 _ this.2]
        | _ => rfl
      simp only [Bool.and_eq_true, Bool.or_eq_true] at h ⊢
      exact ⟨h.1, h.2.imp_right fun hk => ⟨hk.1, hparts hk.2⟩⟩
    | _ => simp [conforms] at h

theorem copyLiteral_conforms {t value : Literal} (h : conforms t value = true) :
    conforms t (copyLiteral value) = true := copy_conforms _ h

/-! ## Runs -/

variable {S : Literal → Prop}

/-- Every variable holds a value that conforms to its declared type. -/
def Typed (S : Literal → Prop) (w : World) : Prop :=
  ∀ p scope, w.heap.read p = some scope → ∀ name, S name → ∀ type value, bound realFns scope.types name = some type →
    bound realFns scope.vars name = some value → conforms type value = true

/-- The types given to declarations are well formed. -/
def Call.WellFormed (call : Call) : Prop :=
  ∀ p name type, call = .declare p name type → type.isType = true → wellFormedType type = true

/-- No variable is declared of type null, which no value conforms to; and what the check of
    a set does not look at, beside the value the variable holds, conforms. -/
def Call.Looked (w : World) : Call → Prop
  | .declare _ _ type => ∀ constant subtypes, type ≠ .type .null constant subtypes
  | .set handle name value _ => ∀ p scope, w.heap.owner handle name = some p → w.heap.read p = some scope →
      unlooked (getLiteralDictionary realFns scope.types name) (getLiteralDictionary realFns scope.vars name) value = true
  | _ => True

def Frames.Typed (f : Frames) : Prop := ∀ p name b, f.binding p name = some b → conforms b.type b.value = true

theorem declared_conforms {type : Literal} (hw : wellFormedType type = true)
    (hn : ∀ constant subtypes, type ≠ .type .null constant subtypes) : conforms type .null = true := by
  cases type with
  | type typeOf constant subtypes =>
    have : typeOf ≠ .null := fun h => hn constant subtypes (by rw [h])
    simp [conforms, conformsBody, this]
  | _ => simp [wellFormedType] at hw

theorem rebind_typed {f : Frames} (h : f.Typed) {p : Nat} {name : Literal} {b : Binding}
    (hb : conforms b.type b.value = true) : (f.rebind p name b).Typed := by
  intro s q b' hb'
  by_cases hsq : s = p ∧ literalsAreEqual q name = true
  · have hlt : s < (f.rebind p name b).frames.length := Frames.lt_of_binding hb'
    rw [Frames.length_rebind, hsq.1] at hlt
    rw [Frames.binding_rebind hlt, if_pos hsq] at hb'
    cases hb'
    exact hb
  · rw [Frames.binding_rebind_ne hsq] at hb'
    exact h s q b' hb'

theorem make_typed {f : Frames} (h : f.Typed) {frame : Frame}
    (hf : ∀ name b, frame.binding name = some b → conforms b.type b.value = true) : (f.make frame).Typed := by
  intro s q b hb
  rw [Frames.binding_make] at hb
  split at hb
  · exact hf q b hb
  · exact h s q b hb

/-- A call on typed frames goes on, and leaves them typed. -/
theorem step_typed (hS : VariableKeys S) {w : World} {f : Frames} (hr : Related S w f) (ht : f.Typed) {call : Call}
    (hc : f.Proper S call) (hl : call.Looked w) : ∃ f' answer, f.step call = some (f', answer) ∧ f'.Typed := by
  cases call with
  | push ancestor => exact ⟨_, _, rfl, make_typed ht fun name b hb => by cases hb⟩
  | copy original =>
    refine ⟨_, _, rfl, make_typed ht ?_⟩
    intro name b hb
    obtain ⟨b₀, hb₀, rfl⟩ := Option.map_eq_some_iff.mp hb
    exact copyLiteral_conforms (ht original name b₀ hb₀)
  | pop handle => exact ⟨_, _, rfl, ht⟩
  | isDeclared handle name => exact ⟨_, _, rfl, ht⟩
  | get handle name => exact ⟨_, _, rfl, ht⟩
  | getType handle name => exact ⟨_, _, rfl, ht⟩
  | declare p name type =>
    simp only [Frames.step]
    split
    · exact ⟨_, _, rfl, ht⟩
    · rename_i hnew
      have htype : type.isType = true := by
        simp only [Bool.or_eq_true, Bool.not_eq_true', not_or] at hnew
        simpa using hnew.2
      have hw := hc.2.2 p name type rfl htype
      exact ⟨_, _, rfl, rebind_typed ht (declared_conforms hw hl)⟩
  | set handle name value constCheck =>
    have hu : ∀ p ∈ handle, p ∈ f.unpopped := hc.1
    have hn : S name := hc.2.1 name rfl
    cases hi : f.innermost handle name with
    | none => exact ⟨f, .flag false, by simp [Frames.step, hi], ht⟩
    | some p =>
      obtain ⟨b, hb, hbind⟩ := Frames.lookup_innermost hi
      obtain ⟨scope, hread⟩ := hr.live hu (List.mem_of_find?_eq_some hi)
      have hlooked := hl p scope ((hr.owner_eq hu hn).trans hi) hread
      rw [hr.get_vars hS hread hn hbind, hr.get_types hS hread hn hbind] at hlooked
      have hw := hr.wellFormed p name b hbind
      obtain ⟨ok, hcheck⟩ := checkType_defined constCheck b.type (copyLiteral b.value) value hw
        (.inr (copyLiteral_conforms (ht p name b hbind)))
      cases ok with
      | false => exact ⟨f, .flag false, by simp [Frames.step, hi, hb, hcheck], ht⟩
      | true =>
        have hvalue := (checkType_conforms constCheck b.type _ value hcheck).mpr hlooked
        refine ⟨_, .flag true, by simp [Frames.step, hi, hb, hcheck]; rfl, ?_⟩
        exact rebind_typed ht (b := { b with value := copyLiteral value }) (copyLiteral_conforms hvalue)

theorem proper_frames {w : World} {f : Frames} (hr : Related S w f) {call : Call} (hp : call.Proper S w)
    (hw : call.WellFormed) : f.Proper S call := by
  refine ⟨?_, hp.2, hw⟩
  rw [← hr.unpopped]
  exact hp.1

theorem reach_typed (hS : VariableKeys S) {w : World}
    (h : Reach (fun w call => call.Proper S w ∧ call.WellFormed ∧ call.Looked w) w) :
    ∃ f, Related S w f ∧ f.Typed := by
  induction h with
  | init => exact ⟨Frames.init, Related.init, by intro p name b hb; simp [Frames.init, Frames.binding] at hb⟩
  | @step w w' answer call _ hcall hstep ih =>
    obtain ⟨f, hr, ht⟩ := ih
    have hc := proper_frames hr hcall.1 hcall.2.1
    obtain ⟨f', answer', hf, ht'⟩ := step_typed hS hr ht hc hcall.2.2
    have hlock := step_related hS hr hc
    rw [hstep, hf] at hlock
    exact ⟨f', hlock.2, ht'⟩

/-- In every run whose declarations are of well-formed types other than null, and whose
    sets leave nothing that does not conform where the check does not look, every variable
    of every scope conforms to its type, and every further such call returns. -/
theorem scopes_typed (S : Literal → Prop) (hS : VariableKeys S) (w : World)
    (h : Reach (fun w call => call.Proper S w ∧ call.WellFormed ∧ call.Looked w) w) :
    Typed S w ∧ ∀ call : Call, call.Proper S w → call.WellFormed → call.Looked w →
      ∃ w' answer, w.step call = some (w', answer) := by
  obtain ⟨f, hr, ht⟩ := reach_typed hS h
  constructor
  · intro p scope hread name hn type value htype hvalue
    rw [hr.types p _ (read_eq.mp hread) name hn] at htype
    rw [hr.vars p _ (read_eq.mp hread) name hn] at hvalue
    obtain ⟨b, hb, rfl⟩ := Option.map_eq_some_iff.mp htype
    rw [hb] at hvalue
    cases hvalue
    exact ht p name b hb
  · intro call hp hw hl
    have hc := proper_frames hr hp hw
    obtain ⟨f', answer, hf, _⟩ := step_typed hS hr ht hc hl
    have hlock := step_related hS hr hc
    rw [hf] at hlock
    cases hstep : w.step call with
    | none => rw [hstep] at hlock; exact hlock.elim
    | some r => exact ⟨r.1, r.2, rfl⟩

theorem identifierKey_x : IdentifierKey (.identifier ['x']) := ⟨['x'], by decide, rfl⟩

theorem proper_named {w : World} {call : Call} (hu : ∀ p ∈ call.handle, p ∈ w.unpopped)
    (hk : call.key = some (.identifier ['x'])) : call.Proper IdentifierKey w := by
  refine ⟨hu, ?_⟩
  rw [hk]
  rintro _ ⟨⟩
  exact identifierKey_x

/-- A list of integers, assigned for the first time. -/
theorem scopes_typed_array : ∃ w : World, Typed IdentifierKey w ∧ ∃ scope, w.heap.read 0 = some scope ∧
    bound realFns scope.vars (.identifier ['x']) = some (.array [.integer 1, .null]) := by
  have h₀ : Reach (fun w call => call.Proper IdentifierKey w ∧ call.WellFormed ∧ call.Looked w) World.init := .init
  have h₁ := h₀.step (.push none) ⟨Call.proper_of (by decide) rfl, by rintro _ _ _ ⟨⟩, trivial⟩ rfl
  have h₂ := h₁.step (.declare 0 (.identifier ['x']) (.type .array false [.type .integer false []]))
    ⟨proper_named (by decide) rfl, by rintro _ _ _ ⟨⟩ _; rfl, by rintro _ _ ⟨⟩⟩ rfl
  have h₃ := h₂.step (.set (some 0) (.identifier ['x']) (.array [.integer 1, .null]) true)
    ⟨proper_named (by decide) rfl, by rintro _ _ _ ⟨⟩, by rintro _ _ ⟨⟩ ⟨⟩; rfl⟩ rfl
  exact ⟨_, (scopes_typed IdentifierKey identifier_variableKeys _ h₃).1, _, rfl, rfl⟩

/-- No test of the check is about the fixed widths. -/
theorem int8_holds_string : ¬ ∀ (S : Literal → Prop), VariableKeys S → ∀ w : World,
    Reach (fun w call => call.Proper S w ∧ call.WellFormed) w → Typed S w := by
  intro h
  have h₀ : Reach (fun w call => call.Proper IdentifierKey w ∧ call.WellFormed) World.init := .init
  have h₁ := h₀.step (.push none) ⟨Call.proper_of (by decide) rfl, by rintro _ _ _ ⟨⟩⟩ rfl
  have h₂ := h₁.step (.declare 0 (.identifier ['x']) (.type .int8 false []))
    ⟨proper_named (by decide) rfl, by rintro _ _ _ ⟨⟩ _; rfl⟩ rfl
  have h₃ := h₂.step (.set (some 0) (.identifier ['x']) (.string ['a']) true)
    ⟨proper_named (by decide) rfl, by rintro _ _ _ ⟨⟩⟩ rfl
  have hx := h IdentifierKey identifier_variableKeys _ h₃ 0 _ rfl (.identifier ['x']) identifierKey_x
    (.type .int8 false []) (.string ['a']) rfl rfl
  simp [conforms, conformsBody, Literal.isNull, Literal.kind] at hx

end Xvr.Runtime
