/-
  Xvr.Runtime.ScopeConsts — variables of constant type.

  Nothing but `Xvr_literalsAreEqual` guards a constant: a set goes through when the value
  compares equal to the one held, and then stores a copy of it. Equality is coarser than
  identity in five places, each at any depth: numbers of different kinds that read alike,
  floats with different bits (the two zeros), texts behind a NUL, subtypes of a type that
  is neither array nor dictionary, and a dictionary that has more keys. `Faithful` is that
  none of them stands at corresponding places of the two values (`Beside`).

  Proved: `same_of_equal` (equal and faithful values are the same), and over runs
  `constants_kept`; `constant_dictionary_grows` is a run that breaks it.
-/

import Xvr.Runtime.LiteralSame
import Xvr.Runtime.ScopeTypes

namespace Xvr.Runtime

open Heap

/-! ## Corresponding places -/

/-- The literals that the comparison of two values may come to compare: elements with one
    index, keys that compare equal and what they are bound to. The second value is read
    through `get`, which copies it. -/
inductive Beside (original value : Literal) : Literal → Literal → Prop
  | here : Beside original value original value
  | element {a b x y : Literal} (i : Nat) : Beside original value a b → a.parts[i]? = some x → b.parts[i]? = some y →
      Beside original value x y
  | key {d d' : Dictionary} {e e' : Entry Literal} : Beside original value (.dictionary d) (.dictionary d') →
      e ∈ liveEntries d.entries → e' ∈ liveEntries d'.entries → literalsAreEqual e.key e'.key = true →
      Beside original value e.key e'.key
  | bound {d d' : Dictionary} {e e' : Entry Literal} : Beside original value (.dictionary d) (.dictionary d') →
      e ∈ liveEntries d.entries → e' ∈ liveEntries d'.entries → literalsAreEqual e.key e'.key = true →
      Beside original value e.value (copyLiteral e'.value)

structure Faithful (original value : Literal) : Prop where
  numbers : ∀ a b, Beside original value a b → (a.isInteger || a.isFloat) = true → (b.isInteger || b.isFloat) = true →
    a.kind ≠ b.kind → (comparedAs a == comparedAs b) = false
  floats : ∀ a b, Beside original value a b → a.isFloat = true → a.kind = b.kind → literalsAreEqual a b = true → a = b
  strings : ∀ s t, Beside original value (.string s) (.string t) → equalsRefString s t = true → s = t
  identifiers : ∀ s t, Beside original value (.identifier s) (.identifier t) → equalsRefString s t = true → s = t
  /-- Subtypes the comparison does not look at. -/
  subtypes : ∀ t c as bs, Beside original value (.type t c as) (.type t c bs) → t ≠ .array → t ≠ .dictionary →
    ∀ (i : Nat) (x y : Literal), as[i]? = some x → bs[i]? = some y → Same x y
  keys : ∀ d d', Beside original value (.dictionary d) (.dictionary d') →
    literalsAreEqual (.dictionary d) (.dictionary d') = true →
      (liveEntries d'.entries).length ≤ (liveEntries d.entries).length

/-! ## Equal and faithful is identical -/

section Equal

variable {original value : Literal} (hf : Faithful original value)

/-- Two literals that are compared element by element. -/
theorem same_of_elements {a b : Literal} (hk : a.kind ≠ .dictionary) (hshell : a.shell = b.shell)
    (ih : ∀ (i : Nat) (x y : Literal), a.parts[i]? = some x → b.parts[i]? = some y → literalsAreEqual x y = true → Same x y)
    (h : elementsAreEqual realFns a.parts b.parts = true) : Same a b := by
  obtain ⟨hlen, heq⟩ := elementsAreEqual_iff.mp h
  exact .plain hk hshell hlen fun i x y hx hy => ih i x y hx hy (heq i x y hx hy)

include hf

theorem same_of_dictionaries {d d' : Dictionary} (hb : Beside original value (.dictionary d) (.dictionary d'))
    (hs : Settled (.dictionary d)) (hs' : Settled (.dictionary d'))
    (ih : ∀ {x y : Literal}, x.depth < (Literal.dictionary d).depth → Beside original value x y → Settled x → Settled y →
      literalsAreEqual x y = true → Same x y)
    (h : literalsAreEqual (.dictionary d) (.dictionary d') = true) : Same (.dictionary d) (.dictionary d') := by
  have hlen := hf.keys d d' hb h
  rw [literalsAreEqual_kind (a := .dictionary d) (b := .dictionary d') rfl] at h
  cases hs with
  | plain hk => exact absurd rfl hk
  | dictionary _ _ _ hpair hkeys hvalues =>
  cases hs' with
  | plain hk => exact absurd rfl hk
  | dictionary _ _ _ _ hkeys' hvalues' =>
  have hmatch : ∀ e ∈ liveEntries d.entries, ∃ e', e' ∈ liveEntries d'.entries ∧ Same e.key e'.key ∧
      Same e.value e'.value := by
    intro e he
    obtain ⟨e', he', hkey, hvalue⟩ := dictionariesAreEqual_sound h he
    have hk := ih (entry_depth he).1 (.key hb he he' hkey) (hkeys e he) (hkeys' e' he') hkey
    obtain ⟨hcopy, hcopied⟩ := copyLiteral_same (hvalues' e' he')
    have hv := ih (entry_depth he).2 (.bound hb he he' hkey) (hvalues e he) hcopied hvalue
    exact ⟨e', he', hk, hv.trans hcopy.symm⟩
  choose! there hthere using hmatch
  -- no two keys of the original are the same, so no two are matched to one
  have hapart : (liveEntries d.entries).Pairwise fun a b => there a ≠ there b := by
    apply hpair.imp_of_mem
    intro x y hx hy hne heq
    have hxk := (hthere x hx).2.1
    rw [heq] at hxk
    exact hne (hxk.trans (hthere y hy).2.1.symm)
  obtain ⟨back, hback⟩ := matched_back (matched_onto (fun e he => (hthere e he).1) hapart hlen)
  refine .dictionary there back (fun e he => (hthere e he).1) (fun e he => (hthere e he).2.1)
    (fun e he => (hthere e he).2.2) (fun x hx => (hback x hx).1) ?_ ?_
  · intro x hx
    obtain ⟨he, hex⟩ := hback x hx
    have := (hthere _ he).2.1
    rwa [hex] at this
  · intro x hx
    obtain ⟨he, hex⟩ := hback x hx
    have := (hthere _ he).2.2
    rwa [hex] at this

theorem same_of_kind {a b : Literal} (hb : Beside original value a b) (hs : Settled a) (hs' : Settled b)
    (ih : ∀ {x y : Literal}, x.depth < a.depth → Beside original value x y → Settled x → Settled y →
      literalsAreEqual x y = true → Same x y)
    (hk : a.kind = b.kind) (h : literalsAreEqual a b = true) : Same a b := by
  have hparts : ∀ (i : Nat) (x y : Literal), a.parts[i]? = some x → b.parts[i]? = some y →
      literalsAreEqual x y = true → Same x y := by
    intro i x y hx hy
    have hxa := List.mem_of_getElem? hx
    exact ih (parts_depth hxa) (.element i hb hx hy) (hs.part hxa) (hs'.part (List.mem_of_getElem? hy))
  have heq := h
  rw [literalsAreEqual_kind hk] at h
  unfold equalOfKind at h
  split at h
  case h_1 => exact .refl _
  case h_12 => rw [hf.floats _ _ hb rfl rfl heq]; exact .refl _
  case h_14 => rw [hf.floats _ _ hb rfl rfl heq]; exact .refl _
  case h_15 => rw [hf.floats _ _ hb rfl rfl heq]; exact .refl _
  case h_16 => rw [hf.strings _ _ hb h]; exact .refl _
  case h_17 => exact same_of_elements (by simp [Literal.kind]) rfl hparts h
  case h_18 => exact same_of_elements (by simp [Literal.kind]) rfl hparts h
  case h_19 => exact same_of_elements (by simp [Literal.kind]) rfl hparts h
  case h_20 => exact same_of_elements (by simp [Literal.kind]) rfl hparts h
  case h_21 => exact same_of_dictionaries hf hb hs hs' ih heq
  case h_22 =>
    rw [Bool.and_eq_true] at h
    rw [hf.identifiers _ _ hb h.2]
    exact .refl _
  case h_23 t c as u d bs =>
    simp only [Bool.and_eq_true, beq_iff_eq] at h
    obtain ⟨⟨⟨rfl, rfl⟩, hlen⟩, hsub⟩ := h
    split at hsub
    · exact same_of_elements (by simp [Literal.kind]) rfl hparts hsub
    · rename_i hno
      rw [not_or] at hno
      exact .plain (by simp [Literal.kind]) rfl hlen (hf.subtypes t c as bs hb hno.1 hno.2)
  case h_24 => cases h
  all_goals
    rw [beq_iff_eq] at h
    subst h
    exact .refl _

/-- Two values that compare equal are the same, when the places where equality is coarser
    do not occur in them. -/
theorem same_of_equal {a b : Literal} (hb : Beside original value a b) (hs : Settled a) (hs' : Settled b)
    (h : literalsAreEqual a b = true) : Same a b := by
  induction hn : a.depth using Nat.strong_induction_on generalizing a b with
  | _ n ih =>
    subst hn
    by_cases hk : a.kind = b.kind
    · exact same_of_kind hf hb hs hs' (fun hd hb hs hs' h => ih _ hd hb hs hs' h rfl) hk h
    · rw [literalsAreEqual_eq, equalBody, if_pos hk, Bool.and_eq_true, Bool.and_eq_true] at h
      obtain ⟨⟨ha, hb'⟩, heq⟩ := h
      rw [hf.numbers a b hb ha hb' hk] at heq
      cases heq

end Equal

/-! ## Sets -/

/-- A type declared constant. -/
def Literal.isConstant : Literal → Bool
  | .type _ constant _ => constant
  | _ => false

theorem isConstant_copy {t : Literal} (h : t.isConstant = true) : (copyLiteral t).isConstant = true := by
  cases t <;> exact h

/-- The check of a constant passes only on a value equal to the one held. -/
theorem checkType_constant {t original value : Literal} (ht : t.isConstant = true)
    (h : checkType true t original value = some true) : literalsAreEqual original value = true := by
  cases t with
  | type typeOf constant subtypes =>
    have hc : constant = true := ht
    rw [checkType] at h
    unfold checkBody at h
    cases heq : literalsAreEqual original value with
    | true => rfl
    | false => simp [hc, heq] at h
  | _ => cases ht

/-- A set with the const check on. -/
def Call.Checked : Call → Prop
  | .set _ _ _ constCheck => constCheck = true
  | _ => False

/-- When the call sets a constant and the check passes, equality is identity on the value
    held and the value given, and the dictionaries in the value given keep their keys apart. -/
def Call.Apart (w : World) : Call → Prop
  | .set handle name value constCheck => ∀ p scope, w.heap.owner handle name = some p → w.heap.read p = some scope →
      (getLiteralDictionary realFns scope.types name).isConstant = true →
      checkType constCheck (getLiteralDictionary realFns scope.types name)
        (getLiteralDictionary realFns scope.vars name) value = some true →
      Faithful (getLiteralDictionary realFns scope.vars name) value ∧ Settled value
  | _ => True

variable {S : Literal → Prop}

/-- The variable of the scope has a constant type and holds what is the same as `v`. -/
structure HoldsConstant (w : World) (p : Nat) (name v : Literal) (scope : Scope) (type held : Literal) : Prop where
  reads : w.heap.read p = some scope
  declared : bound realFns scope.types name = some type
  constant : type.isConstant = true
  holds : bound realFns scope.vars name = some held
  same : Same v held
  settled : Settled held

theorem step_holds (hS : VariableKeys S) {w w' : World} (hw : Sound S w) {p : Nat} {name v : Literal} (hn : S name)
    {scope : Scope} {type held : Literal} (h : HoldsConstant w p name v scope type held) {call : Call} {answer : Answer}
    (hp : call.Proper S w) (hc : call.Checked) (ha : call.Apart w) (hstep : w.step call = some (w', answer)) :
    ∃ scope' held', HoldsConstant w' p name v scope' type held' := by
  cases call with
  | set handle key value constCheck =>
    have hu : ∀ q ∈ handle, q ∈ w.unpopped := hp.1
    have hk : S key := hp.2 key rfl
    cases (hc : constCheck = true)
    rcases hw.set hS hu hk value true with ⟨_, hset⟩ | ⟨q, owned, vars, howner, hread, hv, hset⟩
    · rw [hset] at hstep
      cases hstep
      exact ⟨scope, held, h⟩
    rw [hset, Option.map_eq_some_iff] at hstep
    obtain ⟨assigned, hcheck, hw'⟩ := hstep
    cases assigned with
    | false => cases hw'; exact ⟨scope, held, h⟩
    | true =>
      cases hw'
      have hlt := lt_of_read hread
      by_cases hq : p = q
      · subst hq
        have hscope : owned = scope := by rw [h.reads] at hread; cases hread; rfl
        subst hscope
        by_cases hname : literalsAreEqual name key = true
        · -- the constant itself is set: the check compared the value with the one held
          have htypes := hw.types_table p owned hread
          have hvars := hw.vars_table p owned hread
          have htype : getLiteralDictionary realFns owned.types key = copyLiteral type := by
            rw [table_get hS.toKeyEquiv htypes hk (hS.accepted key hk),
              ← bound_congr hS.toKeyEquiv htypes hn hk hname, h.declared]
            rfl
          have hheld : getLiteralDictionary realFns owned.vars key = copyLiteral held := by
            rw [table_get hS.toKeyEquiv hvars hk (hS.accepted key hk),
              ← bound_congr hS.toKeyEquiv hvars hn hk hname, h.holds]
            rfl
          have hconst : (getLiteralDictionary realFns owned.types key).isConstant = true := by
            rw [htype]
            exact isConstant_copy h.constant
          obtain ⟨hf, hsettled⟩ := ha p owned howner hread hconst hcheck
          have heq := checkType_constant hconst hcheck
          rw [hheld] at hf heq
          obtain ⟨hcopy, hcopied⟩ := copyLiteral_same h.settled
          obtain ⟨hcopy', hcopied'⟩ := copyLiteral_same hsettled
          have hsame := same_of_equal hf .here hcopied hsettled heq
          refine ⟨{ owned with vars }, copyLiteral value, ?_, h.declared, h.constant, ?_, ?_, hcopied'⟩
          · rw [read_write hlt, if_pos rfl]
          · rw [hv.2 name hn, if_pos hname]
          · exact ((h.same.trans hcopy).trans hsame).trans hcopy'
        · refine ⟨{ owned with vars }, held, ?_, h.declared, h.constant, ?_, h.same, h.settled⟩
          · rw [read_write hlt, if_pos rfl]
          · rw [hv.2 name hn, if_neg hname]
            exact h.holds
      · refine ⟨scope, held, ?_, h.declared, h.constant, h.holds, h.same, h.settled⟩
        rw [read_write hlt, if_neg hq]
        exact h.reads
  | _ => exact hc.elim

/-! ## Runs -/

/-- The states reached from a state by calls each of which is allowed in the state it is
    made in. -/
inductive Later (allowed : World → Call → Prop) (w : World) : World → Prop
  | refl : Later allowed w w
  | step {w₁ w₂ : World} {answer : Answer} (call : Call) : Later allowed w w₁ → allowed w₁ call →
      w₁.step call = some (w₂, answer) → Later allowed w w₂

/-- In every run of sets with the const check on, each of which meets `Apart`, a variable
    of constant type goes on holding the same literal. -/
theorem constants_kept (S : Literal → Prop) (hS : VariableKeys S) (w : World) (h : Reach (fun w c => c.Proper S w) w)
    (p : Nat) (scope : Scope) (name type v : Literal) (hn : S name) (hread : w.heap.read p = some scope)
    (htype : bound realFns scope.types name = some type) (hconst : type.isConstant = true)
    (hv : bound realFns scope.vars name = some v) (hsettled : Settled v) (w' : World)
    (hlater : Later (fun w call => call.Proper S w ∧ call.Checked ∧ call.Apart w) w w') :
    ∃ scope' v', w'.heap.read p = some scope' ∧ bound realFns scope'.vars name = some v' ∧ Same v v' := by
  have hrun : Sound S w' ∧ ∃ scope' v', HoldsConstant w' p name v scope' type v' := by
    induction hlater with
    | refl => exact ⟨reach_sound hS (fun _ _ hc => hc) h, scope, v, hread, htype, hconst, hv, .refl v, hsettled⟩
    | step call _ hcall hstep ih =>
      obtain ⟨hs, scope₁, v₁, hholds⟩ := ih
      obtain ⟨hp, hc, ha⟩ := hcall
      exact ⟨step_sound hS hs hp.1 hp.2 hstep, step_holds hS hs hn hholds hp hc ha hstep⟩
  obtain ⟨_, scope', v', hholds⟩ := hrun
  exact ⟨scope', v', hholds.reads, hholds.holds, hholds.same⟩

def oneElement : Literal := .array [.integer 1]

theorem beside_oneElement {a b : Literal} (h : Beside oneElement oneElement a b) :
    a = oneElement ∧ b = oneElement ∨ a = .integer 1 ∧ b = .integer 1 := by
  induction h with
  | here => exact .inl ⟨rfl, rfl⟩
  | element i _ hx hy ih =>
    rcases ih with ⟨rfl, rfl⟩ | ⟨rfl, rfl⟩
    · cases i with
      | zero => cases hx; cases hy; exact .inr ⟨rfl, rfl⟩
      | succ i => cases hx
    · cases hx
  | key _ _ _ _ ih => rcases ih with ⟨h, _⟩ | ⟨h, _⟩ <;> cases h
  | bound _ _ _ _ ih => rcases ih with ⟨h, _⟩ | ⟨h, _⟩ <;> cases h

theorem faithful_oneElement : Faithful oneElement oneElement where
  numbers a b h _ _ hk := by
    rcases beside_oneElement h with ⟨rfl, rfl⟩ | ⟨rfl, rfl⟩ <;> exact absurd rfl hk
  floats a b h hfloat := by
    rcases beside_oneElement h with ⟨rfl, rfl⟩ | ⟨rfl, rfl⟩ <;> cases hfloat
  strings s t h := by rcases beside_oneElement h with ⟨h, _⟩ | ⟨h, _⟩ <;> cases h
  identifiers s t h := by rcases beside_oneElement h with ⟨h, _⟩ | ⟨h, _⟩ <;> cases h
  subtypes t c as bs h := by rcases beside_oneElement h with ⟨h, _⟩ | ⟨h, _⟩ <;> cases h
  keys d d' h := by rcases beside_oneElement h with ⟨h, _⟩ | ⟨h, _⟩ <;> cases h

theorem settled_oneElement : Settled oneElement := by
  refine .plain (by decide) ?_
  intro x hx
  rw [List.mem_singleton.mp hx]
  exact .plain (by decide) fun y hy => by cases hy

/-- A constant list that is set to an equal list, which is stored in its place. -/
theorem constants_kept_list : ∃ w : World, ∃ scope v, w.heap.read 0 = some scope ∧
    bound realFns scope.vars (.identifier ['x']) = some v ∧ Same oneElement v := by
  have h₀ : Reach (fun w c => c.Proper IdentifierKey w) World.init := .init
  have h₁ := h₀.step (.push none) (Call.proper_of (by decide) rfl) rfl
  have h₂ := h₁.step (.declare 0 (.identifier ['x']) (.type .array true [.type .integer false []]))
    (proper_named (by decide) rfl) rfl
  have h₃ := h₂.step (.set (some 0) (.identifier ['x']) oneElement false) (proper_named (by decide) rfl) rfl
  refine ⟨_, constants_kept IdentifierKey identifier_variableKeys _ h₃ 0 _ (.identifier ['x']) _ oneElement
    identifierKey_x rfl rfl rfl rfl settled_oneElement _
    (Later.refl.step (.set (some 0) (.identifier ['x']) oneElement true) ⟨proper_named (by decide) rfl, rfl, ?_⟩ rfl)⟩
  rintro _ _ ⟨⟩ ⟨⟩ _ _
  exact ⟨faithful_oneElement, settled_oneElement⟩

/-- A dictionary that is the same as `{}` has no keys. -/
theorem same_empty {d d' : Dictionary} (h : Same (.dictionary d) (.dictionary d')) (hd : liveEntries d.entries = []) :
    liveEntries d'.entries = [] := by
  cases h with
  | plain hk => exact absurd rfl hk
  | dictionary _ back _ _ _ hin =>
    apply List.eq_nil_iff_forall_not_mem.mpr
    intro e he
    have hback := hin e he
    rw [hd] at hback
    cases hback

theorem noKeys_other : ¬ Same noKeys (copyLiteral falseKey) := by
  rw [noKeys, falseKey, copyLiteral_eq, copyBody]
  intro h
  have hempty := same_empty h rfl
  rw [show liveEntries _ = [⟨.boolean false, .boolean false⟩] from rfl] at hempty
  cases hempty

/-- `{}` compares equal to a dictionary with keys, so a constant that holds it takes one. -/
theorem constant_dictionary_grows : ¬ ∀ (S : Literal → Prop), VariableKeys S → ∀ w : World,
    Reach (fun w c => c.Proper S w) w → ∀ (p : Nat) (scope : Scope) (name type v : Literal), S name →
      w.heap.read p = some scope → bound realFns scope.types name = some type → type.isConstant = true →
      bound realFns scope.vars name = some v → v.isNull = false → ∀ w' : World,
        Later (fun w call => call.Proper S w ∧ call.Checked) w w' →
        ∃ scope' v', w'.heap.read p = some scope' ∧ bound realFns scope'.vars name = some v' ∧ Same v v' := by
  intro h
  have h₀ : Reach (fun w c => c.Proper IdentifierKey w) World.init := .init
  have h₁ := h₀.step (.push none) (Call.proper_of (by decide) rfl) rfl
  have h₂ := h₁.step (.declare 0 (.identifier ['x'])
    (.type .dictionary true [.type .any false [], .type .any false []])) (proper_named (by decide) rfl) rfl
  have h₃ := h₂.step (.set (some 0) (.identifier ['x']) noKeys false) (proper_named (by decide) rfl) rfl
  obtain ⟨scope', v', hread, hbound, hsame⟩ := h IdentifierKey identifier_variableKeys _ h₃ 0 _ (.identifier ['x']) _ noKeys
    identifierKey_x rfl rfl rfl rfl rfl _
    (Later.refl.step (.set (some 0) (.identifier ['x']) falseKey true) ⟨proper_named (by decide) rfl, rfl⟩ rfl)
  have hv : v' = copyLiteral falseKey := by
    cases hread
    cases hbound
    rfl
  rw [hv] at hsame
  exact noKeys_other hsame

end Xvr.Runtime
