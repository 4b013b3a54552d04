/-
  Xvr.Runtime.ScopeFrames — the scopes refine a list of frames.

  A frame binds names to a declared type and a value, and points to the frame around it
  (`Frames`). A question is answered by the innermost frame around the given one that
  binds the name; only declaring and setting change a binding, each in one frame
  (`Frames.step_frame`). Values are handed in and out by copy.

  `Related` ties a heap to frames: every cell, freed or not, has the ancestor of its frame
  and two dictionaries that bind the same names, one to the values and one to the types.

  Proved: `scopes_refine_frames`, over every sequence of calls; both sides stop at the same
  call, which is a set whose type check reads a value that is not what the type says.
-/

import Xvr.Runtime.ScopeInv

namespace Xvr.Runtime

open Xvr.Lib.Chains

/-! ## Types -/

mutual

/-- A type literal with the subtypes `checkType` reads, and with type literals for subtypes. -/
def wellFormedType : Literal → Bool
  | .type typeOf _ subtypes =>
    (typeOf != .array || subtypes.length == 1) && (typeOf != .dictionary || subtypes.length == 2) &&
      wellFormedTypes subtypes
  | _ => false

def wellFormedTypes : List Literal → Bool
  | [] => true
  | t :: ts => wellFormedType t && wellFormedTypes ts

end

theorem wellFormedTypes_iff : ∀ {ts : List Literal}, wellFormedTypes ts = true ↔ ∀ t ∈ ts, wellFormedType t = true
  | [] => by simp [wellFormedTypes]
  | t :: ts => by simp [wellFormedTypes, @wellFormedTypes_iff ts]

/-- Copying a type rebuilds it. -/
theorem copy_wellFormed : ∀ (n : Nat) {t : Literal}, wellFormedType t = true → (literalFns n).copy t = t
  | 0, _, _ => rfl
  | n + 1, t, h => by
    cases t <;> simp only [wellFormedType, Bool.and_eq_true, Bool.false_eq_true] at h
    rename_i typeOf constant subtypes
    have hsub := wellFormedTypes_iff.mp h.2
    show Literal.type typeOf constant (subtypes.map (literalFns n).copy) = _
    congr 1
    conv_rhs => rw [← List.map_id subtypes]
    apply List.map_congr_left
    intro t ht
    exact copy_wellFormed n (hsub t ht)

theorem copyLiteral_wellFormed {t : Literal} (h : wellFormedType t = true) : copyLiteral t = t := copy_wellFormed _ h

/-! ## Frames -/

structure Binding where
  type : Literal
  value : Literal

def Binding.copied (b : Binding) : Binding := { b with value := copyLiteral b.value }

structure Frame where
  around : Option Nat
  binding : Literal → Option Binding

/-- Every frame ever made, and the handles that have not been given back. -/
structure Frames where
  frames : List Frame
  unpopped : List Nat

namespace Frames

def init : Frames := ⟨[], []⟩

variable (f : Frames)

def around (p : Nat) : Option Nat := f.frames[p]?.bind Frame.around

def binding (p : Nat) (name : Literal) : Option Binding := f.frames[p]?.bind fun frame => frame.binding name

/-- A frame and the frames around it, innermost first. -/
def enclosing (handle : Option Nat) : List Nat := handle.elim [] (chain f.around)

/-- The innermost enclosing frame that declares the name. -/
def innermost (handle : Option Nat) (name : Literal) : Option Nat :=
  (f.enclosing handle).find? fun p => (f.binding p name).isSome

def lookup (handle : Option Nat) (name : Literal) : Option Binding :=
  (f.innermost handle name).bind fun p => f.binding p name

def rebind (p : Nat) (name : Literal) (b : Binding) : Frames :=
  { f with frames := f.frames.modify p fun frame =>
      { frame with binding := fun q => if literalsAreEqual q name then some b else frame.binding q } }

def make (frame : Frame) : Frames := ⟨f.frames ++ [frame], f.frames.length :: f.unpopped⟩

def step : Call → Option (Frames × Answer)
  | .push ancestor => some (f.make ⟨ancestor, fun _ => none⟩, .scope (some f.frames.length))
  | .copy original =>
    some (f.make ⟨f.around original, fun name => (f.binding original name).map Binding.copied⟩,
      .scope (some f.frames.length))
  | .pop handle => some ({ f with unpopped := handle.elim f.unpopped f.unpopped.erase }, .scope (handle.bind f.around))
  | .declare p name type =>
    if (f.binding p name).isSome || !type.isType then some (f, .flag false)
    else some (f.rebind p name ⟨type, .null⟩, .flag true)
  | .isDeclared handle name => some (f, .flag (f.lookup handle name).isSome)
  | .set handle name value constCheck =>
    match f.innermost handle name, f.lookup handle name with
    | some p, some b =>
      (checkType constCheck b.type (copyLiteral b.value) value).map fun conforms =>
        if conforms then (f.rebind p name { b with value := copyLiteral value }, .flag true) else (f, .flag false)
    | _, _ => some (f, .flag false)
  | .get handle name => some (f, .value ((f.lookup handle name).map fun b => copyLiteral b.value))
  | .getType handle name => some (f, .type ((f.lookup handle name).elim .null Binding.type))

def run (f : Frames) : List Call → Option (Frames × List Answer)
  | [] => some (f, [])
  | call :: calls => do
    let (f, answer) ← f.step call
    let (f, answers) ← run f calls
    return (f, answer :: answers)

/-- Calls on unpopped handles, with names of the set and types that are well formed. -/
def Proper (S : Literal → Prop) (call : Call) : Prop :=
  (∀ p ∈ call.handle, p ∈ f.unpopped) ∧ (∀ name ∈ call.key, S name) ∧
    ∀ p name type, call = .declare p name type → type.isType = true → wellFormedType type = true

/-- Every call of the run is proper in the state it is made in. -/
def ProperRun (S : Literal → Prop) (f : Frames) : List Call → Prop
  | [] => True
  | call :: calls => f.Proper S call ∧ ∀ f' answer, f.step call = some (f', answer) → ProperRun S f' calls

/-! ## What a call does to the frames -/

variable {f}

theorem around_make (frame : Frame) (p : Nat) :
    (f.make frame).around p = if p = f.frames.length then frame.around else f.around p := by
  rw [around, around, make]
  by_cases hp : p < f.frames.length
  · rw [List.getElem?_append_left hp, if_neg (by omega)]
  · rw [List.getElem?_append_right (by omega)]
    by_cases he : p = f.frames.length
    · simp [he]
    · rw [if_neg he, List.getElem?_eq_none (by simp; omega), List.getElem?_eq_none (by omega)]

theorem binding_make (frame : Frame) (p : Nat) (name : Literal) :
    (f.make frame).binding p name = if p = f.frames.length then frame.binding name else f.binding p name := by
  rw [binding, binding, make]
  by_cases hp : p < f.frames.length
  · rw [List.getElem?_append_left hp, if_neg (by omega)]
  · rw [List.getElem?_append_right (by omega)]
    by_cases he : p = f.frames.length
    · simp [he]
    · rw [if_neg he, List.getElem?_eq_none (by simp; omega), List.getElem?_eq_none (by omega)]

theorem around_rebind (p : Nat) (name : Literal) (b : Binding) : (f.rebind p name b).around = f.around := by
  funext s
  rw [around, around, rebind, List.getElem?_modify]
  cases f.frames[s]? with
  | none => rfl
  | some frame => by_cases hs : p = s <;> simp [hs]

theorem binding_rebind {p : Nat} (hp : p < f.frames.length) (name : Literal) (b : Binding) (s : Nat) (q : Literal) :
    (f.rebind p name b).binding s q = if s = p ∧ literalsAreEqual q name = true then some b else f.binding s q := by
  rw [binding, binding, rebind, List.getElem?_modify]
  by_cases hs : p = s
  · subst hs
    rw [List.getElem?_eq_getElem hp]
    by_cases hq : literalsAreEqual q name = true <;> simp [hq]
  · simp [hs, Ne.symm hs]

theorem binding_rebind_ne {p s : Nat} {name q : Literal} (h : ¬ (s = p ∧ literalsAreEqual q name = true)) (b : Binding) :
    (f.rebind p name b).binding s q = f.binding s q := by
  by_cases hp : p < f.frames.length
  · rw [binding_rebind hp, if_neg h]
  · rw [binding, binding, rebind, List.getElem?_modify]
    by_cases hs : p = s
    · subst hs; simp [List.getElem?_eq_none (Nat.le_of_not_lt hp)]
    · simp [hs]

@[simp] theorem length_rebind (p : Nat) (name : Literal) (b : Binding) :
    (f.rebind p name b).frames.length = f.frames.length := List.length_modify ..

theorem lt_of_binding {p : Nat} {name : Literal} {b : Binding} (h : f.binding p name = some b) :
    p < f.frames.length := by
  by_contra hp
  rw [binding, List.getElem?_eq_none (by omega)] at h
  cases h

theorem lookup_innermost {handle : Option Nat} {name : Literal} {p : Nat} (h : f.innermost handle name = some p) :
    ∃ b, f.lookup handle name = some b ∧ f.binding p name = some b := by
  have hp := List.find?_some h
  obtain ⟨b, hb⟩ := Option.isSome_iff_exists.mp hp
  exact ⟨b, by rw [lookup, h, Option.bind_some, hb], hb⟩

theorem lookup_absent {handle : Option Nat} {name : Literal} (h : f.innermost handle name = none) :
    f.lookup handle name = none := by rw [lookup, h]; rfl

/-- No call changes which frame is around another, and the only bindings that change are
    those of the name declared in the frame declared in, and of the name set in the
    innermost frame that declares it, when the call answers true. -/
theorem step_frame {f' : Frames} {call : Call} {answer : Answer} (h : f.step call = some (f', answer)) {p : Nat}
    (hp : p < f.frames.length) (q : Literal) :
    f'.around p = f.around p ∧ (f'.binding p q = f.binding p q ∨ answer = .flag true ∧
      ((∃ name type, call = .declare p name type ∧ literalsAreEqual q name = true) ∨
        ∃ handle name value constCheck, call = .set handle name value constCheck ∧
          f.innermost handle name = some p ∧ literalsAreEqual q name = true)) := by
  cases call with
  | push ancestor =>
    cases h
    rw [around_make, binding_make, if_neg (by omega), if_neg (by omega)]
    exact ⟨rfl, .inl rfl⟩
  | copy original =>
    cases h
    rw [around_make, binding_make, if_neg (by omega), if_neg (by omega)]
    exact ⟨rfl, .inl rfl⟩
  | pop handle => cases h; exact ⟨rfl, .inl rfl⟩
  | declare d name type =>
    simp only [step] at h
    split at h
    · cases h; exact ⟨rfl, .inl rfl⟩
    · cases h
      refine ⟨by rw [around_rebind], ?_⟩
      by_cases hd : p = d ∧ literalsAreEqual q name = true
      · exact .inr ⟨rfl, .inl ⟨name, type, by rw [hd.1], hd.2⟩⟩
      · exact .inl (binding_rebind_ne hd _)
  | isDeclared handle name => cases h; exact ⟨rfl, .inl rfl⟩
  | get handle name => cases h; exact ⟨rfl, .inl rfl⟩
  | getType handle name => cases h; exact ⟨rfl, .inl rfl⟩
  | set handle name value constCheck =>
    cases hi : f.innermost handle name with
    | none =>
      simp only [step, hi, Option.some.injEq, Prod.mk.injEq] at h
      obtain ⟨rfl, _⟩ := h
      exact ⟨rfl, .inl rfl⟩
    | some d =>
      obtain ⟨b, hb, hd⟩ := lookup_innermost hi
      simp only [step, hi, hb, Option.map_eq_some_iff] at h
      obtain ⟨conforms, _, hs⟩ := h
      cases conforms with
      | false => cases hs; exact ⟨rfl, .inl rfl⟩
      | true =>
        cases hs
        refine ⟨by rw [around_rebind], ?_⟩
        by_cases hp' : p = d ∧ literalsAreEqual q name = true
        · exact .inr ⟨rfl, .inr ⟨handle, name, value, constCheck, rfl, by rw [hp'.1, hi], hp'.2⟩⟩
        · exact .inl (binding_rebind_ne hp' _)

end Frames

/-! ## The simulation -/

variable {S : Literal → Prop}

open Heap

structure Related (S : Literal → Prop) (w : World) (f : Frames) : Prop where
  sound : Sound S w
  unpopped : w.unpopped = f.unpopped
  length : w.heap.length = f.frames.length
  around : w.heap.parent = f.around
  vars : ∀ (s : Nat) (c : Cell), w.heap[s]? = some c → ∀ q, S q →
    bound realFns c.scope.vars q = (f.binding s q).map Binding.value
  types : ∀ (s : Nat) (c : Cell), w.heap[s]? = some c → ∀ q, S q →
    bound realFns c.scope.types q = (f.binding s q).map Binding.type
  wellFormed : ∀ (s : Nat) (q : Literal) (b : Binding), f.binding s q = some b → wellFormedType b.type = true

namespace Related

variable {w : World} {f : Frames}

theorem init : Related S World.init Frames.init where
  sound := Sound.init
  unpopped := rfl
  length := rfl
  around := rfl
  vars := by simp [World.init]
  types := by simp [World.init]
  wellFormed := by simp [Frames.init, Frames.binding]

theorem binds_vars (h : Related S w f) {s : Nat} {scope : Scope} (hread : w.heap.read s = some scope) {q : Literal}
    (hq : S q) : w.heap.binds Scope.vars q s = (f.binding s q).isSome := by
  rw [Heap.binds, hread, Option.any_some, h.vars s _ (read_eq.mp hread) q hq, Option.isSome_map]

theorem binds_types (h : Related S w f) {s : Nat} {scope : Scope} (hread : w.heap.read s = some scope) {q : Literal}
    (hq : S q) : w.heap.binds Scope.types q s = (f.binding s q).isSome := by
  rw [Heap.binds, hread, Option.any_some, h.types s _ (read_eq.mp hread) q hq, Option.isSome_map]

/-- The scopes on the chain of an unpopped handle are in use. -/
theorem live (h : Related S w f) {handle : Option Nat} (hp : ∀ p ∈ handle, p ∈ f.unpopped) {s : Nat}
    (hs : s ∈ f.enclosing handle) : ∃ scope, w.heap.read s = some scope := by
  cases handle with
  | none => simp [Frames.enclosing] at hs
  | some p =>
    have hq : p ∈ w.unpopped := by rw [h.unpopped]; exact hp p rfl
    apply h.sound.live hq s
    rw [h.around]
    exact hs

theorem live_chain (h : Related S w f) {handle : Option Nat} (hp : ∀ p ∈ handle, p ∈ f.unpopped) :
    ∀ p ∈ handle, w.heap.LiveChain p := by
  intro p hm
  apply h.sound.live
  rw [h.unpopped]
  exact hp p hm

theorem chainFrom_eq (h : Related S w f) (handle : Option Nat) : w.heap.chainFrom handle = f.enclosing handle := by
  rw [chainFrom, Frames.enclosing, h.around]

/-- Both searches stop at the innermost frame. -/
theorem owner_eq (h : Related S w f) {handle : Option Nat} (hp : ∀ p ∈ handle, p ∈ f.unpopped) {q : Literal}
    (hq : S q) : w.heap.owner handle q = f.innermost handle q := by
  rw [owner, Frames.innermost, h.chainFrom_eq]
  apply List.find?_congr
  intro s hs
  obtain ⟨scope, hread⟩ := h.live hp hs
  exact h.binds_vars hread hq

theorem owner_types_eq (h : Related S w f) {handle : Option Nat} (hp : ∀ p ∈ handle, p ∈ f.unpopped) {q : Literal}
    (hq : S q) : (w.heap.chainFrom handle).find? (w.heap.binds Scope.types q) = f.innermost handle q := by
  rw [Frames.innermost, h.chainFrom_eq]
  apply List.find?_congr
  intro s hs
  obtain ⟨scope, hread⟩ := h.live hp hs
  exact h.binds_types hread hq

theorem get_vars (hS : VariableKeys S) (h : Related S w f) {s : Nat} {scope : Scope}
    (hread : w.heap.read s = some scope) {q : Literal} (hq : S q) {b : Binding} (hb : f.binding s q = some b) :
    getLiteralDictionary realFns scope.vars q = copyLiteral b.value := by
  rw [table_get hS.toKeyEquiv (h.sound.vars_table s scope hread) hq (hS.accepted q hq),
    h.vars s _ (read_eq.mp hread) q hq, hb]
  rfl

theorem get_types (hS : VariableKeys S) (h : Related S w f) {s : Nat} {scope : Scope}
    (hread : w.heap.read s = some scope) {q : Literal} (hq : S q) {b : Binding} (hb : f.binding s q = some b) :
    getLiteralDictionary realFns scope.types q = b.type := by
  rw [table_get hS.toKeyEquiv (h.sound.types_table s scope hread) hq (hS.accepted q hq),
    h.types s _ (read_eq.mp hread) q hq, hb]
  exact copyLiteral_wellFormed (h.wellFormed s q b hb)

/-- A new cell beside a new frame that binds the same. -/
theorem make (h : Related S w f) {ancestor : Option Nat} {vars types : Dictionary} {heap' : Heap} {frame : Frame}
    (hs : Sound S ⟨heap', w.heap.length :: w.unpopped⟩)
    (hcells : ∀ s : Nat, heap'[s]? = if s = w.heap.length then some ⟨⟨ancestor, 1, vars, types⟩, false⟩
      else w.heap[s]?.map fun c => if s ∈ w.heap.chainFrom ancestor then c.retain else c)
    (ha : frame.around = ancestor) (hv : ∀ q, S q → bound realFns vars q = (frame.binding q).map Binding.value)
    (ht : ∀ q, S q → bound realFns types q = (frame.binding q).map Binding.type)
    (hw : ∀ q b, frame.binding q = some b → wellFormedType b.type = true) :
    Related S ⟨heap', w.heap.length :: w.unpopped⟩ (f.make frame) := by
  refine ⟨hs, ?_, ?_, ?_, ?_, ?_, ?_⟩
  · simp only [Frames.make, h.unpopped, h.length]
  · simp only [Frames.make, length_allocated hcells, h.length, List.length_append, List.length_singleton]
  · rw [parent_allocated (retain_ancestor _) hcells]
    funext s
    rw [parent_append, Frames.around_make, h.length, ha, h.around]
  · intro s c hc q hq
    rw [Frames.binding_make, ← h.length]
    rcases cell_allocated hcells hc with ⟨he, rfl⟩ | ⟨he, c₀, hc₀, rfl⟩
    · rw [if_pos he]
      exact hv q hq
    · rw [if_neg he, (retain_tables _ s c₀).1]
      exact h.vars s c₀ hc₀ q hq
  · intro s c hc q hq
    rw [Frames.binding_make, ← h.length]
    rcases cell_allocated hcells hc with ⟨he, rfl⟩ | ⟨he, c₀, hc₀, rfl⟩
    · rw [if_pos he]
      exact ht q hq
    · rw [if_neg he, (retain_tables _ s c₀).2]
      exact h.types s c₀ hc₀ q hq
  · intro s q b hb
    rw [Frames.binding_make] at hb
    by_cases he : s = f.frames.length
    · rw [if_pos he] at hb; exact hw q b hb
    · rw [if_neg he] at hb; exact h.wellFormed s q b hb

/-- A write that changes what one name is bound to, on both sides. -/
theorem rebind (h : Related S w f) {p : Nat} {scope : Scope} (hread : w.heap.read p = some scope) {vars types : Dictionary}
    (hs : Sound S { w with heap := w.heap.write p { scope with vars, types } }) {name : Literal} {b : Binding}
    (hv : ∀ q, S q → bound realFns vars q =
      if literalsAreEqual q name then some b.value else bound realFns scope.vars q)
    (ht : ∀ q, S q → bound realFns types q =
      if literalsAreEqual q name then some b.type else bound realFns scope.types q)
    (hw : wellFormedType b.type = true) :
    Related S { w with heap := w.heap.write p { scope with vars, types } } (f.rebind p name b) := by
  have hlt := lt_of_read hread
  have hlt' : p < f.frames.length := h.length ▸ hlt
  refine ⟨hs, h.unpopped, ?_, ?_, ?_, ?_, ?_⟩
  · rw [length_write, Frames.length_rebind, h.length]
  · rw [Frames.around_rebind, ← h.around]
    exact parent_write hread rfl
  · intro s c hc q hq
    rw [getElem?_write hlt] at hc
    rw [Frames.binding_rebind hlt']
    by_cases he : s = p
    · rw [if_pos he] at hc
      cases hc
      rw [hv q hq, h.vars p _ (read_eq.mp hread) q hq, he]
      by_cases hqn : literalsAreEqual q name = true <;> simp [hqn]
    · rw [if_neg he] at hc
      simp only [he, false_and, if_false]
      exact h.vars s c hc q hq
  · intro s c hc q hq
    rw [getElem?_write hlt] at hc
    rw [Frames.binding_rebind hlt']
    by_cases he : s = p
    · rw [if_pos he] at hc
      cases hc
      rw [ht q hq, h.types p _ (read_eq.mp hread) q hq, he]
      by_cases hqn : literalsAreEqual q name = true <;> simp [hqn]
    · rw [if_neg he] at hc
      simp only [he, false_and, if_false]
      exact h.types s c hc q hq
  · intro s q b' hb
    rw [Frames.binding_rebind hlt'] at hb
    split at hb
    · cases hb; exact hw
    · exact h.wellFormed s q b' hb

/-- A pop changes no binding, in a cell it frees or in one it does not. -/
theorem release (h : Related S w f) {q : Nat} (hq : q ∈ w.unpopped) {heap' : Heap}
    (hcells : ∀ s : Nat, heap'[s]? = w.heap[s]?.map fun c => if s ∈ chain w.heap.parent q then c.release else c) :
    Related S ⟨heap', w.unpopped.erase q⟩ { f with unpopped := f.unpopped.erase q } := by
  refine ⟨h.sound.popped hq hcells, ?_, ?_, ?_, ?_, ?_, h.wellFormed⟩
  · exact congrArg (fun l => l.erase q) h.unpopped
  · exact (length_mapped hcells).trans h.length
  · exact (parent_mapped (release_ancestor _) hcells).trans h.around
  · intro s c hc k hk
    obtain ⟨c₀, hc₀, rfl⟩ := cell_mapped hcells hc
    rw [(release_tables _ s c₀).1]
    exact h.vars s c₀ hc₀ k hk
  · intro s c hc k hk
    obtain ⟨c₀, hc₀, rfl⟩ := cell_mapped hcells hc
    rw [(release_tables _ s c₀).2]
    exact h.types s c₀ hc₀ k hk

end Related

/-- Both sides stop, or both go on with the same answer. -/
def Lockstep {α : Type} (S : Literal → Prop) : Option (World × α) → Option (Frames × α) → Prop
  | none, none => True
  | some (w, answer), some (f, answer') => answer = answer' ∧ Related S w f
  | _, _ => False

theorem declare_related (hS : VariableKeys S) {w : World} {f : Frames} (h : Related S w f) {p : Nat}
    (hp : p ∈ f.unpopped) {key : Literal} (hk : S key) {type : Literal}
    (hw : type.isType = true → wellFormedType type = true) :
    Lockstep S (w.step (.declare p key type)) (f.step (.declare p key type)) := by
  obtain ⟨scope, vars, types, hread, hv, ht, hstep⟩ := h.sound.declare hS (by rw [h.unpopped]; exact hp) hk type
  have hb : (bound realFns scope.vars key).isSome = (f.binding p key).isSome := by
    rw [h.vars p _ (read_eq.mp hread) key hk, Option.isSome_map]
  rw [hstep, hb, Frames.step]
  cases hc : (f.binding p key).isSome || !type.isType with
  | true => exact ⟨rfl, h⟩
  | false =>
    simp only [Bool.or_eq_false_iff, Bool.not_eq_false'] at hc
    have htype := hw hc.2
    refine ⟨rfl, h.rebind hread ?_ ?_ ?_ htype⟩
    · exact h.sound.write hread rfl rfl hv.1 ht.1
    · exact hv.2
    · have := ht.2
      rwa [copyLiteral_wellFormed htype] at this

theorem set_related (hS : VariableKeys S) {w : World} {f : Frames} (h : Related S w f) {handle : Option Nat}
    (hp : ∀ p ∈ handle, p ∈ f.unpopped) {key : Literal} (hk : S key) (value : Literal) (constCheck : Bool) :
    Lockstep S (w.step (.set handle key value constCheck)) (f.step (.set handle key value constCheck)) := by
  have howner := h.owner_eq hp hk
  have hp' : ∀ p ∈ handle, p ∈ w.unpopped := by rw [h.unpopped]; exact hp
  rcases h.sound.set hS hp' hk value constCheck with ⟨hno, hstep⟩ | ⟨p, scope, vars, hyes, hread, hv, hstep⟩
  · rw [howner] at hno
    rw [hstep, Frames.step, hno]
    exact ⟨rfl, h⟩
  · rw [howner] at hyes
    obtain ⟨b, hb, hbind⟩ := Frames.lookup_innermost hyes
    rw [hstep, Frames.step, hyes, hb, h.get_vars hS hread hk hbind, h.get_types hS hread hk hbind]
    show Lockstep S (Option.map _ (checkType constCheck b.type (copyLiteral b.value) value))
      (Option.map _ (checkType constCheck b.type (copyLiteral b.value) value))
    cases checkType constCheck b.type (copyLiteral b.value) value with
    | none => trivial
    | some conforms =>
      cases conforms with
      | false => exact ⟨rfl, h⟩
      | true =>
        refine ⟨rfl, h.rebind (b := { b with value := copyLiteral value }) hread ?_ hv.2 ?_ (h.wellFormed p key b hbind)⟩
        · exact h.sound.write hread rfl rfl hv.1 (h.sound.types_table p scope hread)
        · intro q hq
          by_cases hqk : literalsAreEqual q key = true
          · rw [if_pos hqk, bound_congr hS.toKeyEquiv (h.sound.types_table p scope hread) hq hk hqk,
              h.types p _ (read_eq.mp hread) key hk, hbind]
            rfl
          · rw [if_neg hqk]

section Step

variable (hS : VariableKeys S) {w : World} {f : Frames} (h : Related S w f) {handle : Option Nat}
  (hp : ∀ p ∈ handle, p ∈ f.unpopped) {key : Literal} (hk : S key)

include h

theorem push_related {ancestor : Option Nat} (ha : ∀ a ∈ ancestor, a ∈ f.unpopped) :
    Lockstep S (w.step (.push ancestor)) (f.step (.push ancestor)) := by
  have hl := h.live_chain ha
  rw [← h.unpopped] at ha
  obtain ⟨heap', hstep, hcells⟩ := h.sound.push ha
  rw [hstep, h.length]
  refine ⟨rfl, ?_⟩
  rw [← h.length]
  refine h.make (h.sound.allocated hl table_init table_init hcells) hcells rfl ?_ ?_ nofun
  · intro q _; exact bound_init q
  · intro q _; exact bound_init q

include hS in
theorem copy_related {original : Nat} (ho : original ∈ f.unpopped) :
    Lockstep S (w.step (.copy original)) (f.step (.copy original)) := by
  rw [← h.unpopped] at ho
  obtain ⟨source, vars, types, heap', hread, hv, ht, hstep, hcells⟩ := h.sound.copy hS ho
  rw [hstep, h.length]
  refine ⟨rfl, ?_⟩
  rw [← h.length]
  have haround : f.around original = source.ancestor := by rw [← h.around]; exact parent_of_read hread
  refine h.make ?_ hcells haround ?_ ?_ ?_
  · refine h.sound.allocated ?_ hv.1 ht.1 hcells
    intro a hm
    exact (h.sound.live ho).ancestor h.sound.older ((parent_of_read hread).trans hm)
  · intro q hq
    rw [hv.2 q hq, h.vars original _ (read_eq.mp hread) q hq, Option.map_map, Option.map_map]
    rfl
  · intro q hq
    rw [ht.2 q hq, h.types original _ (read_eq.mp hread) q hq]
    show _ = ((f.binding original q).map Binding.copied).map Binding.type
    cases hb : f.binding original q with
    | none => rfl
    | some b =>
      simp only [Option.map_some, copyLiteral_wellFormed (h.wellFormed original q b hb)]
      rfl
  · intro q b hb
    obtain ⟨b₀, hb₀, rfl⟩ := Option.map_eq_some_iff.mp hb
    exact h.wellFormed original q b₀ hb₀

include hp in
theorem pop_related : Lockstep S (w.step (.pop handle)) (f.step (.pop handle)) := by
  rw [← h.unpopped] at hp
  cases handle with
  | none => exact ⟨rfl, h⟩
  | some q =>
    obtain ⟨heap', hstep, hcells⟩ := h.sound.pop (hp q rfl)
    rw [hstep]
    exact ⟨by rw [h.around]; rfl, h.release (hp q rfl) hcells⟩

include hS hp hk

theorem isDeclared_related : Lockstep S (w.step (.isDeclared handle key)) (f.step (.isDeclared handle key)) := by
  rw [World.step, isDeclaredScopeVariable_spec hS h.sound.older h.sound.vars_table (h.live_chain hp) hk, Frames.step]
  refine ⟨?_, h⟩
  rw [h.owner_eq hp hk]
  cases hi : f.innermost handle key with
  | none => rw [Frames.lookup_absent hi]; rfl
  | some p =>
    obtain ⟨b, hb, _⟩ := Frames.lookup_innermost hi
    rw [hb]
    rfl

theorem get_related : Lockstep S (w.step (.get handle key)) (f.step (.get handle key)) := by
  rw [World.step, getScopeVariable_spec hS h.sound.older h.sound.vars_table (h.live_chain hp) hk, Frames.step]
  refine ⟨?_, h⟩
  rw [h.owner_eq hp hk]
  cases hi : f.innermost handle key with
  | none => rw [Frames.lookup_absent hi]; rfl
  | some p =>
    obtain ⟨b, hb, hbind⟩ := Frames.lookup_innermost hi
    obtain ⟨scope, hread⟩ := h.live hp (List.mem_of_find?_eq_some hi)
    rw [hb, Option.bind_some, hread, Option.map_some, h.get_vars hS hread hk hbind]
    rfl

theorem getType_related : Lockstep S (w.step (.getType handle key)) (f.step (.getType handle key)) := by
  rw [World.step, getScopeType, findScope_spec hS hk h.sound.older h.sound.types_table (h.live_chain hp), h.owner_types_eq hp hk,
    Frames.step]
  cases hi : f.innermost handle key with
  | none => rw [Frames.lookup_absent hi]; exact ⟨rfl, h⟩
  | some p =>
    obtain ⟨b, hb, hbind⟩ := Frames.lookup_innermost hi
    obtain ⟨scope, hread⟩ := h.live hp (List.mem_of_find?_eq_some hi)
    have htype := h.get_types hS hread hk hbind
    rw [hb]
    simp only [Option.bind_eq_bind, Option.bind_some, hread, Option.pure_def, htype]
    exact ⟨rfl, h⟩

end Step

/-- One call. -/
theorem step_related (hS : VariableKeys S) {w : World} {f : Frames} (h : Related S w f) {call : Call}
    (hc : f.Proper S call) : Lockstep S (w.step call) (f.step call) := by
  obtain ⟨hp, hk, hw⟩ := hc
  cases call with
  | push ancestor => exact push_related h hp
  | copy original => exact copy_related hS h (hp original rfl)
  | pop handle => exact pop_related h hp
  | declare p key type => exact declare_related hS h (hp p rfl) (hk key rfl) (hw p key type rfl)
  | set handle key value constCheck => exact set_related hS h hp (hk key rfl) value constCheck
  | isDeclared handle key => exact isDeclared_related hS h hp (hk key rfl)
  | get handle key => exact get_related hS h hp (hk key rfl)
  | getType handle key => exact getType_related hS h hp (hk key rfl)

theorem run_related (hS : VariableKeys S) (calls : List Call) : ∀ {w : World} {f : Frames}, Related S w f →
    f.ProperRun S calls → Lockstep S (w.run calls) (f.run calls) := by
  induction calls with
  | nil => intro w f h _; exact ⟨rfl, h⟩
  | cons call calls ih =>
    intro w f h hc
    have hstep := step_related hS h hc.1
    cases hw : w.step call with
    | none =>
      cases hf : f.step call with
      | none => simp [World.run, Frames.run, hw, hf, Lockstep]
      | some r => rw [hw, hf] at hstep; exact hstep.elim
    | some r =>
      obtain ⟨w₁, answer⟩ := r
      cases hf : f.step call with
      | none => rw [hw, hf] at hstep; exact hstep.elim
      | some r' =>
        obtain ⟨f₁, answer'⟩ := r'
        rw [hw, hf] at hstep
        obtain ⟨rfl, h₁⟩ := hstep
        have hrest := ih h₁ (hc.2 f₁ answer hf)
        simp only [World.run, Frames.run, hw, hf, Option.bind_eq_bind, Option.bind_some]
        cases hw' : w₁.run calls with
        | none =>
          cases hf' : f₁.run calls with
          | none => trivial
          | some r => rw [hw', hf'] at hrest; exact hrest.elim
        | some r =>
          cases hf' : f₁.run calls with
          | none => rw [hw', hf'] at hrest; exact hrest.elim
          | some r' =>
            rw [hw', hf'] at hrest
            exact ⟨by rw [hrest.1], hrest.2⟩

/-- The dictionaries of a scope hold what its frame binds, the same names in both. -/
structure Scope.Shows (S : Literal → Prop) (scope : Scope) (f : Frames) (p : Nat) : Prop where
  ancestor : scope.ancestor = f.around p
  declared : ∀ name, S name → existsLiteralDictionary realFns scope.vars name = some (f.binding p name).isSome
  typed : ∀ name, S name → existsLiteralDictionary realFns scope.types name = some (f.binding p name).isSome
  value : ∀ name b, S name → f.binding p name = some b →
    getLiteralDictionary realFns scope.vars name = copyLiteral b.value
  type : ∀ name b, S name → f.binding p name = some b → getLiteralDictionary realFns scope.types name = b.type

theorem Related.shows (hS : VariableKeys S) {w : World} {f : Frames} (h : Related S w f) {p : Nat} {scope : Scope}
    (hread : w.heap.read p = some scope) : scope.Shows S f p where
  ancestor := by rw [← h.around, parent_of_read hread]
  declared name hn := by
    rw [table_has hS.toKeyEquiv (h.sound.vars_table p scope hread) hn, h.vars p _ (read_eq.mp hread) name hn,
      Option.isSome_map]
  typed name hn := by
    rw [table_has hS.toKeyEquiv (h.sound.types_table p scope hread) hn, h.types p _ (read_eq.mp hread) name hn,
      Option.isSome_map]
  value _ _ hn hb := h.get_vars hS hread hn hb
  type _ _ hn hb := h.get_types hS hread hn hb

/-- The same answers, and every frame around an unpopped handle shown by a scope in use;
    or both stop. -/
def RunsMatch (S : Literal → Prop) : Option (World × List Answer) → Option (Frames × List Answer) → Prop
  | none, none => True
  | some (w, answers), some (f, answers') =>
    answers = answers' ∧ w.unpopped = f.unpopped ∧
      ∀ q ∈ f.unpopped, ∀ p ∈ f.enclosing (some q), ∃ scope, w.heap.read p = some scope ∧ scope.Shows S f p
  | _, _ => False

/-- Every sequence of calls on the scopes does what it does on the frames, where no call
    changes which frame is around another, and a binding changes only where a declare or
    a set answers true: in the frame declared in, in the innermost frame that binds the
    name set, and for that name. -/
theorem scopes_refine_frames (S : Literal → Prop) (hS : VariableKeys S) (calls : List Call)
    (h : Frames.init.ProperRun S calls) :
    RunsMatch S (World.init.run calls) (Frames.init.run calls) ∧
    ∀ (f f' : Frames) (call : Call) (answer : Answer), f.step call = some (f', answer) →
      ∀ p < f.frames.length, ∀ q, f'.around p = f.around p ∧ (f'.binding p q = f.binding p q ∨ answer = .flag true ∧
        ((∃ name type, call = .declare p name type ∧ literalsAreEqual q name = true) ∨
          ∃ handle name value constCheck, call = .set handle name value constCheck ∧
            f.innermost handle name = some p ∧ literalsAreEqual q name = true)) := by
  refine ⟨?_, fun f f' call answer hstep p hp q => Frames.step_frame hstep hp q⟩
  have hrun := run_related hS calls Related.init h
  cases hw : World.init.run calls with
  | none =>
    cases hf : Frames.init.run calls with
    | none => trivial
    | some r => rw [hw, hf] at hrun; exact hrun.elim
  | some r =>
    cases hf : Frames.init.run calls with
    | none => rw [hw, hf] at hrun; exact hrun.elim
    | some r' =>
      rw [hw, hf] at hrun
      obtain ⟨hanswers, hrel⟩ := hrun
      refine ⟨hanswers, hrel.unpopped, ?_⟩
      intro q hq p hp
      have hu : ∀ x ∈ some q, x ∈ r'.1.unpopped := by
        intro x hx
        cases hx
        exact hq
      obtain ⟨scope, hread⟩ := hrel.live hu hp
      exact ⟨scope, hread, hrel.shows hS hread⟩

theorem Frames.properRun_cons {f f₁ : Frames} {call : Call} {a : Answer} {calls : List Call} (hc : f.Proper S call)
    (hstep : f.step call = some (f₁, a)) (hrest : f₁.ProperRun S calls) : f.ProperRun S (call :: calls) := by
  refine ⟨hc, ?_⟩
  intro f' answer h
  rw [hstep] at h
  cases h
  exact hrest

/-- A name declared in an outer scope and shadowed in an inner one. -/
theorem scopes_refine_frames_shadowing :
    RunsMatch IdentifierKey
      (World.init.run [.push none, .declare 0 (.identifier ['x']) (.type .integer false []), .push (some 0),
        .declare 1 (.identifier ['x']) (.type .string false []), .getType (some 1) (.identifier ['x']), .pop (some 1),
        .getType (some 0) (.identifier ['x'])])
      (Frames.init.run [.push none, .declare 0 (.identifier ['x']) (.type .integer false []), .push (some 0),
        .declare 1 (.identifier ['x']) (.type .string false []), .getType (some 1) (.identifier ['x']), .pop (some 1),
        .getType (some 0) (.identifier ['x'])]) := by
  have hx : ∀ name ∈ some (Literal.identifier ['x']), IdentifierKey name := by
    rintro _ ⟨⟩
    exact ⟨['x'], by decide, rfl⟩
  have hno : ∀ name ∈ (none : Option Literal), IdentifierKey name := by simp
  apply (scopes_refine_frames IdentifierKey identifier_variableKeys _ _).1
  refine Frames.properRun_cons ⟨by decide, hno, by simp⟩ rfl ?_
  refine Frames.properRun_cons ⟨by decide, hx, by rintro _ _ _ ⟨⟩ _; rfl⟩ rfl ?_
  refine Frames.properRun_cons ⟨by decide, hno, by simp⟩ rfl ?_
  refine Frames.properRun_cons ⟨by decide, hx, by rintro _ _ _ ⟨⟩ _; rfl⟩ rfl ?_
  refine Frames.properRun_cons ⟨by decide, hx, by simp⟩ rfl ?_
  refine Frames.properRun_cons ⟨by decide, hno, by simp⟩ rfl ?_
  refine Frames.properRun_cons ⟨by decide, hx, by simp⟩ rfl ?_
  trivial

end Xvr.Runtime
