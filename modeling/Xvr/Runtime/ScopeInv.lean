/-
  Xvr.Runtime.ScopeInv — the invariant of the scopes' heap.

  `Sound`: every ancestor is an older cell; the references of a cell are the unpopped
  scopes with the cell on their chain, and it is freed when there are none; and both
  dictionaries of every cell are tables over the keys the variables may have.

  Proved: what each operation does to the cells (`tickUp_spec`, `freeAncestorChain_spec`,
  `findScope_spec`), that every call keeps the invariant (`step_sound`), and over runs
  `scope_references`.
-/

import Xvr.Lib.Chains
import Xvr.Runtime.DictionaryTable
import Xvr.Runtime.Scope

namespace Xvr.Runtime

open Xvr.Lib.Chains

/-- Keys a dictionary accepts and keeps apart. -/
structure VariableKeys (S : Literal → Prop) : Prop extends KeyEquiv realFns S where
  accepted : ∀ key : Literal, S key → rejectedKey key = false

/-! ## Cells -/

namespace Cell

def retain (c : Cell) : Cell := { c with scope := { c.scope with references := c.scope.references + 1 } }

def release (c : Cell) : Cell :=
  ⟨{ c.scope with references := c.scope.references - 1 }, decide (c.scope.references ≤ 1)⟩

end Cell

theorem retain_ancestor (nodes : List Nat) (s : Nat) (c : Cell) :
    (if s ∈ nodes then c.retain else c).scope.ancestor = c.scope.ancestor := by
  split <;> rfl

theorem retain_tables (nodes : List Nat) (s : Nat) (c : Cell) :
    (if s ∈ nodes then c.retain else c).scope.vars = c.scope.vars ∧
      (if s ∈ nodes then c.retain else c).scope.types = c.scope.types := by
  split <;> exact ⟨rfl, rfl⟩

theorem release_tables (nodes : List Nat) (s : Nat) (c : Cell) :
    (if s ∈ nodes then c.release else c).scope.vars = c.scope.vars ∧
      (if s ∈ nodes then c.release else c).scope.types = c.scope.types := by
  split <;> exact ⟨rfl, rfl⟩

theorem release_ancestor (nodes : List Nat) (s : Nat) (c : Cell) :
    (if s ∈ nodes then c.release else c).scope.ancestor = c.scope.ancestor := by
  split <;> rfl

namespace Heap

theorem read_eq {heap : Heap} {p : Nat} {scope : Scope} :
    heap.read p = some scope ↔ heap[p]? = some ⟨scope, false⟩ := by
  rw [read]
  cases hc : heap[p]? with
  | none => simp
  | some c =>
    obtain ⟨s, freed⟩ := c
    cases freed <;> simp

theorem lt_of_read {heap : Heap} {p : Nat} {scope : Scope} (h : heap.read p = some scope) : p < heap.length :=
  (List.getElem?_eq_some_iff.mp (read_eq.mp h)).1

@[simp] theorem length_write (heap : Heap) (p : Nat) (scope : Scope) : (heap.write p scope).length = heap.length :=
  List.length_set

@[simp] theorem length_free (heap : Heap) (p : Nat) : (heap.free p).length = heap.length :=
  List.length_modify ..

theorem getElem?_write {heap : Heap} {p : Nat} (h : p < heap.length) (scope : Scope) (s : Nat) :
    (heap.write p scope)[s]? = if s = p then some ⟨scope, false⟩ else heap[s]? := by
  rw [write, List.getElem?_set]
  by_cases hs : p = s
  · subst hs; simp [h]
  · simp [hs, Ne.symm hs]

theorem read_write {heap : Heap} {p : Nat} (h : p < heap.length) (scope : Scope) (s : Nat) :
    (heap.write p scope).read s = if s = p then some scope else heap.read s := by
  by_cases hs : s = p
  · rw [if_pos hs, read_eq, getElem?_write h, if_pos hs]
  · rw [if_neg hs, read, read, getElem?_write h, if_neg hs]

theorem getElem?_free (heap : Heap) (p s : Nat) :
    (heap.free p)[s]? = if s = p then heap[s]?.map fun c => { c with freed := true } else heap[s]? := by
  rw [free, List.getElem?_modify]
  by_cases hs : p = s
  · subst hs; simp
  · simp [hs, Ne.symm hs]

/-- Cells that keep their ancestors keep the forest. -/
theorem parent_congr {heap heap' : Heap}
    (h : ∀ s : Nat, heap'[s]?.map (fun c : Cell => c.scope.ancestor) = heap[s]?.map fun c : Cell => c.scope.ancestor) :
    heap'.parent = heap.parent := by
  funext s
  have hs := h s
  rw [parent, parent]
  cases h1 : heap'[s]? <;> cases h2 : heap[s]? <;> simp_all

theorem parent_mapped {heap heap' : Heap} {g : Nat → Cell → Cell}
    (hg : ∀ (s : Nat) (c : Cell), (g s c).scope.ancestor = c.scope.ancestor)
    (h : ∀ s : Nat, heap'[s]? = heap[s]?.map (g s)) : heap'.parent = heap.parent := by
  apply parent_congr
  intro s
  rw [h s, Option.map_map]
  congr 1
  funext c
  exact hg s c

theorem length_mapped {heap heap' : Heap} {g : Nat → Cell → Cell} (h : ∀ s : Nat, heap'[s]? = heap[s]?.map (g s)) :
    heap'.length = heap.length := by
  apply Nat.le_antisymm
  · rw [← List.getElem?_eq_none_iff, h, List.getElem?_eq_none (Nat.le_refl _)]
    rfl
  · rw [← List.getElem?_eq_none_iff, ← Option.map_eq_none_iff, ← h]
    exact List.getElem?_eq_none (Nat.le_refl _)

theorem parent_write {heap : Heap} {p : Nat} {scope scope' : Scope} (h : heap.read p = some scope)
    (ha : scope'.ancestor = scope.ancestor) : (heap.write p scope').parent = heap.parent := by
  apply parent_congr
  intro s
  rw [getElem?_write (lt_of_read h)]
  by_cases hs : s = p
  · subst hs; simp [read_eq.mp h, ha]
  · rw [if_neg hs]

theorem parent_of_read {heap : Heap} {p : Nat} {scope : Scope} (h : heap.read p = some scope) :
    heap.parent p = scope.ancestor := by
  rw [parent, read_eq.mp h]; rfl

/-- The cells of a chain are in use. -/
def LiveChain (heap : Heap) (p : Nat) : Prop := ∀ s ∈ chain heap.parent p, ∃ scope, heap.read s = some scope

theorem LiveChain.self {heap : Heap} {p : Nat} (h : heap.LiveChain p) (ho : Older heap.parent) :
    ∃ scope, heap.read p = some scope := h p (mem_chain_self ho p)

theorem LiveChain.ancestor {heap : Heap} {p a : Nat} (h : heap.LiveChain p) (ho : Older heap.parent)
    (ha : heap.parent p = some a) : heap.LiveChain a := by
  intro s hs
  apply h
  rw [chain_child ho ha]
  exact List.mem_cons_of_mem _ hs

/-- A write to a younger cell does not touch a chain. -/
theorem LiveChain.write {heap : Heap} {p a : Nat} {scope scope' : Scope} (h : heap.LiveChain a)
    (ho : Older heap.parent) (hp : heap.read p = some scope) (ha : scope'.ancestor = scope.ancestor) (hap : a < p) :
    (heap.write p scope').LiveChain a := by
  intro s hs
  rw [parent_write hp ha] at hs
  rw [read_write (lt_of_read hp), if_neg]
  · exact h s hs
  · rintro rfl
    exact not_mem_chain_of_lt ho hap hs

end Heap

open Heap

/-! ## Walks along a chain -/

theorem tickUp_spec {n : Nat} : ∀ {heap : Heap} {p : Nat}, Older heap.parent → heap.LiveChain p → p < n →
    ∃ heap', tickUp n heap (some p) = some heap' ∧
      ∀ s : Nat, heap'[s]? = heap[s]?.map fun c => if s ∈ chain heap.parent p then c.retain else c := by
  induction n with
  | zero => intro heap p _ _ hp; omega
  | succ n ih =>
    intro heap p ho hl hp
    obtain ⟨scope, hread⟩ := hl.self ho
    have hlt := lt_of_read hread
    have hpar := parent_of_read hread
    have hsame : (heap.write p { scope with references := scope.references + 1 }).parent = heap.parent :=
      parent_write hread rfl
    cases ha : scope.ancestor with
    | none =>
      rw [ha] at hpar
      refine ⟨heap.write p { scope with references := scope.references + 1 }, by simp [tickUp, hread, ha], ?_⟩
      intro s
      rw [getElem?_write hlt, chain_root ho hpar]
      by_cases hs : s = p
      · subst hs; simp [read_eq.mp hread, Cell.retain, ha]
      · simp [hs]
    | some a =>
      rw [ha] at hpar
      have hap := ho hpar
      have ho' : Older (heap.write p { scope with references := scope.references + 1 }).parent := by rwa [hsame]
      obtain ⟨heap', htick, hcells⟩ := ih ho' ((hl.ancestor ho hpar).write ho hread rfl hap) (by omega)
      refine ⟨heap', by simp only [tickUp, hread, Option.bind_eq_bind, Option.bind_some]; rw [← ha] at htick; exact htick, ?_⟩
      intro s
      rw [hcells s, hsame, getElem?_write hlt, chain_child ho hpar]
      by_cases hs : s = p
      · subst hs
        have hno := not_mem_chain_of_lt ho hap
        simp [read_eq.mp hread, Cell.retain, hno, ha]
      · simp [hs]

theorem freeAncestorChain_spec {n : Nat} : ∀ {heap : Heap} {p : Nat}, Older heap.parent → heap.LiveChain p → p < n →
    ∃ heap', freeAncestorChain n heap p = some heap' ∧
      ∀ s : Nat, heap'[s]? = heap[s]?.map fun c => if s ∈ chain heap.parent p then c.release else c := by
  induction n with
  | zero => intro heap p _ _ hp; omega
  | succ n ih =>
    intro heap p ho hl hp
    obtain ⟨scope, hread⟩ := hl.self ho
    have hlt := lt_of_read hread
    have hpar := parent_of_read hread
    have hsame : (heap.write p { scope with references := scope.references - 1 }).parent = heap.parent :=
      parent_write hread rfl
    -- the heap once the ancestors are released: the scope itself is as it was written
    have hrest : ∃ mid, scope.ancestor.elim (some (heap.write p { scope with references := scope.references - 1 }))
          (freeAncestorChain n (heap.write p { scope with references := scope.references - 1 })) = some mid ∧
        ∀ s : Nat, mid[s]? = if s = p then some ⟨{ scope with references := scope.references - 1 }, false⟩
          else heap[s]?.map fun c => if s ∈ chain heap.parent p then c.release else c := by
      cases ha : scope.ancestor with
      | none =>
        rw [ha] at hpar
        refine ⟨_, rfl, ?_⟩
        intro s
        rw [getElem?_write hlt, chain_root ho hpar]
        by_cases hs : s = p
        · simp [hs]
        · simp [hs]
      | some a =>
        rw [ha] at hpar
        have hap := ho hpar
        have ho' : Older (heap.write p { scope with references := scope.references - 1 }).parent := by rwa [hsame]
        obtain ⟨mid, hfree, hcells⟩ := ih ho' ((hl.ancestor ho hpar).write ho hread rfl hap) (by omega)
        refine ⟨mid, by simpa only [ha, Option.elim_some] using hfree, ?_⟩
        intro s
        rw [hcells s, hsame, getElem?_write hlt, chain_child ho hpar]
        by_cases hs : s = p
        · subst hs
          simp [not_mem_chain_of_lt ho hap, ha]
        · simp [hs]
    obtain ⟨mid, hmid, hcells⟩ := hrest
    have hp' : mid.read p = some { scope with references := scope.references - 1 } := by
      rw [read_eq, hcells p, if_pos rfl]
    have hrun : freeAncestorChain (n + 1) heap p =
        if scope.references - 1 > 0 then some mid else some (mid.free p) := by
      simp only [freeAncestorChain, hread, Option.bind_eq_bind, Option.bind_some]
      rw [hmid]
      simp only [Option.bind_some, hp']
    by_cases hr : scope.references - 1 > 0
    · refine ⟨mid, by rw [hrun, if_pos hr], ?_⟩
      intro s
      rw [hcells s]
      by_cases hs : s = p
      · subst hs
        have : ¬ scope.references ≤ 1 := by omega
        simp [read_eq.mp hread, Cell.release, mem_chain_self ho s, this]
      · rw [if_neg hs]
    · refine ⟨mid.free p, by rw [hrun, if_neg hr], ?_⟩
      intro s
      rw [getElem?_free, hcells s]
      by_cases hs : s = p
      · subst hs
        have : scope.references ≤ 1 := by omega
        simp [read_eq.mp hread, Cell.release, mem_chain_self ho s, this]
      · simp [hs]

/-! ## Searches -/

variable {S : Literal → Prop}

/-- A handle and its ancestors; none for NULL. -/
def Heap.chainFrom (heap : Heap) (handle : Option Nat) : List Nat := handle.elim [] (chain heap.parent)

def Heap.binds (heap : Heap) (dictionary : Scope → Dictionary) (key : Literal) (s : Nat) : Bool :=
  (heap.read s).any fun scope => (bound realFns (dictionary scope) key).isSome

theorem findScope_null (dictionary : Scope → Dictionary) (key : Literal) (n : Nat) (heap : Heap) :
    findScope dictionary key n heap none = some none := by
  cases n <;> rfl

/-- A search stops at the first scope of the chain that binds the key. -/
theorem findScope_some (hS : VariableKeys S) {dictionary : Scope → Dictionary} {key : Literal} (hk : S key)
    {heap : Heap} (ho : Older heap.parent)
    (ht : ∀ s scope, heap.read s = some scope → Table realFns S (dictionary scope)) {n : Nat} :
    ∀ {p : Nat}, heap.LiveChain p → p < n →
      findScope dictionary key n heap (some p) = some ((chain heap.parent p).find? (heap.binds dictionary key)) := by
  induction n with
  | zero => intro p _ hp; omega
  | succ n ih =>
    intro p hl hp
    obtain ⟨scope, hread⟩ := hl.self ho
    have hpar := parent_of_read hread
    have hbinds : heap.binds dictionary key p = (bound realFns (dictionary scope) key).isSome := by
      rw [binds, hread]; rfl
    rw [chain_eq ho, List.find?_cons, hbinds]
    simp only [findScope, hread, Option.bind_eq_bind, Option.bind_some, table_has hS.toKeyEquiv (ht p scope hread) hk]
    cases hb : (bound realFns (dictionary scope) key).isSome with
    | true => rfl
    | false =>
      rw [hpar]
      cases ha : scope.ancestor with
      | none => simp [findScope_null]
      | some a =>
        rw [ha] at hpar
        have hap := ho hpar
        exact ih (hl.ancestor ho hpar) (by omega)

theorem findScope_spec (hS : VariableKeys S) {dictionary : Scope → Dictionary} {key : Literal} (hk : S key)
    {heap : Heap} (ho : Older heap.parent)
    (ht : ∀ s scope, heap.read s = some scope → Table realFns S (dictionary scope)) {handle : Option Nat}
    (hl : ∀ p ∈ handle, heap.LiveChain p) :
    findScope dictionary key heap.length heap handle =
      some ((heap.chainFrom handle).find? (heap.binds dictionary key)) := by
  cases handle with
  | none => exact findScope_null dictionary key heap.length heap
  | some p =>
    obtain ⟨scope, hread⟩ := (hl p rfl).self ho
    exact findScope_some hS hk ho ht (hl p rfl) (lt_of_read hread)

/-! ## New cells -/

theorem parent_append (heap : Heap) (c : Cell) (s : Nat) :
    Heap.parent (heap ++ [c]) s = if s = heap.length then c.scope.ancestor else heap.parent s := by
  rw [parent, parent]
  by_cases hs : s < heap.length
  · rw [List.getElem?_append_left hs, if_neg (by omega)]
  · rw [List.getElem?_append_right (by omega)]
    by_cases he : s = heap.length
    · simp [he]
    · rw [if_neg he, List.getElem?_eq_none (by simp; omega), List.getElem?_eq_none (by omega)]

/-- Beside the cell that is new, the forest stays. -/
theorem parent_allocated {heap heap' : Heap} {new : Cell} {g : Nat → Cell → Cell}
    (hg : ∀ (s : Nat) (c : Cell), (g s c).scope.ancestor = c.scope.ancestor)
    (h : ∀ s : Nat, heap'[s]? = if s = heap.length then some new else heap[s]?.map (g s)) :
    heap'.parent = Heap.parent (heap ++ [new]) := by
  funext s
  rw [parent_append, parent, h s]
  by_cases hs : s = heap.length
  · simp [hs]
  · rw [if_neg hs, if_neg hs, parent]
    cases heap[s]? with
    | none => rfl
    | some c => exact hg s c

theorem length_allocated {heap heap' : Heap} {new : Cell} {g : Nat → Cell → Cell}
    (h : ∀ s : Nat, heap'[s]? = if s = heap.length then some new else heap[s]?.map (g s)) :
    heap'.length = heap.length + 1 := by
  apply Nat.le_antisymm
  · rw [← List.getElem?_eq_none_iff, h, if_neg (by omega), List.getElem?_eq_none (by omega)]
    rfl
  · have hlast := h heap.length
    rw [if_pos rfl] at hlast
    exact (List.getElem?_eq_some_iff.mp hlast).1

theorem cell_mapped {heap heap' : Heap} {g : Nat → Cell → Cell} (h : ∀ s : Nat, heap'[s]? = heap[s]?.map (g s))
    {s : Nat} {c : Cell} (hc : heap'[s]? = some c) : ∃ c₀, heap[s]? = some c₀ ∧ c = g s c₀ := by
  rw [h s, Option.map_eq_some_iff] at hc
  obtain ⟨c₀, hc₀, heq⟩ := hc
  exact ⟨c₀, hc₀, heq.symm⟩

/-- A cell behind an allocation is the new one or an old one. -/
theorem cell_allocated {heap heap' : Heap} {new : Cell} {g : Nat → Cell → Cell}
    (h : ∀ s : Nat, heap'[s]? = if s = heap.length then some new else heap[s]?.map (g s)) {s : Nat} {c : Cell}
    (hc : heap'[s]? = some c) :
    (s = heap.length ∧ c = new) ∨ (s ≠ heap.length ∧ ∃ c₀, heap[s]? = some c₀ ∧ c = g s c₀) := by
  rw [h s] at hc
  by_cases hs : s = heap.length
  · rw [if_pos hs] at hc
    exact .inl ⟨hs, (Option.some.inj hc).symm⟩
  · rw [if_neg hs, Option.map_eq_some_iff] at hc
    obtain ⟨c₀, hc₀, heq⟩ := hc
    exact .inr ⟨hs, c₀, hc₀, heq.symm⟩

theorem older_append {heap : Heap} (ho : Older heap.parent) {c : Cell}
    (ha : ∀ a ∈ c.scope.ancestor, a < heap.length) : Older (Heap.parent (heap ++ [c])) := by
  intro p a hp
  rw [parent_append] at hp
  by_cases he : p = heap.length
  · rw [if_pos he] at hp
    rw [he]
    exact ha a hp
  · rw [if_neg he] at hp
    exact ho hp

/-- The chains that were there stay. -/
theorem chain_append {heap : Heap} (ho : Older heap.parent) {c : Cell} (ha : ∀ a ∈ c.scope.ancestor, a < heap.length)
    {p : Nat} (hp : p < heap.length) : chain (Heap.parent (heap ++ [c])) p = chain heap.parent p := by
  apply chain_congr (older_append ho ha) ho
  intro q hq
  rw [parent_append, if_neg (by omega)]

theorem chain_append_new {heap : Heap} (ho : Older heap.parent) {c : Cell}
    (ha : ∀ a ∈ c.scope.ancestor, a < heap.length) :
    chain (Heap.parent (heap ++ [c])) heap.length = heap.length :: heap.chainFrom c.scope.ancestor := by
  rw [chain_eq (older_append ho ha), parent_append, if_pos rfl, chainFrom]
  cases hc : c.scope.ancestor with
  | none => rfl
  | some a =>
    rw [Option.elim_some, Option.elim_some, chain_append ho ha (ha a hc)]

theorem LiveChain.lt {heap : Heap} (ho : Older heap.parent) {p : Nat} (h : heap.LiveChain p) : p < heap.length := by
  obtain ⟨scope, hread⟩ := h.self ho
  exact lt_of_read hread

theorem allocate_spec {heap : Heap} (ho : Older heap.parent) {ancestor : Option Nat}
    (hl : ∀ a ∈ ancestor, heap.LiveChain a) :
    ∃ heap', allocate heap ancestor = some (heap', heap.length) ∧
      ∀ s : Nat, heap'[s]? = if s = heap.length then
          some ⟨⟨ancestor, 1, initLiteralDictionary, initLiteralDictionary⟩, false⟩
        else heap[s]?.map fun c => if s ∈ heap.chainFrom ancestor then c.retain else c := by
  have ha : ∀ a ∈ ancestor, a < heap.length := fun a h => LiveChain.lt ho (hl a h)
  let c : Cell := ⟨⟨ancestor, 0, initLiteralDictionary, initLiteralDictionary⟩, false⟩
  have hnew := chain_append_new (c := c) ho ha
  have hlive : Heap.LiveChain (heap ++ [c]) heap.length := by
    intro s hs
    rw [hnew, List.mem_cons] at hs
    rcases hs with rfl | hs
    · exact ⟨c.scope, read_eq.mpr (by simp [c])⟩
    · cases hanc : ancestor with
      | none => simp [c, chainFrom, hanc] at hs
      | some a =>
        simp only [c, chainFrom, hanc, Option.elim_some] at hs
        obtain ⟨scope, hread⟩ := hl a hanc s hs
        refine ⟨scope, read_eq.mpr ?_⟩
        rw [List.getElem?_append_left (lt_of_read hread)]
        exact read_eq.mp hread
  obtain ⟨heap', htick, hcells⟩ := tickUp_spec (n := (heap ++ [c]).length) (older_append ho ha) hlive (by simp)
  refine ⟨heap', ?_, ?_⟩
  · show (tickUp (heap ++ [c]).length (heap ++ [c]) (some heap.length)).bind _ = _
    rw [htick]; rfl
  · intro s
    rw [hcells s, hnew]
    by_cases hs : s = heap.length
    · subst hs; simp [c, Cell.retain]
    · by_cases hlt : s < heap.length
      · rw [List.getElem?_append_left hlt]; simp [hs, c]
      · rw [List.getElem?_eq_none (by simp; omega), List.getElem?_eq_none (by omega)]; simp [hs]

/-! ## The operations on the dictionaries -/

theorem lawful_realFns : Lawful realFns := lawful_fnsWith hashLiteral

/-- The scope a search for a variable stops at. -/
def Heap.owner (heap : Heap) (handle : Option Nat) (key : Literal) : Option Nat :=
  (heap.chainFrom handle).find? (heap.binds Scope.vars key)

theorem owner_some {heap : Heap} {handle : Option Nat} {key : Literal} {p : Nat} (h : heap.owner handle key = some p) :
    ∃ scope, heap.read p = some scope ∧ (bound realFns scope.vars key).isSome = true := by
  have hb := List.find?_some h
  rw [binds] at hb
  cases hread : heap.read p with
  | none => simp [hread] at hb
  | some scope => exact ⟨scope, rfl, by simpa [hread] using hb⟩

/-- What a table binds once the key is set. -/
def SetIn (S : Literal → Prop) (key value : Literal) (d d' : Dictionary) : Prop :=
  Table realFns S d' ∧ ∀ q, S q → bound realFns d' q =
    if literalsAreEqual q key then some (copyLiteral value) else bound realFns d q

theorem set_spec (hS : VariableKeys S) {d : Dictionary} (h : Table realFns S d) {key : Literal} (hk : S key)
    (value : Literal) : ∃ d', setLiteralDictionary realFns d key value = some d' ∧ SetIn S key value d d' := by
  obtain ⟨d', hset, ht, hb⟩ := table_set lawful_realFns hS.toKeyEquiv h hk (hS.accepted key hk) value
  exact ⟨d', hset, ht, hb⟩

theorem declareScopeVariable_spec (hS : VariableKeys S) {heap : Heap} {p : Nat} {scope : Scope}
    (hread : heap.read p = some scope) (hv : Table realFns S scope.vars) (ht : Table realFns S scope.types)
    {key : Literal} (hk : S key) (type : Literal) :
    ∃ vars types, SetIn S key .null scope.vars vars ∧ SetIn S key type scope.types types ∧
      declareScopeVariable heap p key type =
        some (if (bound realFns scope.vars key).isSome || !type.isType then (heap, false)
          else (heap.write p { scope with vars, types }, true)) := by
  obtain ⟨vars, hsv, hvars⟩ := set_spec hS hv hk .null
  obtain ⟨types, hst, htypes⟩ := set_spec hS ht hk type
  refine ⟨vars, types, hvars, htypes, ?_⟩
  simp only [declareScopeVariable, hread, Option.bind_eq_bind, Option.bind_some, table_has hS.toKeyEquiv hv hk, hsv, hst,
    Option.pure_def]
  cases (bound realFns scope.vars key).isSome <;> cases type.isType <;> rfl

section Searches

variable (hS : VariableKeys S) {heap : Heap} (ho : Older heap.parent)
  (ht : ∀ s scope, heap.read s = some scope → Table realFns S scope.vars) {handle : Option Nat}
  (hl : ∀ p ∈ handle, heap.LiveChain p) {key : Literal} (hk : S key)

include hS ho ht hl hk

theorem isDeclaredScopeVariable_spec :
    isDeclaredScopeVariable heap handle key = some (heap.owner handle key).isSome := by
  rw [isDeclaredScopeVariable, findScope_spec hS hk ho ht hl]
  rfl

theorem getScopeVariable_spec :
    getScopeVariable heap handle key = some ((heap.owner handle key).bind fun p =>
      (heap.read p).map fun scope => getLiteralDictionary realFns scope.vars key) := by
  rw [getScopeVariable, findScope_spec hS hk ho ht hl]
  show Option.bind (some (heap.owner handle key)) _ = _
  cases hp : heap.owner handle key with
  | none => rfl
  | some p =>
    obtain ⟨scope, hread, _⟩ := owner_some hp
    simp [hread]

theorem setScopeVariable_undeclared (value : Literal) (constCheck : Bool) (hno : heap.owner handle key = none) :
    setScopeVariable heap handle key value constCheck = some (heap, false) := by
  rw [setScopeVariable, findScope_spec hS hk ho ht hl]
  rw [owner] at hno
  simp [hno]

theorem setScopeVariable_spec (value : Literal) (constCheck : Bool) {p : Nat} (hp : heap.owner handle key = some p)
    {scope : Scope} (hread : heap.read p = some scope) :
    ∃ vars, SetIn S key value scope.vars vars ∧ setScopeVariable heap handle key value constCheck =
      (checkType constCheck (getLiteralDictionary realFns scope.types key)
        (getLiteralDictionary realFns scope.vars key) value).map fun assigned =>
          if assigned then (heap.write p { scope with vars }, true) else (heap, false) := by
  obtain ⟨vars, hsv, hvars⟩ := set_spec hS (ht p scope hread) hk value
  refine ⟨vars, hvars, ?_⟩
  rw [setScopeVariable, findScope_spec hS hk ho ht hl]
  rw [owner] at hp
  simp only [hp, Option.bind_eq_bind, Option.bind_some, hread, hsv, Option.pure_def]
  cases checkType constCheck (getLiteralDictionary realFns scope.types key)
    (getLiteralDictionary realFns scope.vars key) value with
  | none => rfl
  | some assigned => cases assigned <;> rfl

end Searches

/-- Setting the live entries again, over entries set before. -/
theorem copyEntries_fold (hS : VariableKeys S) (entries : List (Entry Literal)) :
    ∀ copy : Dictionary, Table realFns S copy → Stored S entries → Distinct realFns entries →
      ∃ d, entries.foldlM
          (fun copy e => if e.key.isNull then some copy else setLiteralDictionary realFns copy e.key e.value) copy =
        some d ∧ Table realFns S d ∧ ∀ q, S q → bound realFns d q =
          (((liveEntries entries).find? fun e => literalsAreEqual q e.key).map fun e => copyLiteral e.value).or
            (bound realFns copy q) := by
  induction entries with
  | nil =>
    intro copy hc _ _
    exact ⟨copy, rfl, hc, fun q _ => rfl⟩
  | cons e entries ih =>
    intro copy hc hst hd
    cases hnull : e.key.isNull with
    | true =>
      have hdead : liveEntries (e :: entries) = liveEntries entries := by simp [liveEntries, Entry.live, hnull]
      rw [Stored, hdead] at hst
      rw [Distinct, hdead] at hd
      obtain ⟨d, hfold, ht, hb⟩ := ih copy hc hst hd
      refine ⟨d, ?_, ht, ?_⟩
      · rw [List.foldlM_cons, if_pos hnull]
        exact hfold
      · rw [hdead]; exact hb
    | false =>
      have hlive : liveEntries (e :: entries) = e :: liveEntries entries := by simp [liveEntries, Entry.live, hnull]
      rw [Stored, hlive] at hst
      rw [Distinct, hlive, List.pairwise_cons] at hd
      have hk : S e.key := hst e (List.mem_cons_self ..)
      obtain ⟨copy', hset, ht', hb'⟩ :=
        table_set lawful_realFns hS.toKeyEquiv hc hk (hS.accepted _ hk) e.value
      have hst' : Stored S entries := fun x hx => hst x (List.mem_cons_of_mem _ hx)
      obtain ⟨d, hfold, ht, hb⟩ := ih copy' ht' hst' hd.2
      refine ⟨d, ?_, ht, ?_⟩
      · rw [List.foldlM_cons, if_neg (by simp [hnull]), hset]
        exact hfold
      · intro q hq
        rw [hb q hq, hb' q hq, hlive, List.find?_cons]
        by_cases hqe : literalsAreEqual q e.key = true
        · -- no later entry has an equal key
          have hnone : (liveEntries entries).find? (fun x => literalsAreEqual q x.key) = none := by
            rw [List.find?_eq_none]
            intro x hx hqx
            have hex := hS.trans _ _ _ hk hq (hst' x hx) (hS.symm _ _ hq hk hqe) hqx
            rw [(hd.1 x hx).1] at hex
            cases hex
          have hqe' : realFns.equal q e.key = true := hqe
          rw [hnone, hqe', hqe]
          rfl
        · have hqe : literalsAreEqual q e.key = false := by simpa using hqe
          have hqe' : realFns.equal q e.key = false := hqe
          rw [hqe', hqe]
          rfl

/-- What a table binds once it is copied. -/
def CopyOf (S : Literal → Prop) (d d' : Dictionary) : Prop :=
  Table realFns S d' ∧ ∀ q, S q → bound realFns d' q = (bound realFns d q).map copyLiteral

theorem copyEntries_spec (hS : VariableKeys S) {original : Dictionary} (h : Table realFns S original) :
    ∃ d, copyEntries original = some d ∧ CopyOf S original d := by
  obtain ⟨d, hfold, ht, hb⟩ := copyEntries_fold hS original.entries _ table_init h.stored h.distinct
  refine ⟨d, hfold, ht, ?_⟩
  intro q hq
  rw [hb q hq, bound_init, Option.or_none, bound, Option.map_map]
  rfl

/-! ## The invariant -/

structure Sound (S : Literal → Prop) (w : World) : Prop where
  older : Older w.heap.parent
  nodup : w.unpopped.Nodup
  inside : ∀ q ∈ w.unpopped, q < w.heap.length
  freed : ∀ (p : Nat) (c : Cell), w.heap[p]? = some c →
    (c.freed = true ↔ below w.heap.parent w.unpopped p = 0)
  count : ∀ (p : Nat) (c : Cell), w.heap[p]? = some c → c.freed = false →
    c.scope.references = below w.heap.parent w.unpopped p
  tables : ∀ (p : Nat) (c : Cell), w.heap[p]? = some c →
    Table realFns S c.scope.vars ∧ Table realFns S c.scope.types

namespace Sound

variable {w : World}

theorem init : Sound S World.init where
  older := by intro p a h; simp [World.init, parent] at h
  nodup := List.nodup_nil
  inside := by simp [World.init]
  freed := by simp [World.init]
  count := by simp [World.init]
  tables := by simp [World.init]

/-- The chain of a scope that has not been popped is in use. -/
theorem live (h : Sound S w) {q : Nat} (hq : q ∈ w.unpopped) : w.heap.LiveChain q := by
  intro s hs
  have hle := le_of_mem_chain h.older q hs
  have hlt := h.inside q hq
  obtain ⟨c, hc⟩ : ∃ c, w.heap[s]? = some c := ⟨_, List.getElem?_eq_getElem (by omega)⟩
  have hpos : 0 < below w.heap.parent w.unpopped s := below_pos.mpr ⟨q, hq, hs⟩
  refine ⟨c.scope, read_eq.mpr ?_⟩
  have hnot : c.freed = false := by
    rw [Bool.eq_false_iff]
    intro hf
    rw [(h.freed s c hc).mp hf] at hpos
    omega
  rw [hc, ← hnot]

theorem live_handle (h : Sound S w) {call : Call} (hu : call.OnUnpopped w) :
    ∀ p ∈ call.handle, w.heap.LiveChain p := fun p hp => h.live (hu p hp)

theorem vars_table (h : Sound S w) (s : Nat) (scope : Scope) (hread : w.heap.read s = some scope) :
    Table realFns S scope.vars := (h.tables s _ (read_eq.mp hread)).1

theorem types_table (h : Sound S w) (s : Nat) (scope : Scope) (hread : w.heap.read s = some scope) :
    Table realFns S scope.types := (h.tables s _ (read_eq.mp hread)).2

theorem write (h : Sound S w) {p : Nat} {scope scope' : Scope} (hread : w.heap.read p = some scope)
    (ha : scope'.ancestor = scope.ancestor) (hr : scope'.references = scope.references)
    (hv : Table realFns S scope'.vars) (ht : Table realFns S scope'.types) :
    Sound S { w with heap := w.heap.write p scope' } := by
  have hcell : ∀ (s : Nat) (c : Cell), (w.heap.write p scope')[s]? = some c →
      ∃ c₀, w.heap[s]? = some c₀ ∧ c.freed = c₀.freed ∧ c.scope.references = c₀.scope.references ∧
        Table realFns S c.scope.vars ∧ Table realFns S c.scope.types := by
    intro s c hc
    rw [getElem?_write (lt_of_read hread)] at hc
    by_cases hs : s = p
    · rw [if_pos hs] at hc
      cases hc
      exact ⟨⟨scope, false⟩, hs ▸ read_eq.mp hread, rfl, hr, hv, ht⟩
    · rw [if_neg hs] at hc
      exact ⟨c, hc, rfl, rfl, h.tables s c hc⟩
  refine ⟨?_, h.nodup, ?_, ?_, ?_, ?_⟩
  · rw [parent_write hread ha]; exact h.older
  · intro q hq; rw [length_write]; exact h.inside q hq
  · intro s c hc
    obtain ⟨c₀, hc₀, hf, _⟩ := hcell s c hc
    rw [parent_write hread ha, hf]
    exact h.freed s c₀ hc₀
  · intro s c hc hl
    obtain ⟨c₀, hc₀, hf, hrefs, _⟩ := hcell s c hc
    rw [parent_write hread ha, hrefs]
    exact h.count s c₀ hc₀ (hf ▸ hl)
  · intro s c hc
    obtain ⟨c₀, _, _, _, htables⟩ := hcell s c hc
    exact htables

/-- A new scope lies below itself and below its chain. -/
theorem below_allocated (h : Sound S w) {new : Cell} (ha : ∀ a ∈ new.scope.ancestor, a < w.heap.length) (s : Nat) :
    below (Heap.parent (w.heap ++ [new])) (w.heap.length :: w.unpopped) s =
      if s = w.heap.length then 1
      else below w.heap.parent w.unpopped s + if s ∈ w.heap.chainFrom new.scope.ancestor then 1 else 0 := by
  have hold : below (Heap.parent (w.heap ++ [new])) w.unpopped s = below w.heap.parent w.unpopped s := by
    apply below_congr
    intro q hq
    rw [chain_append h.older ha (h.inside q hq)]
  have hnone : below w.heap.parent w.unpopped w.heap.length = 0 := by
    by_contra hc
    obtain ⟨q, hq, hm⟩ := below_pos.mp (Nat.pos_of_ne_zero hc)
    exact not_mem_chain_of_lt h.older (h.inside q hq) hm
  rw [below_cons, hold, chain_append_new h.older ha]
  by_cases hs : s = w.heap.length
  · subst hs; simp [hnone]
  · simp [hs]

/-- The cells of a chain in use are not freed. -/
theorem freed_chainFrom {heap : Heap} {ancestor : Option Nat} (hl : ∀ a ∈ ancestor, heap.LiveChain a) {s : Nat}
    (hm : s ∈ heap.chainFrom ancestor) {c : Cell} (hc : heap[s]? = some c) : c.freed = false := by
  cases ancestor with
  | none => simp [chainFrom] at hm
  | some a =>
    obtain ⟨scope, hread⟩ := hl a rfl s hm
    rw [read_eq, hc] at hread
    cases hread
    rfl

/-- One more unpopped scope, its chain retained. -/
theorem allocated (h : Sound S w) {ancestor : Option Nat} (hl : ∀ a ∈ ancestor, w.heap.LiveChain a) {heap' : Heap}
    {vars types : Dictionary} (hv : Table realFns S vars) (ht : Table realFns S types)
    (hcells : ∀ s : Nat, heap'[s]? = if s = w.heap.length then some ⟨⟨ancestor, 1, vars, types⟩, false⟩
      else w.heap[s]?.map fun c => if s ∈ w.heap.chainFrom ancestor then c.retain else c) :
    Sound S ⟨heap', w.heap.length :: w.unpopped⟩ := by
  have ha : ∀ a ∈ ancestor, a < w.heap.length := fun a hm => LiveChain.lt h.older (hl a hm)
  have hparent : heap'.parent = Heap.parent (w.heap ++ [⟨⟨ancestor, 1, vars, types⟩, false⟩]) :=
    parent_allocated (retain_ancestor _) hcells
  have hlen := length_allocated hcells
  refine ⟨?_, ?_, ?_, ?_, ?_, ?_⟩
  · rw [hparent]; exact older_append h.older ha
  · exact List.nodup_cons.mpr ⟨fun hm => Nat.lt_irrefl _ (h.inside _ hm), h.nodup⟩
  · intro q hq
    rw [hlen]
    rcases List.mem_cons.mp hq with rfl | hq
    · omega
    · have := h.inside q hq; omega
  · intro s c hc
    rw [hparent, below_allocated h ha]
    rcases cell_allocated hcells hc with ⟨rfl, rfl⟩ | ⟨hs, c₀, hc₀, rfl⟩
    · simp
    · have hfreed := h.freed s c₀ hc₀
      by_cases hm : s ∈ w.heap.chainFrom ancestor
      · simp [hm, hs, Cell.retain, freed_chainFrom hl hm hc₀]
      · simp only [hm, if_false, hs, Nat.add_zero]
        exact hfreed
  · intro s c hc hlive
    rw [hparent, below_allocated h ha]
    rcases cell_allocated hcells hc with ⟨rfl, rfl⟩ | ⟨hs, c₀, hc₀, rfl⟩
    · simp
    · by_cases hm : s ∈ w.heap.chainFrom ancestor
      · simp only [hm, if_true, hs, if_false, Cell.retain] at hlive ⊢
        have := h.count s c₀ hc₀ hlive
        omega
      · simp only [hm, if_false, hs, Nat.add_zero] at hlive ⊢
        exact h.count s c₀ hc₀ hlive
  · intro s c hc
    rcases cell_allocated hcells hc with ⟨rfl, rfl⟩ | ⟨hs, c₀, hc₀, rfl⟩
    · exact ⟨hv, ht⟩
    · have := h.tables s c₀ hc₀
      by_cases hm : s ∈ w.heap.chainFrom ancestor
      · simpa [hm, Cell.retain] using this
      · simpa [hm] using this

/-- One unpopped scope less, its chain released. -/
theorem popped (h : Sound S w) {q : Nat} (hq : q ∈ w.unpopped) {heap' : Heap}
    (hcells : ∀ s : Nat, heap'[s]? = w.heap[s]?.map fun c => if s ∈ chain w.heap.parent q then c.release else c) :
    Sound S ⟨heap', w.unpopped.erase q⟩ := by
  have hparent : heap'.parent = w.heap.parent := parent_mapped (release_ancestor _) hcells
  -- a released cell was in use, with one more scope below it
  have hcount : ∀ (s : Nat) (c₀ : Cell), w.heap[s]? = some c₀ → s ∈ chain w.heap.parent q →
      c₀.freed = false ∧ c₀.scope.references = below w.heap.parent (w.unpopped.erase q) s + 1 := by
    intro s c₀ hc₀ hm
    obtain ⟨scope, hread⟩ := h.live hq s hm
    rw [read_eq, hc₀] at hread
    cases hread
    refine ⟨rfl, ?_⟩
    rw [h.count s _ hc₀ rfl, ← below_erase hq s, if_pos hm]
    omega
  have hkeep : ∀ s, s ∉ chain w.heap.parent q →
      below w.heap.parent (w.unpopped.erase q) s = below w.heap.parent w.unpopped s := by
    intro s hm
    rw [← below_erase hq s, if_neg hm, Nat.add_zero]
  refine ⟨by rw [hparent]; exact h.older, h.nodup.erase q, ?_, ?_, ?_, ?_⟩
  · intro p hp
    have hlt := h.inside p (List.mem_of_mem_erase hp)
    obtain ⟨c, hc⟩ : ∃ c, w.heap[p]? = some c := ⟨_, List.getElem?_eq_getElem hlt⟩
    have hp' := hcells p
    rw [hc, Option.map_some] at hp'
    exact (List.getElem?_eq_some_iff.mp hp').1
  · intro s c hc
    rw [hparent]
    obtain ⟨c₀, hc₀, rfl⟩ := cell_mapped hcells hc
    by_cases hm : s ∈ chain w.heap.parent q
    · have := (hcount s c₀ hc₀ hm).2
      simp only [hm, if_true, Cell.release, decide_eq_true_eq]
      omega
    · rw [if_neg hm, hkeep s hm]
      exact h.freed s c₀ hc₀
  · intro s c hc hl
    rw [hparent]
    obtain ⟨c₀, hc₀, rfl⟩ := cell_mapped hcells hc
    by_cases hm : s ∈ chain w.heap.parent q
    · have := (hcount s c₀ hc₀ hm).2
      simp only [hm, if_true, Cell.release]
      omega
    · rw [if_neg hm] at hl ⊢
      rw [hkeep s hm]
      exact h.count s c₀ hc₀ hl
  · intro s c hc
    obtain ⟨c₀, hc₀, rfl⟩ := cell_mapped hcells hc
    have := h.tables s c₀ hc₀
    by_cases hm : s ∈ chain w.heap.parent q
    · simpa [hm, Cell.release] using this
    · simpa [hm] using this

/-! ## Steps -/

theorem push (h : Sound S w) {ancestor : Option Nat} (ha : ∀ a ∈ ancestor, a ∈ w.unpopped) :
    ∃ heap', w.step (.push ancestor) = some (⟨heap', w.heap.length :: w.unpopped⟩, .scope (some w.heap.length)) ∧
      ∀ s : Nat, heap'[s]? = if s = w.heap.length then
          some ⟨⟨ancestor, 1, initLiteralDictionary, initLiteralDictionary⟩, false⟩
        else w.heap[s]?.map fun c => if s ∈ w.heap.chainFrom ancestor then c.retain else c := by
  obtain ⟨heap', halloc, hcells⟩ := allocate_spec h.older fun a hm => h.live (ha a hm)
  exact ⟨heap', by simp [World.step, pushScope, halloc], hcells⟩

theorem copy (hS : VariableKeys S) (h : Sound S w) {original : Nat} (ho : original ∈ w.unpopped) :
    ∃ source vars types heap', w.heap.read original = some source ∧ CopyOf S source.vars vars ∧
      CopyOf S source.types types ∧
      w.step (.copy original) = some (⟨heap', w.heap.length :: w.unpopped⟩, .scope (some w.heap.length)) ∧
      ∀ s : Nat, heap'[s]? = if s = w.heap.length then some ⟨⟨source.ancestor, 1, vars, types⟩, false⟩
        else w.heap[s]?.map fun c => if s ∈ w.heap.chainFrom source.ancestor then c.retain else c := by
  obtain ⟨source, hread⟩ := (h.live ho).self h.older
  have hlive : ∀ a ∈ source.ancestor, w.heap.LiveChain a := fun a hm =>
    (h.live ho).ancestor h.older ((parent_of_read hread).trans hm)
  obtain ⟨vars, hv, hvars'⟩ := copyEntries_spec hS (h.vars_table original source hread)
  obtain ⟨types, ht, htypes'⟩ := copyEntries_spec hS (h.types_table original source hread)
  obtain ⟨heap', halloc, hcells⟩ := allocate_spec h.older hlive
  have hlt := h.inside original ho
  -- what the copy reads once its chain is retained
  have hsource : ∃ source', heap'.read original = some source' ∧ source'.vars = source.vars ∧
      source'.types = source.types := by
    have hc := hcells original
    rw [if_neg (by omega), read_eq.mp hread, Option.map_some] at hc
    by_cases hm : original ∈ w.heap.chainFrom source.ancestor
    · rw [if_pos hm] at hc
      exact ⟨_, read_eq.mpr hc, rfl, rfl⟩
    · rw [if_neg hm] at hc
      exact ⟨_, read_eq.mpr hc, rfl, rfl⟩
  obtain ⟨source', hread', hvars, htypes⟩ := hsource
  have hnew := hcells w.heap.length
  rw [if_pos rfl] at hnew
  refine ⟨source, vars, types, heap'.write w.heap.length ⟨source.ancestor, 1, vars, types⟩, hread, hvars', htypes', ?_, ?_⟩
  · simp [World.step, copyScope, hread, halloc, hread', hvars, htypes, read_eq.mpr hnew, hv, ht]
  · intro s
    rw [getElem?_write (lt_of_read (read_eq.mpr hnew)), hcells s]
    by_cases hs : s = w.heap.length
    · simp [hs]
    · simp [hs]

theorem pop (h : Sound S w) {q : Nat} (hq : q ∈ w.unpopped) :
    ∃ heap', w.step (.pop (some q)) = some (⟨heap', w.unpopped.erase q⟩, .scope (w.heap.parent q)) ∧
      ∀ s : Nat, heap'[s]? = w.heap[s]?.map fun c => if s ∈ chain w.heap.parent q then c.release else c := by
  obtain ⟨scope, hread⟩ := (h.live hq).self h.older
  obtain ⟨heap', hfree, hcells⟩ := freeAncestorChain_spec (n := w.heap.length) h.older (h.live hq) (h.inside q hq)
  refine ⟨heap', ?_, hcells⟩
  simp [World.step, popScope, hread, hfree, parent_of_read hread]

theorem declare (hS : VariableKeys S) (h : Sound S w) {p : Nat} (hp : p ∈ w.unpopped) {key : Literal} (hk : S key)
    (type : Literal) :
    ∃ scope vars types, w.heap.read p = some scope ∧ SetIn S key .null scope.vars vars ∧
      SetIn S key type scope.types types ∧
      w.step (.declare p key type) =
        some (if (bound realFns scope.vars key).isSome || !type.isType then (w, .flag false)
          else ({ w with heap := w.heap.write p { scope with vars, types } }, .flag true)) := by
  obtain ⟨scope, hread⟩ := (h.live hp).self h.older
  obtain ⟨vars, types, hvars, htypes, hdeclare⟩ :=
    declareScopeVariable_spec hS hread (h.vars_table p scope hread) (h.types_table p scope hread) hk type
  refine ⟨scope, vars, types, hread, hvars, htypes, ?_⟩
  rw [World.step, hdeclare]
  cases (bound realFns scope.vars key).isSome || !type.isType <;> rfl

theorem set (hS : VariableKeys S) (h : Sound S w) {handle : Option Nat} (hp : ∀ p ∈ handle, p ∈ w.unpopped)
    {key : Literal} (hk : S key) (value : Literal) (constCheck : Bool) :
    w.heap.owner handle key = none ∧ w.step (.set handle key value constCheck) = some (w, .flag false) ∨
    ∃ p scope vars, w.heap.owner handle key = some p ∧ w.heap.read p = some scope ∧
      SetIn S key value scope.vars vars ∧
      w.step (.set handle key value constCheck) =
        (checkType constCheck (getLiteralDictionary realFns scope.types key)
          (getLiteralDictionary realFns scope.vars key) value).map fun assigned =>
            if assigned then ({ w with heap := w.heap.write p { scope with vars } }, .flag true)
            else (w, .flag false) := by
  have hl : ∀ p ∈ handle, w.heap.LiveChain p := fun p hm => h.live (hp p hm)
  cases ho : w.heap.owner handle key with
  | none =>
    left
    refine ⟨rfl, ?_⟩
    rw [World.step, setScopeVariable_undeclared hS h.older h.vars_table hl hk value constCheck ho]
    rfl
  | some p =>
    right
    obtain ⟨scope, hread, _⟩ := owner_some ho
    obtain ⟨vars, hvars, hset⟩ := setScopeVariable_spec hS h.older h.vars_table hl hk value constCheck ho hread
    refine ⟨p, scope, vars, rfl, hread, hvars, ?_⟩
    rw [World.step, hset]
    cases checkType constCheck (getLiteralDictionary realFns scope.types key)
        (getLiteralDictionary realFns scope.vars key) value with
    | none => rfl
    | some assigned => cases assigned <;> rfl

end Sound

/-- A question changes nothing. -/
theorem step_question {w w' : World} {answer : Answer} {α : Type} {x : Option α} {f : α → Answer}
    (h : (do return (w, f (← x))) = some (w', answer)) : w' = w := by
  cases x with
  | none => cases h
  | some a => cases h; rfl

/-- Every call that returns keeps the invariant. -/
theorem step_sound (hS : VariableKeys S) {w w' : World} {call : Call} {answer : Answer} (h : Sound S w)
    (hu : call.OnUnpopped w) (hk : ∀ key ∈ call.key, S key) (hstep : w.step call = some (w', answer)) :
    Sound S w' := by
  cases call with
  | push ancestor =>
    have ha : ∀ a ∈ ancestor, a ∈ w.unpopped := hu
    obtain ⟨heap', hpush, hcells⟩ := h.push ha
    rw [hpush] at hstep
    cases hstep
    exact h.allocated (h.live_handle hu) table_init table_init hcells
  | copy original =>
    have ho := hu original rfl
    obtain ⟨source, vars, types, heap', hread, hv, ht, hcopy, hcells⟩ := h.copy hS ho
    rw [hcopy] at hstep
    cases hstep
    refine h.allocated ?_ hv.1 ht.1 hcells
    intro a hm
    exact (h.live ho).ancestor h.older ((parent_of_read hread).trans hm)
  | pop scope =>
    cases scope with
    | none => cases hstep; exact h
    | some q =>
      obtain ⟨heap', hpop, hcells⟩ := h.pop (hu q rfl)
      rw [hpop] at hstep
      cases hstep
      exact h.popped (hu q rfl) hcells
  | declare p key type =>
    obtain ⟨scope, vars, types, hread, hv, ht, hdeclare⟩ := h.declare hS (hu p rfl) (hk key rfl) type
    rw [hdeclare, Option.some.injEq] at hstep
    split at hstep
    · cases hstep; exact h
    · cases hstep; exact h.write hread rfl rfl hv.1 ht.1
  | isDeclared scope key => rw [step_question hstep]; exact h
  | set handle key value constCheck =>
    have hp : ∀ p ∈ handle, p ∈ w.unpopped := hu
    rcases h.set hS hp (hk key rfl) value constCheck with ⟨_, hset⟩ | ⟨p, scope, vars, _, hread, hv, hset⟩
    · rw [hset] at hstep
      cases hstep
      exact h
    · rw [hset, Option.map_eq_some_iff] at hstep
      obtain ⟨assigned, _, hw⟩ := hstep
      split at hw
      · cases hw; exact h.write hread rfl rfl hv.1 (h.types_table p scope hread)
      · cases hw; exact h
  | get scope key => rw [step_question hstep]; exact h
  | getType scope key => rw [step_question hstep]; exact h

/-- The calls this invariant is about: on handles that have not been popped, with keys of
    the set. -/
def Call.Proper (S : Literal → Prop) (w : World) (call : Call) : Prop :=
  call.OnUnpopped w ∧ ∀ key ∈ call.key, S key

theorem reach_sound (hS : VariableKeys S) {allowed : World → Call → Prop}
    (ha : ∀ w call, allowed w call → call.Proper S w) {w : World} (h : Reach allowed w) : Sound S w := by
  induction h with
  | init => exact Sound.init
  | step call _ hcall hstep ih =>
    obtain ⟨hu, hk⟩ := ha _ call hcall
    exact step_sound hS ih hu hk hstep

/-! ## Reference counts -/

/-- The calls that allocate and release scopes. -/
def Call.Allocates : Call → Prop
  | .push _ | .copy _ | .pop _ => True
  | _ => False

/-- In every state reached by calls on handles that have not been popped: the references
    of a scope in use are the unpopped scopes whose chain has it, a scope is freed exactly
    when there are none, the chain of an unpopped scope is in use, and every push, copy and
    pop of unpopped handles returns, so that none of them touches a freed scope. -/
theorem scope_references (S : Literal → Prop) (hS : VariableKeys S) (w : World) (h : Reach (fun w c => c.Proper S w) w) :
    w.unpopped.Nodup ∧
    (∀ p scope, w.heap.read p = some scope → scope.references = below w.heap.parent w.unpopped p) ∧
    (∀ p < w.heap.length, w.heap.read p = none ↔ below w.heap.parent w.unpopped p = 0) ∧
    (∀ q ∈ w.unpopped, ∀ s ∈ chain w.heap.parent q, ∃ scope, w.heap.read s = some scope) ∧
    ∀ call : Call, call.Allocates → call.OnUnpopped w → ∃ w' answer, w.step call = some (w', answer) := by
  have hs := reach_sound hS (fun _ _ hc => hc) h
  refine ⟨hs.nodup, ?_, ?_, fun q hq => hs.live hq, ?_⟩
  · intro p scope hread
    exact hs.count p _ (read_eq.mp hread) rfl
  · intro p hp
    obtain ⟨c, hc⟩ : ∃ c, w.heap[p]? = some c := ⟨_, List.getElem?_eq_getElem hp⟩
    rw [← hs.freed p c hc, Heap.read, hc]
    cases hf : c.freed <;> simp [hf]
  · intro call hcall hu
    cases call with
    | push ancestor =>
      have ha : ∀ a ∈ ancestor, a ∈ w.unpopped := hu
      obtain ⟨heap', hpush, _⟩ := hs.push ha
      exact ⟨_, _, hpush⟩
    | copy original =>
      obtain ⟨_, _, _, heap', _, _, _, hcopy, _⟩ := hs.copy hS (hu original rfl)
      exact ⟨_, _, hcopy⟩
    | pop scope =>
      cases scope with
      | none => exact ⟨_, _, rfl⟩
      | some q =>
        obtain ⟨heap', hpop, _⟩ := hs.pop (hu q rfl)
        exact ⟨_, _, hpop⟩
    | declare | isDeclared | set | get | getType => exact hcall.elim

theorem identifier_variableKeys : VariableKeys IdentifierKey where
  toKeyEquiv := identifier_keys hashLiteral
  accepted := by rintro _ ⟨name, _, rfl⟩; rfl

theorem Call.proper_of {w : World} {call : Call} (hu : ∀ p ∈ call.handle, p ∈ w.unpopped) (hk : call.key = none) :
    call.Proper S w := ⟨hu, by simp [hk]⟩

/-- A scope, one in it, a copy of that, and the original popped: it is freed, the copy
    still holds the outer one. -/
theorem scope_references_copied : ∃ w : World, w.unpopped = [2, 0] ∧
    (w.heap.read 1 = none ↔ below w.heap.parent w.unpopped 1 = 0) ∧
    ∀ scope, w.heap.read 0 = some scope → scope.references = below w.heap.parent w.unpopped 0 := by
  have h₀ : Reach (fun w c => c.Proper IdentifierKey w) World.init := .init
  have h₁ := h₀.step (.push none) (Call.proper_of (by decide) rfl) rfl
  have h₂ := h₁.step (.push (some 0)) (Call.proper_of (by decide) rfl) rfl
  have h₃ := h₂.step (.copy 1) (Call.proper_of (by decide) rfl) rfl
  have h₄ := h₃.step (.pop (some 1)) (Call.proper_of (by decide) rfl) rfl
  obtain ⟨_, hcount, hfreed, _⟩ := scope_references IdentifierKey identifier_variableKeys _ h₄
  exact ⟨_, rfl, hfreed 1 (by decide), hcount 0⟩

end Xvr.Runtime
