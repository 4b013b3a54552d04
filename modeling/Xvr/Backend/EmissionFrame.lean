/-
  Xvr.Backend.EmissionFrame — what emitting leaves alone.

  Emitting a node writes only behind the code of the block the builder stands at and into
  blocks it makes itself; the builder leaves a block only behind a terminator. While a
  statement is half emitted some of its blocks wait, empty, for the builder to come to them.

  Proved:
  - `emit_keeps`: this of every node, with the loop stack as it was; and without a break or
    continue below it, that every block it left has one terminator, at its end.
-/

import Xvr.Backend.Emission

namespace Xvr.Backend

open Xvr.Runtime Xvr.Lib
open Xvr.Frontend (Opcode Node)

/-! ## Blocks -/

namespace Codegen

/-- The block the builder stands at. -/
def here (s : Codegen) : Nat := s.insertBlock.getD 0

def code (s : Codegen) (b : Nat) : List Instr := (s.blocks[b]?.map (·.code)).getD []

/-- The function of a block. -/
def parent (s : Codegen) (b : Nat) : Option Value := s.blocks[b]?.map (·.parent)

/-- The builder stands at a block of the module. -/
def Standing (s : Codegen) : Prop := s.insertBlock = some s.here ∧ s.here < s.blocks.length

end Codegen

/-- Without a terminator. -/
def Unterminated (code : List Instr) : Prop := ∀ i ∈ code, isTerminator i = false

/-- One terminator, at the end. -/
def Terminated (code : List Instr) : Prop :=
  ∃ body i, code = body ++ [i] ∧ Unterminated body ∧ isTerminator i = true

theorem Unterminated.op {code : List Instr} (h : Unterminated code) (i : Built) : Unterminated (code ++ [.op i]) := by
  intro j hj
  rcases List.mem_append.mp hj with hj | hj
  · exact h j hj
  · rw [List.mem_singleton.mp hj]
    rfl

namespace Codegen

variable {s : Codegen}

theorem here_of_eq {b : Nat} (h : s.insertBlock = some b) : s.here = b := by rw [here, h]; rfl

theorem here_congr {t : Codegen} (h : t.insertBlock = s.insertBlock) : t.here = s.here := by rw [here, here, h]

theorem code_congr {t : Codegen} (h : t.blocks = s.blocks) (b : Nat) : t.code b = s.code b := by rw [code, code, h]

theorem parent_congr {t : Codegen} (h : t.blocks = s.blocks) (b : Nat) : t.parent b = s.parent b := by
  rw [parent, parent, h]

theorem code_outside {b : Nat} (h : s.blocks.length ≤ b) : s.code b = [] := by
  rw [code, List.getElem?_eq_none h]
  rfl

/-! ## Appending an instruction -/

@[simp] theorem append_length (s : Codegen) (i : Instr) : (s.append i).blocks.length = s.blocks.length := by
  unfold append
  split
  · rfl
  · exact List.length_modify ..

@[simp] theorem append_insertBlock (s : Codegen) (i : Instr) : (s.append i).insertBlock = s.insertBlock := by
  unfold append
  split <;> rfl

@[simp] theorem append_here (s : Codegen) (i : Instr) : (s.append i).here = s.here :=
  here_congr (append_insertBlock s i)

@[simp] theorem append_controlFlow (s : Codegen) (i : Instr) : (s.append i).controlFlow = s.controlFlow := by
  unfold append
  split <;> rfl

@[simp] theorem append_contextErrors (s : Codegen) (i : Instr) : (s.append i).contextErrors = s.contextErrors := by
  unfold append
  split <;> rfl

@[simp] theorem append_fnEmitter (s : Codegen) (i : Instr) : (s.append i).fnEmitter = s.fnEmitter := by
  unfold append
  split <;> rfl

@[simp] theorem append_functions (s : Codegen) (i : Instr) : (s.append i).functions = s.functions := by
  unfold append
  split <;> rfl

theorem append_blocks_ne (s : Codegen) (i : Instr) {b : Nat} (h : b ≠ s.here) :
    (s.append i).blocks[b]? = s.blocks[b]? := by
  unfold append
  split
  · rfl
  · rename_i c hc
    have hne : c ≠ b := by
      rw [here_of_eq hc] at h
      exact h.symm
    simp [hne]

theorem append_code_ne (s : Codegen) (i : Instr) {b : Nat} (h : b ≠ s.here) : (s.append i).code b = s.code b := by
  rw [code, code, append_blocks_ne s i h]

theorem append_code_here (h : s.Standing) (i : Instr) : (s.append i).code s.here = s.code s.here ++ [i] := by
  obtain ⟨block, hblock⟩ : ∃ block, s.blocks[s.here]? = some block := ⟨_, List.getElem?_eq_getElem h.2⟩
  unfold append code
  rw [h.1]
  simp [hblock]

@[simp] theorem append_parent (s : Codegen) (i : Instr) (b : Nat) : (s.append i).parent b = s.parent b := by
  unfold append parent
  split
  · rfl
  · rename_i c _
    rw [List.getElem?_modify]
    cases s.blocks[b]? with
    | none => rfl
    | some block =>
      by_cases hc : c = b
      · simp [hc]
      · simp [hc]

@[simp] theorem build_controlFlow (s : Codegen) (op : Op Value) : (s.build op).2.controlFlow = s.controlFlow :=
  append_controlFlow s _

/-! ## Making a block -/

@[simp] theorem createBlock_length (s : Codegen) (fn : Value) (name : String) :
    (s.createBlock fn name).blocks.length = s.blocks.length + 1 := List.length_append

@[simp] theorem createBlock_here (s : Codegen) (fn : Value) (name : String) : (s.createBlock fn name).here = s.here := rfl

theorem createBlock_code (s : Codegen) (fn : Value) (name : String) (b : Nat) :
    (s.createBlock fn name).code b = s.code b := by
  show (Option.map _ (s.blocks ++ [_])[b]?).getD [] = _
  rcases Nat.lt_trichotomy b s.blocks.length with h | h | h
  · rw [List.getElem?_append_left h, code]
  · subst h
    rw [List.getElem?_concat_length, code_outside (Nat.le_refl _)]
    rfl
  · rw [List.getElem?_eq_none (by simp; omega), code_outside h.le]
    rfl

theorem createBlock_parent_lt (s : Codegen) (fn : Value) (name : String) {b : Nat} (h : b < s.blocks.length) :
    (s.createBlock fn name).parent b = s.parent b := by
  show Option.map _ (s.blocks ++ [_])[b]? = _
  rw [List.getElem?_append_left h, parent]

theorem createBlock_parent (s : Codegen) (fn : Value) (name : String) :
    (s.createBlock fn name).parent s.blocks.length = some fn := by
  show Option.map _ (s.blocks ++ [_])[_]? = _
  rw [List.getElem?_concat_length]
  rfl

end Codegen

theorem atEntry_standing : Codegen.atEntry.Standing := ⟨rfl, Nat.one_pos⟩

theorem atEntry_unterminated : Unterminated (Codegen.atEntry.code Codegen.atEntry.here) := by
  show Unterminated []
  exact List.forall_mem_nil _

/-! ## What a part of the emission does -/

/-- From `s` to `t` only the current block and new ones were written. -/
structure Grows (s t : Codegen) : Prop where
  standing : t.Standing
  place : t.here = s.here ∨ s.blocks.length ≤ t.here
  length : s.blocks.length ≤ t.blocks.length
  others : ∀ i, i < s.blocks.length → i ≠ s.here → t.code i = s.code i
  current : s.code s.here <+: t.code s.here
  /-- The builder leaves a block behind an instruction of its own. -/
  moved : t.here ≠ s.here → t.code s.here ≠ s.code s.here
  parents : ∀ i, i < s.blocks.length → t.parent i = s.parent i
  owned : ∀ i, s.blocks.length ≤ i → i < t.blocks.length → t.parent i = s.fnEmitter.currentFunction
  function : t.fnEmitter.currentFunction = s.fnEmitter.currentFunction
  reported : s.controlFlow.reported <+: t.controlFlow.reported
  errors : s.contextErrors <+: t.contextErrors

/-- The blocks made since `s` that the builder has not been at. -/
def Waits (waiting : List Nat) (s t : Codegen) : Prop :=
  waiting.Nodup ∧ ∀ b ∈ waiting, s.blocks.length ≤ b ∧ b < t.blocks.length ∧ b ≠ t.here ∧ t.code b = []

/-- Every block left since `s` ends in its only terminator. -/
def Settles (waiting : List Nat) (s t : Codegen) : Prop :=
  Unterminated (t.code t.here) ∧
    ∀ b, b = s.here ∨ (s.blocks.length ≤ b ∧ b < t.blocks.length) → b ≠ t.here → b ∉ waiting → Terminated (t.code b)

/-- Control flow reported no error. -/
def Silent (s t : Codegen) : Prop := t.controlFlow.reported = s.controlFlow.reported

/-- What was emitted from `s` to `t`, with some blocks waiting; `clean` is that nothing jumped
    out of it. -/
structure Emitted (clean : Prop) (waiting : List Nat) (s t : Codegen) : Prop where
  standing : s.Standing
  grows : Grows s t
  waits : Waits waiting s t
  settles : clean → Silent s t → Unterminated (s.code s.here) → Settles waiting s t

namespace Grows

variable {s t u : Codegen}

theorem refl (h : s.Standing) : Grows s s where
  standing := h
  place := .inl rfl
  length := Nat.le_refl _
  others _ _ _ := rfl
  current := List.prefix_rfl
  moved h := absurd rfl h
  parents _ _ := rfl
  owned _ hle hlt := absurd hlt (Nat.not_lt.mpr hle)
  function := rfl
  reported := List.prefix_rfl
  errors := List.prefix_rfl

theorem trans (hs : s.Standing) (h : Grows s t) (h' : Grows t u) : Grows s u where
  standing := h'.standing
  place := by
    rcases h'.place with hp | hp
    · rw [hp]
      exact h.place
    · exact .inr (h.length.trans hp)
  length := h.length.trans h'.length
  others := by
    intro i hi hne
    have hti : i ≠ t.here := by
      rcases h.place with hp | hp
      · rw [hp]
        exact hne
      · omega
    rw [h'.others i (hi.trans_le h.length) hti, h.others i hi hne]
  current := by
    by_cases hp : t.here = s.here
    · exact h.current.trans (hp ▸ h'.current)
    · rw [h'.others _ (hs.2.trans_le h.length) (Ne.symm hp)]
      exact h.current
  moved := by
    intro hu heq
    by_cases hp : t.here = s.here
    · have hpre := h'.current
      have hmoved := h'.moved
      rw [hp] at hpre hmoved
      rw [heq] at hpre hmoved
      exact hmoved hu (h.current.eq_of_length_le hpre.length_le)
    · rw [h'.others _ (hs.2.trans_le h.length) (Ne.symm hp)] at heq
      exact h.moved hp heq
  parents := by
    intro i hi
    rw [h'.parents i (hi.trans_le h.length), h.parents i hi]
  owned := by
    intro i hle hlt
    by_cases hi : i < t.blocks.length
    · rw [h'.parents i hi, h.owned i hle hi]
    · rw [h'.owned i (Nat.le_of_not_lt hi) hlt, h.function]
  function := h'.function.trans h.function
  reported := h.reported.trans h'.reported
  errors := h.errors.trans h'.errors

/-- The code of every block only grows. -/
theorem code_prefix (h : Grows s t) (b : Nat) : s.code b <+: t.code b := by
  by_cases hb : b < s.blocks.length
  · by_cases hne : b = s.here
    · rw [hne]
      exact h.current
    · rw [h.others b hb hne]
  · rw [Codegen.code_outside (Nat.le_of_not_lt hb)]
    exact List.nil_prefix

/-- Nothing was reported over both parts only if nothing was over either. -/
theorem silent (h : Grows s t) (h' : Grows t u) (hu : Silent s u) : Silent s t ∧ Silent t u := by
  have hle := h'.reported.length_le
  rw [hu] at hle
  have ht : Silent s t := (h.reported.eq_of_length_le hle).symm
  exact ⟨ht, Eq.trans hu ht.symm⟩

end Grows

namespace Emitted

variable {clean : Prop} {waiting : List Nat} {s t u : Codegen} {next : Nat}

theorem refl (hs : s.Standing) : Emitted clean [] s s where
  standing := hs
  grows := .refl hs
  waits := ⟨.nil, nofun⟩
  settles _ _ hun := by
    refine ⟨hun, ?_⟩
    intro b hb hne
    rcases hb with hb | hb
    · exact absurd hb hne
    · omega

theorem trans (h : Emitted clean waiting s t) (h' : Emitted clean [] t u) : Emitted clean waiting s u where
  standing := h.standing
  grows := h.grows.trans h.standing h'.grows
  waits := by
    refine ⟨h.waits.1, ?_⟩
    intro b hb
    obtain ⟨hle, hlt, hne, hcode⟩ := h.waits.2 b hb
    refine ⟨hle, hlt.trans_le h'.grows.length, ?_, ?_⟩
    · rcases h'.grows.place with hp | hp
      · rw [hp]
        exact hne
      · omega
    · rw [h'.grows.others b hlt hne, hcode]
  settles hc hu hun := by
    obtain ⟨hst, htu⟩ := h.grows.silent h'.grows hu
    obtain ⟨hmid, hfirst⟩ := h.settles hc hst hun
    obtain ⟨hlast, hsecond⟩ := h'.settles hc htu hmid
    refine ⟨hlast, ?_⟩
    intro b hb hne hw
    by_cases ht : b = t.here ∨ t.blocks.length ≤ b ∧ b < u.blocks.length
    · exact hsecond b ht hne nofun
    · have hlt : b < t.blocks.length := by
        rcases hb with hb | hb
        · rw [hb]
          exact h.standing.2.trans_le h.grows.length
        · omega
      rw [h'.grows.others b hlt (by omega)]
      exact hfirst b (by omega) (by omega) hw

/-- A step that leaves the module and the builder alone. -/
theorem quiet (h : Emitted clean waiting s t) (hb : u.blocks = t.blocks) (hi : u.insertBlock = t.insertBlock)
    (hf : u.fnEmitter.currentFunction = t.fnEmitter.currentFunction)
    (hr : t.controlFlow.reported <+: u.controlFlow.reported) (he : t.contextErrors <+: u.contextErrors) :
    Emitted clean waiting s u := by
  have hhere := Codegen.here_congr hi
  have hg := h.grows
  refine ⟨h.standing, ⟨?_, ?_, ?_, ?_, ?_, ?_, ?_, ?_, hf.trans hg.function, hg.reported.trans hr, hg.errors.trans he⟩, ?_, ?_⟩
  · rw [Codegen.Standing, hhere, hb, hi]
    exact hg.standing
  all_goals simp only [Waits, Settles, Codegen.code_congr hb, Codegen.parent_congr hb, hb, hhere]
  · exact hg.place
  · exact hg.length
  · exact hg.others
  · exact hg.current
  · exact hg.moved
  · exact hg.parents
  · exact hg.owned
  · exact h.waits
  · intro hc hsilent
    have hle := hr.length_le
    rw [hsilent] at hle
    exact h.settles hc (hg.reported.eq_of_length_le hle).symm

/-- The blocks that wait when an error was reported are given up. -/
theorem giveUp (h : Emitted clean waiting s t) (hn : ¬ Silent s t) : Emitted clean [] s t :=
  ⟨h.standing, h.grows, ⟨.nil, nofun⟩, fun _ hsilent => absurd hsilent hn⟩

/-- An instruction behind the current block; a jump is not clean. -/
theorem put (h : Emitted clean waiting s t) (i : Instr) (hi : clean → isTerminator i = false) :
    Emitted clean waiting s (t.append i) := by
  have hg := h.grows
  have hcode {b : Nat} (hb : b ≠ t.here) : (t.append i).code b = t.code b := Codegen.append_code_ne t i hb
  have hhere := Codegen.append_code_here hg.standing i
  refine ⟨h.standing, ⟨?_, ?_, ?_, ?_, ?_, ?_, ?_, ?_, ?_, ?_, ?_⟩, ?_, ?_⟩
  all_goals try simp only [Codegen.Standing, Waits, Silent, Settles, Codegen.append_here, Codegen.append_length,
    Codegen.append_insertBlock, Codegen.append_parent, Codegen.append_fnEmitter, Codegen.append_controlFlow,
    Codegen.append_contextErrors]
  · exact hg.standing
  · exact hg.place
  · exact hg.length
  · intro b hb hne
    have hbt : b ≠ t.here := by
      rcases hg.place with hp | hp
      · rw [hp]
        exact hne
      · omega
    rw [hcode hbt, hg.others b hb hne]
  · by_cases hp : s.here = t.here
    · rw [hp, hhere, ← hp]
      exact hg.current.trans (List.prefix_append _ _)
    · rw [hcode hp]
      exact hg.current
  · intro hne
    rw [hcode hne.symm]
    exact hg.moved hne
  · exact hg.parents
  · exact hg.owned
  · exact hg.function
  · exact hg.reported
  · exact hg.errors
  · refine ⟨h.waits.1, ?_⟩
    intro b hb
    obtain ⟨hle, hlt, hne, hempty⟩ := h.waits.2 b hb
    exact ⟨hle, hlt, hne, by rw [hcode hne, hempty]⟩
  · intro hc hsilent hstart
    obtain ⟨hun, hterm⟩ := h.settles hc hsilent hstart
    constructor
    · rw [hhere]
      intro j hj
      rcases List.mem_append.mp hj with hj | hj
      · exact hun j hj
      · rw [List.mem_singleton.mp hj]
        exact hi hc
    · intro b hb hne hw
      rw [hcode hne]
      exact hterm b hb hne hw

theorem build (h : Emitted clean waiting s t) (op : Op Value) : Emitted clean waiting s (t.build op).2 :=
  (h.put (.op ⟨t.nextId, op⟩) fun _ => rfl).quiet rfl rfl rfl List.prefix_rfl List.prefix_rfl

/-- A terminator, and the builder in a block that waited. -/
theorem leave (h : Emitted clean (next :: waiting) s t) {i : Instr} (hi : isTerminator i = true) :
    Emitted clean waiting s ((t.append i).setInsertPoint next) := by
  have hg := h.grows
  obtain ⟨hnodup, hwaits⟩ := h.waits
  obtain ⟨hle, hlt, hne, hempty⟩ := hwaits next (List.mem_cons_self ..)
  have hcode {b : Nat} (hb : b ≠ t.here) : ((t.append i).setInsertPoint next).code b = t.code b :=
    Codegen.append_code_ne t i hb
  have hleft : ((t.append i).setInsertPoint next).code t.here = t.code t.here ++ [i] :=
    Codegen.append_code_here hg.standing i
  have hparent (b : Nat) : ((t.append i).setInsertPoint next).parent b = t.parent b := Codegen.append_parent t i b
  have hlength : ((t.append i).setInsertPoint next).blocks.length = t.blocks.length := Codegen.append_length t i
  have hhere : ((t.append i).setInsertPoint next).here = next := rfl
  have hs := h.standing.2
  refine ⟨h.standing, ⟨?_, ?_, ?_, ?_, ?_, ?_, ?_, ?_, ?_, ?_, ?_⟩, ?_, ?_⟩
  · exact ⟨rfl, by rw [hhere, hlength]; exact hlt⟩
  · exact .inr hle
  · rw [hlength]
    exact hg.length
  · intro b hb hbs
    have hbt : b ≠ t.here := by
      rcases hg.place with hp | hp
      · rw [hp]
        exact hbs
      · omega
    rw [hcode hbt, hg.others b hb hbs]
  · by_cases hp : s.here = t.here
    · rw [hp, hleft, ← hp]
      exact hg.current.trans (List.prefix_append _ _)
    · rw [hcode hp]
      exact hg.current
  · intro _ heq
    by_cases hp : s.here = t.here
    · have hlen := hg.current.length_le
      have hpre := congrArg List.length heq
      rw [hp, hleft, List.length_append, List.length_singleton, ← hp] at hpre
      omega
    · rw [hcode hp] at heq
      exact hg.moved (Ne.symm hp) heq
  · intro b hb
    rw [hparent, hg.parents b hb]
  · intro b hb hbt
    rw [hparent, hg.owned b hb (hlength ▸ hbt)]
  · exact (congrArg _ (Codegen.append_fnEmitter t i)).trans hg.function
  · show s.controlFlow.reported <+: (t.append i).controlFlow.reported
    rw [Codegen.append_controlFlow]
    exact hg.reported
  · show s.contextErrors <+: (t.append i).contextErrors
    rw [Codegen.append_contextErrors]
    exact hg.errors
  · refine ⟨(List.nodup_cons.mp hnodup).2, ?_⟩
    intro b hb
    obtain ⟨hble, hblt, hbne, hbempty⟩ := hwaits b (List.mem_cons_of_mem _ hb)
    refine ⟨hble, hlength ▸ hblt, ?_, (hcode hbne).trans hbempty⟩
    intro heq
    rw [heq, hhere] at hb
    exact (List.nodup_cons.mp hnodup).1 hb
  · intro hc hsilent hstart
    have hsilent : Silent s t := (congrArg _ (Codegen.append_controlFlow t i)).symm.trans hsilent
    obtain ⟨hun, hterm⟩ := h.settles hc hsilent hstart
    constructor
    · rw [hhere, hcode hne, hempty]
      exact List.forall_mem_nil _
    · intro b hb hbne hw
      rw [hlength] at hb
      by_cases hbt : b = t.here
      · rw [hbt, hleft]
        exact ⟨_, i, rfl, hun, hi⟩
      · rw [hcode hbt]
        apply hterm b hb hbt
        intro hmem
        rcases List.mem_cons.mp hmem with heq | hmem
        · exact hbne heq
        · exact hw hmem

/-- A new block waits. -/
theorem block (h : Emitted clean waiting s t) {fn : Value} (hfn : t.fnEmitter.currentFunction = some fn) (name : String) :
    Emitted clean (waiting ++ [t.blocks.length]) s (t.createBlock fn name) := by
  have hg := h.grows
  have hs := hg.standing.2
  have hcode := Codegen.createBlock_code t fn name
  have hlength := Codegen.createBlock_length t fn name
  have hhere := Codegen.createBlock_here t fn name
  refine ⟨h.standing, ⟨?_, ?_, ?_, ?_, ?_, ?_, ?_, ?_, ?_, ?_, ?_⟩, ?_, ?_⟩
  · exact ⟨hg.standing.1, by rw [hlength, hhere]; omega⟩
  · exact hg.place
  · rw [hlength]
    exact hg.length.trans (Nat.le_succ _)
  · intro b hb hne
    rw [hcode, hg.others b hb hne]
  · rw [hcode]
    exact hg.current
  · rw [hcode]
    exact hg.moved
  · intro b hb
    rw [Codegen.createBlock_parent_lt t fn name (hb.trans_le hg.length), hg.parents b hb]
  · intro b hb hbt
    rw [hlength] at hbt
    rcases Nat.lt_or_eq_of_le (Nat.le_of_lt_succ hbt) with hlt | heq
    · rw [Codegen.createBlock_parent_lt t fn name hlt, hg.owned b hb hlt]
    · rw [heq, Codegen.createBlock_parent, ← hfn, hg.function]
  · exact hg.function
  · exact hg.reported
  · exact hg.errors
  · constructor
    · refine List.nodup_append.mpr ⟨h.waits.1, List.nodup_singleton _, ?_⟩
      intro b hb c hc
      rw [List.mem_singleton.mp hc]
      exact (h.waits.2 b hb).2.1.ne
    · intro b hb
      rw [hcode, hlength, hhere]
      rcases List.mem_append.mp hb with hb | hb
      · obtain ⟨hle, hlt, hne, hempty⟩ := h.waits.2 b hb
        exact ⟨hle, hlt.trans (Nat.lt_succ_self _), hne, hempty⟩
      · rw [List.mem_singleton.mp hb]
        exact ⟨hg.length, Nat.lt_succ_self _, hs.ne', Codegen.code_outside (Nat.le_refl _)⟩
  · intro hc hsilent hstart
    obtain ⟨hun, hterm⟩ := h.settles hc hsilent hstart
    rw [Settles, hhere, hcode, hlength]
    refine ⟨hun, ?_⟩
    intro b hb hne hw
    rw [hcode]
    simp only [List.mem_append, List.mem_singleton, not_or] at hw
    exact hterm b (by omega) hne hw.1

/-! ## The steps of if and loops -/

theorem closePart (h : Emitted clean (next :: waiting) s t) (target : Nat) :
    Emitted clean waiting s (t.closePart target next) := h.leave rfl

theorem testLoop {bodyBlock : Nat} (h : Emitted clean (bodyBlock :: waiting) s t) (condition : Value) (endBlock : Nat) :
    Emitted clean waiting s (t.testLoop condition bodyBlock endBlock) := h.leave rfl

theorem openIf (h : Emitted clean [] s t) {fn : Value} (hfn : t.fnEmitter.currentFunction = some fn) (condition : Value)
    (names : String × String × String) :
    Emitted clean [t.blocks.length + 1, t.blocks.length + 2] s (t.openIf fn condition names) := by
  have h₁ := h.block hfn names.1
  have h₂ := h₁.block hfn names.2.1
  have h₃ := h₂.block hfn names.2.2
  simp only [Codegen.createBlock_length, List.nil_append, List.cons_append] at h₃
  exact h₃.leave rfl

theorem openWhile (h : Emitted clean [] s t) {fn : Value} (hfn : t.fnEmitter.currentFunction = some fn) :
    Emitted clean [t.blocks.length + 1, t.blocks.length + 2] s (t.openWhile fn) := by
  have h₁ := h.block hfn "while_cond"
  have h₂ := h₁.block hfn "while_body"
  have h₃ := h₂.block hfn "while_end"
  simp only [Codegen.createBlock_length, List.nil_append, List.cons_append] at h₃
  let pushed := ((((t.createBlock fn "while_cond").createBlock fn "while_body").createBlock fn "while_end").pushLoop
    (t.blocks.length + 2) t.blocks.length)
  have h₄ : Emitted clean _ s pushed := h₃.quiet rfl rfl rfl List.prefix_rfl List.prefix_rfl
  exact h₄.closePart _

theorem openFor (h : Emitted clean [] s t) {fn : Value} (hfn : t.fnEmitter.currentFunction = some fn) :
    Emitted clean [t.blocks.length, t.blocks.length + 1, t.blocks.length + 2, t.blocks.length + 3] s (t.openFor fn) := by
  have h₁ := h.block hfn "for_cond"
  have h₂ := h₁.block hfn "for_body"
  have h₃ := h₂.block hfn "for_inc"
  have h₄ := h₃.block hfn "for_end"
  simp only [Codegen.createBlock_length, List.nil_append, List.cons_append] at h₄
  exact h₄.quiet rfl rfl rfl List.prefix_rfl List.prefix_rfl

theorem setError (h : Emitted clean waiting s t) (message : String) (hint : Option String) :
    Emitted clean waiting s (t.setError message hint) :=
  h.quiet rfl rfl rfl (List.prefix_append _ _) List.prefix_rfl

theorem clearError (h : Emitted clean waiting s t) : Emitted clean waiting s t.clearError :=
  h.quiet rfl rfl rfl List.prefix_rfl List.prefix_rfl

theorem popLoop (h : Emitted clean waiting s t) : Emitted clean waiting s t.popLoop :=
  h.quiet rfl rfl rfl List.prefix_rfl List.prefix_rfl

end Emitted

@[simp] theorem closePart_loops (s : Codegen) (target next : Nat) :
    (s.closePart target next).controlFlow.loops = s.controlFlow.loops :=
  congrArg _ (Codegen.append_controlFlow s _)

@[simp] theorem testLoop_loops (s : Codegen) (condition : Value) (bodyBlock endBlock : Nat) :
    (s.testLoop condition bodyBlock endBlock).controlFlow.loops = s.controlFlow.loops :=
  congrArg _ (Codegen.append_controlFlow s _)

@[simp] theorem openIf_loops (s : Codegen) (fn condition : Value) (names : String × String × String) :
    (s.openIf fn condition names).controlFlow.loops = s.controlFlow.loops :=
  congrArg _ (Codegen.append_controlFlow _ _)

@[simp] theorem openWhile_loops (s : Codegen) (fn : Value) :
    (s.openWhile fn).controlFlow.loops = (s.blocks.length + 2, s.blocks.length) :: s.controlFlow.loops :=
  congrArg _ (Codegen.append_controlFlow _ _)

@[simp] theorem openFor_loops (s : Codegen) (fn : Value) :
    (s.openFor fn).controlFlow.loops = (s.blocks.length + 3, s.blocks.length + 2) :: s.controlFlow.loops := rfl

/-! ## Actions -/

/-- What an action emits, it emits where the builder stands, and the loop stack is as before. -/
def Action.Keeps (clean : Prop) (action : Action) : Prop :=
  ∀ s : Codegen, s.Standing →
    Emitted clean [] s (action s).2 ∧ (action s).2.controlFlow.loops = s.controlFlow.loops

section

variable {clean : Prop} {waiting : List Nat} {s t : Codegen} {action : Action}

theorem Emitted.run (h : Emitted clean waiting s t) (ha : action.Keeps clean) : Emitted clean waiting s (action t).2 :=
  h.trans (ha t h.grows.standing).1

theorem Action.Keeps.loops (ha : action.Keeps clean) (h : Emitted clean waiting s t) :
    (action t).2.controlFlow.loops = t.controlFlow.loops :=
  (ha t h.grows.standing).2

theorem null_keeps : Action.null.Keeps clean := fun _ hs => ⟨.refl hs, rfl⟩

theorem emit_plan_keeps {operands : List Action} (ho : ∀ a ∈ operands, a.Keeps clean) (plan : Plan Value) :
    (plan.emit operands).Keeps clean := by
  intro s hs
  induction plan generalizing s with
  | done value => exact ⟨.refl hs, rfl⟩
  | operand index next ih =>
    have ha : (operands[index]?.getD .null).Keeps clean := by
      cases hop : operands[index]? with
      | none => exact null_keeps
      | some a => exact ho a (List.mem_of_getElem? hop)
    have h := (Emitted.refl hs).run ha
    obtain ⟨h', hl⟩ := ih _ _ h.grows.standing
    exact ⟨h.trans h', hl.trans (ha.loops (.refl hs))⟩
  | build op next ih =>
    have h : Emitted clean [] s (s.build op).2 := (Emitted.refl hs).build op
    obtain ⟨h', hl⟩ := ih _ _ h.grows.standing
    exact ⟨h.trans h', hl.trans (congrArg _ (Codegen.build_controlFlow s op))⟩
  | lookup name next ih => exact ih _ s hs
  | declare name alloca varType count next ih =>
    have h : Emitted clean [] s { s with fnEmitter := s.fnEmitter.addLocalVar (some name) (some alloca) varType count } :=
      (Emitted.refl hs).quiet rfl rfl (FunctionEmitter.addLocalVar_function ..) List.prefix_rfl List.prefix_rfl
    obtain ⟨h', hl⟩ := ih _ h.grows.standing
    exact ⟨h.trans h', hl⟩
  | getFunction name next ih => exact ih _ s hs
  | setError message next ih =>
    have h : Emitted clean [] s (s.setContextError message) :=
      (Emitted.refl hs).quiet rfl rfl rfl List.prefix_rfl (List.prefix_append _ _)
    obtain ⟨h', hl⟩ := ih _ h.grows.standing
    exact ⟨h.trans h', hl⟩

theorem runAll_keeps {actions : List Action} (ha : ∀ a ∈ actions, a.Keeps clean) (h : Emitted clean waiting s t) :
    Emitted clean waiting s (runAll actions t) ∧ (runAll actions t).controlFlow.loops = t.controlFlow.loops := by
  induction actions generalizing t with
  | nil => exact ⟨h, rfl⟩
  | cons a rest ih =>
    have hfirst := ha a (List.mem_cons_self ..)
    obtain ⟨h', hl⟩ := ih (fun b hb => ha b (List.mem_cons_of_mem _ hb)) (h.run hfirst)
    exact ⟨h', hl.trans (hfirst.loops h)⟩

theorem runLast_keeps {actions : List Action} (ha : ∀ a ∈ actions, a.Keeps clean) : (runLast actions).Keeps clean := by
  induction actions with
  | nil => exact null_keeps
  | cons a rest ih =>
    have hfirst := ha a (List.mem_cons_self ..)
    have hrest := ih fun b hb => ha b (List.mem_cons_of_mem _ hb)
    cases rest with
    | nil => exact hfirst
    | cons b rest =>
      intro s hs
      have h := (Emitted.refl hs).run hfirst
      exact ⟨h.run hrest, (hrest.loops h).trans (hfirst.loops (.refl hs))⟩

theorem emitBlock_keeps {actions : List Action} (ha : ∀ a ∈ actions, a.Keeps clean) : (emitBlock actions).Keeps clean := by
  intro s hs
  unfold emitBlock
  split
  · exact ⟨.refl hs, rfl⟩
  · have h : Emitted clean [] s { s with fnEmitter := s.fnEmitter.enterScope } :=
      (Emitted.refl hs).quiet rfl rfl (FunctionEmitter.enterScope_function _) List.prefix_rfl List.prefix_rfl
    obtain ⟨h', hl⟩ := runAll_keeps ha h
    exact ⟨h'.quiet rfl rfl (FunctionEmitter.exitScope_function _) List.prefix_rfl List.prefix_rfl, hl⟩

/-! ## If -/

theorem emitCondition_keeps {condition : Action} (ha : condition.Keeps clean) (what : String) :
    (emitCondition what condition).Keeps clean := by
  intro s hs
  have h := ha s hs
  unfold emitCondition
  generalize condition s = r at *
  rcases r with ⟨_ | value, s₁⟩
  · exact ⟨h.1.setError _ _, h.2⟩
  · dsimp only
    split
    · exact h
    · exact ⟨h.1.setError _ _, h.2⟩

theorem setError_not_silent (h : Grows s t) (message : String) (hint : Option String) :
    ¬ Silent s (t.setError message hint) := by
  intro hsilent
  have hle := h.reported.length_le
  have hlen := congrArg List.length hsilent
  rw [Codegen.setError, List.length_append, List.length_singleton] at hlen
  omega

/-- Without a condition an error was reported. -/
theorem emitCondition_none {condition : Action} (ha : condition.Keeps clean) (hs : s.Standing) (what : String)
    (h : (emitCondition what condition s).1 = none) : ¬ Silent s (emitCondition what condition s).2 := by
  have hg := (ha s hs).1.grows
  unfold emitCondition at h ⊢
  generalize condition s = r at *
  rcases r with ⟨_ | value, s₁⟩
  · exact setError_not_silent hg _ _
  · dsimp only at h ⊢
    split at h
    · cases h
    · rename_i hb
      rw [if_neg hb]
      exact setError_not_silent hg _ _

/-- The two arms behind the branch. -/
theorem Emitted.arms {thenPath elsePath : Action} (ht : thenPath.Keeps clean) (he : elsePath.Keeps clean)
    (h : Emitted clean [] s t) {fn : Value} (hfn : t.fnEmitter.currentFunction = some fn) (value : Value)
    (names : String × String × String) :
    let n := t.blocks.length
    let s₁ := (thenPath (t.openIf fn value names)).2.closePart (n + 2) (n + 1)
    Emitted clean [] s ((elsePath s₁).2.closePart (n + 2) (n + 2)) ∧
      (elsePath s₁).2.controlFlow.loops = t.controlFlow.loops := by
  have hopen := h.openIf hfn value names
  have hthen := (hopen.run ht).closePart (t.blocks.length + 2)
  refine ⟨(hthen.run he).closePart _, ?_⟩
  rw [he.loops hthen, closePart_loops, ht.loops hopen, openIf_loops]

theorem emitIfStatement_keeps {condition thenPath elsePath : Action} (hc : condition.Keeps clean)
    (ht : thenPath.Keeps clean) (he : elsePath.Keeps clean) :
    (emitStatement (emitIfStatement condition thenPath elsePath)).Keeps clean := by
  intro s hs
  unfold emitStatement emitIfStatement
  split
  · exact ⟨(Emitted.refl hs).setError _ _, rfl⟩
  · rename_i fn hfn
    have h := emitCondition_keeps hc "if statement" s hs
    generalize emitCondition "if statement" condition s = r at *
    rcases r with ⟨_ | value, s₁⟩
    · exact h
    · obtain ⟨harms, hl⟩ := h.1.arms ht he (h.1.grows.function.trans hfn) value ifNames
      exact ⟨harms, (closePart_loops ..).trans (hl.trans h.2)⟩

theorem emitIfExpression_keeps {condition thenPath elsePath : Action} (hc : condition.Keeps clean)
    (ht : thenPath.Keeps clean) (he : elsePath.Keeps clean) (typeWord : BitVec 32) :
    (emitIfExpression condition thenPath elsePath typeWord).Keeps clean := by
  intro s hs
  unfold emitIfExpression
  split
  · exact ⟨.refl hs, rfl⟩
  · rename_i fn hfn
    have h := emitCondition_keeps hc "if expression" s hs
    generalize emitCondition "if expression" condition s = r at *
    rcases r with ⟨_ | value, s₁⟩
    · exact h
    · obtain ⟨harms, hl⟩ := h.1.arms ht he (h.1.grows.function.trans hfn) value ifNames
      refine ⟨(harms.build _).quiet rfl rfl rfl List.prefix_rfl List.prefix_rfl, ?_⟩
      show (Codegen.build _ (Codegen.closePart _ _ _)).2.controlFlow.loops = s.controlFlow.loops
      rw [Codegen.build_controlFlow, closePart_loops]
      exact hl.trans h.2

theorem emitIf_keeps {statement : Codegen → Bool × Codegen} {expression : Action} (hs : (emitStatement statement).Keeps clean)
    (he : expression.Keeps clean) (isExpression : Bool) :
    (emitStatement (emitIf isExpression statement expression)).Keeps clean := by
  intro s hst
  have h : Emitted clean [] s s.clearError := (Emitted.refl hst).clearError
  unfold emitStatement emitIf
  split
  · exact ⟨h.run he, he.loops h⟩
  · exact ⟨h.run hs, hs.loops h⟩

theorem emitArm_keeps {actions : List Action} {whole : Action} (ha : ∀ a ∈ actions, a.Keeps clean) (hw : whole.Keeps clean) :
    (emitArm actions whole).Keeps clean := by
  unfold emitArm
  split
  · exact hw
  · exact runLast_keeps ha

theorem emitTernary_keeps {condition thenPath elsePath : Action} (hc : condition.Keeps clean) (ht : thenPath.Keeps clean)
    (he : elsePath.Keeps clean) : (emitTernary condition thenPath elsePath).Keeps clean := by
  intro s hs
  have h := hc s hs
  unfold emitTernary
  generalize condition s = r at *
  rcases r with ⟨_ | value, s₁⟩
  · exact h
  · dsimp only
    split
    · have h₂ := (h.1.run ht)
      have hl₂ := ht.loops h.1
      generalize thenPath s₁ = r at *
      rcases r with ⟨thenValue, s₂⟩
      have h₃ := h₂.run he
      have hl₃ := he.loops h₂
      dsimp only at h₃ hl₃ ⊢
      generalize elsePath s₂ = r at *
      rcases r with ⟨elseValue, s₃⟩
      have hall : Emitted clean [] s s₃ := h₃
      have hl : s₃.controlFlow.loops = s.controlFlow.loops := hl₃.trans (hl₂.trans h.2)
      dsimp only
      split
      · rename_i fn hfn
        have h₄ := ((hall.openIf hfn value ternaryNames).closePart (s₃.blocks.length + 2)).closePart (s₃.blocks.length + 2)
        refine ⟨h₄.build _, ?_⟩
        rw [Codegen.build_controlFlow, closePart_loops, closePart_loops, openIf_loops, hl]
      · exact ⟨h₃, hl⟩
    · exact h

/-! ## Loops -/

theorem emitLoop_keeps {loop : Value → Codegen → Bool × Codegen} (what : String)
    (hl : ∀ fn s, s.Standing → s.fnEmitter.currentFunction = some fn →
      Emitted clean [] s (loop fn s).2 ∧ (loop fn s).2.controlFlow.loops = s.controlFlow.loops) :
    (emitStatement (emitLoop what loop)).Keeps clean := by
  intro s hs
  have h : Emitted clean [] s s.clearError := (Emitted.refl hs).clearError
  unfold emitStatement emitLoop
  dsimp only
  split
  · exact ⟨h.setError _ _, rfl⟩
  · rename_i fn hfn
    split
    · exact ⟨h.setError _ _, rfl⟩
    · obtain ⟨h', hl'⟩ := hl fn s.clearError h.grows.standing hfn
      exact ⟨h.trans h', hl'⟩

theorem emitWhile_keeps {condition thenPath : Action} (hc : condition.Keeps clean) (ht : thenPath.Keeps clean) :
    (emitStatement (emitWhile condition thenPath)).Keeps clean := by
  refine emitLoop_keeps "while" ?_
  intro fn s hs hfn
  have h : Emitted clean _ s (s.openWhile fn) := (Emitted.refl hs).openWhile hfn
  have hcond := emitCondition_keeps hc "while statement"
  have h₁ := h.run hcond
  have hl₁ := hcond.loops h
  have hloud (hn : (emitCondition "while statement" condition (s.openWhile fn)).1 = none) :
      ¬ Silent s (emitCondition "while statement" condition (s.openWhile fn)).2 := fun hsilent =>
    emitCondition_none hc h.grows.standing _ hn (h.grows.silent (hcond _ h.grows.standing).1.grows hsilent).2
  dsimp only
  generalize emitCondition "while statement" condition (s.openWhile fn) = r at *
  rcases r with ⟨_ | value, s₁⟩
  · exact ⟨(h₁.giveUp (hloud rfl)).popLoop, congrArg List.tail (hl₁.trans (openWhile_loops ..))⟩
  · have h₂ := h₁.testLoop value (s.blocks.length + 2)
    refine ⟨((h₂.run ht).closePart _).popLoop, ?_⟩
    refine (congrArg List.tail (closePart_loops ..)).trans ?_
    rw [ht.loops h₂, testLoop_loops, hl₁, openWhile_loops, List.tail_cons]

theorem emitForCondition_keeps {condition : Action} (ha : condition.Keeps clean) : (emitForCondition condition).Keeps clean := by
  intro s hs
  have h := ha s hs
  unfold emitForCondition
  generalize condition s = r at *
  rcases r with ⟨_ | value, s₁⟩
  · exact h
  · dsimp only
    split
    · exact h
    · exact ⟨h.1.setError _ _, h.2⟩

theorem emitForCondition_none {condition : Action} (ha : condition.Keeps clean) (hs : s.Standing)
    (h : (emitForCondition condition s).1 = none) : ¬ Silent s (emitForCondition condition s).2 := by
  have hg := (ha s hs).1.grows
  unfold emitForCondition at h ⊢
  generalize condition s = r at *
  rcases r with ⟨_ | value, s₁⟩
  · cases h
  · dsimp only at h ⊢
    split at h
    · cases h
    · rename_i hb
      rw [if_neg hb]
      exact setError_not_silent hg _ _

theorem emitFor_keeps {preClause condition postClause thenPath : Action} (hp : preClause.Keeps clean)
    (hc : condition.Keeps clean) (hpost : postClause.Keeps clean) (ht : thenPath.Keeps clean) :
    (emitStatement (emitFor preClause condition postClause thenPath)).Keeps clean := by
  refine emitLoop_keeps "for" ?_
  intro fn s hs hfn
  have h : Emitted clean _ s (s.openFor fn) := (Emitted.refl hs).openFor hfn
  have h₁ := (h.run hp).closePart s.blocks.length
  have hl₁ := hp.loops h
  have hcond := emitForCondition_keeps hc
  have h₂ := h₁.run hcond
  have hl₂ := hcond.loops h₁
  let start := (preClause (s.openFor fn)).2.closePart s.blocks.length s.blocks.length
  have hloud (hn : (emitForCondition condition start).1 = none) : ¬ Silent s (emitForCondition condition start).2 :=
    fun hsilent =>
      emitForCondition_none hc h₁.grows.standing hn (h₁.grows.silent (hcond _ h₁.grows.standing).1.grows hsilent).2
  dsimp only [start] at *
  generalize emitForCondition condition ((preClause (s.openFor fn)).2.closePart s.blocks.length s.blocks.length) = r at *
  rcases r with ⟨_ | value, s₂⟩
  · refine ⟨(h₂.giveUp (hloud rfl)).popLoop, ?_⟩
    show s₂.controlFlow.loops.tail = _
    rw [hl₂, closePart_loops, hl₁, openFor_loops, List.tail_cons]
  · have h₃ := h₂.testLoop value (s.blocks.length + 3)
    have h₄ := (h₃.run ht).closePart (s.blocks.length + 2)
    refine ⟨((h₄.run hpost).closePart _).popLoop, ?_⟩
    refine (congrArg List.tail (closePart_loops ..)).trans ?_
    rw [hpost.loops h₄, closePart_loops, ht.loops h₃, testLoop_loops, hl₂, closePart_loops, hl₁, openFor_loops, List.tail_cons]

/-- A jump is appended and the builder stays. -/
theorem emitBreak_keeps (hclean : ¬ clean) : (emitStatement emitBreak).Keeps clean := by
  intro s hs
  have h : Emitted clean [] s s.clearError := (Emitted.refl hs).clearError
  unfold emitStatement emitBreak
  dsimp only
  split
  · exact ⟨h.setError _ _, rfl⟩
  · refine ⟨h.put _ fun hc => absurd hc hclean, ?_⟩
    show (s.clearError.append _).controlFlow.loops = _
    rw [Codegen.append_controlFlow]
    rfl

theorem emitContinue_keeps (hclean : ¬ clean) : (emitStatement emitContinue).Keeps clean := by
  intro s hs
  have h : Emitted clean [] s s.clearError := (Emitted.refl hs).clearError
  unfold emitStatement emitContinue
  dsimp only
  split
  · exact ⟨h.setError _ _, rfl⟩
  · refine ⟨h.put _ fun hc => absurd hc hclean, ?_⟩
    show (s.clearError.append _).controlFlow.loops = _
    rw [Codegen.append_controlFlow]
    rfl

end

/-! ## Every node -/

mutual

/-- A break or continue is emitted within the node. -/
def jumps : Node → Bool
  | .pathBreak | .pathContinue => true
  | .pathIf condition thenPath elsePath _ _ | .ternary condition thenPath elsePath =>
    jumps condition || jumps thenPath || jumps elsePath
  | .pathWhile condition thenPath => jumps condition || jumps thenPath
  | .pathFor preClause condition postClause thenPath =>
    jumps preClause || jumps condition || jumps postClause || jumps thenPath
  | .block nodes | .compound _ nodes | .fnCollection nodes => jumpsAny nodes
  | .unary _ child | .grouping child | .cast _ child | .varDecl _ _ child _ | .fnCall child _ => jumps child
  | .binary _ left right => jumps left || jumps right
  | .index first second third => jumps first || jumps second || jumps third
  | _ => false

def jumpsAny : List Node → Bool
  | [] => false
  | node :: nodes => jumps node || jumpsAny nodes

end

mutual

/-- A loop is emitted within the node. -/
def loops : Node → Bool
  | .pathWhile _ _ | .pathFor _ _ _ _ => true
  | .pathIf condition thenPath elsePath _ _ | .ternary condition thenPath elsePath =>
    loops condition || loops thenPath || loops elsePath
  | .block nodes | .compound _ nodes | .fnCollection nodes => loopsAny nodes
  | .unary _ child | .grouping child | .cast _ child | .varDecl _ _ child _ | .fnCall child _ => loops child
  | .binary _ left right => loops left || loops right
  | .index first second third => loops first || loops second || loops third
  | _ => false

def loopsAny : List Node → Bool
  | [] => false
  | node :: nodes => loops node || loopsAny nodes

end

/-- A property of actions that the emission of a node is built along; of a jump and of a loop it
    need hold only where these are admitted. -/
structure Builds (jumping looping : Prop) (P : Action → Prop) : Prop where
  plan : ∀ {operands}, (∀ a ∈ operands, P a) → ∀ plan : Plan Value, P (plan.emit operands)
  block : ∀ {actions}, (∀ a ∈ actions, P a) → P (emitBlock actions)
  arm : ∀ {actions whole}, (∀ a ∈ actions, P a) → P whole → P (emitArm actions whole)
  ternary : ∀ {condition thenPath elsePath}, P condition → P thenPath → P elsePath →
    P (emitTernary condition thenPath elsePath)
  ifStatement : ∀ {condition thenPath elsePath}, P condition → P thenPath → P elsePath →
    P (emitStatement (emitIfStatement condition thenPath elsePath))
  ifExpression : ∀ {condition thenPath elsePath}, P condition → P thenPath → P elsePath → ∀ typeWord,
    P (emitIfExpression condition thenPath elsePath typeWord)
  ifEither : ∀ {statement expression}, P (emitStatement statement) → P expression → ∀ isExpression,
    P (emitStatement (emitIf isExpression statement expression))
  whileLoop : looping → ∀ {condition thenPath}, P condition → P thenPath →
    P (emitStatement (emitWhile condition thenPath))
  forLoop : looping → ∀ {preClause condition postClause thenPath}, P preClause → P condition → P postClause →
    P thenPath → P (emitStatement (emitFor preClause condition postClause thenPath))
  jump : jumping → P (emitStatement emitBreak) ∧ P (emitStatement emitContinue)

section

variable {library : Library Value} {jumping looping : Prop} {P : Action → Prop}

theorem Builds.leaf (hP : Builds jumping looping P) (plan : Plan Value) : P (plan.emit []) :=
  hP.plan (List.forall_mem_nil P) plan

theorem Builds.null (hP : Builds jumping looping P) : P .null := hP.leaf (.done none)

theorem all_one {action : Action} (h : P action) : ∀ a ∈ [action], P a := by
  intro a ha
  rw [List.mem_singleton.mp ha]
  exact h

theorem all_three {first second third : Action} (h₁ : P first) (h₂ : P second) (h₃ : P third) :
    ∀ a ∈ [first, second, third], P a := by
  intro a hmem
  simp only [List.mem_cons, List.not_mem_nil, or_false] at hmem
  rcases hmem with rfl | rfl | rfl
  · exact h₁
  · exact h₂
  · exact h₃

theorem all_append {first second : List Action} (h₁ : ∀ a ∈ first, P a) (h₂ : ∀ a ∈ second, P a) :
    ∀ a ∈ first ++ second, P a := by
  intro a ha
  rcases List.mem_append.mp ha with ha | ha
  · exact h₁ a ha
  · exact h₂ a ha

mutual

/-- What every emission is built along holds of the emission of a node. -/
theorem Builds.ofNode (hP : Builds jumping looping P) (node : Node) (hj : ¬ jumping → jumps node = false)
    (hl : ¬ looping → loops node = false) : P (emit library node) := by
  cases node with
  | pathIf condition thenPath elsePath typeWord isExpression =>
    simp only [jumps, loops, Bool.or_eq_false_iff] at hj hl
    have hc := hP.ofNode condition (fun c => (hj c).1.1) fun c => (hl c).1.1
    have ht := hP.ofNode thenPath (fun c => (hj c).1.2) fun c => (hl c).1.2
    have he := hP.ofNode elsePath (fun c => (hj c).2) fun c => (hl c).2
    have hts := hP.arm (hP.ofStatements thenPath (fun c => (hj c).1.2) fun c => (hl c).1.2) ht
    have hes := hP.arm (hP.ofStatements elsePath (fun c => (hj c).2) fun c => (hl c).2) he
    rw [emit]
    refine hP.ifEither (hP.ifStatement hc ht he) (hP.ifExpression hc hts ?_ typeWord) isExpression
    cases hels : elseIf library elsePath with
    | none => exact hes
    | some action => exact hP.ofElseIf elsePath (fun c => (hj c).2) (fun c => (hl c).2) action hels
  | pathWhile condition thenPath =>
    simp only [jumps, loops, Bool.or_eq_false_iff] at hj hl
    have hlooping : looping := by
      by_contra hno
      cases hl hno
    rw [emit]
    exact hP.whileLoop hlooping (hP.ofNode condition (fun c => (hj c).1) (absurd hlooping))
      (hP.ofNode thenPath (fun c => (hj c).2) (absurd hlooping))
  | pathFor preClause condition postClause thenPath =>
    simp only [jumps, loops, Bool.or_eq_false_iff] at hj hl
    have hlooping : looping := by
      by_contra hno
      cases hl hno
    rw [emit]
    exact hP.forLoop hlooping (hP.ofNode preClause (fun c => (hj c).1.1.1) (absurd hlooping))
      (hP.ofNode condition (fun c => (hj c).1.1.2) (absurd hlooping))
      (hP.ofNode postClause (fun c => (hj c).1.2) (absurd hlooping)) (hP.ofNode thenPath (fun c => (hj c).2) (absurd hlooping))
  | pathBreak =>
    rw [emit]
    refine (hP.jump ?_).1
    by_contra hno
    cases hj hno
  | pathContinue =>
    rw [emit]
    refine (hP.jump ?_).2
    by_contra hno
    cases hj hno
  | block nodes =>
    rw [emit]
    exact hP.block (hP.ofNodes nodes hj hl)
  | ternary condition thenPath elsePath =>
    simp only [jumps, loops, Bool.or_eq_false_iff] at hj hl
    rw [emit]
    split
    · exact hP.null
    · exact hP.ternary (hP.ofNode condition (fun c => (hj c).1.1) fun c => (hl c).1.1)
        (hP.ofNode thenPath (fun c => (hj c).1.2) fun c => (hl c).1.2) (hP.ofNode elsePath (fun c => (hj c).2) fun c => (hl c).2)
  | unary opcode child =>
    rw [emit]
    exact hP.plan (all_one (hP.ofNode child hj hl)) _
  | binary opcode left right =>
    simp only [jumps, loops, Bool.or_eq_false_iff] at hj hl
    have hleft := hP.ofNode left (fun c => (hj c).1) fun c => (hl c).1
    have hright := hP.ofNode right (fun c => (hj c).2) fun c => (hl c).2
    have harguments := all_append (hP.ofArguments left (fun c => (hj c).1) fun c => (hl c).1)
      (hP.ofArguments right (fun c => (hj c).2) fun c => (hl c).2)
    rw [emit]
    exact hP.plan (all_append (all_one hleft) (all_append (all_one hright) harguments)) _
  | grouping child =>
    rw [emit]
    exact hP.plan (all_one (hP.ofNode child hj hl)) _
  | cast targetType expression =>
    rw [emit]
    exact hP.plan (all_one (hP.ofNode expression hj hl)) _
  | varDecl identifier typeLiteral expression line =>
    rw [emit]
    exact hP.plan (all_append (all_one (hP.ofNode expression hj hl)) (hP.ofArguments expression hj hl)) _
  | index first second third =>
    simp only [jumps, loops, Bool.or_eq_false_iff] at hj hl
    rw [emit]
    exact hP.plan (all_three (hP.ofNode first (fun c => (hj c).1.1) fun c => (hl c).1.1)
      (hP.ofNode second (fun c => (hj c).1.2) fun c => (hl c).1.2) (hP.ofNode third (fun c => (hj c).2) fun c => (hl c).2)) _
  | compound literalType nodes =>
    rw [emit]
    exact hP.plan (hP.ofNodes nodes hj hl) _
  | fnCall args count =>
    rw [emit]
    exact hP.plan (hP.ofArguments args hj hl) _
  | _ => first | exact hP.null | exact hP.leaf _

theorem Builds.ofNodes (hP : Builds jumping looping P) (nodes : List Node) (hj : ¬ jumping → jumpsAny nodes = false)
    (hl : ¬ looping → loopsAny nodes = false) : ∀ a ∈ emitAll library nodes, P a := by
  cases nodes with
  | nil => rw [emitAll]; nofun
  | cons node nodes =>
    simp only [jumpsAny, loopsAny, Bool.or_eq_false_iff] at hj hl
    rw [emitAll]
    exact all_append (all_one (hP.ofNode node (fun c => (hj c).1) fun c => (hl c).1))
      (hP.ofNodes nodes (fun c => (hj c).2) fun c => (hl c).2)

theorem Builds.ofStatements (hP : Builds jumping looping P) (node : Node) (hj : ¬ jumping → jumps node = false)
    (hl : ¬ looping → loops node = false) : ∀ a ∈ statements library node, P a := by
  cases node with
  | block nodes =>
    rw [statements]
    exact hP.ofNodes nodes hj hl
  | _ => exact fun a ha => absurd (show a ∈ ([] : List Action) from ha) List.not_mem_nil

theorem Builds.ofElseIf (hP : Builds jumping looping P) (node : Node) (hj : ¬ jumping → jumps node = false)
    (hl : ¬ looping → loops node = false) : ∀ action, elseIf library node = some action → P action := by
  cases node with
  | pathIf condition thenPath elsePath typeWord isExpression =>
    simp only [jumps, loops, Bool.or_eq_false_iff] at hj hl
    have hc := hP.ofNode condition (fun c => (hj c).1.1) fun c => (hl c).1.1
    have ht := hP.arm (hP.ofStatements thenPath (fun c => (hj c).1.2) fun c => (hl c).1.2)
      (hP.ofNode thenPath (fun c => (hj c).1.2) fun c => (hl c).1.2)
    have he := hP.arm (hP.ofStatements elsePath (fun c => (hj c).2) fun c => (hl c).2)
      (hP.ofNode elsePath (fun c => (hj c).2) fun c => (hl c).2)
    have hels := hP.ofElseIf elsePath (fun c => (hj c).2) fun c => (hl c).2
    intro action haction
    rw [elseIf] at haction
    cases haction
    refine hP.ifExpression hc ht ?_ typeWord
    cases hei : elseIf library elsePath with
    | none => exact he
    | some action => exact hels action hei
  | _ => nofun

theorem Builds.ofArguments (hP : Builds jumping looping P) (node : Node) (hj : ¬ jumping → jumps node = false)
    (hl : ¬ looping → loops node = false) : ∀ a ∈ arguments library node, P a := by
  cases node with
  | compound literalType nodes =>
    rw [arguments]
    exact hP.ofNodes nodes hj hl
  | fnCollection nodes =>
    rw [arguments]
    exact hP.ofNodes nodes hj hl
  | fnCall args count =>
    rw [arguments]
    exact hP.ofArguments args hj hl
  | binary opcode left right =>
    simp only [jumps, loops, Bool.or_eq_false_iff] at hj hl
    rw [arguments]
    exact all_append (hP.ofArguments left (fun c => (hj c).1) fun c => (hl c).1)
      (hP.ofArguments right (fun c => (hj c).2) fun c => (hl c).2)
  | index first second third =>
    simp only [jumps, loops, Bool.or_eq_false_iff] at hj hl
    rw [arguments]
    exact all_three (hP.ofNode first (fun c => (hj c).1.1) fun c => (hl c).1.1)
      (hP.ofNode second (fun c => (hj c).1.2) fun c => (hl c).1.2) (hP.ofNode third (fun c => (hj c).2) fun c => (hl c).2)
  | _ => exact fun a ha => absurd (show a ∈ ([] : List Action) from ha) List.not_mem_nil

end

end

section

variable (library : Library Value) {clean : Prop}

theorem builds_keeps : Builds (¬ clean) True (Action.Keeps clean) where
  plan := emit_plan_keeps
  block := emitBlock_keeps
  arm := emitArm_keeps
  ternary := emitTernary_keeps
  ifStatement := emitIfStatement_keeps
  ifExpression := emitIfExpression_keeps
  ifEither := emitIf_keeps
  whileLoop _ _ _ := emitWhile_keeps
  forLoop _ _ _ _ _ := emitFor_keeps
  jump hclean := ⟨emitBreak_keeps hclean, emitContinue_keeps hclean⟩

theorem emit_keeps (node : Node) (h : clean → jumps node = false) : (emit library node).Keeps clean :=
  builds_keeps.ofNode node (fun hclean => h (Classical.not_not.mp hclean)) (absurd trivial)

theorem emitAll_keeps (nodes : List Node) (h : clean → jumpsAny nodes = false) :
    ∀ a ∈ emitAll library nodes, a.Keeps clean :=
  builds_keeps.ofNodes nodes (fun hclean => h (Classical.not_not.mp hclean)) (absurd trivial)

theorem emit_frame (node : Node) : (emit library node).Keeps False := emit_keeps library node False.elim

end

end Xvr.Backend
