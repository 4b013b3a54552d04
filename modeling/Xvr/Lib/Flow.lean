/-
  Xvr.Lib.Flow — a structured program and a graph of blocks that realises it.

  A graph runs from a position (a block and an offset in it) as long as there is code; what
  happened is its history, newest first. A test comes out as any function of the history.
  A tree is built from single instructions, sequence, branch and loop; it need not end, so
  besides its complete runs (`Runs`) it has the histories it gets to (`Reaches`).

  Proved:
  - `Realises.runs`, `Realises.reaches`: the graph does what the tree does.
  - `Realises.steps`: the graph does nothing else before it comes to the end position.
  - `Realises.arrives_iff`, `Realises.reaches_iff`: both together, when the end position has
    no code.
  - `Tree.LoopFree.runs`: a tree without loops comes to an end.
-/

import Mathlib.Data.List.Infix

namespace Xvr.Lib.Flow

/-! ## Graphs -/

inductive Instr (ι ν : Type) where
  | op (i : ι)
  | br (target : Nat)
  | condBr (condition : ν) (onTrue onFalse : Nat)
  | ret (value : Option ν)
  deriving DecidableEq, Repr

def Instr.isRet {ι ν : Type} : Instr ι ν → Bool
  | .ret _ => true
  | _ => false

inductive Event (ι ν : Type) where
  | did (i : ι)
  | tested (condition : ν) (outcome : Bool)
  deriving DecidableEq, Repr

abbrev History (ι ν : Type) := List (Event ι ν)

/-- How the tests come out. -/
abbrev Outcome (ι ν : Type) := History ι ν → ν → Bool

structure Pos where
  block : Nat
  offset : Nat
  deriving DecidableEq, Repr

def Pos.next (p : Pos) : Pos := ⟨p.block, p.offset + 1⟩

/-- The code of each block. -/
abbrev Graph (ι ν : Type) := Nat → List (Instr ι ν)

structure Config (ι ν : Type) where
  pos : Pos
  history : History ι ν
  deriving DecidableEq, Repr

variable {ι ν : Type}

def Graph.code (g : Graph ι ν) (p : Pos) : Option (Instr ι ν) := (g p.block)[p.offset]?

theorem Graph.code_mono {g g' : Graph ι ν} (hle : ∀ b, g b <+: g' b) {p : Pos} {i : Instr ι ν}
    (h : g.code p = some i) : g'.code p = some i := by
  obtain ⟨rest, hrest⟩ := hle p.block
  obtain ⟨hlt, -⟩ := List.getElem?_eq_some_iff.mp h
  rw [Graph.code, ← hrest, List.getElem?_append_left hlt]
  exact h

/-- A return ends the run, and so does the end of a block. -/
def step (g : Graph ι ν) (o : Outcome ι ν) (c : Config ι ν) : Option (Config ι ν) :=
  match g.code c.pos with
  | some (.op i) => some ⟨c.pos.next, .did i :: c.history⟩
  | some (.br target) => some ⟨⟨target, 0⟩, c.history⟩
  | some (.condBr condition onTrue onFalse) =>
    some ⟨⟨if o c.history condition then onTrue else onFalse, 0⟩,
      .tested condition (o c.history condition) :: c.history⟩
  | some (.ret _) => none
  | none => none

/-- `n` steps of a graph. -/
inductive Steps (g : Graph ι ν) (o : Outcome ι ν) : Nat → Config ι ν → Config ι ν → Prop where
  | refl (c : Config ι ν) : Steps g o 0 c c
  | head {n : Nat} {c d e : Config ι ν} (h : step g o c = some d) (hs : Steps g o n d e) : Steps g o (n + 1) c e

/-- The graph gets from one configuration to another. -/
def Leads (g : Graph ι ν) (o : Outcome ι ν) (c d : Config ι ν) : Prop := ∃ n, Steps g o n c d

section

variable {g : Graph ι ν} {o : Outcome ι ν}

theorem Steps.trans {m n : Nat} {c d e : Config ι ν} (h : Steps g o m c d) (h' : Steps g o n d e) :
    Steps g o (m + n) c e := by
  induction h with
  | refl => rw [Nat.zero_add]; exact h'
  | @head m _ _ _ hstep _ ih =>
    rw [Nat.add_right_comm]
    exact .head hstep (ih h')

/-- A run is determined by where it starts. -/
theorem Steps.split {m n : Nat} {c d e : Config ι ν} (h : Steps g o m c d) (h' : Steps g o n c e) :
    (∃ k, n = m + k ∧ Steps g o k d e) ∨ ∃ k, m = n + k ∧ Steps g o k e d := by
  induction h generalizing n e with
  | refl => exact .inl ⟨n, (Nat.zero_add n).symm, h'⟩
  | @head m c d' d hstep hrest ih =>
    cases h' with
    | refl => exact .inr ⟨m + 1, (Nat.zero_add _).symm, .head hstep hrest⟩
    | @head n _ d'' _ hstep' hrest' =>
      rw [hstep] at hstep'
      cases hstep'
      rcases ih hrest' with ⟨k, hk, hs⟩ | ⟨k, hk, hs⟩
      · exact .inl ⟨k, by omega, hs⟩
      · exact .inr ⟨k, by omega, hs⟩

theorem Leads.refl (c : Config ι ν) : Leads g o c c := ⟨0, .refl c⟩

theorem Leads.trans {c d e : Config ι ν} (h : Leads g o c d) (h' : Leads g o d e) : Leads g o c e := by
  obtain ⟨m, hm⟩ := h
  obtain ⟨n, hn⟩ := h'
  exact ⟨m + n, hm.trans hn⟩

theorem Leads.head {c d e : Config ι ν} (h : step g o c = some d) (h' : Leads g o d e) : Leads g o c e := by
  obtain ⟨n, hn⟩ := h'
  exact ⟨n + 1, .head h hn⟩

/-- A run that moved took a last step. -/
theorem Leads.last {c d : Config ι ν} (h : Leads g o c d) (hne : c ≠ d) : ∃ e, Leads g o c e ∧ step g o e = some d := by
  obtain ⟨n, hn⟩ := h
  induction hn with
  | refl => exact absurd rfl hne
  | @head n c e d hstep hrest ih =>
    by_cases hed : e = d
    · subst hed
      exact ⟨c, .refl c, hstep⟩
    · obtain ⟨f, hf, hlast⟩ := ih hed
      exact ⟨f, .head hstep hf, hlast⟩

/-- Inside a block the last step was the instruction before. -/
theorem step_inside {c : Config ι ν} {p : Pos} {h : History ι ν} (hs : step g o c = some ⟨p.next, h⟩) :
    c.pos = p ∧ ∃ i, g.code p = some (.op i) ∧ h = .did i :: c.history := by
  unfold step at hs
  split at hs
  · rename_i i hcode
    have hpos : c.pos.next = p.next := congrArg Config.pos (Option.some.inj hs)
    have hp : c.pos = p := by
      rcases hc : c.pos with ⟨b, k⟩
      rw [hc] at hpos
      rcases p with ⟨b', k'⟩
      simpa [Pos.next] using hpos
    exact ⟨hp, i, hp ▸ hcode, (congrArg Config.history (Option.some.inj hs)).symm⟩
  · cases congrArg (fun c => c.pos.offset) (Option.some.inj hs)
  · cases congrArg (fun c => c.pos.offset) (Option.some.inj hs)
  · cases hs
  · cases hs

theorem step_op {p : Pos} {i : ι} (h : g.code p = some (.op i)) (history : History ι ν) :
    step g o ⟨p, history⟩ = some ⟨p.next, .did i :: history⟩ := by
  rw [step, h]

theorem step_br {p : Pos} {target : Nat} (h : g.code p = some (.br target)) (history : History ι ν) :
    step g o ⟨p, history⟩ = some ⟨⟨target, 0⟩, history⟩ := by
  rw [step, h]

theorem step_condBr {p : Pos} {condition : ν} {onTrue onFalse : Nat}
    (h : g.code p = some (.condBr condition onTrue onFalse)) (history : History ι ν) :
    step g o ⟨p, history⟩ =
      some ⟨⟨if o history condition then onTrue else onFalse, 0⟩,
        .tested condition (o history condition) :: history⟩ := by
  rw [step, h]

theorem step_true {p : Pos} {condition : ν} {onTrue onFalse : Nat} {history : History ι ν}
    (h : g.code p = some (.condBr condition onTrue onFalse)) (test : o history condition = true) :
    step g o ⟨p, history⟩ = some ⟨⟨onTrue, 0⟩, .tested condition true :: history⟩ := by
  rw [step_condBr h, test, if_pos rfl]

theorem step_false {p : Pos} {condition : ν} {onTrue onFalse : Nat} {history : History ι ν}
    (h : g.code p = some (.condBr condition onTrue onFalse)) (test : o history condition = false) :
    step g o ⟨p, history⟩ = some ⟨⟨onFalse, 0⟩, .tested condition false :: history⟩ := by
  rw [step_condBr h, test, if_neg Bool.false_ne_true]

end

/-! ## Trees -/

inductive Tree (ι ν : Type) where
  | skip
  | op (i : ι)
  | seq (first second : Tree ι ν)
  | branch (condition : ν) (onTrue onFalse : Tree ι ν)
  | loop (head : Tree ι ν) (condition : ν) (body : Tree ι ν)
  deriving DecidableEq, Repr

/-- One instruction after the other. -/
def Tree.ops {ι ν : Type} : List ι → Tree ι ν
  | [] => .skip
  | i :: is => .seq (.op i) (ops is)

/-- A complete run of a tree. -/
inductive Runs (o : Outcome ι ν) : Tree ι ν → History ι ν → History ι ν → Prop where
  | skip (h : History ι ν) : Runs o .skip h h
  | op (i : ι) (h : History ι ν) : Runs o (.op i) h (.did i :: h)
  | seq {a b : Tree ι ν} {h h₁ h₂ : History ι ν} (first : Runs o a h h₁) (second : Runs o b h₁ h₂) :
      Runs o (.seq a b) h h₂
  | branch {c : ν} {a b : Tree ι ν} {h h' : History ι ν}
      (chosen : Runs o (if o h c then a else b) (.tested c (o h c) :: h) h') : Runs o (.branch c a b) h h'
  | leave {head body : Tree ι ν} {c : ν} {h h₁ : History ι ν} (start : Runs o head h h₁) (test : o h₁ c = false) :
      Runs o (.loop head c body) h (.tested c false :: h₁)
  | again {head body : Tree ι ν} {c : ν} {h h₁ h₂ h₃ : History ι ν} (start : Runs o head h h₁)
      (test : o h₁ c = true) (turn : Runs o body (.tested c true :: h₁) h₂)
      (rest : Runs o (.loop head c body) h₂ h₃) : Runs o (.loop head c body) h h₃

/-- What a tree gets to, whether it ends or not. -/
inductive Reaches (o : Outcome ι ν) : Tree ι ν → History ι ν → History ι ν → Prop where
  | start (t : Tree ι ν) (h : History ι ν) : Reaches o t h h
  | op (i : ι) (h : History ι ν) : Reaches o (.op i) h (.did i :: h)
  | first {a b : Tree ι ν} {h h' : History ι ν} (inside : Reaches o a h h') : Reaches o (.seq a b) h h'
  | second {a b : Tree ι ν} {h h₁ h' : History ι ν} (before : Runs o a h h₁) (inside : Reaches o b h₁ h') :
      Reaches o (.seq a b) h h'
  | branch {c : ν} {a b : Tree ι ν} {h h' : History ι ν}
      (inside : Reaches o (if o h c then a else b) (.tested c (o h c) :: h) h') : Reaches o (.branch c a b) h h'
  | head {head body : Tree ι ν} {c : ν} {h h' : History ι ν} (inside : Reaches o head h h') :
      Reaches o (.loop head c body) h h'
  | test {head body : Tree ι ν} {c : ν} {h h₁ : History ι ν} (start : Runs o head h h₁) :
      Reaches o (.loop head c body) h (.tested c (o h₁ c) :: h₁)
  | turn {head body : Tree ι ν} {c : ν} {h h₁ h' : History ι ν} (start : Runs o head h h₁)
      (test : o h₁ c = true) (inside : Reaches o body (.tested c true :: h₁) h') :
      Reaches o (.loop head c body) h h'
  | again {head body : Tree ι ν} {c : ν} {h h₁ h₂ h' : History ι ν} (start : Runs o head h h₁)
      (test : o h₁ c = true) (turn : Runs o body (.tested c true :: h₁) h₂)
      (inside : Reaches o (.loop head c body) h₂ h') : Reaches o (.loop head c body) h h'

theorem Runs.reaches {o : Outcome ι ν} {t : Tree ι ν} {h h' : History ι ν} (hr : Runs o t h h') : Reaches o t h h' := by
  induction hr with
  | skip h => exact .start _ h
  | op i h => exact .op i h
  | seq first _ _ ih => exact .second first ih
  | branch _ ih => exact .branch ih
  | @leave head body c h h₁ start test _ =>
    have htest : Reaches o (.loop head c body) h (.tested c (o h₁ c) :: h₁) := .test start
    rwa [test] at htest
  | again start test turn _ _ _ ih => exact .again start test turn ih

/-! ## What is performed whatever the tests -/

/-- The instructions of a history, newest first. -/
def performed (h : History ι ν) : List ι :=
  h.filterMap fun
    | .did i => some i
    | .tested _ _ => none

/-- Every run comes to an end and performs these instructions. -/
def Tree.Always (t : Tree ι ν) (is : List ι) : Prop :=
  ∀ (o : Outcome ι ν) (h : History ι ν),
    (∃ h', Runs o t h h') ∧ ∀ h', Runs o t h h' → performed h' = is.reverse ++ performed h

namespace Tree.Always

variable {a b : Tree ι ν} {is js : List ι}

theorem skip : (Tree.skip : Tree ι ν).Always [] := by
  intro o h
  refine ⟨⟨h, .skip h⟩, ?_⟩
  intro h' hr
  cases hr
  rfl

theorem op (i : ι) : (Tree.op i : Tree ι ν).Always [i] := by
  intro o h
  refine ⟨⟨_, .op i h⟩, ?_⟩
  intro h' hr
  cases hr
  rfl

theorem seq (ha : a.Always is) (hb : b.Always js) : (Tree.seq a b).Always (is ++ js) := by
  intro o h
  constructor
  · obtain ⟨h₁, h₁r⟩ := (ha o h).1
    obtain ⟨h₂, h₂r⟩ := (hb o h₁).1
    exact ⟨h₂, .seq h₁r h₂r⟩
  · intro h' hr
    cases hr with
    | seq first second =>
      rw [(hb o _).2 _ second, (ha o h).2 _ first, List.reverse_append, List.append_assoc]

/-- Both sides perform the same. -/
theorem branch (c : ν) (ha : a.Always is) (hb : b.Always is) : (Tree.branch c a b).Always is := by
  intro o h
  by_cases hc : o h c = true
  · constructor
    · obtain ⟨h', hr⟩ := (ha o (.tested c (o h c) :: h)).1
      exact ⟨h', .branch (by rwa [if_pos hc])⟩
    · intro h' hr
      cases hr with
      | branch chosen =>
        rw [if_pos hc] at chosen
        exact (ha o (.tested c (o h c) :: h)).2 h' chosen
  · constructor
    · obtain ⟨h', hr⟩ := (hb o (.tested c (o h c) :: h)).1
      exact ⟨h', .branch (by rwa [if_neg hc])⟩
    · intro h' hr
      cases hr with
      | branch chosen =>
        rw [if_neg hc] at chosen
        exact (hb o (.tested c (o h c) :: h)).2 h' chosen

end Tree.Always

/-! ## Trees without loops -/

/-- There is no loop in the tree, and its instructions are of a kind. -/
def Tree.LoopFree (p : ι → Prop) : Tree ι ν → Prop
  | .skip => True
  | .op i => p i
  | .seq first second => first.LoopFree p ∧ second.LoopFree p
  | .branch _ onTrue onFalse => onTrue.LoopFree p ∧ onFalse.LoopFree p
  | .loop _ _ _ => False

theorem Tree.LoopFree.mono {p q : ι → Prop} (hpq : ∀ i, p i → q i) {t : Tree ι ν} (h : t.LoopFree p) : t.LoopFree q := by
  induction t with
  | skip => trivial
  | op i => exact hpq i h
  | seq first second ih₁ ih₂ => exact ⟨ih₁ h.1, ih₂ h.2⟩
  | branch condition onTrue onFalse ih₁ ih₂ => exact ⟨ih₁ h.1, ih₂ h.2⟩
  | loop => exact h

/-- However its tests come out, it ends and performs nothing of another kind. -/
theorem Tree.LoopFree.runs {p : ι → Prop} {t : Tree ι ν} (ht : t.LoopFree p) (o : Outcome ι ν) (h : History ι ν) :
    ∃ h' is, Runs o t h h' ∧ performed h' = is ++ performed h ∧ ∀ i ∈ is, p i := by
  induction t generalizing h with
  | skip => exact ⟨h, [], .skip h, rfl, List.forall_mem_nil _⟩
  | op i => exact ⟨_, [i], .op i h, rfl, List.forall_mem_singleton.mpr ht⟩
  | seq first second ih₁ ih₂ =>
    obtain ⟨h₁, is, hrun, heq, his⟩ := ih₁ ht.1 h
    obtain ⟨h₂, js, hrun', heq', hjs⟩ := ih₂ ht.2 h₁
    refine ⟨h₂, js ++ is, .seq hrun hrun', ?_, List.forall_mem_append.mpr ⟨hjs, his⟩⟩
    rw [heq', heq, List.append_assoc]
  | branch condition onTrue onFalse ih₁ ih₂ =>
    let tested : History ι ν := .tested condition (o h condition) :: h
    cases hc : o h condition with
    | true =>
      obtain ⟨h', is, hrun, heq, his⟩ := ih₁ ht.1 tested
      exact ⟨h', is, .branch (by rwa [if_pos hc]), heq, his⟩
    | false =>
      obtain ⟨h', is, hrun, heq, his⟩ := ih₂ ht.2 tested
      exact ⟨h', is, .branch (by rwa [hc, if_neg Bool.false_ne_true, ← hc]), heq, his⟩
  | loop => exact ht.elim

/-! ## A graph that realises a tree -/

/-- From `p` the graph goes through the tree and comes to `q`. -/
inductive Realises (g : Graph ι ν) : Tree ι ν → Pos → Pos → Prop where
  | skip (p : Pos) : Realises g .skip p p
  | op {p : Pos} {i : ι} (code : g.code p = some (.op i)) : Realises g (.op i) p p.next
  | seq {a b : Tree ι ν} {p q r : Pos} (first : Realises g a p q) (second : Realises g b q r) :
      Realises g (.seq a b) p r
  | branch {a b : Tree ι ν} {p q : Pos} {c : ν} {onTrue onFalse : Nat}
      (code : g.code p = some (.condBr c onTrue onFalse)) (yes : Realises g a ⟨onTrue, 0⟩ q)
      (no : Realises g b ⟨onFalse, 0⟩ q) : Realises g (.branch c a b) p q
  | loop {head body : Tree ι ν} {p q : Pos} {c : ν} {onTrue onFalse : Nat} (start : Realises g head p q)
      (code : g.code q = some (.condBr c onTrue onFalse)) (turn : Realises g body ⟨onTrue, 0⟩ p) :
      Realises g (.loop head c body) p ⟨onFalse, 0⟩
  /-- A jump in front of the tree. -/
  | enter {t : Tree ι ν} {p q : Pos} {target : Nat} (code : g.code p = some (.br target))
      (inside : Realises g t ⟨target, 0⟩ q) : Realises g t p q
  /-- A jump behind the tree. -/
  | jump {t : Tree ι ν} {p q : Pos} {target : Nat} (inside : Realises g t p q)
      (code : g.code q = some (.br target)) : Realises g t p ⟨target, 0⟩

namespace Realises

variable {g : Graph ι ν} {o : Outcome ι ν} {t : Tree ι ν} {p q : Pos}

theorem runs (hg : Realises g t p q) {h h' : History ι ν} (hr : Runs o t h h') :
    Leads g o ⟨p, h⟩ ⟨q, h'⟩ := by
  induction hg generalizing h h' with
  | skip => cases hr; exact .refl _
  | op code => cases hr; exact .head (step_op code _) (.refl _)
  | seq _ _ ih₁ ih₂ =>
    cases hr with
    | seq first second => exact (ih₁ first).trans (ih₂ second)
  | branch code _ _ ihy ihn =>
    cases hr with
    | branch chosen =>
      refine .head (step_condBr code _) ?_
      split
      · rename_i hc
        rw [if_pos hc] at chosen
        exact ihy chosen
      · rename_i hc
        rw [if_neg hc] at chosen
        exact ihn chosen
  | @loop head body p q c onTrue onFalse start code turn ihs iht =>
    generalize hl : Tree.loop head c body = l at hr
    induction hr with
    | leave hstart htest =>
      cases hl
      exact (ihs hstart).trans (.head (step_false code htest) (.refl _))
    | again hstart htest hturn _ _ _ ihrest =>
      cases hl
      exact ((ihs hstart).trans (.head (step_true code htest) (iht hturn))).trans (ihrest rfl)
    | _ => cases hl
  | enter code _ ih => exact .head (step_br code _) (ih hr)
  | jump _ code ih => exact (ih hr).trans (.head (step_br code _) (.refl _))

theorem reaches (hg : Realises g t p q) {h h' : History ι ν} (hr : Reaches o t h h') :
    ∃ r, Leads g o ⟨p, h⟩ ⟨r, h'⟩ := by
  induction hg generalizing h h' with
  | skip p => cases hr; exact ⟨p, .refl _⟩
  | @op p i code =>
    cases hr with
    | start => exact ⟨p, .refl _⟩
    | op => exact ⟨p.next, .head (step_op code _) (.refl _)⟩
  | @seq a b p q r first _ ih₁ ih₂ =>
    cases hr with
    | start => exact ⟨p, .refl _⟩
    | first inside => exact ih₁ inside
    | second before inside =>
      obtain ⟨r, hr⟩ := ih₂ inside
      exact ⟨r, (first.runs before).trans hr⟩
  | @branch a b p q c onTrue onFalse code _ _ ihy ihn =>
    cases hr with
    | start => exact ⟨p, .refl _⟩
    | branch inside =>
      by_cases hc : o h c = true
      · rw [if_pos hc, hc] at inside
        obtain ⟨r, hr⟩ := ihy inside
        exact ⟨r, .head (step_true code hc) hr⟩
      · rw [if_neg hc, eq_false_of_ne_true hc] at inside
        obtain ⟨r, hr⟩ := ihn inside
        exact ⟨r, .head (step_false code (eq_false_of_ne_true hc)) hr⟩
  | @loop head body p q c onTrue onFalse start code turn ihs iht =>
    generalize hl : Tree.loop head c body = l at hr
    induction hr with
    | start => exact ⟨p, .refl _⟩
    | head inside => cases hl; exact ihs inside
    | test hstart =>
      cases hl
      exact ⟨_, (start.runs hstart).trans (.head (step_condBr code _) (.refl _))⟩
    | turn hstart htest inside =>
      cases hl
      obtain ⟨r, hr⟩ := iht inside
      exact ⟨r, (start.runs hstart).trans (.head (step_true code htest) hr)⟩
    | again hstart htest hturn _ ihrest =>
      cases hl
      obtain ⟨r, hr⟩ := ihrest rfl
      exact ⟨r, ((start.runs hstart).trans (.head (step_true code htest) (turn.runs hturn))).trans hr⟩
    | _ => cases hl
  | @enter t p q target code _ ih =>
    obtain ⟨r, hr⟩ := ih hr
    exact ⟨r, .head (step_br code _) hr⟩
  | jump _ _ ih => exact ih hr

/-- Where a run of the graph is after `n` steps: at an instruction of the tree, or behind the
    tree with no more steps to go. -/
def Passed (g : Graph ι ν) (o : Outcome ι ν) (t : Tree ι ν) (h : History ι ν) (q : Pos) (n : Nat)
    (d : Config ι ν) : Prop :=
  (Reaches o t h d.history ∧ g.code d.pos ≠ none) ∨ ∃ m h', m ≤ n ∧ Runs o t h h' ∧ Steps g o m ⟨q, h'⟩ d

theorem steps (hg : Realises g t p q) {n : Nat} {h : History ι ν} {d : Config ι ν}
    (hs : Steps g o n ⟨p, h⟩ d) : Passed g o t h q n d := by
  induction n using Nat.strong_induction_on generalizing t p q h d with
  | _ n ihn =>
  have hcode {p : Pos} {i : Instr ι ν} (code : g.code p = some i) : g.code p ≠ none := by simp [code]
  induction hg generalizing h d with
  | skip p => exact .inr ⟨n, h, Nat.le_refl n, .skip h, hs⟩
  | @op p i code =>
    cases hs with
    | refl => exact .inl ⟨.start _ _, hcode code⟩
    | @head m _ _ _ hstep hrest =>
      rw [step_op code] at hstep
      cases hstep
      exact .inr ⟨m, _, Nat.le_succ m, .op i h, hrest⟩
  | @seq a b p q r first second ih₁ ih₂ =>
    rcases ih₁ hs with ⟨hin, hat⟩ | ⟨m, h', hm, hruns, hrest⟩
    · exact .inl ⟨.first hin, hat⟩
    · rcases Nat.lt_or_eq_of_le hm with hlt | heq
      · rcases ihn m hlt second hrest with ⟨hin, hat⟩ | ⟨k, h'', hk, hruns', hrest'⟩
        · exact .inl ⟨.second hruns hin, hat⟩
        · exact .inr ⟨k, h'', by omega, .seq hruns hruns', hrest'⟩
      · subst heq
        rcases ih₂ hrest with ⟨hin, hat⟩ | ⟨k, h'', hk, hruns', hrest'⟩
        · exact .inl ⟨.second hruns hin, hat⟩
        · exact .inr ⟨k, h'', hk, .seq hruns hruns', hrest'⟩
  | @branch a b p q c onTrue onFalse code yes no _ _ =>
    cases hs with
    | refl => exact .inl ⟨.start _ _, hcode code⟩
    | @head m _ _ _ hstep hrest =>
      by_cases hc : o h c = true
      · rw [step_true code hc] at hstep
        cases hstep
        rcases ihn m (Nat.lt_succ_self m) yes hrest with ⟨hin, hat⟩ | ⟨k, h', hk, hruns, hrest'⟩
        · exact .inl ⟨.branch (by rw [if_pos hc, hc]; exact hin), hat⟩
        · exact .inr ⟨k, h', by omega, .branch (by rw [if_pos hc, hc]; exact hruns), hrest'⟩
      · have hf := eq_false_of_ne_true hc
        rw [step_false code hf] at hstep
        cases hstep
        rcases ihn m (Nat.lt_succ_self m) no hrest with ⟨hin, hat⟩ | ⟨k, h', hk, hruns, hrest'⟩
        · exact .inl ⟨.branch (by rw [if_neg hc, hf]; exact hin), hat⟩
        · exact .inr ⟨k, h', by omega, .branch (by rw [if_neg hc, hf]; exact hruns), hrest'⟩
  | @loop head body p q c onTrue onFalse start code turn ihs _ =>
    rcases ihs hs with ⟨hin, hat⟩ | ⟨m, h₁, hm, hstart, hrest⟩
    · exact .inl ⟨.head hin, hat⟩
    · cases hrest with
      | refl => exact .inl ⟨.head hstart.reaches, hcode code⟩
      | @head m _ _ _ hstep hrest =>
        by_cases hc : o h₁ c = true
        · rw [step_true code hc] at hstep
          cases hstep
          rcases ihn m (by omega) turn hrest with ⟨hin, hat⟩ | ⟨k, h₂, hk, hturn, hrest'⟩
          · exact .inl ⟨.turn hstart hc hin, hat⟩
          · rcases ihn k (by omega) (.loop start code turn) hrest' with ⟨hin, hat⟩ | ⟨j, h₃, hj, hloop, hrest''⟩
            · exact .inl ⟨.again hstart hc hturn hin, hat⟩
            · exact .inr ⟨j, h₃, by omega, .again hstart hc hturn hloop, hrest''⟩
        · have hf := eq_false_of_ne_true hc
          rw [step_false code hf] at hstep
          cases hstep
          exact .inr ⟨m, _, by omega, .leave hstart hf, hrest⟩
  | @enter t p q target code inside _ =>
    cases hs with
    | refl => exact .inl ⟨.start _ _, hcode code⟩
    | @head m _ _ _ hstep hrest =>
      rw [step_br code] at hstep
      cases hstep
      rcases ihn m (Nat.lt_succ_self m) inside hrest with hin | ⟨k, h', hk, hruns, hrest'⟩
      · exact .inl hin
      · exact .inr ⟨k, h', by omega, hruns, hrest'⟩
  | @jump t p q target inside code ih =>
    rcases ih hs with hin | ⟨m, h', hm, hruns, hrest⟩
    · exact .inl hin
    · cases hrest with
      | refl => exact .inl ⟨hruns.reaches, hcode code⟩
      | @head m _ _ _ hstep hrest =>
        rw [step_br code] at hstep
        cases hstep
        exact .inr ⟨m, h', by omega, hruns, hrest⟩

/-- A run that comes behind the tree, where there is no code, stays there. -/
theorem steps_end (hend : g.code q = none) {n : Nat} {h : History ι ν} {d : Config ι ν}
    (hs : Steps g o n ⟨q, h⟩ d) : d = ⟨q, h⟩ := by
  cases hs with
  | refl => rfl
  | head hstep _ =>
    rw [step, hend] at hstep
    cases hstep

/-- Without code at the end position the graph gets exactly where the tree gets. -/
theorem reaches_iff (hg : Realises g t p q) (hend : g.code q = none) (h h' : History ι ν) :
    Reaches o t h h' ↔ ∃ r, Leads g o ⟨p, h⟩ ⟨r, h'⟩ := by
  constructor
  · exact hg.reaches
  · intro ⟨r, n, hn⟩
    rcases hg.steps hn with ⟨hin, _⟩ | ⟨m, h₁, _, hruns, hrest⟩
    · exact hin
    · cases steps_end hend hrest
      exact hruns.reaches

/-- Without code at the end position the graph arrives there exactly when the tree is done. -/
theorem arrives_iff (hg : Realises g t p q) (hend : g.code q = none) (h h' : History ι ν) :
    Runs o t h h' ↔ Leads g o ⟨p, h⟩ ⟨q, h'⟩ := by
  constructor
  · exact hg.runs
  · intro ⟨n, hn⟩
    rcases hg.steps hn with ⟨_, hat⟩ | ⟨m, h₁, _, hruns, hrest⟩
    · exact absurd hend hat
    · cases steps_end hend hrest
      exact hruns

/-- Straight code, one instruction after the other. -/
theorem ops {is : List ι} (h : is.map Instr.op <+: (g p.block).drop p.offset) :
    Realises g (Tree.ops is) p ⟨p.block, p.offset + is.length⟩ := by
  induction is generalizing p with
  | nil => exact .skip p
  | cons i is ih =>
    obtain ⟨rest, hrest⟩ := h
    have hcode : g.code p = some (.op i) := by
      rw [Graph.code, ← Nat.add_zero p.offset, ← List.getElem?_drop, ← hrest]
      rfl
    have hnext : is.map Instr.op <+: (g p.next.block).drop p.next.offset := by
      refine ⟨rest, ?_⟩
      show _ = (g p.block).drop (p.offset + 1)
      rw [← List.drop_drop, ← hrest]
      rfl
    have hlast := ih hnext
    rw [show (⟨p.next.block, p.next.offset + is.length⟩ : Pos) = ⟨p.block, p.offset + (i :: is).length⟩ by
      simp [Pos.next, Nat.add_assoc, Nat.add_comm 1]] at hlast
    exact .seq (.op hcode) hlast

/-- A graph with more code still realises the tree. -/
theorem mono {g' : Graph ι ν} (hle : ∀ b, g b <+: g' b) (hg : Realises g t p q) : Realises g' t p q := by
  have hcode {p : Pos} {i : Instr ι ν} : g.code p = some i → g'.code p = some i := Graph.code_mono hle
  induction hg with
  | skip p => exact .skip p
  | op code => exact .op (hcode code)
  | seq _ _ ih₁ ih₂ => exact .seq ih₁ ih₂
  | branch code _ _ ihy ihn => exact .branch (hcode code) ihy ihn
  | loop _ code _ ihs iht => exact .loop ihs (hcode code) iht
  | enter code _ ih => exact .enter (hcode code) ih
  | jump _ code ih => exact .jump ih (hcode code)

end Realises

end Xvr.Lib.Flow
