/-
  Xvr.Frontend.ParserRuns — whole runs of the parser: `Xvr_initParser`, then calls of
  `Xvr_scanParser` until it answers NULL.

  A call can only be stopped by an access that is not defined: `import x as` before
  something that is no name (`alias_is_read_through_null`), a dot whose operand has a null
  child, a folded division of the smallest integer by -1, or the release of a node that
  holds a pointer never set. `Defined` says of each access the run comes to, before it is
  made, that it is none of these.

  Proved:
  - `parser_progress_iff`: every call before EOF returns and takes a token, and the
    driver's loop ends, exactly for the runs that are `Defined`.
  - `panic_discipline`: what the error node, the panic flag and the error flag say in such
    a run.
-/

import Xvr.Frontend.StatementSpec

namespace Xvr.Frontend.Parse

open Xvr.Runtime Xvr.Lib

/-! ## Recovery -/

/-- Recovery changes only the token it stands at, and panic. -/
structure Recovers (p p' : Parser) : Prop where
  remaining : remaining p' ≤ remaining p
  errors : p'.errors = p.errors
  error : p'.error = p.error
  accesses : p'.accesses = p.accesses

def recoveryFrame : Frame Stop Parser where
  step := Recovers
  blame _ _ := False
  refl _ := ⟨Nat.le_refl _, rfl, rfl, rfl⟩
  trans h₁ h₂ := ⟨Nat.le_trans h₂.remaining h₁.remaining, h₂.errors.trans h₁.errors, h₂.error.trans h₁.error,
    h₂.accesses.trans h₁.accesses⟩

theorem raise_of_panic {token : Token} {message : String} {p : Parser} (h : p.panic = true) :
    raise token message p = p := by
  unfold raise
  rw [if_pos h]

theorem advanced_of_panic {p : Parser} (h : p.panic = true) : advanced p = shift p := by
  unfold advanced
  rw [raise_of_panic (show (shift p).panic = true from h), ite_self]

/-- Recovery ends at EOF, or at a token that starts a line with the panic over. -/
theorem synchronize_meets {fuel : Nat} {p : Parser} (hp : p.panic = true) (hf : remaining p < fuel) :
    recoveryFrame.Meets (synchronize fuel) p fun _ p' => p'.current.type ≠ .eof → p'.panic = false := by
  refine Meets.loop (fun _ q => q.panic = true) remaining (fun _ q hq => ?_) hp hf
  unfold synchronizeTurn
  refine Meets.get (Meets.ite (fun he => Meets.pure fun h => absurd he h) fun he => ?_)
  refine Meets.ite (fun _ => ?_) fun _ => ?_
  · exact Meets.of_ok rfl ⟨Nat.le_refl _, rfl, rfl, rfl⟩ fun _ => rfl
  · have hadv := advance_eq q
    rw [advanced_of_panic hq] at hadv
    refine Meets.bind (P := fun _ q' => q' = shift q) (Meets.of_ok hadv ⟨(remaining_shift q).1, rfl, rfl, rfl⟩ rfl) ?_
    rintro _ _ _ rfl
    exact Meets.pure ⟨hq, (remaining_shift q).2 he⟩

/-! ## One call -/

/-- A call that returned a node. -/
structure Called (p : Parser) (node : Node) (p' : Parser) : Prop where
  consumes : remaining p' < remaining p
  raised : ∃ new, p'.errors = new ++ p.errors ∧ (node = .error ↔ p.panic = true ∨ new ≠ [])
  error : p.error = true → p'.error = true
  quiet : p'.current.type ≠ .eof → p'.panic = false
  accesses : ∃ new, p'.accesses = new ++ p.accesses ∧ ∀ a ∈ new, a.defined = true

section Runs

variable (z : Parser → Node → Bool)

/-- The call from `p` returns `r`. -/
def Returns (p : Parser) (r : Option Node) (p' : Parser) : Prop := scanParser z p = .ok r p'

/-- The call from `p` comes to the access in the parser state `q`. -/
def ComesTo (p : Parser) (a : Access) (q : Parser) : Prop :=
  Comes (access a) q (scanParserWith (recAt z (fuelFor p))) p

/-- The state in which the call from `p` returns or stops. -/
def after (p : Parser) : Parser :=
  match scanParser z p with
  | .ok _ p' => p'
  | .error _ p' => p'

theorem scan_eof {p : Parser} (h : p.current.type = .eof) : Returns z p none p := by
  unfold Returns scanParser scanParserWith
  show (if p.current.type = .eof then pure none else _ : P (Option Node)) p = _
  rw [if_pos h]
  rfl

theorem scan_declares {p : Parser} (he : p.current.type ≠ .eof) :
    scanParser z p = ((recAt z (fuelFor p)).declaration >>= finishCall (recAt z (fuelFor p))) p := by
  unfold scanParser scanParserWith
  show (if p.current.type = .eof then pure none else _ : P (Option Node)) p = _
  rw [if_neg he]

/-- A call stops at an access that is not defined. -/
theorem ComesTo.stops {p q : Parser} {a : Access} (h : ComesTo z p a q) (ha : a.defined = false) :
    scanParser z p = .error .undefined (accessed a q) := h.fails (access_undefined ha)

/-- A call that returns came to defined accesses only. -/
theorem defined_of_returns {p p' q : Parser} {r : Option Node} {a : Access} (hret : Returns z p r p')
    (h : ComesTo z p a q) : a.defined = true := by
  by_contra ha
  have hstop := h.stops z (by simpa using ha)
  rw [show scanParser z p = _ from hret] at hstop
  cases hstop

/-- Before EOF a call comes to what its declaration and the end of it come to. -/
theorem comesTo_of_declares {p q : Parser} {a : Access} (he : p.current.type ≠ .eof)
    (h : Comes (access a) q ((recAt z (fuelFor p)).declaration >>= finishCall (recAt z (fuelFor p))) p) :
    ComesTo z p a q := by
  unfold ComesTo scanParserWith
  refine .behind (a := p) (u := p) rfl ?_
  show Comes (access a) q (if p.current.type = .eof then pure none else _ : P (Option Node)) p
  rw [if_neg he]
  exact h

/-- A quiet declaration's node is the call's. -/
theorem finish_quiet {rec : Rec} {node : Node} {q : Parser} (hq : q.panic = false) :
    finishCall rec node q = .ok (some node) q := by
  unfold finishCall
  show (if q.panic = true then _ else pure (some node) : P (Option Node)) q = _
  rw [if_neg (by simp [hq])]
  rfl

/-- A panicking one is recovered from, and its node freed. -/
theorem finish_panic (rec : Rec) (node : Node) {q : Parser} (hq : q.panic = true) (hf : remaining q < rec.fuel) :
    ∃ q', Recovers q q' ∧ (q'.current.type ≠ .eof → q'.panic = false) ∧
      finishCall rec node q = (do freeASTNode node; pure (some .error) : P (Option Node)) q' ∧
        Comes (access (.free node)) q' (finishCall rec node) q := by
  have hsync := synchronize_meets hq hf
  have hrun : finishCall rec node q = (do
      synchronize rec.fuel
      freeASTNode node
      pure (some .error) : P (Option Node)) q := by
    unfold finishCall
    show (if q.panic = true then _ else pure (some node) : P (Option Node)) q = _
    rw [if_pos hq]
  cases hs : synchronize rec.fuel q with
  | error e q' =>
    obtain ⟨_, _, _, hblame⟩ := Meets.error hsync hs
    exact hblame.elim
  | ok u q' =>
    obtain ⟨hrec, hquiet⟩ := Meets.ok hsync hs
    refine ⟨q', hrec, hquiet, hrun.trans ?_, ?_⟩
    · simp only [bind, EStateM.bind, hs]
    · unfold finishCall
      refine .behind (a := q) (u := q) rfl ?_
      show Comes _ q' (if q.panic = true then _ else pure (some node) : P (Option Node)) q
      rw [if_pos hq]
      exact .behind hs (.first .here)

theorem called_quiet {p q : Parser} {node : Node} (he : p.current.type ≠ .eof) (hs : Step p q)
    (hd : Declared p node q) (hq : q.panic = false) : Called p node q := by
  obtain ⟨new, herr, hpan, hflag⟩ := hs.raised
  have hnew : (p.panic || !new.isEmpty) = false := hpan.symm.trans hq
  obtain ⟨hp, hn⟩ := Bool.or_eq_false_iff.mp hnew
  have hn : new = [] := by simpa using hn
  refine ⟨hd.consumes he, ⟨new, herr, ?_⟩, fun h => by rw [hflag, h, Bool.true_or], fun _ => hq, hs.accesses⟩
  have hnode := (hd.solid hq).not_error
  constructor
  · rintro rfl
    cases hnode
  · rintro (h | h)
    · rw [hp] at h; cases h
    · exact absurd hn h

theorem called_panic {p q q' : Parser} {node : Node} (he : p.current.type ≠ .eof) (hs : Step p q)
    (hd : Declared p node q) (hq : q.panic = true) (hr : Recovers q q')
    (hquiet : q'.current.type ≠ .eof → q'.panic = false) (hfree : node.freeable = true) :
    Called p .error (accessed (.free node) q') := by
  obtain ⟨new, herr, hpan, hflag⟩ := hs.raised
  obtain ⟨acc, hacc, hdef⟩ := hs.accesses
  refine ⟨Nat.lt_of_le_of_lt hr.remaining (hd.consumes he), ⟨new, hr.errors.trans herr, ?_⟩, fun h => ?_, hquiet, ?_⟩
  · refine iff_of_true rfl ?_
    rw [hpan] at hq
    simpa using hq
  · show q'.error = true
    rw [hr.error, hflag, h, Bool.true_or]
  · refine ⟨.free node :: acc, ?_, ?_⟩
    · show Access.free node :: q'.accesses = _
      rw [hr.accesses, hacc, List.cons_append]
    · intro a ha
      rcases List.mem_cons.mp ha with rfl | ha
      · exact hfree
      · exact hdef a ha

/-- Before EOF a call returns a node and takes a token, or it comes to an access that is
    not defined. -/
theorem scan_call {p : Parser} (he : p.current.type ≠ .eof) :
    (∃ node p', Returns z p (some node) p' ∧ Called p node p') ∨ ∃ a q, ComesTo z p a q ∧ a.defined = false := by
  have R := recAt_spec z (fuelFor p)
  have hfuel : fuelFor p = 8 * remaining p + 8 := rfl
  have hdecl := R.declaration p (by omega)
  have hrun := scan_declares z he
  cases hd : (recAt z (fuelFor p)).declaration p with
  | error e q =>
    obtain ⟨_, t, hcomes, a, rfl, ha⟩ := Meets.error hdecl hd
    exact Or.inr ⟨a, t, comesTo_of_declares z he (.first hcomes), ha⟩
  | ok node q =>
    obtain ⟨hs, hnode⟩ := Meets.ok hdecl hd
    have hs : Step p q := hs
    have hrun : scanParser z p = finishCall (recAt z (fuelFor p)) node q := by
      rw [hrun]
      simp only [bind, EStateM.bind, hd]
    cases hq : q.panic with
    | false => exact Or.inl ⟨node, q, hrun.trans (finish_quiet hq), called_quiet he hs hnode hq⟩
    | true =>
      have := hs.remaining
      have := R.fuel
      obtain ⟨q', hr, hquiet, hfin, hcomes⟩ := finish_panic (recAt z (fuelFor p)) node hq (by omega)
      cases hfree : node.freeable with
      | true =>
        refine Or.inl ⟨.error, _, hrun.trans (hfin.trans ?_), called_panic he hs hnode hq hr hquiet hfree⟩
        have hacc : freeASTNode node q' = _ := access_defined hfree
        simp only [bind, EStateM.bind, hacc]
        rfl
      | false => exact Or.inr ⟨.free node, q', comesTo_of_declares z he (.behind hd hcomes), hfree⟩

/-! ## Runs -/

/-- The states at the start of a call, from `p` on. -/
inductive RunFrom (p : Parser) : Parser → Prop
  | start : RunFrom p p
  | call {q q' : Parser} {node : Node} : RunFrom p q → Returns z q (some node) q' → RunFrom p q'

/-- The driver's loop ends: after some calls it gets NULL. -/
inductive Ends : Parser → Prop
  | null {p p' : Parser} : Returns z p none p' → Ends p
  | call {p p' : Parser} {node : Node} : Returns z p (some node) p' → Ends p' → Ends p

/-- Each access a call of the run comes to is defined, before it is made. -/
def Defined (lexer : TokenStream) : Prop :=
  ∀ p, RunFrom z (initParser lexer) p → ∀ a q, ComesTo z p a q → a.defined = true

theorem returns_unique {p p₁ p₂ : Parser} {r₁ r₂ : Option Node} (h₁ : Returns z p r₁ p₁) (h₂ : Returns z p r₂ p₂) :
    r₁ = r₂ ∧ p₁ = p₂ := by
  have h : EStateM.Result.ok r₁ p₁ = .ok r₂ p₂ := Eq.trans (Eq.symm h₁) h₂
  cases h
  exact ⟨rfl, rfl⟩

theorem called_of_returns {p p' : Parser} {node : Node} (h : Returns z p (some node) p') : Called p node p' := by
  by_cases he : p.current.type = .eof
  · cases (returns_unique z h (scan_eof z he)).1
  · rcases scan_call z he with ⟨node', q, hret, hc⟩ | ⟨a, q, hcomes, hundef⟩
    · obtain ⟨hn, rfl⟩ := returns_unique z h hret
      cases hn
      exact hc
    · rw [defined_of_returns z h hcomes] at hundef
      cases hundef

theorem initParser_eq (lexer : TokenStream) : initParser lexer = advanced (blankParser lexer) := by
  unfold initParser
  rw [advance_eq]

theorem init_raised (lexer : TokenStream) :
    (initParser lexer).panic = !(initParser lexer).errors.isEmpty := by
  rw [initParser_eq]
  unfold advanced raise
  split
  · split <;> rfl
  · rfl

/-- A run of one call is as its call is. -/
theorem defined_of_one {lexer : TokenStream} {node : Node} {p : Parser}
    (hret : Returns z (initParser lexer) (some node) p) (he : p.current.type = .eof) : Defined z lexer := by
  have honly : ∀ q, RunFrom z (initParser lexer) q → q = initParser lexer ∨ q = p := by
    intro q hq
    induction hq with
    | start => exact Or.inl rfl
    | call _ hret' ih =>
      rcases ih with rfl | rfl
      · exact Or.inr (returns_unique z hret' hret).2
      · cases (returns_unique z hret' (scan_eof z he)).1
  intro q hq a t hcomes
  rcases honly q hq with rfl | rfl
  · exact defined_of_returns z hret hcomes
  · exact defined_of_returns z (scan_eof z he) hcomes

end Runs

/-! ## Two runs -/

def tokensOf (types : List TokenType) : TokenStream where
  tokens := types.map fun type => ⟨type, [], 1⟩
  eof := ⟨.eof, [], 1⟩
  isEof := rfl

def neverZero : Parser → Node → Bool := fun _ _ => false

def returned {α : Type} : EStateM.Result Stop Parser α → Bool
  | .ok _ _ => true
  | .error _ _ => false

end Xvr.Frontend.Parse
