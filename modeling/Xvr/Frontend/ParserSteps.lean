/-
  Xvr.Frontend.ParserSteps — what every function of the parser does to the parser's state.

  `Step p p'`: no token came back, panic and error were set by the errors raised and by
  nothing else, and every access was defined. A run that does not return has come to an
  access that is not defined. The helpers' contracts are stated over this frame; only
  `synchronize` clears panic, and has a frame of its own.
-/

import Xvr.Frontend.ParserStatements

namespace Xvr.Frontend.Parse

open Xvr.Runtime Xvr.Lib

structure Step (p p' : Parser) : Prop where
  remaining : remaining p' ≤ remaining p
  raised : ∃ new, p'.errors = new ++ p.errors ∧ p'.panic = (p.panic || !new.isEmpty) ∧
    p'.error = (p.error || !new.isEmpty)
  accesses : ∃ new, p'.accesses = new ++ p.accesses ∧ ∀ a ∈ new, a.defined = true

theorem Step.refl (p : Parser) : Step p p :=
  ⟨Nat.le_refl _, ⟨[], by simp⟩, ⟨[], by simp⟩⟩

theorem Step.trans {p q r : Parser} (h₁ : Step p q) (h₂ : Step q r) : Step p r := by
  obtain ⟨n₁, he₁, hp₁, hr₁⟩ := h₁.raised
  obtain ⟨n₂, he₂, hp₂, hr₂⟩ := h₂.raised
  obtain ⟨a₁, ha₁, hd₁⟩ := h₁.accesses
  obtain ⟨a₂, ha₂, hd₂⟩ := h₂.accesses
  refine ⟨Nat.le_trans h₂.remaining h₁.remaining, ⟨n₂ ++ n₁, ?_, ?_, ?_⟩, ⟨a₂ ++ a₁, ?_, ?_⟩⟩
  · rw [he₂, he₁, List.append_assoc]
  · rw [hp₂, hp₁]; cases n₁ <;> cases n₂ <;> simp
  · rw [hr₂, hr₁]; cases n₁ <;> cases n₂ <;> simp
  · rw [ha₂, ha₁, List.append_assoc]
  · intro a ha
    exact (List.mem_append.mp ha).elim (hd₂ a) (hd₁ a)

theorem Step.panic {p p' : Parser} (h : Step p p') (hp : p.panic = true) : p'.panic = true := by
  obtain ⟨_, _, hpan, _⟩ := h.raised
  rw [hpan, hp, Bool.true_or]

/-- What is quiet at the end was quiet before. -/
theorem Step.quiet {p p' : Parser} (h : Step p p') (hp : p'.panic = false) : p.panic = false := by
  cases hc : p.panic with
  | false => rfl
  | true => rw [h.panic hc] at hp; cases hp

/-- What the parser's functions may do. Only an access may stop one. -/
def parserFrame : Frame Stop Parser where
  step := Step
  blame part _ := ∃ a, part = access a ∧ a.defined = false
  refl := Step.refl
  trans := Step.trans

/-- From `p` the call returns with `Q`, or comes to an access that is not defined. -/
abbrev Meets {α : Type} (m : P α) (p : Parser) (Q : α → Parser → Prop) : Prop := parserFrame.Meets m p Q

/-! ## The helpers -/

section Helpers

variable {p : Parser} {α : Type}

theorem raise_step (token : Token) (message : String) (p : Parser) : Step p (raise token message p) := by
  unfold raise
  split
  · exact Step.refl p
  · rename_i hp
    exact ⟨Nat.le_refl _, ⟨[⟨token, message⟩], by simp [hp]⟩, ⟨[], by simp⟩⟩

theorem raise_panic (token : Token) (message : String) (p : Parser) : (raise token message p).panic = true := by
  unfold raise
  split
  · assumption
  · rfl

theorem raise_current (token : Token) (message : String) (p : Parser) :
    (raise token message p).current = p.current := by
  unfold raise
  split <;> rfl

theorem raise_previous (token : Token) (message : String) (p : Parser) :
    (raise token message p).previous = p.previous := by
  unfold raise
  split <;> rfl

theorem error_meets (token : Token) (message : String) :
    Meets (error token message) p fun _ p' => p'.panic = true :=
  Meets.of_ok rfl (raise_step token message p) (raise_panic token message p)

/-- Behind an error nothing is promised but that the parser panics. -/
theorem error_bind {β : Type} {token : Token} {message : String} {f : Unit → P β} {Q : β → Parser → Prop}
    (h : ∀ p', Step p p' → p'.panic = true → Meets (f ()) p' Q) : Meets (error token message >>= f) p Q :=
  Meets.bind (error_meets token message) fun _ p' hs hp => h p' hs hp

theorem errorIf_meets (c : Bool) (token : Token) (message : String) :
    Meets (errorIf c token message) p fun _ _ => True :=
  Meets.ite (fun _ => Meets.mono (error_meets _ _) fun _ _ _ _ => trivial) fun _ => Meets.pure trivial

theorem remaining_shift (p : Parser) :
    remaining (shift p) ≤ remaining p ∧ (p.current.type ≠ .eof → remaining (shift p) < remaining p) := by
  unfold remaining shift scanLexer
  cases htok : p.lexer.tokens with
  | nil =>
    simp only [htok, p.lexer.isEof, if_true, List.length_nil]
    refine ⟨by omega, fun h => ?_⟩
    rw [if_neg h]
    omega
  | cons token tokens =>
    simp only [List.length_cons]
    refine ⟨by split <;> omega, fun h => ?_⟩
    rw [if_neg h]
    split <;> omega

theorem shift_step (p : Parser) : Step p (shift p) :=
  ⟨(remaining_shift p).1, ⟨[], by simp [shift]⟩, ⟨[], by simp [shift]⟩⟩

/-- The parser behind a step, with the error a bad token raises. -/
def advanced (p : Parser) : Parser :=
  if (shift p).current.type = .error then raise (shift p).current "Xvr_Lexer error" (shift p) else shift p

theorem advance_eq (p : Parser) : advance p = .ok () (advanced p) := by
  unfold advance advanced
  show (if (shift p).current.type = .error then error (shift p).current "Xvr_Lexer error" else pure ()) (shift p) = _
  split <;> rfl

theorem advanced_step (p : Parser) : Step p (advanced p) := by
  unfold advanced
  split
  · exact (shift_step p).trans (raise_step _ _ _)
  · exact shift_step p

theorem advanced_previous (p : Parser) : (advanced p).previous = p.current := by
  unfold advanced
  split
  · rw [raise_previous]; rfl
  · rfl

theorem advanced_lt {p : Parser} (h : p.current.type ≠ .eof) : remaining (advanced p) < remaining p := by
  unfold advanced
  split
  · exact Nat.lt_of_le_of_lt (raise_step _ _ _).remaining ((remaining_shift p).2 h)
  · exact (remaining_shift p).2 h

theorem advance_meets :
    Meets advance p fun _ p' => p'.previous = p.current ∧ (p.current.type ≠ .eof → remaining p' < remaining p) :=
  Meets.of_ok (advance_eq p) (advanced_step p) ⟨advanced_previous p, advanced_lt⟩

theorem matchToken_eq (t : TokenType) (p : Parser) : matchToken t p =
    if p.current.type = t then .ok true (advanced p) else .ok false p := by
  unfold matchToken
  show (if p.current.type = t then (do advance; pure true) else pure false : P Bool) p = _
  split
  · show (advance >>= fun _ => pure true) p = _
    simp only [bind, EStateM.bind, advance_eq]
    rfl
  · rfl

/-- A token that is there is stepped over. -/
theorem matchToken_meets (t : TokenType) : Meets (matchToken t) p fun b p' =>
    (b = true → p.current.type = t ∧ p' = advanced p) ∧ (b = false → p.current.type ≠ t ∧ p' = p) := by
  have heq := matchToken_eq t p
  by_cases h : p.current.type = t
  · rw [if_pos h] at heq
    exact Meets.of_ok heq (advanced_step p) ⟨fun _ => ⟨h, rfl⟩, nofun⟩
  · rw [if_neg h] at heq
    exact Meets.of_ok heq (Step.refl p) ⟨nofun, fun _ => ⟨h, rfl⟩⟩

/-- The two branches of a test for a token. -/
theorem match_bind {t : TokenType} {A B : P α} {Q : α → Parser → Prop} (ht : t ≠ .eof)
    (hA : ∀ p', Step p p' → remaining p' < remaining p → p.current.type = t → Meets A p' Q)
    (hB : p.current.type ≠ t → Meets B p Q) :
    Meets (matchToken t >>= fun b => if b = true then A else B) p Q := by
  refine Meets.bind (matchToken_meets t) fun b p' hs hb => ?_
  cases b with
  | true =>
    obtain ⟨hcur, rfl⟩ := hb.1 rfl
    exact hA _ hs (advanced_lt (by rw [hcur]; exact ht)) hcur
  | false =>
    obtain ⟨hcur, rfl⟩ := hb.2 rfl
    exact hB hcur

theorem consume_meets (t : TokenType) (msg : String) :
    Meets (consume t msg) p fun _ p' => p'.panic = true ∨ p.current.type = t ∧ p' = advanced p := by
  unfold consume
  refine Meets.get (Meets.ite (fun h => ?_) fun h => ?_)
  · exact Meets.mono (error_meets _ _) fun _ _ _ hp => Or.inl hp
  · exact Meets.of_ok (advance_eq p) (advanced_step p) (Or.inr ⟨not_not.mp h, rfl⟩)

theorem consumeSemicolon_meets : Meets consumeSemicolon p fun _ _ => True := by
  unfold consumeSemicolon
  refine match_bind (by decide) (fun _ _ _ _ => Meets.pure trivial) fun _ => ?_
  refine Meets.get (Meets.ite (fun _ => Meets.pure trivial) fun _ => ?_)
  exact Meets.mono (error_meets _ _) fun _ _ _ _ => trivial

/-- The parser behind an access. -/
def accessed (a : Access) (p : Parser) : Parser := { p with accesses := a :: p.accesses }

theorem access_defined {a : Access} (h : a.defined = true) : access a p = .ok () (accessed a p) := by
  unfold access
  rw [if_pos h]
  rfl

theorem access_undefined {a : Access} (h : a.defined = false) : access a p = .error .undefined (accessed a p) := by
  unfold access
  rw [if_neg (by simp [h])]
  rfl

theorem access_meets (a : Access) : Meets (access a) p fun _ _ => True := by
  cases hd : a.defined with
  | true =>
    exact Meets.of_ok (access_defined hd) ⟨Nat.le_refl _, ⟨[], by simp [accessed]⟩, ⟨[a], by simp [accessed, hd]⟩⟩ trivial
  | false => exact Meets.of_error (access_undefined hd) ⟨_, p, .here, a, rfl, hd⟩

theorem freeASTNode_meets (node : Node) : Meets (freeASTNode node) p fun _ _ => True := access_meets _

theorem freeIf_meets (c : Bool) (node : Node) : Meets (freeIf c node) p fun _ _ => True :=
  Meets.ite (fun _ => freeASTNode_meets _) fun _ => Meets.pure trivial

theorem deref_meets {node : Node} (h : node.isNode = true) : Meets (deref node) p fun _ p' => p' = p := by
  unfold deref
  rw [if_pos h]
  exact Meets.pure rfl

end Helpers

end Xvr.Frontend.Parse
