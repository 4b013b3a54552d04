/-
  Xvr.Runtime.PrintBuffers — what a compound literal is printed as.

  `printToBuffer` makes room for a NUL behind the text, and does not write it; so a buffer ends
  where the memory it was allocated in happens to hold one.

  Proved:
  - `compound_unterminated`: in memory without a NUL a print function is given none.
  - `compounds_incomplete`: for every compound there is memory in which it is not printed.
-/

import Xvr.Runtime.PrintLiteral

namespace Xvr.Runtime

open Xvr.Lib.CStrings

/-! ## Buffers without a NUL -/

/-- Puts no NUL into the buffer. -/
def Unterminated (f : PrintState → Option PrintState) : Prop :=
  ∀ ⦃s s'⦄, nul ∉ s.buffer → f s = some s' → nul ∉ s'.buffer

namespace Unterminated

variable {f g : PrintState → Option PrintState}

theorem some : Unterminated some := by
  rintro s _ h ⟨⟩
  exact h

theorem bind (hf : Unterminated f) (hg : Unterminated g) : Unterminated fun s => f s >>= g := by
  intro s s' h hrun
  obtain ⟨t, hfirst, hrest⟩ := Option.bind_eq_some_iff.mp hrun
  exact hg (hf h hfirst) hrest

/-- The quotes may be set before. -/
theorem setQuotes (hf : Unterminated f) (quotes : Char) : Unterminated fun s => f { s with quotes } :=
  fun s s' h hrun => @hf { s with quotes } s' h hrun

theorem ite {c : Prop} [Decidable c] (hf : Unterminated f) (hg : Unterminated g) :
    Unterminated fun s => if c then f s else g s := by
  intro s s' h hrun
  by_cases hc : c
  · exact hf h ((if_pos hc).symm.trans hrun)
  · exact hg h ((if_neg hc).symm.trans hrun)

end Unterminated

section

variable {fresh : Nat → Nat → Char}

theorem growPrintBuffer_unterminated (hfresh : ∀ n i, fresh n i ≠ nul) (need : Nat) :
    Unterminated (growPrintBuffer fresh need) := by
  intro s s' h hrun
  induction s using growPrintBuffer.induct need with
  | case1 s hless ih =>
    rw [growPrintBuffer, if_pos hless] at hrun
    obtain ⟨buffer, hbuffer, hrun⟩ := Option.bind_eq_some_iff.mp hrun
    refine ih buffer (fun hmem => ?_) hrun
    rcases mem_reallocate hbuffer hmem with hold | ⟨i, hnew⟩
    · exact h hold
    · exact hfresh _ i hnew
  | case2 s hless =>
    rw [growPrintBuffer, if_neg hless] at hrun
    cases hrun
    exact h

theorem printToBuffer_unterminated (hfresh : ∀ n i, fresh n i ≠ nul) (str : List Char) :
    Unterminated (printToBuffer fresh str) := by
  intro s s' h hrun
  obtain ⟨strLen, hlen, hrun⟩ := Option.bind_eq_some_iff.mp hrun
  obtain ⟨t, hgrow, hrun⟩ := Option.bind_eq_some_iff.mp hrun
  have hgrown := growPrintBuffer_unterminated hfresh _ h hgrow
  have hcopied : nul ∉ str.take (min strLen (t.capacity - t.count)) := fun hmem =>
    safeStrlen_plain hlen (List.take_subset_take_left str (Nat.min_le_left ..) hmem)
  dsimp only at hrun
  split at hrun
  · cases hrun
    exact hgrown
  · split at hrun
    · cases hrun
    · cases hrun
      have htake : nul ∉ t.buffer.take t.count := fun hmem => hgrown (List.mem_of_mem_take hmem)
      have hdrop (n : Nat) : nul ∉ t.buffer.drop n := fun hmem => hgrown (List.mem_of_mem_drop hmem)
      simp only [List.mem_append, not_or]
      exact ⟨⟨htake, hcopied⟩, hdrop _⟩

/-- The buffer of the literal around is put back before it is printed to. -/
theorem printBuffered_keeps {printFn : PrintFn} (hprint : ∀ str, Unterminated (printFn str))
    (contents : PrintState → Option PrintState) : Unterminated (printBuffered printFn contents) := by
  intro s s' h hrun
  obtain ⟨inner, -, hrun⟩ := Option.bind_eq_some_iff.mp hrun
  obtain ⟨t, hprinted, hrun⟩ := Option.bind_eq_some_iff.mp hrun
  have hkept := @hprint inner.buffer
    { inner with buffer := s.buffer, capacity := throughInt s.capacity, count := throughInt s.count } t h hprinted
  cases hrun
  exact hkept

/-- The caller is given the buffer the contents leave. -/
theorem printBuffered_caller {contents : PrintState → Option PrintState} {s inner : PrintState}
    (h : contents { s with buffer := [], capacity := 0, count := 0 } = some inner) :
    printBuffered callerPrint contents s = some { inner with
      buffer := s.buffer, capacity := throughInt s.capacity, count := throughInt s.count, quotes := nul
      printed := inner.printed ++ [inner.buffer] } := by
  rw [printBuffered, h]
  rfl

variable (hfresh : ∀ n i, fresh n i ≠ nul)
include hfresh

theorem printIf_unterminated (c : Bool) (str : List Char) : Unterminated (printIf fresh c str) := by
  cases c
  · exact Unterminated.some
  · exact printToBuffer_unterminated hfresh str

theorem printBracketed_unterminated {contents : PrintState → Option PrintState} (h : Unterminated contents) :
    Unterminated (printBracketed fresh contents) :=
  (printToBuffer_unterminated hfresh _).bind (h.bind (printToBuffer_unterminated hfresh _))

variable (beyond : ℚ → Bool)

theorem printLiteral_unterminated (l : Literal) :
    Unterminated (printLiteralCustom fresh beyond (printToBuffer fresh) l) := by
  have hprint := printToBuffer_unterminated hfresh
  have hscalar : Unterminated (printScalar beyond (printToBuffer fresh) l) := by
    intro s s' h hrun
    unfold printScalar at hrun
    cases htext : printedText beyond s.quotes l with
    | none =>
      rw [htext] at hrun
      exact Unterminated.some h hrun
    | some text =>
      rw [htext] at hrun
      exact hprint _ h hrun
  cases l with
  | array es => exact printBuffered_keeps hprint _
  | dictionary d => exact printBuffered_keeps hprint _
  | type t c subtypes =>
    intro s s' h hrun
    rw [printLiteralCustom] at hrun
    exact printBuffered_keeps hprint _ h hrun
  | _ => exact hscalar

theorem printElements_unterminated (es : List Literal) : Unterminated (printElements fresh beyond es) := by
  induction es with
  | nil => exact Unterminated.some
  | cons e es ih =>
    have helement := (printLiteral_unterminated hfresh beyond e).setQuotes '"'
    exact helement.bind ((printIf_unterminated hfresh _ _).bind ih)

theorem printEntry_unterminated (e : Entry Literal) (delimCount : Nat) :
    Unterminated (printEntry fresh beyond e delimCount) := by
  obtain ⟨key, value⟩ := e
  have hkey := (printLiteral_unterminated hfresh beyond key).setQuotes '"'
  have hvalue := (printLiteral_unterminated hfresh beyond value).setQuotes '"'
  have hentry := (printIf_unterminated hfresh (0 < delimCount) (constant ",")).bind
    (hkey.bind ((printToBuffer_unterminated hfresh (constant ":")).bind hvalue))
  exact Unterminated.some.ite hentry

theorem printEntries_unterminated (es : List (Entry Literal)) (delimCount : Nat) :
    Unterminated (printEntries fresh beyond es delimCount) := by
  induction es generalizing delimCount with
  | nil => exact Unterminated.some
  | cons e es ih => exact (printEntry_unterminated hfresh beyond e delimCount).bind (ih _)

theorem printSubtypes_unterminated (ls : List Literal) : Unterminated (printSubtypes fresh beyond ls) := by
  induction ls with
  | nil => exact Unterminated.some
  | cons l ls ih => exact (printLiteral_unterminated hfresh beyond l).bind ih

theorem printPairs_unterminated : (ls : List Literal) → Unterminated (printPairs fresh beyond ls)
  | [] => Unterminated.some
  | [_] => by
    intro s s' _ hrun
    cases hrun
  | l :: r :: ls =>
    (printLiteral_unterminated hfresh beyond l).bind <| (printToBuffer_unterminated hfresh _).bind <|
      (printLiteral_unterminated hfresh beyond r).bind (printPairs_unterminated ls)

theorem printTypeOf_unterminated (t : LiteralType) {subtypes pairs : PrintState → Option PrintState}
    (hsubtypes : Unterminated subtypes) (hpairs : Unterminated pairs) :
    Unterminated (printTypeOf fresh t subtypes pairs) := by
  refine (printBracketed_unterminated hfresh hsubtypes).ite ((printBracketed_unterminated hfresh hpairs).ite ?_)
  cases typeName t with
  | none => exact Unterminated.some
  | some name => exact printToBuffer_unterminated hfresh _

/-- A compound is printed by way of a buffer, in which no NUL is put. -/
theorem compound_contents {l : Literal} (h : l.isCompound = true) :
    ∃ contents, Unterminated contents ∧
      ∀ printFn s, printLiteralCustom fresh beyond printFn l s = printBuffered printFn contents s := by
  cases l with
  | array es =>
    refine ⟨_, printBracketed_unterminated hfresh (printElements_unterminated hfresh beyond es), ?_⟩
    exact fun _ _ => rfl
  | dictionary d =>
    obtain ⟨entries, count, contains⟩ := d
    have hentries := printEntries_unterminated hfresh beyond entries 0
    have hdictionary : Unterminated (printDictionary fresh beyond ⟨entries, count, contains⟩) :=
      hentries.bind (printIf_unterminated hfresh _ _)
    exact ⟨_, printBracketed_unterminated hfresh hdictionary, fun _ _ => rfl⟩
  | type t c subtypes =>
    have htype := printTypeOf_unterminated hfresh t (printSubtypes_unterminated hfresh beyond subtypes)
      (printPairs_unterminated hfresh beyond subtypes)
    have hconst := printIf_unterminated hfresh c (constant " const")
    have hprint := printToBuffer_unterminated hfresh
    exact ⟨_, (hprint _).bind (htype.bind (hconst.bind (hprint _))), fun _ _ => by rw [printLiteralCustom]⟩
  | _ => cases h

/-- In memory without a NUL, the print function is given none. -/
theorem compound_unterminated {l : Literal} (h : l.isCompound = true) {s s' : PrintState}
    (hrun : printLiteralCustom fresh beyond callerPrint l s = some s') :
    ∃ others buffer, s'.printed = others ++ [buffer] ∧ nul ∉ buffer := by
  obtain ⟨contents, hcontents, heq⟩ := compound_contents hfresh beyond h
  rw [heq] at hrun
  obtain ⟨inner, hinner, -⟩ := Option.bind_eq_some_iff.mp hrun
  rw [printBuffered_caller hinner] at hrun
  cases hrun
  exact ⟨inner.printed, inner.buffer, rfl, hcontents (by simp) hinner⟩

end

/-- The print function is given one buffer, in which a NUL ends the whole rendering. -/
def PrintsCompletely (fresh : Nat → Nat → Char) (beyond : ℚ → Bool) (l : Literal) (s : PrintState) : Prop :=
  ∃ s' buffer, printLiteralCustom fresh beyond callerPrint l s = some s' ∧ s'.printed = s.printed ++ [buffer] ∧
    nul ∈ buffer ∧ textWithin buffer.length buffer = render beyond s.quotes l

theorem incomplete_without_nul (fresh : Nat → Nat → Char) (hfresh : ∀ n i, fresh n i ≠ nul)
    (beyond : ℚ → Bool) {l : Literal} (h : l.isCompound = true) (s : PrintState) : ¬ PrintsCompletely fresh beyond l s := by
  rintro ⟨s', buffer, hrun, hprinted, hnul, -⟩
  obtain ⟨others, buffer', hprinted', hplain⟩ := compound_unterminated hfresh beyond h hrun
  rw [hprinted] at hprinted'
  obtain rfl : buffer = buffer' := by simpa using congrArg List.getLast? hprinted'
  exact hplain hnul

/-- There is no compound that is printed completely whatever memory holds. -/
theorem compounds_incomplete (beyond : ℚ → Bool) {l : Literal} (h : l.isCompound = true) (s : PrintState) :
    ¬ ∀ fresh, PrintsCompletely fresh beyond l s :=
  fun hall => incomplete_without_nul (fun _ _ => 'x') (fun _ _ => by decide) beyond h s (hall _)

theorem compounds_incomplete_empty : ¬ ∀ fresh, PrintsCompletely fresh (fun _ => true) (.array []) initPrint :=
  compounds_incomplete (fun _ => true) rfl initPrint

/-- The empty array, in memory that holds an `x` everywhere. -/
theorem no_nul_written :
    ¬ ∀ (fresh : Nat → Nat → Char) (beyond : ℚ → Bool) (l : Literal), l.isCompound = true →
      PrintsCompletely fresh beyond l initPrint :=
  fun hall => incomplete_without_nul (fun _ _ => 'x') (fun _ _ => by decide) (fun _ => true) rfl initPrint
    (hall _ _ (.array []) rfl)

end Xvr.Runtime
