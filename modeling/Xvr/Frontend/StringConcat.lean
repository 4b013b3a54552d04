/-
  Xvr.Frontend.StringConcat — what folding makes of concatenated strings (the string case of
  `calcStaticBinaryArithmetic`).

  A `Concat` is any tree of string literals under `+`. The bound is on the length of the
  result, and so is the length recorded; the buffer holds one character less, since
  `snprintf` puts its terminator in the last place.

  Proved:
  - `concatStrings_short`, `concatStrings_full`: what one concatenation keeps.
  - `concat_folded_iff`: a tree is folded to its text, or refused when that is too long,
    exactly when the text does not have the greatest length allowed.
  - `not_exactly_full`, `longest_cut`: a text that fills the bound is cut.
-/

import Xvr.Frontend.ArithmeticFolds

namespace Xvr.Frontend.Parse

open Xvr.Runtime Xvr.Lib

/-! ## One concatenation -/

theorem printed_noNul {text : List Char} (h : '\x00' ∉ text) : printed text = text := by
  induction text with
  | nil => rfl
  | cons c cs ih =>
    simp only [List.mem_cons, not_or] at h
    have hc : (c != '\x00') = true := by simpa using Ne.symm h.1
    rw [printed, List.takeWhile_cons_of_pos (p := (· != '\x00')) hc]
    exact congrArg (c :: ·) (ih h.2)

theorem printed_length (text : List Char) : (printed text).length ≤ text.length :=
  (List.takeWhile_prefix _).length_le

/-- The recorded length is the sum. -/
theorem concatStrings_length (lhs rhs : List Char) : (concatStrings lhs rhs).length = lhs.length + rhs.length := by
  have hl := printed_length lhs
  have hr := printed_length rhs
  unfold concatStrings
  simp only [List.length_append, List.length_replicate, List.length_take]
  omega

/-- Below the bound nothing is lost. -/
theorem concatStrings_short {lhs rhs : List Char} (hl : '\x00' ∉ lhs) (hr : '\x00' ∉ rhs)
    (h : lhs.length + rhs.length < maxStringLength) : concatStrings lhs rhs = lhs ++ rhs := by
  have hlen : (lhs ++ rhs).length ≤ maxStringLength - 1 := by
    rw [List.length_append]
    omega
  unfold concatStrings
  simp only [printed_noNul hl, printed_noNul hr, List.take_of_length_le hlen, List.length_append, Nat.sub_self,
    List.replicate_zero, List.append_nil]

/-- At the bound the last character is the terminator. -/
theorem concatStrings_full {lhs rhs : List Char} (h : lhs.length + rhs.length = maxStringLength) :
    '\x00' ∈ concatStrings lhs rhs := by
  have hlen : ((printed lhs ++ printed rhs).take (maxStringLength - 1)).length < lhs.length + rhs.length := by
    rw [h, List.length_take, maxStringLength]
    omega
  unfold concatStrings
  refine List.mem_append_right _ (List.mem_replicate.mpr ⟨?_, rfl⟩)
  omega

/-! ## Trees of concatenations -/

inductive Concat where
  | literal (text : List Char)
  | plus (left right : Concat)

namespace Concat

def toNode : Concat → Node
  | .literal text => .literal (.string text)
  | .plus left right => .binary .addition left.toNode right.toNode

def text : Concat → List Char
  | .literal text => text
  | .plus left right => left.text ++ right.text

/-- What the folding computes. -/
def folded : Concat → List Char
  | .literal text => text
  | .plus left right => concatStrings left.folded right.folded

/-- No concatenation in the tree is too long. -/
def Short : Concat → Prop
  | .literal _ => True
  | .plus left right => (left.text ++ right.text).length ≤ maxStringLength

instance (c : Concat) : Decidable c.Short := by
  cases c with
  | literal => exact inferInstanceAs (Decidable True)
  | plus => exact inferInstanceAs (Decidable (_ ≤ _))

theorem short_left {left right : Concat} (h : (plus left right).Short) : left.Short := by
  cases left with
  | literal => trivial
  | plus a b =>
    unfold Short at h ⊢
    simp only [text, List.length_append] at h ⊢
    omega

theorem short_right {left right : Concat} (h : (plus left right).Short) : right.Short := by
  cases right with
  | literal => trivial
  | plus a b =>
    unfold Short at h ⊢
    simp only [text, List.length_append] at h ⊢
    omega

theorem folded_length (c : Concat) : c.folded.length = c.text.length := by
  induction c with
  | literal => rfl
  | plus left right ihl ihr => rw [folded, concatStrings_length, ihl, ihr, text, List.length_append]

/-- A text below the bound is what its tree folds to. -/
theorem folded_short {c : Concat} (h : '\x00' ∉ c.text) (hlen : c.text.length < maxStringLength) : c.folded = c.text := by
  induction c with
  | literal => rfl
  | plus left right ihl ihr =>
    rw [text, List.length_append] at hlen
    rw [text, List.mem_append, not_or] at h
    rw [folded, ihl h.1 (by omega), ihr h.2 (by omega)]
    exact concatStrings_short h.1 h.2 hlen

theorem toNode_isNode (c : Concat) : c.toNode.isNode = true := by cases c <;> rfl

end Concat

/-! ## Folding a tree -/

/-- The run raised nothing. -/
structure Quietly (p q : Parser) : Prop where
  step : Step p q
  errors : q.errors = p.errors

theorem Quietly.panic {p q : Parser} (h : Quietly p q) : q.panic = p.panic := by
  obtain ⟨new, herrors, hpanic, -⟩ := h.step.raised
  have hnew : new = [] := List.append_left_eq_self.mp (herrors.symm.trans h.errors)
  rw [hpanic, hnew]
  simp

theorem Quietly.trans {p q r : Parser} (h₁ : Quietly p q) (h₂ : Quietly q r) : Quietly p r :=
  ⟨h₁.step.trans h₂.step, h₂.errors.trans h₁.errors⟩

/-- The run raised something, if it may. -/
structure Loudly (p q : Parser) : Prop where
  step : Step p q
  errors : p.panic = false → p.errors.length < q.errors.length

theorem step_errors {p q : Parser} (h : Step p q) : p.errors.length ≤ q.errors.length := by
  obtain ⟨new, herrors, -⟩ := h.raised
  rw [herrors, List.length_append]
  omega

theorem Loudly.then {p q r : Parser} (h₁ : Loudly p q) (h₂ : Step q r) : Loudly p r :=
  ⟨h₁.step.trans h₂, fun hp => Nat.lt_of_lt_of_le (h₁.errors hp) (step_errors h₂)⟩

theorem Loudly.after {p q r : Parser} (h₁ : Quietly p q) (h₂ : Loudly q r) : Loudly p r :=
  ⟨h₁.step.trans h₂.step, fun hp => h₁.errors ▸ h₂.errors (h₁.panic.trans hp)⟩

theorem calcStatic_plus {left right : Concat} {l r : Node} {p q₁ q₂ : Parser} (hl : foldChild left.toNode p = .ok l q₁)
    (hr : foldChild right.toNode q₁ = .ok r q₂) :
    calcStaticBinaryArithmetic (Concat.plus left right).toNode p = foldNode .addition l r q₂ :=
  calcStatic_children rfl left.toNode_isNode right.toNode_isNode hl hr

theorem foldNode_strings {a b : List Char} (h : a.length + b.length ≤ maxStringLength) (p : Parser) :
    ∃ q, foldNode .addition (.literal (.string a)) (.literal (.string b)) p =
      .ok (true, .literal (.string (concatStrings a b))) q ∧ Quietly p q := by
  have hfold : foldLiterals .addition (.string a) (.string b) p = .ok (some (.string (concatStrings a b))) p := by
    have hlen : ¬ (a.length + b.length > maxStringLength) := by omega
    show (if a.length + b.length > maxStringLength then _ else _ : P (Option Literal)) p = _
    rw [if_neg hlen]
    rfl
  refine ⟨_, foldNode_folded rfl hfold, ?_, rfl⟩
  exact ⟨Nat.le_refl _, ⟨[], by simp [accessed]⟩, ⟨[_, _], rfl, by simp [Access.defined, Node.freeable]⟩⟩

theorem foldNode_strings_refused {a b : List Char} (h : ¬ a.length + b.length ≤ maxStringLength) (p : Parser) :
    ∃ q, foldNode .addition (.literal (.string a)) (.literal (.string b)) p =
      .ok (false, .binary .addition (.literal (.string a)) (.literal (.string b))) q ∧ Loudly p q := by
  have hfold : ∃ message, foldLiterals .addition (.string a) (.string b) p = .ok none (raise p.previous message p) := by
    refine ⟨"Can't concatenate these strings, result is too long (error found in constant folding)\n", ?_⟩
    show (if a.length + b.length > maxStringLength then _ else _ : P (Option Literal)) p = _
    rw [if_pos (by omega)]
    rfl
  obtain ⟨message, hfold⟩ := hfold
  refine ⟨_, foldNode_refused hfold, raise_step _ _ _, fun hp => ?_⟩
  rw [raise, if_neg (by simp [hp])]
  exact Nat.lt_succ_self _

/-- What folding makes of a tree: its literal, or an error and no literal. -/
def ConcatFolds (c : Concat) (p : Parser) (node : Node) (q : Parser) : Prop :=
  if c.Short then node = .literal (.string c.folded) ∧ Quietly p q else (∀ l, node ≠ .literal l) ∧ Loudly p q

theorem ConcatFolds.step {c : Concat} {p q : Parser} {node : Node} (h : ConcatFolds c p node q) : Step p q := by
  unfold ConcatFolds at h
  split at h
  · exact h.2.step
  · exact h.2.step

/-- Both sides folded, the concatenation folds or is refused. -/
theorem calcStatic_folds {left right : Concat} {l r : Node} {p q₁ q₂ : Parser}
    (hl : foldChild left.toNode p = .ok l q₁) (hr : foldChild right.toNode q₁ = .ok r q₂) (hfl : ConcatFolds left p l q₁)
    (hfr : ConcatFolds right q₁ r q₂) :
    ∃ ok node q, calcStaticBinaryArithmetic (Concat.plus left right).toNode p = .ok (ok, node) q ∧
      ConcatFolds (.plus left right) p node q ∧ ((Concat.plus left right).Short → ok = true) := by
  rw [calcStatic_plus hl hr]
  have hstep := hfr.step
  unfold ConcatFolds at hfl hfr ⊢
  by_cases hls : left.Short
  · rw [if_pos hls] at hfl
    obtain ⟨rfl, hquiet⟩ := hfl
    by_cases hrs : right.Short
    · rw [if_pos hrs] at hfr
      obtain ⟨rfl, hquiet'⟩ := hfr
      have hlen : left.folded.length + right.folded.length ≤ maxStringLength ↔ (Concat.plus left right).Short := by
        rw [left.folded_length, right.folded_length, ← List.length_append]
        rfl
      by_cases hs : (Concat.plus left right).Short
      · obtain ⟨q, hrun, hq⟩ := foldNode_strings (hlen.mpr hs) q₂
        exact ⟨true, _, q, hrun, by rw [if_pos hs]; exact ⟨rfl, (hquiet.trans hquiet').trans hq⟩, fun _ => rfl⟩
      · obtain ⟨q, hrun, hq⟩ := foldNode_strings_refused (fun h => hs (hlen.mp h)) q₂
        exact ⟨false, _, q, hrun, by rw [if_neg hs]; exact ⟨nofun, hq.after (hquiet.trans hquiet')⟩, fun h => absurd h hs⟩
    · rw [if_neg hrs] at hfr
      have hs : ¬ (Concat.plus left right).Short := fun h => hrs (Concat.short_right h)
      exact ⟨true, _, q₂, foldNode_kept (Or.inr hfr.1) q₂, by rw [if_neg hs]; exact ⟨nofun, hfr.2.after hquiet⟩,
        fun _ => rfl⟩
  · rw [if_neg hls] at hfl
    have hs : ¬ (Concat.plus left right).Short := fun h => hls (Concat.short_left h)
    exact ⟨true, _, q₂, foldNode_kept (Or.inl hfl.1) q₂, by rw [if_neg hs]; exact ⟨nofun, hfl.2.then hstep⟩, fun _ => rfl⟩

theorem foldChild_folds (c : Concat) (p : Parser) : ∃ node q, foldChild c.toNode p = .ok node q ∧ ConcatFolds c p node q := by
  induction c generalizing p with
  | literal text =>
    refine ⟨.literal (.string text), p, rfl, ?_⟩
    exact (if_pos (show (Concat.literal text).Short from trivial)).mpr ⟨rfl, Step.refl p, rfl⟩
  | plus left right ihl ihr =>
    obtain ⟨l, q₁, hl, hfl⟩ := ihl p
    obtain ⟨r, q₂, hr, hfr⟩ := ihr q₁
    obtain ⟨ok, node, q, hrun, hfolds, -⟩ := calcStatic_folds hl hr hfl hfr
    exact ⟨node, q, bind_ok hrun, hfolds⟩

/-! ## Whole concatenations -/

/-- A concatenation folds to exactly its text; one that is too long is refused with an
    error, and nothing is cut. -/
def FoldsExactly (c : Concat) (p : Parser) : Prop :=
  (c.text.length ≤ maxStringLength → ∃ q, calcStaticBinaryArithmetic c.toNode p = .ok (true, .literal (.string c.text)) q ∧
      q.errors = p.errors) ∧
    (maxStringLength < c.text.length → ∃ r q, calcStaticBinaryArithmetic c.toNode p = .ok r q ∧
      (∀ l, r.2 ≠ .literal l) ∧ p.errors.length < q.errors.length)

/-- A text of the greatest length allowed loses its last character. -/
theorem not_exactly_full {left right : Concat} (h : '\x00' ∉ (Concat.plus left right).text) (p : Parser)
    (heq : (Concat.plus left right).text.length = maxStringLength) : ¬ FoldsExactly (.plus left right) p := by
  intro hexact
  obtain ⟨q, hrun, -⟩ := hexact.1 (Nat.le_of_eq heq)
  obtain ⟨l, q₁, hl, hfl⟩ := foldChild_folds left p
  obtain ⟨r, q₂, hr, hfr⟩ := foldChild_folds right q₁
  obtain ⟨ok, node, q', hrun', hfolds, -⟩ := calcStatic_folds hl hr hfl hfr
  unfold ConcatFolds at hfolds
  rw [if_pos (show (Concat.plus left right).Short from Nat.le_of_eq heq)] at hfolds
  rw [hrun] at hrun'
  obtain ⟨hnode, -⟩ := hfolds
  cases hrun'
  have htext : (Concat.plus left right).text = (Concat.plus left right).folded := by
    injection hnode with hnode
    injection hnode
  have hlen : left.folded.length + right.folded.length = maxStringLength := by
    rw [left.folded_length, right.folded_length, ← heq, Concat.text, List.length_append]
  exact h (htext ▸ concatStrings_full hlen)

/-- A concatenation is folded as it should be exactly when its text does not have the
    greatest length allowed. -/
theorem concat_folded_iff (left right : Concat) (h : '\x00' ∉ (Concat.plus left right).text) {p : Parser}
    (hp : p.panic = false) :
    FoldsExactly (.plus left right) p ↔ (Concat.plus left right).text.length ≠ maxStringLength := by
  obtain ⟨l, q₁, hl, hfl⟩ := foldChild_folds left p
  obtain ⟨r, q₂, hr, hfr⟩ := foldChild_folds right q₁
  obtain ⟨ok, node, q, hrun, hfolds, hok⟩ := calcStatic_folds hl hr hfl hfr
  have hshort : (Concat.plus left right).Short ↔ (Concat.plus left right).text.length ≤ maxStringLength := Iff.rfl
  unfold ConcatFolds at hfolds
  constructor
  · exact fun hexact heq => not_exactly_full h p heq hexact
  · intro hne
    constructor
    · intro hle
      have hs := hshort.mpr hle
      rw [if_pos hs] at hfolds
      obtain ⟨rfl, hquiet⟩ := hfolds
      rw [← Concat.folded_short h (by omega), ← hok hs]
      exact ⟨q, hrun, hquiet.errors⟩
    · intro hlt
      have hs : ¬ (Concat.plus left right).Short := fun hs => by
        have := hshort.mp hs
        omega
      rw [if_neg hs] at hfolds
      exact ⟨_, q, hrun, hfolds.1, hfolds.2.errors hp⟩

/-- Two strings of 2048 characters. -/
def fullConcat : Concat := .plus (.literal (List.replicate 2048 'a')) (.literal (List.replicate 2048 'b'))

/-- The last of the 4096 characters is lost. -/
theorem longest_cut : ¬ FoldsExactly fullConcat (blankParser (tokensOf [])) := by
  refine not_exactly_full ?_ _ ?_
  · intro h
    rcases List.mem_append.mp h with h | h
    · exact absurd (List.eq_of_mem_replicate h) (by decide)
    · exact absurd (List.eq_of_mem_replicate h) (by decide)
  · show (List.replicate 2048 'a' ++ List.replicate 2048 'b').length = maxStringLength
    rw [List.length_append, List.length_replicate, List.length_replicate, maxStringLength]

/-- `"a" + "b" + "c"`. -/
theorem concat_folded_iff_three :
    FoldsExactly (.plus (.literal ['a']) (.plus (.literal ['b']) (.literal ['c']))) (blankParser (tokensOf [])) ↔
      (Concat.plus (.literal ['a']) (.plus (.literal ['b']) (.literal ['c']))).text.length ≠ maxStringLength :=
  concat_folded_iff (.literal ['a']) (.plus (.literal ['b']) (.literal ['c'])) (by decide) rfl

end Xvr.Frontend.Parse
