/-
  Xvr.Format.Detection — `XvrFormatStringHasPlaceholders` beside the counting pass.

  The quick scan takes a `{` for a placeholder unless another stands behind it, so the second
  brace of an escape counts. The pass skips the escape as a whole, and the character behind it
  unseen.

  Proved:
  - `hasPlaceholders_iff`: the scan finds a placeholder exactly where there is a `{`.
  - `escapedOnly_iff`: the pass finds none, and nothing left open, exactly where each `{` is
    half of an escape it skips.
  - `firstPass_found`: what it finds is what it stores, when it comes to its end.
  - `detection_agrees_iff`: so the two agree but on strings that have a `{`, and only such.
-/

import Xvr.Format.FormatBounds

namespace Xvr.Format

/-- `XvrFormatStringHasPlaceholders`. -/
def hasPlaceholders : List Char → Bool
  | [] => false
  | c :: str => if c = '{' ∧ str.head? ≠ some '{' then true else hasPlaceholders str

/-- The last brace of a run has no brace behind it. -/
theorem hasPlaceholders_iff (str : List Char) : hasPlaceholders str = true ↔ '{' ∈ str := by
  induction str with
  | nil => simp [hasPlaceholders]
  | cons c str ih =>
    by_cases hc : c = '{'
    · subst hc
      by_cases hnext : str.head? = some '{'
      · have hmem : '{' ∈ str := List.mem_of_mem_head? hnext
        simp [hasPlaceholders, hnext, ih, hmem]
      · simp [hasPlaceholders, hnext]
    · simp [hasPlaceholders, hc, ih, Ne.symm hc]

/-- Characters other than `{`, and escapes each with the character behind it, which is no `{`
    either. -/
inductive EscapedOnly : List Char → Prop where
  | nil : EscapedOnly []
  | text (c : Char) (rest : List Char) : c ≠ '{' → (c = '}' → rest.head? ≠ some '}') → EscapedOnly rest →
      EscapedOnly (c :: rest)
  | bareEscape (brace : Char) : brace = '{' ∨ brace = '}' → EscapedOnly [brace, brace]
  | escape (brace c : Char) (rest : List Char) : brace = '{' ∨ brace = '}' → c ≠ '{' → EscapedOnly rest →
      EscapedOnly (brace :: brace :: c :: rest)

/-- What is skipped is an escape, or nothing. -/
theorem skipEscapedBrace_cases (p : List Char) :
    (∃ brace, (brace = '{' ∨ brace = '}') ∧ p = brace :: brace :: skipEscapedBrace p) ∨
      skipEscapedBrace p = p ∧ ∀ c rest, p = c :: rest → c = '}' → rest.head? ≠ some '}' := by
  unfold skipEscapedBrace
  split
  · exact .inl ⟨'{', .inl rfl, rfl⟩
  · exact .inl ⟨'}', .inr rfl, rfl⟩
  · rename_i hopen hclose
    refine .inr ⟨rfl, ?_⟩
    rintro c rest rfl rfl hhead
    obtain ⟨tail, rfl⟩ := List.head?_eq_some_iff.mp hhead
    exact hclose tail rfl

theorem cut_escape {brace : Char} (h : brace = '{' ∨ brace = '}') (rest : List Char) :
    cut (brace :: brace :: rest) = cutBody rest := by
  rcases h with rfl | rfl <;> simp

theorem EscapedOnly.cut {p : List Char} (h : EscapedOnly p) : (cut p).1 = [] ∧ (Format.cut p).2 ≠ .unclosed := by
  induction h with
  | nil => simp
  | text c rest hopen hclose _ ih => rwa [cut_text hopen hclose]
  | bareEscape brace hbrace => simp [cut_escape hbrace, cutBody]
  | escape brace c rest hbrace hopen _ ih => rwa [cut_escape hbrace, cutBody_text hopen]

theorem escapedOnly_iff (p : List Char) : EscapedOnly p ↔ (cut p).1 = [] ∧ (cut p).2 ≠ .unclosed := by
  refine ⟨EscapedOnly.cut, fun h => ?_⟩
  obtain ⟨hnone, hclosed⟩ := h
  fun_induction cut p with
  | case1 => exact .nil
  | case2 p hp hskip =>
    rcases skipEscapedBrace_cases p with ⟨brace, hbrace, heq⟩ | ⟨hsame, -⟩
    · rw [heq, hskip]
      exact .bareEscape brace hbrace
    · exact absurd (hsame.symm.trans hskip) hp
  | case3 => exact absurd rfl hclosed
  | case4 => cases hnone
  | case5 p hp c rest hopen hskip ih =>
    have hrest := ih hnone hclosed
    have hc : c ≠ '{' := fun heq => hopen heq
    rcases skipEscapedBrace_cases p with ⟨brace, hbrace, heq⟩ | ⟨hsame, hclose⟩
    · rw [heq, hskip]
      exact .escape brace c rest hbrace hc hrest
    · have hp' : p = c :: rest := hsame.symm.trans hskip
      rw [hp']
      exact .text c rest hc (hclose c rest hp') hrest

theorem skipped_mem {p : List Char} {c : Char} (h : c ∈ skipEscapedBrace p) : c ∈ p :=
  (skipEscapedBrace_suffix p).subset h

theorem cut_mem {p : List Char} (h : (cut p).1 ≠ []) : '{' ∈ p := by
  fun_induction cut p with
  | case1 | case2 | case3 => exact absurd rfl h
  | case4 p hp start hskip rest hrest ih => exact skipped_mem (hskip ▸ List.mem_cons_self)
  | case5 p hp c rest hopen hskip ih => exact skipped_mem (hskip ▸ List.mem_cons_of_mem c (ih h))

/-- The pass has come to its end, or left its array, but met no brace that is never closed. -/
theorem firstPass_closed {str : List Char} (h : firstPass str [] ≠ .malformed) :
    (cut str).1 = [] → (cut str).2 ≠ .unclosed := by
  intro hnone hunclosed
  have hpass : firstPass str [] = _ := firstPass_cut str (Nat.zero_le maxPlaceholders)
  rw [hnone, hunclosed] at hpass
  exact h hpass

/-- A pass that came to its end has stored what it came to. -/
theorem firstPass_found {str : List Char} {found : List Placeholder} (h : firstPass str [] = .placeholders found) :
    found ≠ [] ↔ (cut str).1 ≠ [] := by
  have hpass : firstPass str [] = _ := firstPass_cut str (Nat.zero_le maxPlaceholders)
  rw [h] at hpass
  split at hpass
  · cases hpass
  · split at hpass
    · obtain rfl := FirstPass.placeholders.inj hpass
      rw [List.nil_append, ← List.length_pos_iff, stored_length, List.length_pos_iff]
    · cases hpass
    · cases hpass

/-- The scan and the pass agree on a string exactly when it has no `{`, or one that is not half
    of an escape the pass skips. -/
theorem detection_agrees_iff {str : List Char} (h : firstPass str [] ≠ .malformed) :
    (hasPlaceholders str = true ↔ (cut str).1 ≠ []) ↔ '{' ∉ str ∨ ¬ EscapedOnly str := by
  have honly : EscapedOnly str ↔ (cut str).1 = [] := by
    rw [escapedOnly_iff]
    exact and_iff_left_of_imp (firstPass_closed h)
  rw [hasPlaceholders_iff, honly]
  constructor
  · intro hagree
    by_cases hmem : '{' ∈ str
    · exact .inr (hagree.mp hmem)
    · exact .inl hmem
  · rintro (hmem | hfound)
    · exact iff_of_false hmem fun hfound => hmem (cut_mem hfound)
    · exact iff_of_true (cut_mem hfound) hfound

theorem detection_agrees_iff_value :
    (hasPlaceholders ['{', '}'] = true ↔ (cut ['{', '}']).1 ≠ []) ↔ '{' ∉ ['{', '}'] ∨ ¬ EscapedOnly ['{', '}'] :=
  detection_agrees_iff (by decide +kernel)

/-- `{{}}`: the scan takes the second brace for a placeholder, the pass has skipped it. -/
theorem escaped_pair_detected :
    ¬ ∀ str, str.length < maxFormat → firstPass str [] ≠ .malformed →
      (hasPlaceholders str = true ↔ (cut str).1 ≠ []) := by
  intro h
  have hagree := h ['{', '{', '}', '}'] (by decide) (by decide +kernel)
  exact absurd (hagree.mp (by decide)) (by decide +kernel)

end Xvr.Format
