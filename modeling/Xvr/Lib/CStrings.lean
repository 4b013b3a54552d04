/-
  Xvr.Lib.CStrings — texts in memory that end at a NUL.

  Memory is a list of characters, and a function that reads behind its end has no answer. What
  the library functions see of a region is its text: the characters in front of the first NUL,
  and of those no more than they may read.

  Proved:
  - `strncmp_total`: two regions that close within what may be read are compared.
  - `strncmp_zero`: the answer is 0 exactly when the two texts are the same.
-/

import Mathlib.Data.List.TakeWhile

namespace Xvr.Lib.CStrings

abbrev nul : Char := '\x00'

/-- A string of the language: its characters, none of them NUL. -/
structure CString where
  text : List Char
  plain : nul ∉ text

def CString.memory (s : CString) : List Char := s.text ++ [nul]

/-- `strlen`. -/
def strlen : List Char → Option Nat
  | [] => none
  | c :: memory => if c = nul then some 0 else (strlen memory).map (· + 1)

/-- `strncmp`. -/
def strncmp : Nat → List Char → List Char → Option Int
  | 0, _, _ => some 0
  | n + 1, a :: as, b :: bs =>
    if a ≠ b then some ((a.toNat : Int) - b.toNat)
    else if a = nul then some 0
    else strncmp n as bs
  | _ + 1, _, _ => none

/-- The text of a region, at most `n` characters of it. -/
def textWithin (n : Nat) (memory : List Char) : List Char := (memory.take n).takeWhile (· != nul)

/-- A reader of at most `n` characters that stops at a NUL stays in the region. -/
def Closes (n : Nat) (memory : List Char) : Prop := n ≤ memory.length ∨ nul ∈ memory

/-! ## Texts -/

@[simp] theorem textWithin_zero (memory : List Char) : textWithin 0 memory = [] := by simp [textWithin]

@[simp] theorem textWithin_nul (n : Nat) (memory : List Char) : textWithin n (nul :: memory) = [] := by
  cases n <;> simp [textWithin]

@[simp] theorem textWithin_cons {c : Char} (hc : c ≠ nul) (n : Nat) (memory : List Char) :
    textWithin (n + 1) (c :: memory) = c :: textWithin n memory := by
  simp [textWithin, hc]

theorem textWithin_plain {text : List Char} (h : nul ∉ text) (n : Nat) (rest : List Char) :
    textWithin n (text ++ nul :: rest) = text.take n := by
  induction text generalizing n with
  | nil => simp
  | cons c text ih =>
    have hc : c ≠ nul := fun heq => h (heq ▸ List.mem_cons_self)
    cases n with
    | zero => simp
    | succ n => simp [hc, ih fun hm => h (List.mem_cons_of_mem c hm)]

/-- Two texts of one length that read the same differ behind a NUL or not at all. -/
theorem textWithin_eq {a b : List Char} (hlen : a.length = b.length)
    (h : textWithin a.length a = textWithin b.length b) :
    a = b ∨ ∃ common x y, a = common ++ nul :: x ∧ b = common ++ nul :: y ∧ x.length = y.length ∧ x ≠ y := by
  induction a generalizing b with
  | nil => exact .inl (List.length_eq_zero_iff.mp hlen.symm).symm
  | cons c a ih =>
    obtain _ | ⟨d, b⟩ := b
    · cases hlen
    have hlen' : a.length = b.length := Nat.succ.inj hlen
    by_cases hc : c = nul <;> by_cases hd : d = nul
    · subst hc hd
      by_cases hab : a = b
      · exact .inl (by rw [hab])
      · exact .inr ⟨[], a, b, rfl, rfl, hlen', hab⟩
    · subst hc
      simp [hd] at h
    · subst hd
      simp [hc] at h
    · simp only [List.length_cons, textWithin_cons hc, textWithin_cons hd, List.cons.injEq] at h
      obtain ⟨rfl, h⟩ := h
      rcases ih hlen' h with rfl | ⟨common, x, y, rfl, rfl, hxy⟩
      · exact .inl rfl
      · exact .inr ⟨c :: common, x, y, rfl, rfl, hxy⟩

theorem textWithin_self {text : List Char} (h : nul ∉ text) : textWithin text.length text = text := by
  rw [textWithin, List.take_length, List.takeWhile_eq_self_iff]
  intro c hc
  simpa using fun heq : c = nul => h (heq ▸ hc)

theorem textWithin_eq_plain {a text : List Char} (hlen : a.length = text.length) (h : nul ∉ text) :
    textWithin a.length a = text ↔ a = text := by
  constructor
  · intro heq
    rcases textWithin_eq hlen (heq.trans (textWithin_self h).symm) with rfl | ⟨common, x, y, -, rfl, -⟩
    · rfl
    · exact absurd (by simp) h
  · rintro rfl
    exact textWithin_self h

theorem textWithin_common (common x y : List Char) (n : Nat) :
    textWithin n (common ++ nul :: x) = textWithin n (common ++ nul :: y) := by
  induction common generalizing n with
  | nil => simp
  | cons c common ih =>
    cases n with
    | zero => simp
    | succ n =>
      by_cases hc : c = nul
      · simp [hc]
      · simp [hc, ih]

/-! ## Regions -/

theorem CString.closes (s : CString) (n : Nat) : Closes n s.memory := .inr (by simp [CString.memory])

theorem CString.textWithin (s : CString) (n : Nat) : textWithin n s.memory = s.text.take n :=
  textWithin_plain s.plain n []

@[simp] theorem strlen_cstring (s : CString) : strlen s.memory = some s.text.length := by
  obtain ⟨text, hplain⟩ := s
  simp only [CString.memory]
  induction text with
  | nil => simp [strlen]
  | cons c text ih =>
    have hc : c ≠ nul := fun heq => hplain (heq ▸ List.mem_cons_self)
    simp [strlen, hc, ih fun hm => hplain (List.mem_cons_of_mem c hm)]

theorem Closes.tail {n : Nat} {c : Char} {memory : List Char} (h : Closes (n + 1) (c :: memory)) (hc : c ≠ nul) :
    Closes n memory := by
  rcases h with h | h
  · exact .inl (Nat.le_of_succ_le_succ h)
  · exact .inr ((List.mem_cons.mp h).resolve_left (Ne.symm hc))

theorem Closes.cons {n : Nat} {memory : List Char} (h : Closes (n + 1) memory) : ∃ c rest, memory = c :: rest := by
  cases memory with
  | nil => rcases h with h | h <;> cases h
  | cons c rest => exact ⟨c, rest, rfl⟩

/-! ## Comparing -/

theorem strncmp_total {n : Nat} {a b : List Char} (ha : Closes n a) (hb : Closes n b) :
    ∃ order, strncmp n a b = some order := by
  induction n generalizing a b with
  | zero => exact ⟨0, by simp [strncmp]⟩
  | succ n ih =>
    obtain ⟨c, a, rfl⟩ := ha.cons
    obtain ⟨d, b, rfl⟩ := hb.cons
    by_cases hcd : c ≠ d
    · exact ⟨_, by rw [strncmp, if_pos hcd]⟩
    · rw [not_not] at hcd
      subst hcd
      by_cases hc : c = nul
      · exact ⟨0, by simp [strncmp, hc]⟩
      · obtain ⟨order, horder⟩ := ih (ha.tail hc) (hb.tail hc)
        exact ⟨order, by simpa [strncmp, hc] using horder⟩

theorem strncmp_zero {n : Nat} {a b : List Char} (ha : Closes n a) (hb : Closes n b) :
    strncmp n a b = some 0 ↔ textWithin n a = textWithin n b := by
  induction n generalizing a b with
  | zero => simp [strncmp]
  | succ n ih =>
    obtain ⟨c, a, rfl⟩ := ha.cons
    obtain ⟨d, b, rfl⟩ := hb.cons
    by_cases hcd : c = d
    · subst hcd
      by_cases hc : c = nul
      · simp [strncmp, hc]
      · simpa [strncmp, hc] using ih (ha.tail hc) (hb.tail hc)
    · have horder : (c.toNat : Int) - d.toNat ≠ 0 := fun h => hcd (Char.toNat_inj.mp (by omega))
      rw [strncmp, if_pos hcd, Option.some.injEq, iff_false_left horder]
      by_cases hc : c = nul
      · subst hc
        simp [Ne.symm hcd]
      · by_cases hd : d = nul
        · subst hd
          simp [hc]
        · simp [hc, hd, hcd]

end Xvr.Lib.CStrings
