/-
  Xvr.Lib.Printf — how `printf` reads a format: `%`, flags, a width, a precision, a length
  and a conversion letter. Anything else behind a `%` has no meaning.

  Proved:
  - `percent_le`: every printed `%` takes two from the format, every conversion one.
  - `readFormat_only_text`: the length of a format that prints text alone.
-/

import Mathlib.Data.List.Basic

namespace Xvr.Lib.Printf

/-- What a format prints: a character, or an argument. Each star of a conversion reads an
    argument more. -/
inductive Item where
  | text (c : Char)
  | conversion (stars : Nat) (letter : Char)
  deriving DecidableEq, Repr

def isFlag (c : Char) : Bool := c ∈ ['-', '+', ' ', '#', '0']

def isLength (c : Char) : Bool := c ∈ ['h', 'l', 'j', 'z', 't', 'L']

def isConversion (c : Char) : Bool :=
  c ∈ ['d', 'i', 'o', 'u', 'x', 'X', 'f', 'F', 'e', 'E', 'g', 'G', 'a', 'A', 'c', 's', 'p', 'n']

/-- Where the reader is in a directive. -/
inductive Stage where
  | flags | width | point | precision | length
  deriving DecidableEq, Repr

/-- The next stage, and how many arguments the character reads. -/
def Stage.next (stage : Stage) (c : Char) : Option (Stage × Nat) :=
  match stage with
  | .flags =>
    if isFlag c then some (.flags, 0)
    else if c.isDigit then some (.width, 0)
    else if c = '*' then some (.point, 1)
    else if c = '.' then some (.precision, 0)
    else if isLength c then some (.length, 0)
    else none
  | .width =>
    if c.isDigit then some (.width, 0)
    else if c = '.' then some (.precision, 0)
    else if isLength c then some (.length, 0)
    else none
  | .point =>
    if c = '.' then some (.precision, 0)
    else if isLength c then some (.length, 0)
    else none
  | .precision =>
    if c.isDigit then some (.precision, 0)
    else if c = '*' then some (.length, 1)
    else if isLength c then some (.length, 0)
    else none
  | .length => if isLength c then some (.length, 0) else none

mutual

/-- The items of a format; `none` when it has no meaning. -/
def readFormat : List Char → Option (List Item)
  | [] => some []
  | '%' :: '%' :: format => (readFormat format).map (.text '%' :: ·)
  | '%' :: format => readDirective .flags 0 format
  | c :: format => (readFormat format).map (.text c :: ·)

def readDirective (stage : Stage) (stars : Nat) : List Char → Option (List Item)
  | [] => none
  | c :: format =>
    if isConversion c then (readFormat format).map (.conversion stars c :: ·)
    else
      match stage.next c with
      | some (stage, more) => readDirective stage (stars + more) format
      | none => none

end

/-- The text a format prints around its arguments. -/
def text : List Item → List Char
  | [] => []
  | .text c :: items => c :: text items
  | .conversion _ _ :: items => text items

/-- The conversions, each with its stars. -/
def conversions : List Item → List (Nat × Char)
  | [] => []
  | .text _ :: items => conversions items
  | .conversion stars letter :: items => (stars, letter) :: conversions items

@[simp] theorem readFormat_nil : readFormat [] = some [] := rfl

@[simp] theorem readFormat_percent (format : List Char) :
    readFormat ('%' :: '%' :: format) = (readFormat format).map (.text '%' :: ·) := rfl

theorem readFormat_text {c : Char} (h : c ≠ '%') (format : List Char) :
    readFormat (c :: format) = (readFormat format).map (.text c :: ·) := by
  rw [readFormat]
  · intro _ hp
    exact absurd hp h
  · exact h

theorem readFormat_directive {c : Char} (h : c ≠ '%') (format : List Char) :
    readFormat ('%' :: c :: format) = readDirective .flags 0 (c :: format) := by
  rw [readFormat]
  intro _ hp
  exact absurd (List.cons.inj hp).1 h

/-! ## Percent signs -/

/-- The percent signs the items of a meaningful format need. -/
def percents (items : List Item) : Nat := 2 * (text items).count '%' + (conversions items).length

theorem percents_text (c : Char) (items : List Item) :
    percents (.text c :: items) = (if c = '%' then 2 else 0) + percents items := by
  by_cases h : c = '%'
  · simp [percents, text, conversions, h]; omega
  · simp [percents, text, conversions, h]

theorem percents_conversion (stars : Nat) (letter : Char) (items : List Item) :
    percents (.conversion stars letter :: items) = percents items + 1 := rfl

mutual

/-- Every printed `%` takes two percent signs, every conversion at least one. -/
theorem percent_le (format : List Char) {items : List Item} (h : readFormat format = some items) :
    percents items ≤ format.count '%' := by
  match format with
  | [] =>
    cases h
    exact Nat.le_refl _
  | c :: d :: rest =>
    by_cases hc : c = '%'
    · subst hc
      rw [List.count_cons_self]
      by_cases hd : d = '%'
      · subst hd
        obtain ⟨items, hrest, rfl⟩ := Option.map_eq_some_iff.mp h
        have hle := percent_le rest hrest
        rw [percents_text, if_pos rfl, List.count_cons_self]
        omega
      · rw [readFormat_directive hd] at h
        exact directive_le .flags 0 (d :: rest) h
    · rw [readFormat_text hc] at h
      obtain ⟨items, hrest, rfl⟩ := Option.map_eq_some_iff.mp h
      have hle := percent_le (d :: rest) hrest
      rw [percents_text, if_neg hc, List.count_cons_of_ne hc]
      omega
  | [c] =>
    by_cases hc : c = '%'
    · subst hc
      cases h
    · rw [readFormat_text hc] at h
      cases h
      simp [hc, percents, text, conversions]

theorem directive_le (stage : Stage) (stars : Nat) (format : List Char) {items : List Item}
    (h : readDirective stage stars format = some items) : percents items ≤ format.count '%' + 1 := by
  match format with
  | [] => cases h
  | c :: rest =>
    rw [readDirective] at h
    by_cases hc : isConversion c = true
    · rw [if_pos hc] at h
      obtain ⟨items, hrest, rfl⟩ := Option.map_eq_some_iff.mp h
      have hle := percent_le rest hrest
      have hne : c ≠ '%' := fun heq => by rw [heq] at hc; cases hc
      rw [percents_conversion, List.count_cons_of_ne hne]
      omega
    · rw [if_neg hc] at h
      cases hnext : stage.next c with
      | none => rw [hnext] at h; cases h
      | some next =>
        rw [hnext] at h
        have hle := directive_le next.1 (stars + next.2) rest h
        have hcount : rest.count '%' ≤ (c :: rest).count '%' := List.count_le_count_cons
        omega

end

/-! ## Formats without conversions -/

/-- A directive that is read starts with its conversion. -/
theorem readDirective_conversion {stage : Stage} {stars : Nat} {format : List Char} {items : List Item}
    (h : readDirective stage stars format = some items) :
    ∃ stars letter rest, items = .conversion stars letter :: rest := by
  induction format generalizing stage stars with
  | nil => cases h
  | cons c format ih =>
    rw [readDirective] at h
    by_cases hc : isConversion c = true
    · rw [if_pos hc] at h
      obtain ⟨rest, _, rfl⟩ := Option.map_eq_some_iff.mp h
      exact ⟨stars, c, rest, rfl⟩
    · rw [if_neg hc] at h
      cases hnext : stage.next c with
      | none => rw [hnext] at h; cases h
      | some next =>
        rw [hnext] at h
        exact ih h

/-- A format that only prints text has each of its printed `%` twice. -/
theorem readFormat_only_text (format : List Char) {printed : List Char}
    (h : readFormat format = some (printed.map .text)) :
    format.count '%' = 2 * printed.count '%' ∧ format.length = printed.length + printed.count '%' := by
  match format with
  | [] =>
    have hnil : printed = [] := List.map_eq_nil_iff.mp (Option.some.inj h).symm
    rw [hnil]
    exact ⟨rfl, rfl⟩
  | c :: rest =>
    by_cases hc : c = '%'
    · subst hc
      match rest with
      | [] => cases h
      | d :: rest =>
        by_cases hd : d = '%'
        · subst hd
          obtain ⟨items, hrest, hitems⟩ := Option.map_eq_some_iff.mp h
          cases printed with
          | nil => cases hitems
          | cons e printed =>
            cases hitems
            obtain ⟨hcount, hlength⟩ := readFormat_only_text rest hrest
            simp only [List.count_cons_self, List.length_cons]
            omega
        · rw [readFormat_directive hd] at h
          obtain ⟨stars, letter, items, heq⟩ := readDirective_conversion h
          cases printed <;> cases heq
    · rw [readFormat_text hc] at h
      obtain ⟨items, hrest, hitems⟩ := Option.map_eq_some_iff.mp h
      cases printed with
      | nil => cases hitems
      | cons e printed =>
        cases hitems
        obtain ⟨hcount, hlength⟩ := readFormat_only_text rest hrest
        simp only [List.count_cons_of_ne hc, List.length_cons]
        omega

theorem readFormat_plain {format : List Char} (h : '%' ∉ format) : readFormat format = some (format.map .text) := by
  induction format with
  | nil => rfl
  | cons c format ih =>
    have hc : c ≠ '%' := fun heq => h (heq ▸ List.mem_cons_self)
    rw [readFormat_text hc, ih fun hmem => h (List.mem_cons_of_mem _ hmem)]
    rfl

end Xvr.Lib.Printf
