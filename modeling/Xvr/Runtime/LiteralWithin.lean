/-
  Xvr.Runtime.LiteralWithin — what equality says about literals without hash tables.

  `Within a b` reads `Xvr_literalsAreEqual` off the contents: scalars are equal, texts are
  read up to a NUL, integers of different kinds read as one float, arrays are compared
  element by element, and every entry of a dictionary has one in the other with a key and
  a value it is within. The second dictionary may hold more, so this is an order on
  dictionaries and no equivalence.

  It goes on between copies (`Within.congr`), and equality decides it on a universe of
  literals whose integers and dictionaries are apart (`Xvr.Runtime.LiteralEquality`).
-/

import Mathlib
import Xvr.Runtime.LiteralSame
import Xvr.Runtime.RefStrings

namespace Xvr.Runtime

/-! ## Floats -/

theorem float_symm {x y : Float32} (h : (x == y) = true) : (y == x) = true := by
  obtain ⟨hx, hy, h | ⟨hxz, hyz⟩ | ⟨hxz, hyz⟩⟩ := Float32.beq_iff_ne_nan_and_eq.mp h
  · exact Float32.beq_iff_ne_nan_and_eq.mpr ⟨hy, hx, .inl h.symm⟩
  · exact Float32.beq_iff_ne_nan_and_eq.mpr ⟨hy, hx, .inr (.inr ⟨hyz, hxz⟩)⟩
  · exact Float32.beq_iff_ne_nan_and_eq.mpr ⟨hy, hx, .inr (.inl ⟨hyz, hxz⟩)⟩

theorem float_trans {x y z : Float32} (h : (x == y) = true) (h' : (y == z) = true) : (x == z) = true := by
  obtain ⟨hx, hy, heq⟩ := Float32.beq_iff_ne_nan_and_eq.mp h
  obtain ⟨-, hz, heq'⟩ := Float32.beq_iff_ne_nan_and_eq.mp h'
  apply Float32.beq_iff_ne_nan_and_eq.mpr
  refine ⟨hx, hz, ?_⟩
  rcases heq with rfl | ⟨rfl, rfl⟩ | ⟨rfl, rfl⟩
  · exact heq'
  · rcases heq' with rfl | ⟨-, rfl⟩ | ⟨-, rfl⟩
    · exact .inr (.inl ⟨rfl, rfl⟩)
    · exact .inr (.inl ⟨rfl, rfl⟩)
    · exact .inl rfl
  · rcases heq' with rfl | ⟨-, rfl⟩ | ⟨-, rfl⟩
    · exact .inr (.inr ⟨rfl, rfl⟩)
    · exact .inl rfl
    · exact .inr (.inr ⟨rfl, rfl⟩)

/-! ## Texts -/

theorem equalsRefString_iff_read {s t : List Char} : equalsRefString s t = true ↔
    s.length = t.length ∧ Lib.CStrings.textWithin s.length s = Lib.CStrings.textWithin t.length t := by
  rw [equalsRefString, Bool.and_eq_true, beq_iff_eq]
  exact and_congr_right RefStrings.strncmpEqual_textWithin

theorem equalsRefString_refl (s : List Char) : equalsRefString s s = true :=
  equalsRefString_iff_read.mpr ⟨rfl, rfl⟩

theorem equalsRefString_symm {s t : List Char} (h : equalsRefString s t = true) : equalsRefString t s = true := by
  obtain ⟨hlen, hread⟩ := equalsRefString_iff_read.mp h
  exact equalsRefString_iff_read.mpr ⟨hlen.symm, hread.symm⟩

theorem equalsRefString_trans {s t u : List Char} (h : equalsRefString s t = true) (h' : equalsRefString t u = true) :
    equalsRefString s u = true := by
  obtain ⟨hlen, hread⟩ := equalsRefString_iff_read.mp h
  obtain ⟨hlen', hread'⟩ := equalsRefString_iff_read.mp h'
  exact equalsRefString_iff_read.mpr ⟨hlen.trans hlen', hread.trans hread'⟩

/-! ## Within -/

inductive Within : Literal → Literal → Prop
  | plain {a b : Literal} : a.kind ≠ .dictionary → a.shell = b.shell → a.parts.length = b.parts.length →
      (∀ (i : Nat) (x y : Literal), a.parts[i]? = some x → b.parts[i]? = some y → Within x y) → Within a b
  | numbers {a b : Literal} : a.isInteger = true → b.isInteger = true → a.kind ≠ b.kind →
      (comparedAs a == comparedAs b) = true → Within a b
  | strings {s t : List Char} : equalsRefString s t = true → Within (.string s) (.string t)
  | identifiers {s t : List Char} : hashString s = hashString t → equalsRefString s t = true →
      Within (.identifier s) (.identifier t)
  /-- Only the subtypes of arrays and dictionaries are compared. -/
  | types {t : LiteralType} {c : Bool} {as bs : List Literal} : t ≠ .array → t ≠ .dictionary →
      as.length = bs.length → Within (.type t c as) (.type t c bs)
  | dictionary {d d' : Dictionary} (there : Entry Literal → Entry Literal) :
      (∀ e ∈ liveEntries d.entries, there e ∈ liveEntries d'.entries) →
      (∀ e ∈ liveEntries d.entries, Within e.key (there e).key) →
      (∀ e ∈ liveEntries d.entries, Within e.value (there e).value) → Within (.dictionary d) (.dictionary d')

theorem integer_parts {a : Literal} (h : a.isInteger = true) : a.kind ≠ .dictionary ∧ a.parts = [] := by
  cases a <;> simp_all [Literal.isInteger, Literal.kind, Literal.parts]

/-- What is the same as a literal that holds none is that literal. -/
theorem same_scalar {a b : Literal} (h : Same a b) (hk : a.kind ≠ .dictionary) (hp : a.parts = []) : a = b := by
  cases h with
  | plain _ hshell hlen _ => exact shell_inj hk hshell hlen hp
  | dictionary => exact absurd rfl hk

theorem same_integer {a b : Literal} (h : Same a b) (ha : a.isInteger = true) : a = b :=
  same_scalar h (integer_parts ha).1 (integer_parts ha).2

theorem same_type {t : LiteralType} {c : Bool} {as : List Literal} {x : Literal} (h : Same (.type t c as) x) :
    ∃ bs, x = .type t c bs ∧ as.length = bs.length := by
  cases h with
  | plain _ hshell hlen _ =>
    cases x <;> simp only [Literal.shell, reduceCtorEq, Literal.type.injEq] at hshell
    obtain ⟨rfl, rfl, _⟩ := hshell
    exact ⟨_, rfl, hlen⟩

theorem Within.of_same {a b : Literal} (h : Same a b) : Within a b := by
  induction h with
  | plain hk hshell hlen _ ih => exact .plain hk hshell hlen ih
  | dictionary there back hin _ _ _ _ _ ihk ihv => exact .dictionary there hin ihk ihv

/-- Literals that are the same are within the same literals. -/
theorem Within.congr {a b : Literal} (h : Within a b) : ∀ {x y : Literal}, Same a x → Same b y → Within x y := by
  induction h with
  | @plain a b hk hshell hlen _ ih =>
    intro x y hx hy
    cases hx with
    | dictionary => exact absurd rfl hk
    | plain _ hsx hlx hpx =>
    cases hy with
    | dictionary =>
      have := shell_kind a
      rw [hshell] at this
      exact absurd this.symm hk
    | plain hkb hsy hly hpy =>
    refine .plain ?_ ((hsx.symm.trans hshell).trans hsy) ((hlx.symm.trans hlen).trans hly) ?_
    · rw [← shell_kind, ← hsx, shell_kind]
      exact hk
    · intro i u v hu hv
      have hlt : i < x.parts.length := (List.getElem?_eq_some_iff.mp hu).1
      have ha := List.getElem?_eq_getElem (hlx ▸ hlt)
      have hb := List.getElem?_eq_getElem (hlen ▸ hlx ▸ hlt)
      exact ih i _ _ ha hb (hpx i _ u ha hu) (hpy i _ v hb hv)
  | numbers ha hb hk hf =>
    intro x y hx hy
    rw [← same_integer hx ha, ← same_integer hy hb]
    exact .numbers ha hb hk hf
  | @strings s t heq =>
    intro x y hx hy
    rw [← same_scalar hx (by simp [Literal.kind]) rfl, ← same_scalar hy (by simp [Literal.kind]) rfl]
    exact .strings heq
  | @identifiers s t hhash heq =>
    intro x y hx hy
    rw [← same_scalar hx (by simp [Literal.kind]) rfl, ← same_scalar hy (by simp [Literal.kind]) rfl]
    exact .identifiers hhash heq
  | types ht ht' hlen =>
    intro x y hx hy
    obtain ⟨as', rfl, hlx⟩ := same_type hx
    obtain ⟨bs', rfl, hly⟩ := same_type hy
    exact .types ht ht' ((hlx.symm.trans hlen).trans hly)
  | dictionary there hin _ _ ihk ihv =>
    intro x y hx hy
    cases hx with
    | plain hk => exact absurd rfl hk
    | dictionary there₁ back₁ hin₁ hk₁ hv₁ hback₁ hkb₁ hvb₁ =>
    cases hy with
    | plain hk => exact absurd rfl hk
    | dictionary there₂ back₂ hin₂ hk₂ hv₂ hback₂ hkb₂ hvb₂ =>
    refine .dictionary (fun e => there₂ (there (back₁ e))) (fun e he => hin₂ _ (hin _ (hback₁ e he))) ?_ ?_
    · intro e he
      exact ihk _ (hback₁ e he) (hkb₁ e he) (hk₂ _ (hin _ (hback₁ e he)))
    · intro e he
      exact ihv _ (hback₁ e he) (hvb₁ e he) (hv₂ _ (hin _ (hback₁ e he)))

end Xvr.Runtime
