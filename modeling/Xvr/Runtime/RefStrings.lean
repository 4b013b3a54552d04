/-
  Xvr.Runtime.RefStrings — counted strings in memory, and when two of them are equal
  (`xvr_refstring.cpp`).

  A `Xvr_RefString` carries its length and may hold NULs, but equality is asked of `strncmp`,
  which stops at the first one; and the length of a C string is asked of `xvr_safe_strlen`,
  which stops at its maximum. Strings are never changed, so memory only gains new ones here;
  what the counts are for is in `Xvr.Runtime.RefLiteral`.

  Proved:
  - `equalsRefString_texts`: two pointers are compared as `Xvr.Runtime.LiteralFns` compares texts.
  - `equalsRefStringCString_take`: a C string is compared by its first 4096 bytes.
  - `equality_right_iff`: the answers are those of equal bytes but for two strings that differ
    behind a NUL, and for a C string that is longer.
-/

import Xvr.Runtime.StringUtils
import Xvr.Runtime.LiteralFns

namespace Xvr.Runtime.RefStrings

open Xvr.Lib.CStrings

/-- `Xvr_RefString`, with the bytes allocated behind its fields. -/
structure Block where
  length : Nat
  refCount : Int
  data : List Char
  size : data.length = length + 1
  closed : data[length]? = some nul

def Block.bytes (b : Block) : List Char := b.data.take b.length

/-- The strings in memory. A pointer is the index of one, or NULL. -/
abbrev Memory := List Block

abbrev Pointer := Option Nat

/-- `Xvr_createRefStringLength` on a buffer of at least so many bytes; the allocator may refuse. -/
def createRefStringLength (memory : Memory) (granted : Bool) (cstring : List Char) (length : Nat)
    (enough : length ≤ cstring.length) : Memory × Pointer :=
  if granted then
    (memory ++ [{
      length, refCount := 1, data := cstring.take length ++ [nul]
      size := by simp [enough]
      closed := by simp [enough] }], some memory.length)
  else (memory, none)

/-- `Xvr_equalsRefString`. -/
def equalsRefString (memory : Memory) (lhs rhs : Pointer) : Option Bool :=
  if lhs = rhs then some true else do
    let some p := lhs | return false
    let some q := rhs | return false
    let lhs ← memory[p]?
    let rhs ← memory[q]?
    if lhs.length ≠ rhs.length then return false
    return (← strncmp lhs.length lhs.data rhs.data) == 0

/-- `Xvr_equalsRefStringCString`. -/
def equalsRefStringCString (memory : Memory) (lhs : Pointer) (cstring : Option CString) : Option Bool := do
  let some p := lhs | return false
  let some cstring := cstring | return false
  let lhs ← memory[p]?
  let length ← safeStrlen cstring.memory 4096
  if lhs.length ≠ length then return false
  return (← strncmp lhs.length lhs.data cstring.memory) == 0

/-! ## The bytes of a block -/

@[simp] theorem Block.length_bytes (b : Block) : b.bytes.length = b.length := by
  rw [Block.bytes, List.length_take, b.size]
  omega

theorem Block.closes (b : Block) : Closes b.length b.data := .inl (by rw [b.size]; omega)

theorem Block.textWithin (b : Block) : textWithin b.length b.data = textWithin b.bytes.length b.bytes := by
  simp only [Xvr.Lib.CStrings.textWithin, b.length_bytes]
  rw [Block.bytes, List.take_take, Nat.min_self]

/-- The comparison of texts of one length, told by what `strncmp` reads. -/
theorem strncmpEqual_textWithin {a b : List Char} (hlen : a.length = b.length) :
    strncmpEqual a b = true ↔ textWithin a.length a = textWithin b.length b := by
  induction a generalizing b with
  | nil => simp [strncmpEqual, List.length_eq_zero_iff.mp hlen.symm]
  | cons c a ih =>
    obtain _ | ⟨d, b⟩ := b
    · cases hlen
    have ih := ih (Nat.succ.inj hlen)
    by_cases hc : c = nul <;> by_cases hd : d = nul
    · simp [strncmpEqual, hc, hd]
    · simp [strncmpEqual, hc, hd, Ne.symm hd]
    · simp [strncmpEqual, hc, hd]
    · simp [strncmpEqual, hc, hd, ih]

section

variable {memory : Memory} {p q : Nat} {a b : Block}

/-- Whether two pointers are one makes no difference to the answer. -/
theorem equalsRefString_texts (ha : memory[p]? = some a) (hb : memory[q]? = some b) :
    equalsRefString memory (some p) (some q) = some (Runtime.equalsRefString a.bytes b.bytes) := by
  by_cases hpq : p = q
  · subst hpq
    obtain rfl := Option.some.inj (ha.symm.trans hb)
    have hself := (strncmpEqual_textWithin (rfl : a.bytes.length = _)).mpr rfl
    simp [equalsRefString, Runtime.equalsRefString, hself]
  by_cases hlen : a.length = b.length
  · have hbytes : a.bytes.length = b.bytes.length := by simp [hlen]
    have hcloses : Closes a.length b.data := hlen ▸ b.closes
    obtain ⟨order, horder⟩ := strncmp_total a.closes hcloses
    have htexts : textWithin a.length b.data = textWithin b.bytes.length b.bytes := by rw [hlen, b.textWithin]
    have hzero : order = 0 ↔ strncmpEqual a.bytes b.bytes = true := by
      rw [strncmpEqual_textWithin hbytes, ← a.textWithin, ← htexts, ← strncmp_zero a.closes hcloses, horder,
        Option.some.injEq]
    have hanswer : (order == 0) = strncmpEqual a.bytes b.bytes := by rw [Bool.eq_iff_iff, beq_iff_eq, hzero]
    simp [equalsRefString, hpq, ha, hb, ← hlen, horder, Runtime.equalsRefString, hanswer]
  · simp [equalsRefString, hpq, ha, hb, hlen, Runtime.equalsRefString]

/-- Of a C string no more is compared than `xvr_safe_strlen` counts. -/
theorem equalsRefStringCString_take (ha : memory[p]? = some a) (s : CString) :
    equalsRefStringCString memory (some p) (some s) = some (decide (a.bytes = s.text.take 4096)) := by
  by_cases hlen : a.length = min s.text.length 4096
  · obtain ⟨order, horder⟩ := strncmp_total a.closes (s.closes a.length)
    have htake : s.text.take a.length = s.text.take 4096 := by
      rw [hlen, Nat.min_comm, List.take_eq_take_iff]
      omega
    have hplain : nul ∉ s.text.take 4096 := fun h => s.plain (List.mem_of_mem_take h)
    have hbytes : a.bytes.length = (s.text.take 4096).length := by
      rw [a.length_bytes, hlen, List.length_take, Nat.min_comm]
    have hzero : order = 0 ↔ a.bytes = s.text.take 4096 := by
      rw [← textWithin_eq_plain hbytes hplain, ← a.textWithin, ← htake, ← s.textWithin,
        ← strncmp_zero a.closes (s.closes a.length), horder, Option.some.injEq]
    have hanswer : (order == 0) = decide (a.bytes = s.text.take 4096) := by
      rw [Bool.eq_iff_iff, beq_iff_eq, hzero, decide_eq_true_iff]
    simp [equalsRefStringCString, ha, safeStrlen_cstring, ← hlen, horder, hanswer]
  · have hne : a.bytes ≠ s.text.take 4096 := fun h => hlen (by rw [← a.length_bytes, h]; simp [Nat.min_comm])
    simp [equalsRefStringCString, ha, safeStrlen_cstring, hlen, hne]

end

/-! ## Strings as they are created -/

/-- A call of `Xvr_createRefStringLength`. -/
structure Creation where
  cstring : List Char
  length : Nat
  enough : length ≤ cstring.length

namespace Creation

def bytes (c : Creation) : List Char := c.cstring.take c.length

def run (memory : Memory) (c : Creation) : Memory := (createRefStringLength memory true c.cstring c.length c.enough).1

end Creation

/-- Memory behind so many calls, each of which was granted its block. -/
def createAll (creations : List Creation) : Memory := creations.foldl Creation.run []

theorem run_spec (memory : Memory) (c : Creation) : ∃ b, c.run memory = memory ++ [b] ∧ b.bytes = c.bytes :=
  ⟨_, rfl, by simp [Block.bytes, Creation.bytes, c.enough]⟩

/-- Each call has put its bytes where its pointer points to. -/
theorem createAll_bytes (creations : List Creation) : (createAll creations).map Block.bytes = creations.map Creation.bytes := by
  have hrun (memory : Memory) :
      (creations.foldl Creation.run memory).map Block.bytes = memory.map Block.bytes ++ creations.map Creation.bytes := by
    induction creations generalizing memory with
    | nil => simp
    | cons c creations ih =>
      obtain ⟨b, hmemory, hbytes⟩ := run_spec memory c
      rw [List.foldl_cons, hmemory, ih]
      simp [hbytes]
  exact hrun []

theorem createAll_get (creations : List Creation) (p : Fin creations.length) :
    ∃ b, (createAll creations)[p.val]? = some b ∧ b.bytes = creations[p].bytes := by
  have h : ((createAll creations).map Block.bytes)[p.val]? = some creations[p].bytes := by simp [createAll_bytes]
  rwa [List.getElem?_map, Option.map_eq_some_iff] at h

/-- The texts have one length and are the same up to a NUL, and not behind it. -/
def DifferBehindNul (a b : List Char) : Prop :=
  ∃ common x y, a = common ++ nul :: x ∧ b = common ++ nul :: y ∧ x.length = y.length ∧ x ≠ y

theorem equalsRefString_iff_bytes (a b : List Char) :
    Runtime.equalsRefString a b = true ↔ a = b ∨ DifferBehindNul a b := by
  rw [Runtime.equalsRefString, Bool.and_eq_true, beq_iff_eq]
  constructor
  · rintro ⟨hlen, hequal⟩
    exact textWithin_eq hlen ((strncmpEqual_textWithin hlen).mp hequal)
  · rintro (rfl | ⟨common, x, y, rfl, rfl, hlen, -⟩)
    · exact ⟨rfl, (strncmpEqual_textWithin rfl).mpr rfl⟩
    · have hlen' : (common ++ nul :: x).length = (common ++ nul :: y).length := by simp [hlen]
      refine ⟨hlen', (strncmpEqual_textWithin hlen').mpr ?_⟩
      rw [hlen', textWithin_common]

theorem DifferBehindNul.ne {a b : List Char} (h : DifferBehindNul a b) : a ≠ b := by
  obtain ⟨common, x, y, rfl, rfl, -, hne⟩ := h
  simpa using hne

/-- Both comparisons are those of the bytes: of two strings exactly unless these differ behind a
    NUL only, of a string and a C string exactly where the latter is within the maximum, or the
    bytes are neither all of it nor its first 4096. -/
theorem equality_right_iff (creations : List Creation) (p q : Fin creations.length) (s : CString) :
    (equalsRefString (createAll creations) (some p) (some q) = some (decide (creations[p].bytes = creations[q].bytes)) ↔
      ¬ DifferBehindNul creations[p].bytes creations[q].bytes) ∧
    (equalsRefStringCString (createAll creations) (some p) (some s) = some (decide (creations[p].bytes = s.text)) ↔
      s.text.length ≤ 4096 ∨ creations[p].bytes ≠ s.text ∧ creations[p].bytes ≠ s.text.take 4096) := by
  obtain ⟨a, ha, habytes⟩ := createAll_get creations p
  obtain ⟨b, hb, hbbytes⟩ := createAll_get creations q
  rw [equalsRefString_texts ha hb, equalsRefStringCString_take ha s, habytes, hbbytes]
  constructor
  · rw [Option.some.injEq, Bool.eq_iff_iff, decide_eq_true_iff, equalsRefString_iff_bytes]
    exact ⟨fun h hdiffer => hdiffer.ne (h.mp (.inr hdiffer)), fun h => or_iff_left h⟩
  · rw [Option.some.injEq, decide_eq_decide]
    by_cases hlen : s.text.length ≤ 4096
    · simp [List.take_of_length_le hlen, hlen]
    · have hcut : s.text ≠ s.text.take 4096 := by
        intro h
        have hlength := congrArg List.length h
        rw [List.length_take] at hlength
        omega
      constructor
      · intro h
        refine .inr ⟨fun heq => ?_, fun heq => ?_⟩
        · exact hcut (heq.symm.trans (h.mpr heq))
        · exact hcut ((h.mp heq).symm.trans heq)
      · rintro (h | ⟨hall, hfirst⟩)
        · exact absurd h hlen
        · exact iff_of_false hfirst hall

/-- The bytes 0 and `a`, and the bytes 0 and `b`. -/
theorem behind_nul_equal :
    ¬ ∀ (creations : List Creation) (p q : Fin creations.length),
      equalsRefString (createAll creations) (some p) (some q) = some (decide (creations[p].bytes = creations[q].bytes)) := by
  intro h
  have hanswer := h [⟨['\x00', 'a'], 2, by decide⟩, ⟨['\x00', 'b'], 2, by decide⟩] 0 1
  exact absurd hanswer (by decide)

end Xvr.Runtime.RefStrings
