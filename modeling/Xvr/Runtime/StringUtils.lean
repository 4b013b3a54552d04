/-
  Xvr.Runtime.StringUtils — the length of a C string up to a maximum (`xvr_string_utils.cpp`).

  Proved:
  - `safeStrlen_region`, `safeStrlen_cstring`: the length of the text, if it is no more than the
    maximum.
  - `safeStrlen_plain`: there is no NUL in it.
-/

import Xvr.Lib.CStrings

namespace Xvr.Runtime

open Xvr.Lib.CStrings

/-- `xvr_safe_strlen`. The byte at `max_len` is read before the bound is asked for. -/
def safeStrlen : List Char → Nat → Option Nat
  | [], _ => none
  | c :: memory, maxLen =>
    if c ≠ nul ∧ 0 < maxLen then (safeStrlen memory (maxLen - 1)).map (· + 1) else some 0

/-- Nothing behind the NUL is read. -/
theorem safeStrlen_region {text : List Char} (h : nul ∉ text) (rest : List Char) (maxLen : Nat) :
    safeStrlen (text ++ nul :: rest) maxLen = some (min text.length maxLen) := by
  induction text generalizing maxLen with
  | nil => simp [safeStrlen]
  | cons c text ih =>
    have hc : c ≠ nul := fun heq => h (heq ▸ List.mem_cons_self)
    cases maxLen with
    | zero => simp [safeStrlen]
    | succ maxLen =>
      have hrest := ih (fun hm => h (List.mem_cons_of_mem c hm)) maxLen
      simp [safeStrlen, hc, hrest, Nat.succ_min_succ]

theorem safeStrlen_cstring (s : CString) (maxLen : Nat) :
    safeStrlen s.memory maxLen = some (min s.text.length maxLen) := safeStrlen_region s.plain [] maxLen

/-- What is counted has no NUL. -/
theorem safeStrlen_plain {memory : List Char} {maxLen len : Nat} (h : safeStrlen memory maxLen = some len) :
    nul ∉ memory.take len := by
  induction memory generalizing maxLen len with
  | nil => cases h
  | cons c memory ih =>
    rw [safeStrlen] at h
    by_cases hc : c ≠ nul ∧ 0 < maxLen
    · rw [if_pos hc] at h
      obtain ⟨rest, hrest, rfl⟩ := Option.map_eq_some_iff.mp h
      rw [List.take_succ_cons, List.mem_cons, not_or]
      exact ⟨Ne.symm hc.1, ih hrest⟩
    · rw [if_neg hc] at h
      cases h
      simp

end Xvr.Runtime
