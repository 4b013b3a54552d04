/-
  Xvr.Compiler.OutputNames — what the output file is called (`main_compiler.c`).

  A path is the characters in front of its NUL; a pointer is the memory from there on, or NULL.
  The name behind the last slash is found by moving a pointer, but the length counted from the
  start of the path stays as it was, and the extension is looked for and the name copied by it.

  Proved:
  - `copied_length`: the name has no fewer characters than the path, but for an extension.
  - `output_names_iff`: the names are right exactly when the path has no slash.
-/

import Xvr.Lib.CStrings
import Mathlib.Data.List.DropRight

namespace Xvr.Compiler

open Xvr.Lib.CStrings

/-- The memory a pointer leads to, or NULL. -/
abbrev Pointer := Option (List Char)

/-- The loop that looks for a slash from so many characters on downwards. -/
def findBase (path : List Char) : Nat → Option (Option Nat)
  | 0 => some none
  | i + 1 => do
    if (← path[i]?) = '/' then return some (i + 1)
    findBase path i

/-- The loop that compares with the extension from a position on. -/
def extensionAt (base : List Char) (pos : Nat) : List Char → Option Bool
  | [] => some true
  | c :: ext => do
    if (← base[pos]?) ≠ c then return false
    extensionAt base (pos + 1) ext

/-- The loop that copies so many characters. -/
def copyChars : List Char → Nat → Option (List Char)
  | _, 0 => some []
  | [], _ + 1 => none
  | c :: memory, n + 1 => (copyChars memory n).map (c :: ·)

/-- The extension that is left out. -/
def sourceExtension : List Char := ['.', 'x', 'v', 'r']

/-- What `get_filename_without_ext` does from the base it has found. -/
def nameAt (base : List Char) (pathLen : Nat) (allocated : Bool) : Option Pointer := do
  if pathLen < 4 then return none
  let pathLen := if ← extensionAt base (pathLen - 4) sourceExtension then pathLen - 4 else pathLen
  if !allocated then return none
  return some ((← copyChars base pathLen) ++ [nul])

/-- `get_filename_without_ext`; `none` when it reads behind the path's memory. Its `malloc`
    may fail. -/
def getFilenameWithoutExt (path : Pointer) (allocated : Bool) : Option Pointer := do
  let some path := path | return none
  let pathLen ← strlen path
  match ← findBase path pathLen with
  -- the length is still that of the whole path
  | some i => nameAt (path.drop i) pathLen allocated
  | none => nameAt path (← strlen path) allocated

/-- `build_output_filename`, with what each `malloc` answers. -/
def buildOutputFilename (sourceFile extension : Pointer) (allocated : Bool × Bool) : Option Pointer := do
  let some base ← getFilenameWithoutExt sourceFile allocated.1 | return none
  let some extension := extension | return some base
  let baseLen ← strlen base
  let extLen ← strlen extension
  if !allocated.2 then return none
  return some ((← copyChars base baseLen) ++ (← copyChars extension extLen) ++ [nul])

/-! ## Names -/

/-- What is behind the last slash. -/
def lastComponent (path : List Char) : List Char := path.rtakeWhile (· != '/')

/-- What is in front of the last dot, if there is one. -/
def withoutExtension (name : List Char) : List Char :=
  if '.' ∈ name then (name.rdropWhile (· != '.')).dropLast else name

theorem lastComponent_plain {path : List Char} (h : '/' ∉ path) : lastComponent path = path := by
  rw [lastComponent, List.rtakeWhile_eq_self_iff]
  intro c hc
  simpa using fun heq : c = '/' => h (heq ▸ hc)

theorem lastComponent_slash (dirs : List Char) {name : List Char} (h : '/' ∉ name) :
    lastComponent (dirs ++ '/' :: name) = name := by
  have hname (c : Char) (hc : c ∈ name.reverse) : (c != '/') = true := by
    simpa using fun heq : c = '/' => h (heq ▸ List.mem_reverse.mp hc)
  simp [lastComponent, List.rtakeWhile, List.takeWhile_append_of_pos hname]

theorem withoutExtension_source (stem : List Char) : withoutExtension (stem ++ sourceExtension) = stem := by
  have hdot : '.' ∈ stem ++ sourceExtension := by simp [sourceExtension]
  rw [withoutExtension, if_pos hdot]
  simp [sourceExtension, List.rdropWhile]

/-- A path with a slash is cut at the last one. -/
theorem slash_split {path : List Char} (h : '/' ∈ path) :
    ∃ dirs name, path = dirs ++ '/' :: name ∧ '/' ∉ name := by
  induction path with
  | nil => cases h
  | cons c path ih =>
    by_cases hrest : '/' ∈ path
    · obtain ⟨dirs, name, rfl, hname⟩ := ih hrest
      exact ⟨c :: dirs, name, rfl, hname⟩
    · rcases List.mem_cons.mp h with rfl | hmem
      · exact ⟨[], path, rfl, hrest⟩
      · exact absurd hmem hrest

/-- What ends in the extension does so behind its last slash. -/
theorem extension_of_component {dirs name : List Char} (h : sourceExtension <:+ dirs ++ '/' :: name) :
    sourceExtension <:+ name := by
  have hslash : '/' ∉ sourceExtension := by decide
  rcases List.suffix_or_suffix_of_suffix h (List.suffix_append dirs ('/' :: name)) with hext | hname
  · rcases List.suffix_cons_iff.mp hext with heq | hext
    · exact absurd (heq ▸ List.mem_cons_self) hslash
    · exact hext
  · exact absurd (hname.subset List.mem_cons_self) hslash

/-! ## Loops -/

theorem findBase_plain {path : List Char} (h : '/' ∉ path) {n : Nat} (hn : n ≤ path.length) :
    findBase path n = some none := by
  induction n with
  | zero => rfl
  | succ n ih =>
    have hne : path[n] ≠ '/' := fun heq => h (heq ▸ List.getElem_mem (by omega))
    simp [findBase, List.getElem?_eq_getElem (show n < path.length by omega), hne, ih (by omega)]

theorem extensionAt_append (stem ext rest : List Char) :
    extensionAt (stem ++ ext ++ rest) stem.length ext = some true := by
  induction ext generalizing stem with
  | nil => rfl
  | cons c ext ih =>
    have hrest := ih (stem ++ [c])
    simp only [List.append_assoc, List.cons_append, List.nil_append, List.length_append, List.length_cons,
      List.length_nil, Nat.zero_add] at hrest
    simp [extensionAt, hrest]

@[simp] theorem copyChars_append (text rest : List Char) : copyChars (text ++ rest) text.length = some text := by
  induction text with
  | nil => simp [copyChars]
  | cons c text ih => simp [copyChars, ih]

theorem copyChars_length {memory copied : List Char} {n : Nat} (h : copyChars memory n = some copied) :
    copied.length = n := by
  induction n generalizing memory copied with
  | zero =>
    cases memory <;> cases h <;> rfl
  | succ n ih =>
    cases memory with
    | nil => cases h
    | cons c memory =>
      obtain ⟨rest, hrest, rfl⟩ := Option.map_eq_some_iff.mp h
      simp [ih hrest]

/-! ## The names -/

section

variable {path : CString}

theorem filename_plain {stem : List Char} (h : '/' ∉ path.text) (htext : path.text = stem ++ sourceExtension) :
    getFilenameWithoutExt (some path.memory) true = some (some (stem ++ [nul])) := by
  have hslash : '/' ∉ path.memory := by
    rw [CString.memory, List.mem_append, not_or]
    exact ⟨h, by decide⟩
  have hnone : findBase path.memory path.text.length = some none := findBase_plain hslash (by simp [CString.memory])
  have hmemory : path.memory = stem ++ sourceExtension ++ [nul] := by rw [CString.memory, htext]
  have hlen : path.text.length = stem.length + 4 := by simp [htext, sourceExtension]
  have hext : extensionAt path.memory stem.length sourceExtension = some true := by
    rw [hmemory]
    exact extensionAt_append stem sourceExtension [nul]
  have hcopy : copyChars path.memory stem.length = some stem := by
    rw [hmemory, List.append_assoc]
    exact copyChars_append stem _
  rw [hlen] at hnone
  simp [getFilenameWithoutExt, nameAt, strlen_cstring, hlen, hnone, hext, hcopy]

theorem nameAt_length {base name : List Char} {pathLen : Nat} {allocated : Bool}
    (h : nameAt base pathLen allocated = some (some name)) : pathLen ≤ name.length + 3 := by
  unfold nameAt at h
  by_cases hshort : pathLen < 4
  · rw [if_pos hshort] at h
    cases h
  rw [if_neg hshort] at h
  obtain ⟨found, -, h⟩ := Option.bind_eq_some_iff.mp h
  cases allocated with
  | false => cases h
  | true =>
    obtain ⟨copied, hcopied, h⟩ := Option.bind_eq_some_iff.mp h
    cases h
    have hlen := copyChars_length hcopied
    cases found <;> simp at hlen ⊢ <;> omega

/-- With directories in front or without, the name is as long as the path, but for an extension. -/
theorem copied_length {name : List Char} {allocated : Bool}
    (h : getFilenameWithoutExt (some path.memory) allocated = some (some name)) :
    path.text.length ≤ name.length + 3 := by
  simp only [getFilenameWithoutExt, strlen_cstring, Option.bind_eq_bind, Option.bind_some] at h
  obtain ⟨base, -, h⟩ := Option.bind_eq_some_iff.mp h
  cases base <;> exact nameAt_length h

theorem output_plain {stem : List Char} (extension : Option CString) (h : '/' ∉ path.text)
    (htext : path.text = stem ++ sourceExtension) :
    buildOutputFilename (some path.memory) (extension.map CString.memory) (true, true) =
      some (some (stem ++ extension.elim [] CString.text ++ [nul])) := by
  have hname := filename_plain h htext
  have hplain : nul ∉ stem := fun hmem => path.plain (htext ▸ List.mem_append_left _ hmem)
  have hbase : strlen (stem ++ [nul]) = some stem.length := strlen_cstring ⟨stem, hplain⟩
  cases extension with
  | none => simp [buildOutputFilename, hname]
  | some extension =>
    have hcopy : copyChars extension.memory extension.text.length = some extension.text := copyChars_append _ _
    simp [buildOutputFilename, hname, hbase, hcopy]

end

/-- The name is the last component without its extension, and what is built of it has the given
    extension behind it. Nothing outside the path is read. -/
def NamesRight (path : CString) : Prop :=
  getFilenameWithoutExt (some path.memory) true = some (some (withoutExtension (lastComponent path.text) ++ [nul])) ∧
    ∀ extension : Option CString,
      buildOutputFilename (some path.memory) (extension.map CString.memory) (true, true) =
        some (some (withoutExtension (lastComponent path.text) ++ extension.elim [] CString.text ++ [nul]))

/-- Of the paths that end in the extension, those without a slash. -/
theorem output_names_iff (path : CString) (hext : sourceExtension <:+ path.text) :
    NamesRight path ↔ '/' ∉ path.text := by
  obtain ⟨stem, htext⟩ := hext
  constructor
  · rintro ⟨hname, -⟩ hslash
    obtain ⟨dirs, name, hsplit, hplain⟩ := slash_split hslash
    have hlen := copied_length hname
    have hboth : sourceExtension <:+ dirs ++ '/' :: name := ⟨stem, by rw [htext, hsplit]⟩
    obtain ⟨base, rfl⟩ := extension_of_component hboth
    rw [hsplit, lastComponent_slash dirs hplain, withoutExtension_source] at hlen
    simp [sourceExtension] at hlen
    omega
  · intro h
    have hstem : withoutExtension (lastComponent path.text) = stem := by
      rw [lastComponent_plain h, ← htext, withoutExtension_source]
    rw [NamesRight, hstem]
    exact ⟨filename_plain h htext.symm, fun extension => output_plain extension h htext.symm⟩

/-- `main.v2.xvr`. -/
def dottedPath : CString := ⟨['m', 'a', 'i', 'n', '.', 'v', '2', '.', 'x', 'v', 'r'], by decide⟩

theorem output_names_dotted : NamesRight dottedPath :=
  (output_names_iff dottedPath ⟨['m', 'a', 'i', 'n', '.', 'v', '2'], rfl⟩).mpr (by decide)

/-- `lib/io.xvr`, of which ten characters are copied from the fifth on. -/
def nestedPath : CString := ⟨['l', 'i', 'b', '/', 'i', 'o', '.', 'x', 'v', 'r'], by decide⟩

theorem directory_read_outside : ¬ ∀ path : CString, sourceExtension <:+ path.text → NamesRight path := by
  intro h
  exact absurd (h nestedPath ⟨['l', 'i', 'b', '/', 'i', 'o'], rfl⟩).1 (by decide)

end Xvr.Compiler
