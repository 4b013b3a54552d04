/-
  Xvr.Format.FormatString — from `{}` placeholders to `printf` conversions: the two passes
  of `XvrFormatStringParse`, the rewriting of `XvrFormatStringBuildPrintfFormat`, and the
  format `emit_printf` hands to `printf`.

  A C string is the list of its characters before the NUL. `none` is an access outside an
  array.
-/

import Xvr.Backend.Types

namespace Xvr.Format

def maxPlaceholders : Nat := 64

/-- The bound every length is read with. -/
def maxFormat : Nat := 4096

inductive ArgType where
  | int | float | double | string | pointer | bool | array
  deriving DecidableEq, Repr

structure Placeholder where
  position : Nat
  type : ArgType
  deriving DecidableEq, Repr

structure FormatString where
  printfFormat : Option (List Char)
  placeholders : List Placeholder
  argCount : Nat
  isValid : Bool
  errorMessage : Option String
  deriving DecidableEq, Repr

def safeStrlen (str : List Char) (maxLen : Nat) : Nat := min str.length maxLen

def formatTypeToPrintf : ArgType → List Char
  | .int => ['%', 'd']
  | .float | .double => ['%', 'l', 'f']
  | .string => ['%', 's']
  | .pointer => ['%', 'p']
  | .bool => ['%', 's']
  | .array => []

def inferTypeFromFormatChar (c : Char) : ArgType :=
  if c ∈ ['d', 'i', 'u', 'o', 'x', 'X'] then .int
  else if c ∈ ['f', 'F', 'e', 'E', 'g', 'G'] then .double
  else if c = 's' then .string
  else if c = 'p' then .pointer
  else .int

def skipEscapedBrace : List Char → List Char
  | '{' :: '{' :: p => p
  | '}' :: '}' :: p => p
  | p => p

/-- What stands behind the first `}`. -/
def behindBrace : List Char → Option (List Char)
  | [] => none
  | '}' :: p => some p
  | _ :: p => behindBrace p

theorem skipEscapedBrace_length (p : List Char) : (skipEscapedBrace p).length ≤ p.length := by
  unfold skipEscapedBrace
  split
  · simp only [List.length_cons]
    omega
  · simp only [List.length_cons]
    omega
  · exact Nat.le_refl _

theorem behindBrace_length {start rest : List Char} (h : behindBrace start = some rest) :
    rest.length < start.length := by
  induction start with
  | nil => cases h
  | cons c start ih =>
    rw [List.length_cons]
    by_cases hc : c = '}'
    · subst hc
      cases h
      exact Nat.lt_succ_self _
    · have hrest : behindBrace start = some rest := by simpa only [behindBrace, hc] using h
      have hlt := ih hrest
      omega

/-! ## The first pass -/

/-- The type of a placeholder whose content starts at `start`. Only `{:spec}` has a type of
    its own; a number is read but the position is overwritten. -/
def placeholderType : List Char → ArgType
  | ':' :: c :: _ =>
    if c = 'd' ∨ c = 'i' then .int
    else if c = 'f' ∨ c = 'F' then .double
    else if c = 's' then .string
    else if c = 'p' then .pointer
    else if c = 'b' then .bool
    else inferTypeFromFormatChar c
  | _ => .int

inductive FirstPass where
  | placeholders (found : List Placeholder)
  | malformed
  | outside
  deriving DecidableEq, Repr

/-- Counts the placeholders. The position is never advanced, so only the NUL ends the loop;
    an escape is skipped without looking for the NUL again. -/
def firstPass (p : List Char) (found : List Placeholder) : FirstPass :=
  if p = [] then .placeholders found
  else
    match _ : skipEscapedBrace p with
    | [] => .outside
    | '{' :: start =>
      match _ : behindBrace start with
      | none => .malformed
      | some rest =>
        if maxPlaceholders ≤ found.length then .outside
        else firstPass rest (found ++ [⟨found.length, placeholderType start⟩])
    | _ :: rest => firstPass rest found
  termination_by p.length
  decreasing_by
    · have hle := skipEscapedBrace_length p
      have hlt := behindBrace_length ‹_›
      rw [‹skipEscapedBrace p = _›, List.length_cons] at hle
      omega
    · have hle := skipEscapedBrace_length p
      rw [‹skipEscapedBrace p = _›, List.length_cons] at hle
      omega

/-! ## The second pass -/

/-- The printf format so far, and the room left for it. -/
structure Output where
  result : List Char
  remaining : Nat
  deriving DecidableEq, Repr

namespace Output

/-- One character, if there is room for it and the NUL. -/
def put (out : Output) (c : Char) : Output :=
  if 1 < out.remaining then ⟨out.result ++ [c], out.remaining - 1⟩ else out

/-- The two characters of an escape; with room for exactly two the NUL falls outside. -/
def putEscape (out : Output) (c d : Char) : Option Output :=
  if 1 < out.remaining then
    if out.remaining = 2 then none else some ⟨out.result ++ [c, d], out.remaining - 2⟩
  else some out

/-- `{:spec}`: all that stands behind the colon, to the end of the string. -/
def putSpec (out : Output) (spec : List Char) : Output :=
  if safeStrlen spec 32 < 32 ∧ safeStrlen spec 32 + 2 < out.remaining then
    ⟨out.result ++ '%' :: spec, out.remaining - 1 - spec.length⟩
  else out

def putReplacement (out : Output) (replacement : List Char) : Output :=
  if replacement.length < out.remaining then
    ⟨out.result ++ replacement, out.remaining - replacement.length⟩
  else out

end Output

/-- The type the first pass left for a placeholder; the array is cleared at first. -/
def typeAt (found : List Placeholder) (count : Nat) : Option ArgType :=
  if maxPlaceholders ≤ count then none else some ((found[count]?.map (·.type)).getD .int)

def putPlaceholder (found : List Placeholder) (count : Nat) (start : List Char) (out : Output) : Option Output :=
  match start with
  | ':' :: spec => some (out.putSpec spec)
  | _ => (typeAt found count).map fun type => out.putReplacement (formatTypeToPrintf type)

/-- Writes the printf format. Only an escape advances the position. -/
def secondPass (fmtLen : Nat) (found : List Placeholder) (p : List Char) (pos count : Nat) (out : Output) :
    Option Output :=
  if fmtLen ≤ pos then some out
  else
    match p with
    | [] => some out
    | '{' :: '{' :: rest =>
      match out.putEscape '{' '}' with
      | none => none
      | some out => secondPass fmtLen found rest (pos + 2) count out
    | '}' :: '}' :: rest =>
      match out.putEscape '}' '}' with
      | none => none
      | some out => secondPass fmtLen found rest (pos + 2) count out
    | '{' :: start =>
      match _ : behindBrace start with
      | none => secondPass fmtLen found start pos count (out.put '{')
      | some rest =>
        match putPlaceholder found count start out with
        | none => none
        | some out => secondPass fmtLen found rest pos (count + 1) out
    | c :: rest => secondPass fmtLen found rest pos count (out.put c)
  termination_by p.length
  decreasing_by
    · simp only [List.length_cons]
      omega
    · simp only [List.length_cons]
      omega
    · simp only [List.length_cons]
      omega
    · have hlt := behindBrace_length ‹_›
      rw [List.length_cons]
      omega
    · simp only [List.length_cons]
      omega

def countMessage (placeholderCount argCount : Nat) : String :=
  s!"Format string has {placeholderCount} placeholders but {argCount} arguments provided"

def formatStringParse (formatStr : List Char) (argCount : Nat) : Option FormatString :=
  match firstPass formatStr [] with
  | .outside => none
  | .malformed => some ⟨none, [], 0, false, some "Malformed format placeholder"⟩
  | .placeholders found =>
    if argCount ≠ found.length then some ⟨none, found, argCount, false, some (countMessage found.length argCount)⟩
    else
      let fmtLen := safeStrlen formatStr maxFormat
      (secondPass fmtLen found formatStr 0 0 ⟨[], fmtLen * 2 + 1⟩).map fun out =>
        ⟨some out.result, found, argCount, true, none⟩

/-! ## The printf format of the arguments -/

def isSpecLetter (c : Char) : Bool :=
  c ∈ ['d', 'i', 'u', 'o', 'x', 'X', 'f', 'F', 'e', 'E', 'g', 'G', 'c', 's', 'p', 'n']

/-- The characters up to the first conversion letter, and those behind it. -/
def specSpan : List Char → Option (List Char × List Char)
  | [] => none
  | c :: src =>
    if isSpecLetter c then some ([c], src) else (specSpan src).map fun (span, rest) => (c :: span, rest)

theorem specSpan_eq {src span rest : List Char} (h : specSpan src = some (span, rest)) : src = span ++ rest := by
  induction src generalizing span with
  | nil => cases h
  | cons c src ih =>
    rw [specSpan] at h
    split at h
    · cases h
      rfl
    · obtain ⟨⟨span, _⟩, hspan, heq⟩ := Option.map_eq_some_iff.mp h
      cases heq
      rw [ih hspan, List.cons_append]

/-- What stands for a conversion of the source format. -/
def argSpec (argTypes : List ArgType) (placeholderIdx : Nat) (span : List Char) : List Char :=
  match argTypes[placeholderIdx]? with
  | some type => if type ≠ .int then formatTypeToPrintf type else span
  | none => span

/-- Appends when there is room. -/
def putSpan (resultSize : Nat) (result span : List Char) : List Char :=
  if result.length + span.length < resultSize then result ++ span else result

def buildLoop (resultSize : Nat) (argTypes : List ArgType) (placeholderIdx : Nat) (result : List Char)
    (src : List Char) : List Char :=
  match src with
  | [] => result
  | ['%'] => result ++ ['%']
  | '%' :: '%' :: rest => buildLoop resultSize argTypes placeholderIdx (result ++ ['%', '%']) rest
  | '%' :: spec =>
    match hspan : specSpan spec with
    | none => result ++ ['%']
    | some (span, rest) =>
      buildLoop resultSize argTypes (placeholderIdx + 1)
        (putSpan resultSize result (argSpec argTypes placeholderIdx ('%' :: span))) rest
  | c :: rest => buildLoop resultSize argTypes placeholderIdx (result ++ [c]) rest
  termination_by src.length
  decreasing_by
    · simp only [List.length_cons]
      omega
    · rw [specSpan_eq hspan, List.length_cons, List.length_append]
      omega
    · simp only [List.length_cons]
      omega

def formatStringBuildPrintfFormat (fmt : FormatString) (argTypes : List ArgType) : Option (List Char) :=
  if fmt.isValid = false then none
  else
    match fmt.printfFormat with
    | none => some []
    | some src =>
      let srcLen := safeStrlen src maxFormat
      some (buildLoop (srcLen * 2 + 1) argTypes 0 [] (src.take srcLen))

/-! ## The format of a print call -/

def arrayArgument : String :=
  "print: cannot use array with format string. " ++
  "Use std::print(array) without format string, or " ++
  "print elements individually"

open Backend (LlvmType) in
/-- The argument type `emit_printf` takes a value of an LLVM type for. -/
def argTypeOf : LlvmType → ArgType
  | .integer _ => .int
  | .float => .float
  | .double => .double
  | .array _ _ => .array
  | _ => .string

/-- What `emit_printf` passes to `printf` for a string literal and arguments of these types:
    the format string itself when there are none. -/
def printedFormat (formatStr : List Char) (argTypes : List Backend.LlvmType) : Option (Except String (List Char)) :=
  if argTypes = [] then some (.ok formatStr)
  else
    match formatStringParse formatStr argTypes.length with
    | none => none
    | some fmt =>
      if fmt.isValid then
        if .array ∈ argTypes.map argTypeOf then some (.error arrayArgument)
        else (formatStringBuildPrintfFormat fmt (argTypes.map argTypeOf)).map .ok
      else some (.ok ['%', 's'])

end Xvr.Format
