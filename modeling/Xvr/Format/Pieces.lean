/-
  Xvr.Format.Pieces — a print format as its author reads it: a character, an escaped brace,
  a placeholder.

  Proved:
  - `pieces_reads`: what the pieces of a format can be.
  - `reads_length`: the room the pieces take in the format.
-/

import Xvr.Format.FormatString

namespace Xvr.Format

/-! ## The source format -/

inductive Piece where
  | text (c : Char)
  | openBrace
  | closeBrace
  | placeholder (content : List Char)
  deriving DecidableEq, Repr

/-- The first piece of a format, and the format behind it. -/
def nextPiece : List Char → Option (Piece × List Char)
  | [] => none
  | '{' :: '{' :: rest => some (.openBrace, rest)
  | '}' :: '}' :: rest => some (.closeBrace, rest)
  | '{' :: start => (behindBrace start).map fun rest => (.placeholder (start.takeWhile (· ≠ '}')), rest)
  | c :: rest => some (.text c, rest)

/-- A format and its pieces. -/
inductive Reads : List Char → List Piece → Prop where
  | nil : Reads [] []
  | openBrace {rest : List Char} {ps : List Piece} (h : Reads rest ps) :
      Reads ('{' :: '{' :: rest) (.openBrace :: ps)
  | closeBrace {rest : List Char} {ps : List Piece} (h : Reads rest ps) :
      Reads ('}' :: '}' :: rest) (.closeBrace :: ps)
  | placeholder {content rest : List Char} {ps : List Piece} (hopen : content.head? ≠ some '{')
      (hclose : '}' ∉ content) (h : Reads rest ps) :
      Reads ('{' :: (content ++ '}' :: rest)) (.placeholder content :: ps)
  | text {c : Char} {rest : List Char} {ps : List Piece} (hopen : c ≠ '{')
      (hclose : c = '}' → rest.head? ≠ some '}') (h : Reads rest ps) : Reads (c :: rest) (.text c :: ps)

theorem behindBrace_append {content : List Char} (h : '}' ∉ content) (rest : List Char) :
    behindBrace (content ++ '}' :: rest) = some rest := by
  induction content with
  | nil => rfl
  | cons c content ih =>
    have hc : c ≠ '}' := fun heq => h (heq ▸ List.mem_cons_self)
    rw [List.cons_append]
    simpa only [behindBrace, hc] using ih fun hmem => h (List.mem_cons_of_mem _ hmem)

theorem behindBrace_split {start rest : List Char} (h : behindBrace start = some rest) :
    start = start.takeWhile (· ≠ '}') ++ '}' :: rest ∧ '}' ∉ start.takeWhile (· ≠ '}') := by
  induction start with
  | nil => cases h
  | cons c start ih =>
    by_cases hc : c = '}'
    · subst hc
      cases h
      simp
    · have hrest : behindBrace start = some rest := by simpa only [behindBrace, hc] using h
      obtain ⟨hsplit, hmem⟩ := ih hrest
      have htake : (c :: start).takeWhile (· ≠ '}') = c :: start.takeWhile (· ≠ '}') := by simp [hc]
      rw [htake]
      refine ⟨?_, ?_⟩
      · rw [List.cons_append, ← hsplit]
      · intro hin
        cases hin with
        | head => exact hc rfl
        | tail _ hin => exact hmem hin

/-- What the first piece of a format can be. -/
theorem reads_cons {p rest : List Char} {piece : Piece} {ps : List Piece} (hnext : nextPiece p = some (piece, rest))
    (h : Reads rest ps) : Reads p (piece :: ps) := by
  unfold nextPiece at hnext
  split at hnext
  · cases hnext
  · cases hnext
    exact .openBrace h
  · cases hnext
    exact .closeBrace h
  · rename_i start hopen
    obtain ⟨rest, hrest, heq⟩ := Option.map_eq_some_iff.mp hnext
    cases heq
    obtain ⟨hsplit, hmem⟩ := behindBrace_split hrest
    have hhead : (start.takeWhile (· ≠ '}')).head? ≠ some '{' := by
      intro hhead
      cases start with
      | nil => cases hhead
      | cons c start =>
        by_cases hc : c = '}'
        · simp [hc] at hhead
        · simp only [ne_eq, hc, not_false_eq_true, decide_true, List.takeWhile_cons_of_pos, List.head?_cons,
            Option.some.injEq] at hhead
          exact hopen start (by rw [hhead])
    have hreads := Reads.placeholder hhead hmem h
    rwa [← hsplit] at hreads
  · rename_i c rest' _ hclose hopen
    cases hnext
    refine .text (fun hc => hopen hc) (fun hc hhead => ?_) h
    cases rest with
    | nil => cases hhead
    | cons d rest =>
      cases hhead
      exact hclose rest hc rfl

theorem nextPiece_length {p rest : List Char} {piece : Piece} (h : nextPiece p = some (piece, rest)) :
    rest.length < p.length := by
  unfold nextPiece at h
  split at h
  · cases h
  · cases h
    simp only [List.length_cons]
    omega
  · cases h
    simp only [List.length_cons]
    omega
  · obtain ⟨rest, hrest, heq⟩ := Option.map_eq_some_iff.mp h
    cases heq
    have hlt := behindBrace_length hrest
    rw [List.length_cons]
    omega
  · cases h
    exact Nat.lt_succ_self _

/-- The pieces of a format; `none` when a brace is never closed. -/
def pieces (p : List Char) : Option (List Piece) :=
  if p = [] then some []
  else
    match _ : nextPiece p with
    | none => none
    | some (piece, rest) => (pieces rest).map (piece :: ·)
  termination_by p.length
  decreasing_by exact nextPiece_length ‹_›

theorem pieces_reads {p : List Char} {ps : List Piece} (h : pieces p = some ps) : Reads p ps := by
  fun_induction pieces p generalizing ps with
  | case1 =>
    cases h
    exact .nil
  | case2 => cases h
  | case3 p _ piece rest hnext ih =>
    obtain ⟨ps, hps, rfl⟩ := Option.map_eq_some_iff.mp h
    exact reads_cons hnext (ih hps)

/-- The literal text of a format. -/
def literalText : List Piece → List Char
  | [] => []
  | .text c :: ps => c :: literalText ps
  | .openBrace :: ps => '{' :: literalText ps
  | .closeBrace :: ps => '}' :: literalText ps
  | .placeholder _ :: ps => literalText ps

def placeholders (ps : List Piece) : Nat :=
  ps.countP fun piece => piece matches .placeholder _

def braces (ps : List Piece) : Nat :=
  ps.countP fun piece => piece matches .openBrace | .closeBrace

theorem braces_text (c : Char) (ps : List Piece) : braces (.text c :: ps) = braces ps := rfl

theorem braces_placeholder (content : List Char) (ps : List Piece) :
    braces (.placeholder content :: ps) = braces ps := rfl

theorem braces_openBrace (ps : List Piece) : braces (.openBrace :: ps) = braces ps + 1 := List.countP_cons_of_pos rfl

theorem braces_closeBrace (ps : List Piece) : braces (.closeBrace :: ps) = braces ps + 1 := List.countP_cons_of_pos rfl

theorem placeholders_placeholder (content : List Char) (ps : List Piece) :
    placeholders (.placeholder content :: ps) = placeholders ps + 1 := List.countP_cons_of_pos rfl

/-! ## Plain pieces -/

def Piece.isPlain : Piece → Bool
  | .text c => c != '%'
  | .openBrace | .closeBrace => false
  | .placeholder content => content.head? != some ':'

theorem plain_pieces {ps : List Piece} :
    ps.all Piece.isPlain = true ↔
      (∀ c, .text c ∈ ps → c ≠ '%') ∧ (∀ content, .placeholder content ∈ ps → content.head? ≠ some ':') ∧
        braces ps = 0 := by
  induction ps with
  | nil => exact ⟨fun _ => ⟨nofun, nofun, rfl⟩, fun _ => rfl⟩
  | cons piece ps ih =>
    rw [List.all_cons, Bool.and_eq_true, ih]
    cases piece with
    | text c => simp [Piece.isPlain, braces_text, and_assoc]
    | openBrace => simp [Piece.isPlain, braces_openBrace]
    | closeBrace => simp [Piece.isPlain, braces_closeBrace]
    | placeholder content => simp [Piece.isPlain, braces_placeholder]; tauto

theorem reads_spec {p : List Char} {ps : List Piece} (h : Reads p ps) (hspec : ¬ ['{', ':'] <:+: p) :
    ∀ content, .placeholder content ∈ ps → content.head? ≠ some ':' := by
  induction h with
  | nil => intro content hmem; cases hmem
  | openBrace h ih =>
    intro content hmem
    cases hmem with
    | tail _ hmem => exact ih (fun hin => hspec (hin.trans ⟨['{', '{'], [], by simp⟩)) content hmem
  | closeBrace h ih =>
    intro content hmem
    cases hmem with
    | tail _ hmem => exact ih (fun hin => hspec (hin.trans ⟨['}', '}'], [], by simp⟩)) content hmem
  | @placeholder content rest ps hopen hclose h ih =>
    intro content' hmem
    cases hmem with
    | head =>
      intro hhead
      cases content with
      | nil => cases hhead
      | cons c content =>
        cases hhead
        exact hspec ⟨[], content ++ '}' :: rest, rfl⟩
    | tail _ hmem =>
      exact ih (fun hin => hspec (hin.trans ⟨'{' :: (content ++ ['}']), [], by simp⟩)) content' hmem
  | @text c rest ps hopen hclose h ih =>
    intro content hmem
    cases hmem with
    | tail _ hmem => exact ih (fun hin => hspec (hin.trans ⟨[c], [], by simp⟩)) content hmem

/-- Text without a `%` and nothing else. -/
def Piece.isQuiet : Piece → Bool
  | .text c => c != '%'
  | _ => false

theorem reads_quiet {p : List Char} {ps : List Piece} (h : Reads p ps) (hbraces : braces ps = 0)
    (hplaceholders : placeholders ps = 0) : p = literalText ps := by
  induction h with
  | nil => rfl
  | openBrace => rw [braces_openBrace] at hbraces; cases hbraces
  | closeBrace => rw [braces_closeBrace] at hbraces; cases hbraces
  | placeholder => rw [placeholders_placeholder] at hplaceholders; cases hplaceholders
  | text _ _ h ih => exact congrArg _ (ih hbraces hplaceholders)

theorem quiet_pieces {ps : List Piece} :
    ps.all Piece.isQuiet = true ↔ '%' ∉ literalText ps ∧ braces ps = 0 ∧ placeholders ps = 0 := by
  induction ps with
  | nil => exact ⟨fun _ => ⟨nofun, rfl, rfl⟩, fun _ => rfl⟩
  | cons piece ps ih =>
    rw [List.all_cons, Bool.and_eq_true, ih]
    cases piece with
    | text c =>
      have hskip : placeholders (.text c :: ps) = placeholders ps := rfl
      rw [hskip, braces_text, literalText]
      rw [Piece.isQuiet, bne_iff_ne, List.mem_cons, not_or, ne_comm, and_assoc]
    | openBrace => simp [Piece.isQuiet, braces_openBrace]
    | closeBrace => simp [Piece.isQuiet, braces_closeBrace]
    | placeholder content => simp [Piece.isQuiet, placeholders_placeholder]

/-! ## Converted pieces -/

/-- The printf format of the pieces before the argument types are known. -/
def converted : List Piece → List Char
  | [] => []
  | .text c :: ps => c :: converted ps
  | .openBrace :: ps => '{' :: '}' :: converted ps
  | .closeBrace :: ps => '}' :: '}' :: converted ps
  | .placeholder _ :: ps => '%' :: 'd' :: converted ps

theorem converted_length {p : List Char} {ps : List Piece} (h : Reads p ps) : (converted ps).length ≤ p.length := by
  induction h with
  | nil => exact Nat.le_refl _
  | openBrace h ih | closeBrace h ih | text _ _ h ih =>
    simp only [converted, List.length_cons]
    omega
  | placeholder _ _ h ih =>
    simp only [converted, List.length_cons, List.length_append]
    omega

theorem count_converted (ps : List Piece) :
    (converted ps).count '%' = (literalText ps).count '%' + placeholders ps := by
  induction ps with
  | nil => rfl
  | cons piece ps ih =>
    cases piece with
    | text c =>
      have hskip : placeholders (.text c :: ps) = placeholders ps := rfl
      rw [converted, literalText, hskip, List.count_cons, List.count_cons, ih]
      omega
    | openBrace => exact ih
    | closeBrace => exact ih
    | placeholder content =>
      rw [converted, literalText, placeholders_placeholder, List.count_cons_self,
        List.count_cons_of_ne (by decide), ih]
      rfl

theorem text_ne_percent {ps : List Piece} (h : (literalText ps).count '%' = 0) : ∀ c, .text c ∈ ps → c ≠ '%' := by
  induction ps with
  | nil => intro c hmem; cases hmem
  | cons piece ps ih =>
    intro c hmem
    have hps : (literalText ps).count '%' = 0 := by
      cases piece with
      | text d => exact Nat.le_zero.mp (h ▸ List.count_le_count_cons)
      | openBrace => exact h
      | closeBrace => exact h
      | placeholder content => exact h
    cases hmem with
    | head =>
      intro heq
      rw [literalText, heq, List.count_cons_self] at h
      cases h
    | tail _ hmem => exact ih hps c hmem

/-- The pieces take their place in the format. -/
theorem reads_length {p : List Char} {ps : List Piece} (h : Reads p ps) :
    (literalText ps).length + braces ps + 2 * placeholders ps + p.count '%' ≤ p.length + (literalText ps).count '%' := by
  induction h with
  | nil => exact Nat.le_refl _
  | openBrace h ih =>
    rw [braces_openBrace]
    have hskip : ∀ ps, placeholders (.openBrace :: ps) = placeholders ps := fun _ => rfl
    simp [hskip, literalText]
    omega
  | closeBrace h ih =>
    rw [braces_closeBrace]
    have hskip : ∀ ps, placeholders (.closeBrace :: ps) = placeholders ps := fun _ => rfl
    simp [hskip, literalText]
    omega
  | @placeholder content rest ps hopen hclose h ih =>
    have hcontent : content.count '%' ≤ content.length := List.count_le_length
    rw [placeholders_placeholder, braces_placeholder, literalText]
    simp
    omega
  | @text c rest ps hopen hclose h ih =>
    have hskip : placeholders (.text c :: ps) = placeholders ps := rfl
    rw [hskip, braces_text, literalText, List.count_cons, List.count_cons, List.length_cons, List.length_cons]
    omega

end Xvr.Format
