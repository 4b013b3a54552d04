/-
  Xvr.Format.FormatBounds — when the parse of a format stays in its arrays, and when its two
  passes see the same placeholders.

  - The first pass skips an escape and steps over the next character without looking for the
    NUL, so an escape that ends the format takes it past the NUL; nothing stops it at the
    65th placeholder.
  - The second pass writes two braces and a NUL when there is room for the braces.
  - Behind an escape the first pass takes a placeholder where the second takes `{{`.

  Proved:
  - `parse_inBounds_iff`: exactly when no access is out of bounds.
  - `passes_agree_iff`: exactly when a valid result comes of two passes that agree.
-/

import Xvr.Format.FormatTurns

namespace Xvr.Format

/-! ## A fold that fails -/

theorem foldlM_eq_none {α β : Type} (f : β → α → Option β) (l : List α) (b : β) :
    l.foldlM f b = none ↔ ∃ before x after b', l = before ++ x :: after ∧ before.foldlM f b = some b' ∧ f b' x = none := by
  constructor
  · intro h
    induction l generalizing b with
    | nil => cases h
    | cons x l ih =>
      rw [List.foldlM_cons] at h
      cases hx : f b x with
      | none => exact ⟨[], x, l, b, rfl, rfl, hx⟩
      | some b₁ =>
        rw [hx] at h
        obtain ⟨before, y, after, b', rfl, hbefore, hy⟩ := ih b₁ h
        refine ⟨x :: before, y, after, b', rfl, ?_, hy⟩
        rw [List.foldlM_cons, hx]
        exact hbefore
  · intro h
    obtain ⟨before, x, after, b', rfl, hbefore, hx⟩ := h
    simp [List.foldlM_append, hbefore, hx]

/-! ## The turns that fail -/

@[simp] theorem places_append (ts ts' : List Turn) : places (ts ++ ts') = places ts ++ places ts' := by
  induction ts with
  | nil => rfl
  | cons turn ts ih => cases turn <;> simp [ih]

theorem reached_prefix (fmtLen pos : Nat) (ts : List Turn) : reached fmtLen pos ts <+: ts := by
  induction ts generalizing pos with
  | nil => exact List.prefix_rfl
  | cons turn ts ih =>
    rw [reached]
    by_cases hpos : fmtLen ≤ pos
    · rw [if_pos hpos]
      exact List.nil_prefix
    · rw [if_neg hpos]
      exact List.cons_prefix_cons.mpr ⟨rfl, ih _⟩

/-- The count goes up at each placeholder. -/
theorem fold_count {found : List Placeholder} {ts : List Turn} {state state' : Nat × Output}
    (h : ts.foldlM (writeTurn found) state = some state') : state'.1 = state.1 + (places ts).length := by
  induction ts generalizing state with
  | nil => cases h; rfl
  | cons turn ts ih =>
    rw [List.foldlM_cons] at h
    cases hturn : writeTurn found state turn with
    | none => simp [hturn] at h
    | some state₁ =>
      rw [hturn] at h
      rw [ih h]
      cases turn with
      | text c =>
        cases hturn
        simp
      | escape brace =>
        obtain ⟨out, _, rfl⟩ := Option.map_eq_some_iff.mp hturn
        simp
      | placeholder start =>
        obtain ⟨out, _, rfl⟩ := Option.map_eq_some_iff.mp hturn
        simp
        omega

theorem putEscape_none (out : Output) (c d : Char) : out.putEscape c d = none ↔ out.remaining = 2 := by
  unfold Output.putEscape
  by_cases hroom : 1 < out.remaining
  · simp [hroom]
  · simp [hroom]
    omega

/-- With a place in the array for its type a placeholder is written. -/
theorem putPlaceholder_some (found : List Placeholder) {count : Nat} (hcount : count < maxPlaceholders)
    (start : List Char) (out : Output) : putPlaceholder found count start out ≠ none := by
  unfold putPlaceholder
  split
  · simp
  · simp [typeAt, Nat.not_le.mpr hcount]

/-! ## Bounds -/

/-- The buffer of the second pass. -/
def buffer (formatStr : List Char) : Output := ⟨[], safeStrlen formatStr maxFormat * 2 + 1⟩

/-- The turns the second pass takes. -/
def secondTurns (formatStr : List Char) : List Turn := reached (safeStrlen formatStr maxFormat) 0 (turns formatStr)

/-- The types the first pass records, in order. -/
def recorded (formatStr : List Char) : List ArgType := (cut formatStr).1.map fun place => placeholderType place.tail

/-- The bytes of a conversion, or of the `%` and all that stands behind the colon. -/
def placeholderWidth (type : ArgType) (room : Nat) : List Char → Nat
  | ':' :: spec => if safeStrlen spec 32 < 32 ∧ safeStrlen spec 32 + 2 < room then 1 + spec.length else 0
  | _ => if (formatTypeToPrintf type).length < room then (formatTypeToPrintf type).length else 0

/-- The bytes a turn takes of the room left: one for a character, two for an escape. What
    does not fit is left out. -/
def Turn.width (type : ArgType) (room : Nat) : Turn → Nat
  | .text _ => if 1 < room then 1 else 0
  | .escape _ => if 1 < room then 2 else 0
  | .placeholder start => placeholderWidth type room start

/-- The room behind some turns, by their widths; each placeholder takes the next type. -/
def roomBehind : List ArgType → Nat → List Turn → Nat
  | _, room, [] => room
  | types, room, turn :: ts =>
    roomBehind (types.drop (places [turn]).length) (room - turn.width (types.headD .int) room) ts

/-- The second pass comes to an escape with room for two more bytes: the NUL would be a
    third. -/
def TightEscape (formatStr : List Char) : Prop :=
  ∃ before brace after, secondTurns formatStr = before ++ .escape brace :: after ∧
    roomBehind (recorded formatStr) (safeStrlen formatStr maxFormat * 2 + 1) before = 2

theorem typeAt_stored {places : List (List Char)} {count : Nat} (hcount : count < maxPlaceholders) :
    typeAt (stored 0 places) count = some (((places.map fun place => placeholderType place.tail).drop count).headD .int) := by
  rw [typeAt, if_neg (Nat.not_le.mpr hcount), stored, List.getElem?_map, List.getElem?_zipIdx, List.headD_eq_head?_getD,
    List.head?_drop, List.getElem?_map]
  cases places[count]? <;> rfl

theorem writeTurn_room {places : List (List Char)} {turn : Turn} {count : Nat} {out : Output} {state : Nat × Output}
    (h : writeTurn (stored 0 places) (count, out) turn = some state) :
    state.1 = count + (Xvr.Format.places [turn]).length ∧ state.2.remaining =
      out.remaining -
        turn.width (((places.map fun place => placeholderType place.tail).drop count).headD .int) out.remaining := by
  cases turn with
  | text c =>
    cases h
    refine ⟨by simp, ?_⟩
    dsimp only [Turn.width, Output.put]
    split <;> simp
  | escape brace =>
    obtain ⟨out', hput, rfl⟩ := Option.map_eq_some_iff.mp h
    refine ⟨by simp, ?_⟩
    unfold Output.putEscape at hput
    dsimp only [Turn.width]
    by_cases hroom : 1 < out.remaining
    · rw [if_pos hroom] at hput ⊢
      split at hput
      · cases hput
      · cases hput
        rfl
    · rw [if_neg hroom] at hput ⊢
      cases hput
      rfl
  | placeholder start =>
    obtain ⟨out', hput, rfl⟩ := Option.map_eq_some_iff.mp h
    refine ⟨by simp, ?_⟩
    unfold putPlaceholder at hput
    split at hput
    · cases hput
      rw [Turn.width, placeholderWidth]
      dsimp only [Output.putSpec]
      split
      · dsimp only
        omega
      · rfl
    · rename_i hcolon
      obtain ⟨type, htype, rfl⟩ := Option.map_eq_some_iff.mp hput
      have hcount : count < maxPlaceholders := by
        by_contra hge
        rw [typeAt, if_pos (Nat.le_of_not_lt hge)] at htype
        cases htype
      rw [typeAt_stored hcount, Option.some.injEq] at htype
      rw [← htype, Turn.width, placeholderWidth]
      · dsimp only [Output.putReplacement]
        split <;> rfl
      · exact hcolon

/-- The room the output has behind some turns. -/
theorem fold_room {places : List (List Char)} {ts : List Turn} {count : Nat} {out : Output} {state : Nat × Output}
    (h : ts.foldlM (writeTurn (stored 0 places)) (count, out) = some state) :
    state.2.remaining =
      roomBehind ((places.map fun place => placeholderType place.tail).drop count) out.remaining ts := by
  induction ts generalizing count out with
  | nil => cases h; rfl
  | cons turn ts ih =>
    rw [List.foldlM_cons] at h
    cases hturn : writeTurn (stored 0 places) (count, out) turn with
    | none => simp [hturn] at h
    | some state₁ =>
      obtain ⟨count₁, out₁⟩ := state₁
      obtain ⟨hcount, hroom⟩ := writeTurn_room hturn
      rw [hturn] at h
      rw [ih h, roomBehind, List.drop_drop]
      dsimp only at hcount hroom
      rw [hcount, hroom]

theorem secondPass_eq_none {formatStr : List Char} (hdone : (cut formatStr).2 = .done)
    (hfound : (cut formatStr).1.length ≤ maxPlaceholders) :
    secondPass (safeStrlen formatStr maxFormat) (stored 0 (cut formatStr).1) formatStr 0 0 (buffer formatStr) = none ↔
      TightEscape formatStr := by
  rw [secondPass_turns, Option.map_eq_none_iff]
  constructor
  · intro h
    obtain ⟨before, turn, after, state, hsplit, hbefore, hfails⟩ := (foldlM_eq_none _ _ _).mp h
    cases turn with
    | text c => cases hfails
    | escape brace =>
      rw [writeTurn, Option.map_eq_none_iff, putEscape_none] at hfails
      exact ⟨before, brace, after, hsplit, (fold_room hbefore).symm.trans hfails⟩
    | placeholder start =>
      -- its index is below the number of placeholders of the first pass
      have hle : (places (secondTurns formatStr)).length ≤ (cut formatStr).1.length := by
        obtain ⟨rest, hrest⟩ := reached_prefix (safeStrlen formatStr maxFormat) 0 (turns formatStr)
        have hfollow := ((turns_follow formatStr).1 hdone).1
        rw [← hrest, places_append, List.length_append] at hfollow
        exact (Nat.le_add_right _ _).trans hfollow
      have hcount := fold_count hbefore
      rw [secondTurns, hsplit] at hle
      simp at hle
      rw [writeTurn, Option.map_eq_none_iff] at hfails
      exact absurd hfails (putPlaceholder_some _ (by omega) start state.2)
  · intro h
    obtain ⟨before, brace, after, hsplit, hroom⟩ := h
    rw [show reached _ 0 (turns formatStr) = secondTurns formatStr from rfl, hsplit, List.foldlM_append]
    cases hbefore : before.foldlM (writeTurn (stored 0 (cut formatStr).1)) (0, buffer formatStr) with
    | none => rfl
    | some state =>
      have hfails : writeTurn (stored 0 (cut formatStr).1) state (.escape brace) = none := by
        rw [writeTurn, Option.map_eq_none_iff, putEscape_none]
        exact (fold_room hbefore).trans hroom
      simp [hfails]

/-- The parse reads no further than the NUL, stores no placeholder behind its array and
    writes nothing behind its buffer exactly when the turns of the first pass do not end in
    an escape with nothing behind it and come to 64 placeholders at most, and the second
    pass, when there is one, comes to no escape with exactly two bytes left. -/
theorem parse_inBounds_iff (formatStr : List Char) (argCount : Nat) :
    formatStringParse formatStr argCount ≠ none ↔
      (cut formatStr).2 ≠ .bareEscape ∧ (cut formatStr).1.length ≤ maxPlaceholders ∧
        ((cut formatStr).2 = .done → argCount = (cut formatStr).1.length →
          ¬ TightEscape formatStr) := by
  have hpass : firstPass formatStr [] = _ := firstPass_cut formatStr (Nat.zero_le maxPlaceholders)
  rw [List.length_nil, Nat.zero_add] at hpass
  unfold formatStringParse
  rw [hpass]
  by_cases hfull : maxPlaceholders < (cut formatStr).1.length
  · simp [hfull, Nat.not_le.mpr hfull]
  · rw [if_neg hfull]
    have hle := Nat.not_lt.mp hfull
    cases hend : (cut formatStr).2 with
    | bareEscape => simp
    | unclosed => simp [hle]
    | done =>
      by_cases hcount : argCount = (cut formatStr).1.length
      · have hsecond : _ ↔ TightEscape formatStr := secondPass_eq_none hend hle
        rw [buffer] at hsecond
        simp [hcount, hle, hsecond]
      · simp [hcount, hle]

/-- `{{`: the first loop steps over the NUL. -/
theorem bare_escape_outside : ¬ ∀ formatStr argCount, formatStringParse formatStr argCount ≠ none := by
  intro h
  exact h ['{', '{'] 0 (by decide +kernel)

/-! ## Agreement of the passes -/

/-- The places of the placeholders the second pass rewrites. -/
def rewritten (formatStr : List Char) : List (List Char) := places (secondTurns formatStr)

/-- As many placeholders rewritten as recorded, each where the first pass found it. -/
def PassesAgree (formatStr : List Char) (fmt : FormatString) : Prop :=
  fmt.placeholders.length = (rewritten formatStr).length ∧ (cut formatStr).1 = rewritten formatStr

def escapes (ts : List Turn) : Nat := ts.countP fun turn => turn matches .escape _

/-- Every placeholder stands before the place where the position ends the second pass. -/
def InTime (fmtLen pos : Nat) (ts : List Turn) : Prop :=
  ∀ before start after, ts = before ++ .placeholder start :: after → pos + 2 * escapes before < fmtLen

theorem inTime_cons {fmtLen pos : Nat} {turn : Turn} {ts : List Turn} :
    InTime fmtLen pos (turn :: ts) ↔
      (∀ start, turn = .placeholder start → pos < fmtLen) ∧ InTime fmtLen (pos + turn.advance) ts := by
  have hescapes (before : List Turn) : pos + 2 * escapes (turn :: before) = pos + turn.advance + 2 * escapes before := by
    cases turn with
    | text c => simp [escapes, Turn.advance]
    | escape brace =>
      simp [escapes, Turn.advance]
      omega
    | placeholder start => simp [escapes, Turn.advance]
  constructor
  · intro h
    refine ⟨fun start heq => h [] start ts (by rw [heq]; rfl), fun before start after heq => ?_⟩
    rw [← hescapes]
    exact h (turn :: before) start after (by rw [heq]; rfl)
  · intro h before start after heq
    cases before with
    | nil =>
      rw [List.nil_append, List.cons.injEq] at heq
      simpa [escapes] using h.1 start heq.1
    | cons first before =>
      rw [List.cons_append, List.cons.injEq] at heq
      rw [← heq.1, hescapes]
      exact h.2 before start after heq.2

/-- The second pass rewrites every placeholder it would come to exactly when each is in time. -/
theorem places_reached (fmtLen pos : Nat) (ts : List Turn) :
    places (reached fmtLen pos ts) = places ts ↔ InTime fmtLen pos ts := by
  induction ts generalizing pos with
  | nil => simp [reached, InTime]
  | cons turn ts ih =>
    rw [inTime_cons, reached, ← ih]
    by_cases hpos : fmtLen ≤ pos
    · have hstop : reached fmtLen (pos + turn.advance) ts = [] := by
        cases ts with
        | nil => rfl
        | cons next ts => rw [reached, if_pos (by omega)]
      rw [if_pos hpos, hstop]
      cases turn <;> simp [Nat.not_lt.mpr hpos]
    · rw [if_neg hpos]
      cases turn <;> simp [Nat.not_le.mp hpos]

/-- A turn takes its room in the format. -/
theorem escapes_cons {first turn : Turn} {ts before after : List Turn} {n m : Nat}
    (h : first :: ts = before ++ turn :: after) (hroom : n + first.advance ≤ m) (hpos : 0 < m)
    (ih : ∀ {before : List Turn}, ts = before ++ turn :: after → 2 * escapes before < n) : 2 * escapes before < m := by
  cases before with
  | nil => exact hpos
  | cons head before =>
    rw [List.cons_append, List.cons.injEq] at h
    obtain ⟨rfl, h⟩ := h
    have hlt := ih h
    cases first with
    | text c =>
      simp [escapes, Turn.advance] at hlt hroom ⊢
      omega
    | escape brace =>
      simp [escapes, Turn.advance] at hlt hroom ⊢
      omega
    | placeholder start =>
      simp [escapes, Turn.advance] at hlt hroom ⊢
      omega

theorem escapes_length {p : List Char} {before after : List Turn} {turn : Turn}
    (h : turns p = before ++ turn :: after) : 2 * escapes before < p.length := by
  fun_induction turns p generalizing before with
  | case1 => simp at h
  | case2 rest ih => exact escapes_cons h (by simp [Turn.advance]) (by simp) ih
  | case3 rest ih => exact escapes_cons h (by simp [Turn.advance]) (by simp) ih
  | case4 start _ _ ih => exact escapes_cons h (by simp [Turn.advance]) (by simp) ih
  | case5 start _ rest hrest ih =>
    have hlt := behindBrace_length hrest
    exact escapes_cons h (by simp [Turn.advance]; omega) (by simp) ih
  | case6 c rest _ _ _ ih => exact escapes_cons h (by simp [Turn.advance]) (by simp) ih

/-- No place of the second pass begins with two braces. -/
theorem places_doubled (p : List Char) : ∀ place ∈ places (turns p), ¬ Doubled place := by
  fun_induction turns p with
  | case1 => simp
  | case2 rest ih => simpa using ih
  | case3 rest ih => simpa using ih
  | case4 start _ _ ih => simpa using ih
  | case5 start hopen rest hrest ih =>
    intro place hmem
    rw [places_cons_placeholder, List.mem_cons] at hmem
    rcases hmem with rfl | hmem
    · intro hdoubled
      obtain ⟨tail, heq⟩ := hdoubled
      rw [List.cons_append, List.cons.injEq] at heq
      exact hopen tail heq.2.symm
    · exact ih place hmem
  | case6 c rest _ _ _ ih => simpa using ih

/-- A valid result keeps what the first pass recorded. -/
theorem parse_recorded {formatStr : List Char} {argCount : Nat} {fmt : FormatString}
    (hparse : formatStringParse formatStr argCount = some fmt) (hvalid : fmt.isValid = true) :
    (cut formatStr).2 = .done ∧ fmt.placeholders = stored 0 (cut formatStr).1 := by
  have hpass : firstPass formatStr [] = _ := firstPass_cut formatStr (Nat.zero_le maxPlaceholders)
  rw [List.length_nil, Nat.zero_add] at hpass
  unfold formatStringParse at hparse
  rw [hpass] at hparse
  by_cases hfull : maxPlaceholders < (cut formatStr).1.length
  · simp [hfull] at hparse
  · rw [if_neg hfull] at hparse
    cases hend : (cut formatStr).2 with
    | bareEscape => simp [hend] at hparse
    | unclosed =>
      rw [hend] at hparse
      cases hparse
      cases hvalid
    | done =>
      refine ⟨rfl, ?_⟩
      simp only [hend] at hparse
      split at hparse
      · cases hparse
        cases hvalid
      · obtain ⟨out, _, rfl⟩ := Option.map_eq_some_iff.mp hparse
        rfl

/-- The passes behind a valid result agree exactly when no placeholder recorded begins with
    two braces and fewer than 2048 escapes stand before each the second pass could come to. -/
theorem passes_agree_iff {formatStr : List Char} {argCount : Nat} {fmt : FormatString}
    (hparse : formatStringParse formatStr argCount = some fmt) (hvalid : fmt.isValid = true) :
    PassesAgree formatStr fmt ↔
      (∀ place ∈ (cut formatStr).1, ¬ Doubled place) ∧
        ∀ before start after, turns formatStr = before ++ .placeholder start :: after → escapes before < 2048 := by
  obtain ⟨hdone, hrecorded⟩ := parse_recorded hparse hvalid
  have hfollow := ((turns_follow formatStr).1 hdone).2
  have htime : InTime (safeStrlen formatStr maxFormat) 0 (turns formatStr) ↔
      ∀ before start after, turns formatStr = before ++ .placeholder start :: after → escapes before < 2048 := by
    constructor
    · intro h before start after heq
      have hlt := h before start after heq
      rw [safeStrlen, maxFormat] at hlt
      omega
    · intro h before start after heq
      have hlt := h before start after heq
      have hlen := escapes_length heq
      rw [safeStrlen, maxFormat]
      omega
  have hreached := places_reached (safeStrlen formatStr maxFormat) 0 (turns formatStr)
  rw [← htime, ← hreached]
  unfold PassesAgree
  rw [hrecorded, stored_length]
  constructor
  · intro h
    have hnone : ∀ place ∈ (cut formatStr).1, ¬ Doubled place := by
      intro place hmem
      rw [h.2] at hmem
      obtain ⟨rest, hrest⟩ := reached_prefix (safeStrlen formatStr maxFormat) 0 (turns formatStr)
      refine places_doubled formatStr place ?_
      rw [← hrest, places_append]
      exact List.mem_append_left _ hmem
    exact ⟨hnone, h.2.symm.trans (hfollow hnone).symm⟩
  · intro h
    have heq : (cut formatStr).1 = rewritten formatStr := (hfollow h.1).symm.trans h.2.symm
    exact ⟨congrArg List.length heq, heq⟩

theorem passes_agree_iff_braces :
    PassesAgree ['{', '{', '{', '}'] ⟨some ['{', '}', '%', 'd'], [⟨0, .int⟩], 1, true, none⟩ ↔
      (∀ place ∈ (cut ['{', '{', '{', '}']).1, ¬ Doubled place) ∧
        ∀ before start after, turns ['{', '{', '{', '}'] = before ++ .placeholder start :: after → escapes before < 2048 :=
  passes_agree_iff (by decide +kernel : formatStringParse ['{', '{', '{', '}'] 1 = _) rfl

/-- `{{{{}` with one argument: the first pass records a placeholder behind the first escape,
    the second takes a second escape there and rewrites none. -/
theorem doubled_brace_disagrees :
    ¬ ∀ formatStr argCount fmt, formatStringParse formatStr argCount = some fmt → fmt.isValid = true →
      PassesAgree formatStr fmt := by
  intro h
  have hagree := h ['{', '{', '{', '{', '}'] 1 ⟨some ['{', '}', '{', '}', '}'], [⟨0, .int⟩], 1, true, none⟩
    (by decide +kernel) rfl
  have hlen : (rewritten ['{', '{', '{', '{', '}']).length = 0 := by decide +kernel
  have hrecorded := hagree.1
  rw [hlen] at hrecorded
  cases hrecorded

end Xvr.Format
