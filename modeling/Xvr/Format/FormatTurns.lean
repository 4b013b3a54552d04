/-
  Xvr.Format.FormatTurns — the turns the two passes over a format take.

  A turn of the first loop skips an escape, if one stands there, and then takes a
  placeholder or one more character without looking for a second escape. A turn of the
  second loop takes an escape, a placeholder or a character. Both know a place in the
  format by what stands from there on.

  Proved:
  - `firstPass_cut`: the first pass, by the placeholders its turns come to and the way the
    last turn ends.
  - `secondPass_turns`: the second pass writes its turns one by one.
  - `turns_follow`: the second pass comes to no more placeholders than the first, and to the
    same ones where none begins with two braces.
-/

import Xvr.Format.FormatPasses

namespace Xvr.Format

/-! ## The turns of the first pass -/

/-- How the last turn of the first pass ends: at the NUL, behind an escape with nothing left
    to take, or at a placeholder that is never closed. -/
inductive Ending where
  | done | bareEscape | unclosed
  deriving DecidableEq, Repr

/-- The places of the placeholders the first pass comes to, and its ending. -/
def cut (p : List Char) : List (List Char) × Ending :=
  if p = [] then ([], .done)
  else
    match _ : skipEscapedBrace p with
    | [] => ([], .bareEscape)
    | '{' :: start =>
      match _ : behindBrace start with
      | none => ([], .unclosed)
      | some rest => (('{' :: start) :: (cut rest).1, (cut rest).2)
    | _ :: rest => cut rest
  termination_by p.length
  decreasing_by
    all_goals
      have hle := skipEscapedBrace_length p
      rw [‹skipEscapedBrace p = _›, List.length_cons] at hle
      first | omega | (have hlt := behindBrace_length ‹_›; omega)

/-- What a turn does behind its escape. -/
def cutBody : List Char → List (List Char) × Ending
  | [] => ([], .bareEscape)
  | '{' :: start =>
    match behindBrace start with
    | none => ([], .unclosed)
    | some rest => (('{' :: start) :: (cut rest).1, (cut rest).2)
  | _ :: rest => cut rest

theorem cut_turn (p : List Char) : cut p = if p = [] then ([], .done) else cutBody (skipEscapedBrace p) := by
  rw [cut]
  congr 1
  unfold cutBody
  split
  · rename_i heq
    simp only [heq]
  · rename_i heq
    simp only [heq]
    split <;> simp_all
  · rename_i hne heq
    simp only [heq]

@[simp] theorem cut_nil : cut [] = ([], .done) := by
  rw [cut_turn, if_pos rfl]

theorem cut_eq {p : List Char} (h : p ≠ []) : cut p = cutBody (skipEscapedBrace p) := by
  rw [cut_turn, if_neg h]

theorem cut_cons (c : Char) (p : List Char) : cut (c :: p) = cutBody (skipEscapedBrace (c :: p)) :=
  cut_eq (List.cons_ne_nil _ _)

theorem skipEscapedBrace_text {c : Char} (hopen : c ≠ '{') {rest : List Char} (hclose : c = '}' → rest.head? ≠ some '}') :
    skipEscapedBrace (c :: rest) = c :: rest := by
  unfold skipEscapedBrace
  split
  · simp_all
  · simp_all
  · rfl

theorem skipEscapedBrace_open {start : List Char} (hopen : start.head? ≠ some '{') :
    skipEscapedBrace ('{' :: start) = '{' :: start := by
  cases start with
  | nil => rfl
  | cons c start =>
    have hc : c ≠ '{' := fun heq => hopen (by rw [heq]; rfl)
    simp [skipEscapedBrace, hc]

theorem cutBody_text {c : Char} (hopen : c ≠ '{') (rest : List Char) : cutBody (c :: rest) = cut rest := by
  rw [cutBody]
  exact hopen

@[simp] theorem cut_escape_open (rest : List Char) : cut ('{' :: '{' :: rest) = cutBody rest := cut_cons ..

@[simp] theorem cut_escape_close (rest : List Char) : cut ('}' :: '}' :: rest) = cutBody rest := cut_cons ..

theorem cut_text {c : Char} (hopen : c ≠ '{') {rest : List Char} (hclose : c = '}' → rest.head? ≠ some '}') :
    cut (c :: rest) = cut rest := by
  rw [cut_cons, skipEscapedBrace_text hopen hclose, cutBody_text hopen]

theorem cut_open {start : List Char} (hopen : start.head? ≠ some '{') : cut ('{' :: start) = cutBody ('{' :: start) := by
  rw [cut_cons, skipEscapedBrace_open hopen]

/-- What the first pass stores for the placeholders at these places. -/
def stored (n : Nat) (places : List (List Char)) : List Placeholder :=
  (places.zipIdx n).map fun place => ⟨place.2, placeholderType place.1.tail⟩

@[simp] theorem stored_length (n : Nat) (places : List (List Char)) : (stored n places).length = places.length := by
  simp [stored]

/-- The first pass stays in its array when its turns come to no more placeholders than that
    holds, and in the format when its ending is no bare escape. -/
theorem firstPass_cut (p : List Char) {found : List Placeholder} (hle : found.length ≤ maxPlaceholders) :
    firstPass p found =
      if maxPlaceholders < found.length + (cut p).1.length then .outside
      else
        match (cut p).2 with
        | .done => .placeholders (found ++ stored found.length (cut p).1)
        | .bareEscape => .outside
        | .unclosed => .malformed := by
  fun_induction firstPass p found with
  | case1 found => simp [stored, Nat.not_lt.mpr hle]
  | case2 p found hp hskip => simp [cut_eq hp, hskip, cutBody]
  | case3 p found hp start hskip hrest => simp [cut_eq hp, hskip, cutBody, hrest, Nat.not_lt.mpr hle]
  | case4 p found hp start hskip rest hrest hfull =>
    have hmore : maxPlaceholders < found.length + ((cut rest).1.length + 1) := by omega
    simp [cut_eq hp, hskip, cutBody, hrest, hmore]
  | case5 p found hp start hskip rest hrest hfull ih =>
    have hlen : (found ++ [(⟨found.length, placeholderType start⟩ : Placeholder)]).length ≤ maxPlaceholders := by
      rw [List.length_append, List.length_singleton]
      omega
    rw [ih hlen]
    simp [cut_eq hp, hskip, cutBody, hrest, stored, Nat.add_assoc, Nat.add_comm 1]
  | case6 p found hp c rest hne hskip ih =>
    rw [ih hle, cut_eq hp, hskip, cutBody_text fun hc => hne hc]

/-! ## The turns of the second pass -/

inductive Turn where
  | text (c : Char)
  | escape (brace : Char)
  | placeholder (start : List Char)
  deriving DecidableEq, Repr

/-- The turns of the second loop, were it to end at the NUL only. -/
def turns (p : List Char) : List Turn :=
  match p with
  | [] => []
  | '{' :: '{' :: rest => .escape '{' :: turns rest
  | '}' :: '}' :: rest => .escape '}' :: turns rest
  | '{' :: start =>
    match _ : behindBrace start with
    | none => .text '{' :: turns start
    | some rest => .placeholder start :: turns rest
  | c :: rest => .text c :: turns rest
  termination_by p.length
  decreasing_by
    all_goals
      simp only [List.length_cons]
      first | omega | (have hlt := behindBrace_length ‹_›; omega)

theorem head_ne {c : Char} {rest : List Char} (h : ∀ tail, rest = c :: tail → False) : rest.head? ≠ some c := by
  cases rest <;> simp_all

/-- The equations of `turns`. -/
theorem turns_equations :
    turns [] = [] ∧
      (∀ rest, turns ('{' :: '{' :: rest) = .escape '{' :: turns rest) ∧
      (∀ rest, turns ('}' :: '}' :: rest) = .escape '}' :: turns rest) ∧
      (∀ start : List Char, start.head? ≠ some '{' →
        turns ('{' :: start) =
          (behindBrace start).elim (.text '{' :: turns start) fun rest => .placeholder start :: turns rest) ∧
      ∀ (c : Char) (rest : List Char), c ≠ '{' → (c = '}' → rest.head? ≠ some '}') →
        turns (c :: rest) = .text c :: turns rest := by
  refine ⟨by rw [turns], fun rest => by rw [turns], fun rest => by rw [turns], fun start hopen => ?_,
    fun c rest hopen hclose => ?_⟩
  · rw [turns]
    · split <;> simp_all
    · intro rest heq
      simp [heq] at hopen
  · rw [turns]
    · intro _ hc
      exact absurd hc hopen
    · intro rest hc heq
      simp [heq] at hclose
      exact hclose hc
    · exact hopen

@[simp] theorem turns_nil : turns [] = [] := turns_equations.1

@[simp] theorem turns_escape_open (rest : List Char) : turns ('{' :: '{' :: rest) = .escape '{' :: turns rest :=
  turns_equations.2.1 rest

@[simp] theorem turns_escape_close (rest : List Char) : turns ('}' :: '}' :: rest) = .escape '}' :: turns rest :=
  turns_equations.2.2.1 rest

theorem turns_unclosed {start : List Char} (hopen : start.head? ≠ some '{') (hrest : behindBrace start = none) :
    turns ('{' :: start) = .text '{' :: turns start := by
  rw [turns_equations.2.2.2.1 start hopen, hrest]
  rfl

theorem turns_open {start rest : List Char} (hopen : start.head? ≠ some '{') (hrest : behindBrace start = some rest) :
    turns ('{' :: start) = .placeholder start :: turns rest := by
  rw [turns_equations.2.2.2.1 start hopen, hrest]
  rfl

theorem turns_text {c : Char} (hopen : c ≠ '{') {rest : List Char} (hclose : c = '}' → rest.head? ≠ some '}') :
    turns (c :: rest) = .text c :: turns rest :=
  turns_equations.2.2.2.2 c rest hopen hclose

/-- What a turn adds to the position. -/
def Turn.advance : Turn → Nat
  | .escape _ => 2
  | _ => 0

/-- The turns it takes before the position is at the length. -/
def reached (fmtLen pos : Nat) : List Turn → List Turn
  | [] => []
  | turn :: ts => if fmtLen ≤ pos then [] else turn :: reached fmtLen (pos + turn.advance) ts

/-- One turn: the placeholders rewritten so far, and the output. -/
def writeTurn (found : List Placeholder) (state : Nat × Output) : Turn → Option (Nat × Output)
  | .text c => some (state.1, state.2.put c)
  | .escape brace => (state.2.putEscape brace '}').map fun out => (state.1, out)
  | .placeholder start => (putPlaceholder found state.1 start state.2).map fun out => (state.1 + 1, out)

theorem secondPass_turns (fmtLen : Nat) (found : List Placeholder) (p : List Char) (pos count : Nat) (out : Output) :
    secondPass fmtLen found p pos count out =
      ((reached fmtLen pos (turns p)).foldlM (writeTurn found) (count, out)).map Prod.snd := by
  fun_induction secondPass fmtLen found p pos count out with
  | case1 p pos count out hpos =>
    have hnone : reached fmtLen pos (turns p) = [] := by cases turns p <;> simp [reached, hpos]
    simp [hnone]
  | case2 => simp [reached]
  | case3 pos count out hpos rest hput => simp [reached, hpos, Turn.advance, writeTurn, hput]
  | case4 pos count out hpos rest out' hput ih => simp [reached, hpos, Turn.advance, writeTurn, hput, ih]
  | case5 pos count out hpos rest hput => simp [reached, hpos, Turn.advance, writeTurn, hput]
  | case6 pos count out hpos rest out' hput ih => simp [reached, hpos, Turn.advance, writeTurn, hput, ih]
  | case7 pos count out hpos start hopen hrest ih =>
    simp [turns_unclosed (head_ne hopen) hrest, reached, hpos, Turn.advance, writeTurn, ih]
  | case8 pos count out hpos start hopen rest hrest hput =>
    simp [turns_open (head_ne hopen) hrest, reached, hpos, Turn.advance, writeTurn, hput]
  | case9 pos count out hpos start hopen rest hrest out' hput ih =>
    simp [turns_open (head_ne hopen) hrest, reached, hpos, Turn.advance, writeTurn, hput, ih]
  | case10 pos count out hpos c rest hopen hclose hbrace ih =>
    have hhead : c = '}' → rest.head? ≠ some '}' := fun hc => head_ne fun tail heq => hclose tail hc heq
    simp [turns_text hbrace hhead, reached, hpos, Turn.advance, writeTurn, ih]

/-! ## The two passes side by side -/

/-- The places of the placeholders among the turns. -/
def places : List Turn → List (List Char)
  | [] => []
  | .placeholder start :: ts => ('{' :: start) :: places ts
  | _ :: ts => places ts

@[simp] theorem places_nil : places [] = [] := rfl

@[simp] theorem places_cons_text (c : Char) (ts : List Turn) : places (.text c :: ts) = places ts := rfl

@[simp] theorem places_cons_escape (brace : Char) (ts : List Turn) : places (.escape brace :: ts) = places ts := rfl

@[simp] theorem places_cons_placeholder (start : List Char) (ts : List Turn) :
    places (.placeholder start :: ts) = ('{' :: start) :: places ts := rfl

/-- A place the two passes cannot share: the second takes two braces for an escape. -/
def Doubled (place : List Char) : Prop := ['{', '{'] <+: place

/-- The turns come to no more placeholders than these, and to these where none begins with
    two braces. -/
def Follows (taken : List (List Char)) (ts : List Turn) : Prop :=
  (places ts).length ≤ taken.length ∧ ((∀ place ∈ taken, ¬ Doubled place) → places ts = taken)

theorem Follows.placeholder {taken : List (List Char)} {ts : List Turn} (h : Follows taken ts) (start : List Char) :
    Follows (('{' :: start) :: taken) (.placeholder start :: ts) := by
  refine ⟨Nat.succ_le_succ h.1, fun hnone => ?_⟩
  rw [places, h.2 fun place hmem => hnone place (List.mem_cons_of_mem _ hmem)]

theorem places_text {c : Char} (hopen : c ≠ '{') {rest : List Char} (hclose : c = '}' → rest.head? ≠ some '}') :
    places (turns (c :: rest)) = places (turns rest) := by
  simp [turns_text hopen hclose]

/-- Up to the next closing brace the second pass comes to one placeholder at most. -/
theorem places_inside {rest : List Char} {n : Nat} (hsync : (places (turns rest)).length ≤ n)
    (hlag : ∀ tail, rest = '}' :: tail → (places (turns tail)).length ≤ n) {content : List Char} (hclose : '}' ∉ content) :
    (places (turns (content ++ '}' :: rest))).length ≤ n + 1 := by
  induction hlen : content.length using Nat.strong_induction_on generalizing content with
  | _ k ih =>
    cases content with
    | nil =>
      rw [List.nil_append]
      by_cases hhead : rest.head? = some '}'
      · obtain ⟨tail, rfl⟩ := List.head?_eq_some_iff.mp hhead
        simp only [turns_escape_close, places_cons_escape]
        exact (hlag tail rfl).trans (Nat.le_succ n)
      · rw [places_text (by decide) fun _ => hhead]
        exact hsync.trans (Nat.le_succ n)
    | cons c content =>
      rw [List.mem_cons, not_or] at hclose
      rw [List.length_cons] at hlen
      rw [List.cons_append]
      by_cases hc : c = '{'
      · subst hc
        by_cases hhead : content.head? = some '{'
        · obtain ⟨tail, rfl⟩ := List.head?_eq_some_iff.mp hhead
          rw [List.cons_append, turns_escape_open, places_cons_escape]
          rw [List.length_cons] at hlen
          exact ih tail.length (by omega) (fun hmem => hclose.2 (List.mem_cons_of_mem _ hmem)) rfl
        · have hhead' : (content ++ '}' :: rest).head? ≠ some '{' := by cases content <;> simp_all
          rw [turns_open hhead' (behindBrace_append hclose.2 rest)]
          exact Nat.succ_le_succ hsync
      · rw [places_text hc fun heq => absurd heq.symm hclose.1]
        exact ih content.length (by omega) hclose.2 rfl

/-- Behind an escape the first pass takes a placeholder whatever its content begins with. -/
theorem follows_open {start rest : List Char} (hrest : behindBrace start = some rest)
    (hsync : Follows (cut rest).1 (turns rest))
    (hlag : ∀ tail, rest = '}' :: tail → Follows (cut rest).1 (turns tail)) :
    Follows (('{' :: start) :: (cut rest).1) (turns ('{' :: start)) := by
  by_cases hhead : start.head? = some '{'
  · obtain ⟨tail, rfl⟩ := List.head?_eq_some_iff.mp hhead
    refine ⟨?_, fun hnone => absurd ⟨tail, rfl⟩ (hnone _ (List.mem_cons_self ..))⟩
    obtain ⟨hsplit, hclose⟩ := behindBrace_split hrest
    rw [turns_escape_open, places_cons_escape]
    cases hcontent : ('{' :: tail).takeWhile (· ≠ '}') with
    | nil => simp at hcontent
    | cons c content =>
      rw [hcontent] at hsplit hclose
      rw [List.cons_append, List.cons.injEq] at hsplit
      rw [hsplit.2]
      exact places_inside hsync.1 (fun tail heq => (hlag tail heq).1) fun hmem => hclose (List.mem_cons_of_mem _ hmem)
  · rw [turns_open hhead hrest]
    exact hsync.placeholder start

/-- From a place both passes come to, the second comes to the placeholders of the first. So
    it does when the first has just taken an escape there, and when the first is still at a
    closing brace in front. -/
theorem turns_follow (p : List Char) :
    ((cut p).2 = .done → Follows (cut p).1 (turns p)) ∧
      ((cutBody p).2 = .done → Follows (cutBody p).1 (turns p)) ∧
        ((cut ('}' :: p)).2 = .done → Follows (cut ('}' :: p)).1 (turns p)) := by
  induction hlen : p.length using Nat.strong_induction_on generalizing p with
  | _ k ih =>
    subst hlen
    have hsync {rest : List Char} (hlt : rest.length < p.length) := (ih rest.length hlt rest rfl).1
    have hbody {rest : List Char} (hlt : rest.length < p.length) := (ih rest.length hlt rest rfl).2.1
    have hlag {rest : List Char} (hlt : rest.length < p.length) := (ih rest.length hlt rest rfl).2.2
    cases p with
    | nil =>
      have hone : cut ['}'] = ([], .done) := by rw [cut_text (by decide) (by simp), cut_nil]
      simp [cutBody, hone, Follows]
    | cons c rest =>
      rw [List.length_cons] at hsync hbody hlag
      by_cases hc : c = '{'
      · subst hc
        have hopen : (cutBody ('{' :: rest)).2 = .done → Follows (cutBody ('{' :: rest)).1 (turns ('{' :: rest)) := by
          intro hdone
          unfold cutBody at hdone ⊢
          cases hrest : behindBrace rest with
          | none => simp [hrest] at hdone
          | some behind =>
            have hlt := behindBrace_length hrest
            simp only [hrest] at hdone ⊢
            refine follows_open hrest (hsync (by omega) hdone) fun tail heq => ?_
            subst heq
            rw [List.length_cons] at hlt
            exact hlag (by omega) hdone
        have hfirst : (cut ('{' :: rest)).2 = .done → Follows (cut ('{' :: rest)).1 (turns ('{' :: rest)) := by
          by_cases hhead : rest.head? = some '{'
          · obtain ⟨tail, rfl⟩ := List.head?_eq_some_iff.mp hhead
            rw [cut_escape_open, turns_escape_open]
            exact hbody (by rw [List.length_cons]; omega)
          · rw [cut_open hhead]
            exact hopen
        refine ⟨hfirst, hopen, ?_⟩
        rw [cut_text (by decide) (by simp)]
        exact hfirst
      · by_cases hhead : c = '}' ∧ rest.head? = some '}'
        · obtain ⟨rfl, hhead⟩ := hhead
          obtain ⟨tail, rfl⟩ := List.head?_eq_some_iff.mp hhead
          have hlt : tail.length < ('}' :: tail).length + 1 := by rw [List.length_cons]; omega
          rw [turns_escape_close, cut_escape_close, cut_escape_close, cutBody_text (by decide), cutBody_text (by decide)]
          exact ⟨hbody hlt, hlag hlt, hsync hlt⟩
        · have hclose : c = '}' → rest.head? ≠ some '}' := fun heq hbrace => hhead ⟨heq, hbrace⟩
          have hlt := Nat.lt_succ_self rest.length
          rw [turns_text hc hclose, cut_text hc hclose, cutBody_text hc]
          refine ⟨hsync hlt, hsync hlt, ?_⟩
          by_cases hbrace : c = '}'
          · subst hbrace
            rw [cut_escape_close]
            exact hbody hlt
          · rw [cut_text (by decide) (by simp [hbrace]), cut_text hc hclose]
            exact hsync hlt

end Xvr.Format
