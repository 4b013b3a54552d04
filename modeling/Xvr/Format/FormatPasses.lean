/-
  Xvr.Format.FormatPasses — what the passes over a format make of its pieces.

  Proved:
  - `printed_eq`: where nothing is copied from behind a `{:`, the format is converted piece
    by piece.
  - `buildLoop_count`: the rewriting adds no percent sign.
-/

import Xvr.Format.Pieces

namespace Xvr.Format

/-! ## The first pass -/

/-- Every placeholder found so far has the type INT. -/
def AllInt (found : List Placeholder) : Prop := ∀ x ∈ found, x.type = .int

theorem allInt_nil : AllInt [] := fun _ hx => by cases hx

theorem allInt_snoc {found : List Placeholder} (h : AllInt found) (n : Nat) : AllInt (found ++ [⟨n, .int⟩]) := by
  intro x hx
  rcases List.mem_append.mp hx with hx | hx
  · exact h x hx
  · rw [List.mem_singleton.mp hx]

theorem placeholderType_int {start : List Char} (h : start.head? ≠ some ':') : placeholderType start = .int := by
  cases start with
  | nil => rfl
  | cons c start =>
    unfold placeholderType
    split
    · rename_i heq
      cases heq
      exact absurd rfl h
    · rfl

theorem firstPass_text {c : Char} (hopen : c ≠ '{') {rest : List Char} (hclose : c = '}' → rest.head? ≠ some '}')
    (found : List Placeholder) : firstPass (c :: rest) found = firstPass rest found := by
  have hskip : skipEscapedBrace (c :: rest) = c :: rest := by
    unfold skipEscapedBrace
    split
    · rename_i heq
      cases heq
      exact absurd rfl hopen
    · rename_i heq
      cases heq
      exact absurd rfl (hclose rfl)
    · rfl
  rw [firstPass, if_neg (List.cons_ne_nil _ _)]
  split
  · rename_i heq
    rw [hskip] at heq
    cases heq
  · rename_i heq
    rw [hskip] at heq
    cases heq
    exact absurd rfl hopen
  · rename_i heq
    rw [hskip] at heq
    cases heq
    rfl

theorem firstPass_placeholder {start rest : List Char} (hopen : start.head? ≠ some '{')
    (hrest : behindBrace start = some rest) (found : List Placeholder) :
    firstPass ('{' :: start) found =
      if maxPlaceholders ≤ found.length then .outside
      else firstPass rest (found ++ [⟨found.length, placeholderType start⟩]) := by
  have hskip : skipEscapedBrace ('{' :: start) = '{' :: start := by
    cases start with
    | nil => rfl
    | cons c start =>
      have hc : c ≠ '{' := fun heq => hopen (by rw [heq]; rfl)
      simp [skipEscapedBrace, hc]
  rw [firstPass, if_neg (List.cons_ne_nil _ _)]
  split
  · rename_i heq
    rw [hskip] at heq
    cases heq
  · rename_i heq
    rw [hskip] at heq
    cases heq
    split
    · rename_i heq
      rw [hrest] at heq
      cases heq
    · rename_i heq
      rw [hrest] at heq
      cases heq
      rfl
  · rename_i hne heq
    rw [hskip] at heq
    cases heq
    exact (hne rfl).elim

/-- Without escapes the first pass finds the placeholders of the format. -/
theorem firstPass_reads {p : List Char} {ps : List Piece} (h : Reads p ps) (hplain : ps.all Piece.isPlain = true)
    {found all : List Placeholder} (hint : AllInt found) (hpass : firstPass p found = .placeholders all) :
    AllInt all ∧ all.length = found.length + placeholders ps := by
  induction h generalizing found with
  | nil =>
    rw [firstPass] at hpass
    cases hpass
    exact ⟨hint, rfl⟩
  | openBrace => cases hplain
  | closeBrace => cases hplain
  | @placeholder content rest ps hopen hclose h ih =>
    rw [List.all_cons, Bool.and_eq_true] at hplain
    have hhead : (content ++ '}' :: rest).head? ≠ some '{' := by cases content <;> simp_all
    have hcolon : (content ++ '}' :: rest).head? ≠ some ':' := by cases content <;> simp_all [Piece.isPlain]
    rw [firstPass_placeholder hhead (behindBrace_append hclose rest), placeholderType_int hcolon] at hpass
    split at hpass
    · cases hpass
    · obtain ⟨hall, hlen⟩ := ih hplain.2 (allInt_snoc hint _) hpass
      refine ⟨hall, ?_⟩
      rw [hlen, List.length_append, List.length_singleton, placeholders, placeholders, List.countP_cons]
      simp only [if_true]
      omega
  | text hopen hclose h ih =>
    rw [List.all_cons, Bool.and_eq_true] at hplain
    rw [firstPass_text hopen hclose] at hpass
    exact ih hplain.2 hint hpass

/-- The first pass never keeps more placeholders than its array holds. -/
theorem firstPass_length (p : List Char) {found all : List Placeholder} (hle : found.length ≤ maxPlaceholders)
    (hpass : firstPass p found = .placeholders all) : all.length ≤ maxPlaceholders := by
  fun_induction firstPass p found with
  | case1 => cases hpass; exact hle
  | case2 => cases hpass
  | case3 => cases hpass
  | case4 => cases hpass
  | case5 p found _ start _ rest _ hroom ih =>
    refine ih ?_ hpass
    rw [List.length_append, List.length_singleton]
    omega
  | case6 _ _ _ _ _ _ _ ih => exact ih hle hpass

theorem skipEscapedBrace_suffix (p : List Char) : skipEscapedBrace p <:+ p := by
  unfold skipEscapedBrace
  split
  · exact ⟨['{', '{'], rfl⟩
  · exact ⟨['}', '}'], rfl⟩
  · exact List.suffix_rfl

theorem behindBrace_suffix {start rest : List Char} (h : behindBrace start = some rest) : rest <:+ start :=
  ⟨start.takeWhile (· ≠ '}') ++ ['}'], by rw [List.append_assoc]; exact (behindBrace_split h).1.symm⟩

/-- Where no `{:` stands, every placeholder is an INT. -/
theorem firstPass_allInt (p : List Char) (hspec : ¬ ['{', ':'] <:+: p) {found all : List Placeholder}
    (hint : AllInt found) (hpass : firstPass p found = .placeholders all) : AllInt all := by
  fun_induction firstPass p found with
  | case1 => cases hpass; exact hint
  | case2 => cases hpass
  | case3 => cases hpass
  | case4 => cases hpass
  | case5 p found _ start hskip rest hrest _ ih =>
    have hsuffix : '{' :: start <:+ p := hskip ▸ skipEscapedBrace_suffix p
    have hcolon : start.head? ≠ some ':' := by
      intro hhead
      cases start with
      | nil => cases hhead
      | cons c start =>
        cases hhead
        exact hspec (List.IsInfix.trans ⟨[], start, rfl⟩ hsuffix.isInfix)
    have hrest' : rest <:+ p := (behindBrace_suffix hrest).trans ((List.suffix_cons _ _).trans hsuffix)
    refine ih (fun hin => hspec (hin.trans hrest'.isInfix)) ?_ hpass
    rw [placeholderType_int hcolon]
    exact allInt_snoc hint _
  | case6 p found _ c rest _ hskip ih =>
    have hsuffix : c :: rest <:+ p := hskip ▸ skipEscapedBrace_suffix p
    exact ih (fun hin => hspec (hin.trans ((List.suffix_cons _ _).trans hsuffix).isInfix)) hint hpass

/-! ## The second pass -/

theorem typeAt_int {found : List Placeholder} (hint : AllInt found) {count : Nat} (hcount : count < maxPlaceholders) :
    typeAt found count = some .int := by
  rw [typeAt, if_neg (Nat.not_le.mpr hcount)]
  cases hget : found[count]? with
  | none => rfl
  | some x =>
    have hx := hint x (List.mem_of_getElem? hget)
    simp [hx]

theorem secondPass_nil (fmtLen : Nat) (found : List Placeholder) (pos count : Nat) (out : Output) :
    secondPass fmtLen found [] pos count out = some out := by
  rw [secondPass]
  split <;> rfl

theorem secondPass_escape {fmtLen pos : Nat} (hpos : pos < fmtLen) (found : List Placeholder) {c d : Char}
    (hescape : c = '{' ∧ d = '}' ∨ c = '}' ∧ d = '}') (rest : List Char) (count : Nat) {out : Output}
    (hroom : 2 < out.remaining) :
    secondPass fmtLen found (c :: c :: rest) pos count out =
      secondPass fmtLen found rest (pos + 2) count ⟨out.result ++ [c, d], out.remaining - 2⟩ := by
  have hput : out.putEscape c d = some ⟨out.result ++ [c, d], out.remaining - 2⟩ := by
    rw [Output.putEscape, if_pos (by omega), if_neg (by omega)]
  rcases hescape with ⟨rfl, rfl⟩ | ⟨rfl, rfl⟩
  · rw [secondPass, if_neg (Nat.not_le.mpr hpos)]
    simp only [hput]
  · rw [secondPass, if_neg (Nat.not_le.mpr hpos)]
    simp only [hput]

theorem secondPass_text {fmtLen pos : Nat} (hpos : pos < fmtLen) (found : List Placeholder) {c : Char}
    (hopen : c ≠ '{') {rest : List Char} (hclose : c = '}' → rest.head? ≠ some '}') (count : Nat) {out : Output}
    (hroom : 1 < out.remaining) :
    secondPass fmtLen found (c :: rest) pos count out =
      secondPass fmtLen found rest pos count ⟨out.result ++ [c], out.remaining - 1⟩ := by
  have hput : out.put c = ⟨out.result ++ [c], out.remaining - 1⟩ := by rw [Output.put, if_pos hroom]
  rw [secondPass, if_neg (Nat.not_le.mpr hpos), hput]
  · intro _ hc
    exact absurd hc hopen
  · intro rest hc hrest
    rw [hrest] at hclose
    exact absurd rfl (hclose hc)
  · exact hopen

theorem secondPass_placeholder {fmtLen pos : Nat} (hpos : pos < fmtLen) {found : List Placeholder}
    (hint : AllInt found) {start rest : List Char} (hopen : start.head? ≠ some '{') (hspec : start.head? ≠ some ':')
    (hrest : behindBrace start = some rest) {count : Nat} (hcount : count < maxPlaceholders) {out : Output}
    (hroom : 2 < out.remaining) :
    secondPass fmtLen found ('{' :: start) pos count out =
      secondPass fmtLen found rest pos (count + 1) ⟨out.result ++ ['%', 'd'], out.remaining - 2⟩ := by
  have hput : putPlaceholder found count start out = some ⟨out.result ++ ['%', 'd'], out.remaining - 2⟩ := by
    unfold putPlaceholder
    split
    · exact absurd rfl hspec
    · rw [typeAt_int hint hcount, Option.map_some, Output.putReplacement, formatTypeToPrintf,
        if_pos (by simpa using hroom)]
      rfl
  rw [secondPass, if_neg (Nat.not_le.mpr hpos)]
  · split
    · rename_i heq
      rw [hrest] at heq
      cases heq
    · rename_i heq
      rw [hrest] at heq
      cases heq
      simp only [hput]
  · intro _ heq
    rw [heq] at hopen
    exact absurd rfl hopen

/-- Where no `{:` is copied the second pass converts piece by piece, as long as there is
    room and the escapes do not end the loop. -/
theorem secondPass_reads {fmtLen : Nat} {found : List Placeholder} (hint : AllInt found) {p : List Char}
    {ps : List Piece} (h : Reads p ps) (hspec : ∀ content, .placeholder content ∈ ps → content.head? ≠ some ':')
    (pos count : Nat) (out : Output) (hcount : count + placeholders ps ≤ maxPlaceholders)
    (hpos : pos + p.length ≤ fmtLen ∨ pos < fmtLen ∧ braces ps = 0)
    (hroom : (converted ps).length < out.remaining) :
    ∃ left, secondPass fmtLen found p pos count out = some ⟨out.result ++ converted ps, left⟩ := by
  induction h generalizing pos count out with
  | nil =>
    refine ⟨out.remaining, ?_⟩
    rw [secondPass_nil, converted, List.append_nil]
  | @openBrace rest ps h ih =>
    rw [converted, List.length_cons, List.length_cons] at hroom
    rw [braces_openBrace, List.length_cons, List.length_cons] at hpos
    obtain ⟨left, hleft⟩ := ih (fun content hmem => hspec content (List.mem_cons_of_mem _ hmem)) (pos + 2) count
      ⟨out.result ++ ['{', '}'], out.remaining - 2⟩ hcount (.inl (by omega)) (by dsimp only; omega)
    refine ⟨left, ?_⟩
    rw [secondPass_escape (by omega) found (.inl ⟨rfl, rfl⟩) rest count (by omega), hleft, converted, List.append_assoc]
    rfl
  | @closeBrace rest ps h ih =>
    rw [converted, List.length_cons, List.length_cons] at hroom
    rw [braces_closeBrace, List.length_cons, List.length_cons] at hpos
    obtain ⟨left, hleft⟩ := ih (fun content hmem => hspec content (List.mem_cons_of_mem _ hmem)) (pos + 2) count
      ⟨out.result ++ ['}', '}'], out.remaining - 2⟩ hcount (.inl (by omega)) (by dsimp only; omega)
    refine ⟨left, ?_⟩
    rw [secondPass_escape (by omega) found (.inr ⟨rfl, rfl⟩) rest count (by omega), hleft, converted, List.append_assoc]
    rfl
  | @placeholder content rest ps hopen hclose h ih =>
    rw [converted, List.length_cons, List.length_cons] at hroom
    rw [braces_placeholder, List.length_cons, List.length_append, List.length_cons] at hpos
    rw [placeholders_placeholder] at hcount
    have hcolon := hspec content List.mem_cons_self
    have hhead : (content ++ '}' :: rest).head? ≠ some '{' := by cases content <;> simp_all
    have hspec' : (content ++ '}' :: rest).head? ≠ some ':' := by cases content <;> simp_all
    obtain ⟨left, hleft⟩ := ih (fun content hmem => hspec content (List.mem_cons_of_mem _ hmem)) pos (count + 1)
      ⟨out.result ++ ['%', 'd'], out.remaining - 2⟩ (by omega) (by omega) (by dsimp only; omega)
    refine ⟨left, ?_⟩
    rw [secondPass_placeholder (by omega) hint hhead hspec' (behindBrace_append hclose rest) (by omega) (by omega),
      hleft, converted, List.append_assoc]
    rfl
  | @text c rest ps hopen hclose h ih =>
    rw [converted, List.length_cons] at hroom
    rw [braces_text, List.length_cons] at hpos
    obtain ⟨left, hleft⟩ := ih (fun content hmem => hspec content (List.mem_cons_of_mem _ hmem)) pos count
      ⟨out.result ++ [c], out.remaining - 1⟩ hcount (by omega) (by dsimp only; omega)
    refine ⟨left, ?_⟩
    rw [secondPass_text (by omega) found hopen hclose count (by omega), hleft, converted, List.append_assoc]
    rfl

/-! ## The argument types -/

/-- What stands for the pieces once the argument types are known. -/
def output : List Piece → List ArgType → List Char
  | [], _ => []
  | .text c :: ps, types => c :: output ps types
  | .openBrace :: ps, types => '{' :: '}' :: output ps types
  | .closeBrace :: ps, types => '}' :: '}' :: output ps types
  | .placeholder _ :: ps, type :: types => formatTypeToPrintf type ++ output ps types
  | .placeholder _ :: ps, [] => '%' :: 'd' :: output ps []

theorem argSpec_drop (types : List ArgType) (idx : Nat) :
    argSpec types idx ['%', 'd'] =
      match types.drop idx with
      | type :: _ => formatTypeToPrintf type
      | [] => ['%', 'd'] := by
  cases hget : types[idx]? with
  | none =>
    have hdrop : types.drop idx = [] := List.drop_eq_nil_of_le (List.getElem?_eq_none_iff.mp hget)
    simp only [argSpec, hget, hdrop]
  | some type =>
    obtain ⟨hlt, rfl⟩ := List.getElem?_eq_some_iff.mp hget
    rw [List.drop_eq_getElem_cons hlt]
    simp only [argSpec, hget]
    split
    · rfl
    · rename_i hint
      rw [Decidable.not_not.mp hint]
      rfl

theorem formatTypeToPrintf_length (type : ArgType) : (formatTypeToPrintf type).length ≤ 3 := by
  cases type <;> decide

theorem buildLoop_text {c : Char} (hc : c ≠ '%') (size : Nat) (types : List ArgType) (idx : Nat)
    (result rest : List Char) :
    buildLoop size types idx result (c :: rest) = buildLoop size types idx (result ++ [c]) rest := by
  rw [buildLoop]
  · intro heq
    exact absurd heq hc
  · intro _ heq
    exact absurd heq hc
  · exact hc

theorem buildLoop_placeholder (size : Nat) (types : List ArgType) (idx : Nat) (result rest : List Char) :
    buildLoop size types idx result ('%' :: 'd' :: rest) =
      buildLoop size types (idx + 1) (putSpan size result (argSpec types idx ['%', 'd'])) rest := by
  have hspan : specSpan ('d' :: rest) = some (['d'], rest) := rfl
  rw [buildLoop]
  · split
    · rename_i heq
      rw [hspan] at heq
      cases heq
    · rename_i heq
      rw [hspan] at heq
      cases heq
      rfl
  · simp
  · simp

/-- Where no `%` is text, the conversions of the arguments take their places. -/
theorem buildLoop_converted {ps : List Piece} (htext : ∀ c, .text c ∈ ps → c ≠ '%') (size : Nat)
    (types : List ArgType) (idx : Nat) (result : List Char)
    (hroom : result.length + 2 * (converted ps).length < size) :
    buildLoop size types idx result (converted ps) = result ++ output ps (types.drop idx) := by
  induction ps generalizing idx result with
  | nil => rw [converted, buildLoop, output, List.append_nil]
  | cons piece ps ih =>
    have htext' : ∀ c, .text c ∈ ps → c ≠ '%' := fun c hmem => htext c (List.mem_cons_of_mem _ hmem)
    cases piece with
    | text c =>
      rw [converted, List.length_cons] at hroom
      rw [converted, buildLoop_text (htext c List.mem_cons_self),
        ih htext' idx (result ++ [c]) (by rw [List.length_append, List.length_singleton]; omega), List.append_assoc]
      rfl
    | openBrace =>
      rw [converted, List.length_cons, List.length_cons] at hroom
      rw [converted, buildLoop_text (by decide), buildLoop_text (by decide), List.append_assoc,
        ih htext' idx _ (by simp only [List.length_append, List.length_singleton]; omega), List.append_assoc]
      rfl
    | closeBrace =>
      rw [converted, List.length_cons, List.length_cons] at hroom
      rw [converted, buildLoop_text (by decide), buildLoop_text (by decide), List.append_assoc,
        ih htext' idx _ (by simp only [List.length_append, List.length_singleton]; omega), List.append_assoc]
      rfl
    | placeholder content =>
      rw [converted, List.length_cons, List.length_cons] at hroom
      rw [converted, buildLoop_placeholder, argSpec_drop]
      cases hdrop : types.drop idx with
      | nil =>
        have hnil : types.drop (idx + 1) = [] := by rw [← List.drop_drop, hdrop]; rfl
        rw [putSpan, if_pos (by simp only [List.length_cons, List.length_nil]; omega),
          ih htext' (idx + 1) _ (by simp only [List.length_append, List.length_cons, List.length_nil]; omega),
          hnil, List.append_assoc]
        rfl
      | cons type rest =>
        have htail : types.drop (idx + 1) = rest := by rw [← List.drop_drop, hdrop]; rfl
        have hthree := formatTypeToPrintf_length type
        simp only
        rw [putSpan, if_pos (by omega),
          ih htext' (idx + 1) _ (by rw [List.length_append]; omega), htail, List.append_assoc]
        rfl

theorem putSpan_count (size : Nat) (result span : List Char) :
    (putSpan size result span).count '%' ≤ result.count '%' + span.count '%' := by
  rw [putSpan]
  split
  · rw [List.count_append]
  · omega

theorem argSpec_count (types : List ArgType) (idx : Nat) (span : List Char) :
    (argSpec types idx ('%' :: span)).count '%' ≤ ('%' :: span).count '%' := by
  unfold argSpec
  split
  · rename_i type _
    split
    · have hone : (formatTypeToPrintf type).count '%' ≤ 1 := by cases type <;> decide
      rw [List.count_cons_self]
      omega
    · exact Nat.le_refl _
  · exact Nat.le_refl _

/-- The rewriting adds no percent sign. -/
theorem buildLoop_count (size : Nat) (types : List ArgType) (idx : Nat) (result src : List Char) :
    (buildLoop size types idx result src).count '%' ≤ result.count '%' + src.count '%' := by
  fun_induction buildLoop size types idx result src with
  | case1 => exact Nat.le_add_right _ _
  | case2 => rw [List.count_append]
  | case3 idx result rest ih =>
    rw [List.count_append] at ih
    simp only [List.count_cons_self, List.count_nil] at ih ⊢
    omega
  | case4 idx result spec _ _ _ =>
    rw [List.count_append, List.count_singleton_self, List.count_cons_self]
    omega
  | case5 idx result spec _ _ span rest hspan ih =>
    have hput := putSpan_count size result (argSpec types idx ('%' :: span))
    have harg := argSpec_count types idx span
    rw [specSpan_eq hspan, ← List.cons_append, List.count_append]
    omega
  | case6 idx result c rest _ _ _ ih =>
    rw [List.count_append] at ih
    have hcons : (c :: rest).count '%' = [c].count '%' + rest.count '%' := by
      rw [← List.count_append]
      rfl
    omega

/-! ## The whole translation -/

/-- What a parse with the right number of arguments went through. -/
theorem parse_cases {formatStr : List Char} {argCount : Nat} {fmt : FormatString}
    (hparse : formatStringParse formatStr argCount = some fmt) (hvalid : fmt.isValid = true) :
    ∃ found src left, firstPass formatStr [] = .placeholders found ∧ found.length = argCount ∧
      secondPass (safeStrlen formatStr maxFormat) found formatStr 0 0
        ⟨[], safeStrlen formatStr maxFormat * 2 + 1⟩ = some ⟨src, left⟩ ∧ fmt.printfFormat = some src := by
  unfold formatStringParse at hparse
  split at hparse
  · cases hparse
  · cases hparse
    cases hvalid
  · rename_i found hfirst
    split at hparse
    · cases hparse
      cases hvalid
    · rename_i hcount
      obtain ⟨⟨src, left⟩, hsecond, rfl⟩ := Option.map_eq_some_iff.mp hparse
      exact ⟨found, src, left, hfirst, (not_not.mp hcount).symm, hsecond, rfl⟩

theorem build_eq {fmt : FormatString} (hvalid : fmt.isValid = true) {src : List Char}
    (hsrc : fmt.printfFormat = some src) (hle : src.length ≤ maxFormat) (argTypes : List ArgType) :
    formatStringBuildPrintfFormat fmt argTypes = some (buildLoop (src.length * 2 + 1) argTypes 0 [] src) := by
  have hlen : safeStrlen src maxFormat = src.length := Nat.min_eq_left hle
  rw [formatStringBuildPrintfFormat, if_neg (by rw [hvalid]; exact Bool.noConfusion), hsrc]
  simp only [hlen, List.take_length]

/-- The format handed to `printf` is the converted format with the conversions rewritten. -/
theorem printed_eq {formatStr : List Char} {argTypes : List ArgType} {fmt : FormatString}
    (hparse : formatStringParse formatStr argTypes.length = some fmt) (hvalid : fmt.isValid = true)
    {ps : List Piece} (hreads : Reads formatStr ps)
    (hspec : ∀ content, .placeholder content ∈ ps → content.head? ≠ some ':')
    (hint : ∀ {found}, firstPass formatStr [] = .placeholders found → AllInt found ∧ placeholders ps ≤ found.length)
    (hfits : formatStr.length ≤ maxFormat ∨ braces ps = 0) (hle : (converted ps).length ≤ maxFormat) :
    formatStringBuildPrintfFormat fmt argTypes =
      some (buildLoop ((converted ps).length * 2 + 1) argTypes 0 [] (converted ps)) := by
  obtain ⟨found, src, left, hfirst, _, hsecond, hsrc⟩ := parse_cases hparse hvalid
  obtain ⟨hall, hcount⟩ := hint hfirst
  have hmax := firstPass_length formatStr (Nat.zero_le _) hfirst
  have hconverted := converted_length hreads
  have hlen : safeStrlen formatStr maxFormat = min formatStr.length maxFormat := rfl
  have hpos : 0 + formatStr.length ≤ safeStrlen formatStr maxFormat ∨
      0 < safeStrlen formatStr maxFormat ∧ braces ps = 0 := by
    rw [hlen]
    rcases hfits with hfits | hfits
    · left
      omega
    · by_cases hnil : formatStr.length = 0
      · left
        omega
      · have hmaxFormat : 0 < maxFormat := by decide
        right
        omega
  have hroom : (converted ps).length < safeStrlen formatStr maxFormat * 2 + 1 := by
    rw [hlen]
    omega
  obtain ⟨left', hsecond'⟩ := secondPass_reads hall hreads hspec 0 0
    ⟨[], safeStrlen formatStr maxFormat * 2 + 1⟩ (by omega) hpos hroom
  rw [hsecond'] at hsecond
  cases hsecond
  exact build_eq hvalid hsrc hle argTypes

end Xvr.Format
