/-
  Xvr.Format.FormatFaithful — what a print call should print, and when the rewritten format
  prints it.

  The printed format should give `printf` one item a piece of the source format: the
  character, the brace, one conversion the argument's type allows.
  - A `%` of the text is copied, so it opens a conversion of its own; `{{` is written as
    `{}` and `}}` as `}}`; behind `{:` the rest of the format is copied.
  - A print call without arguments hands its format to `printf` as it is.

  Proved:
  - `format_faithful_iff`: without these, and with no array among the arguments, the format
    is faithful; with a `%`, an escape or an array it is not.
  - `percent_opens_conversion`: a `%` in front of a placeholder.
-/

import Xvr.Format.FormatPasses
import Xvr.Lib.Printf

namespace Xvr.Format

open Lib.Printf

/-! ## Faithful formats -/

/-- The conversions that read an argument of a type. -/
def compatible (type : ArgType) (stars : Nat) (letter : Char) : Bool :=
  stars == 0 &&
    match type with
    | .int => letter ∈ ['d', 'i', 'o', 'u', 'x', 'X', 'c']
    | .float | .double => letter ∈ ['f', 'F', 'e', 'E', 'g', 'G', 'a', 'A']
    | .string | .bool => letter == 's'
    | .pointer => letter == 'p'
    | .array => false

/-- The items print the pieces: their text, and each argument by a conversion of its type. -/
def prints : List Piece → List ArgType → List Item → Bool
  | [], [], [] => true
  | .text c :: ps, types, .text d :: items => c == d && prints ps types items
  | .openBrace :: ps, types, .text d :: items => '{' == d && prints ps types items
  | .closeBrace :: ps, types, .text d :: items => '}' == d && prints ps types items
  | .placeholder _ :: ps, type :: types, .conversion stars letter :: items =>
    compatible type stars letter && prints ps types items
  | _, _, _ => false

def faithful (formatStr : List Char) (argTypes : List ArgType) (printed : List Char) : Bool :=
  match pieces formatStr, readFormat printed with
  | some ps, some items => prints ps argTypes items
  | _, _ => false

/-- No `%` in the text, no escape, no `{:spec}`, no array, and not too long. -/
def plain (formatStr : List Char) (argTypes : List ArgType) : Bool :=
  match pieces formatStr with
  | some ps => ps.all Piece.isPlain && !argTypes.contains .array && decide ((converted ps).length ≤ maxFormat)
  | none => false

/-! ## What printf reads -/

/-- The conversion that stands for an argument. -/
def argItems : ArgType → List Item
  | .int => [.conversion 0 'd']
  | .float | .double => [.conversion 0 'f']
  | .string | .bool => [.conversion 0 's']
  | .pointer => [.conversion 0 'p']
  | .array => []

/-- The items that stand for the pieces. -/
def itemsOf : List Piece → List ArgType → List Item
  | [], _ => []
  | .text c :: ps, types => .text c :: itemsOf ps types
  | .openBrace :: ps, types => .text '{' :: .text '}' :: itemsOf ps types
  | .closeBrace :: ps, types => .text '}' :: .text '}' :: itemsOf ps types
  | .placeholder _ :: ps, type :: types => argItems type ++ itemsOf ps types
  | .placeholder _ :: ps, [] => .conversion 0 'd' :: itemsOf ps []

theorem readFormat_conversion {c : Char} (hc : c ≠ '%') (hconv : isConversion c = true) (format : List Char) :
    readFormat ('%' :: c :: format) = (readFormat format).map (.conversion 0 c :: ·) := by
  rw [readFormat_directive hc, readDirective, if_pos hconv]

theorem readFormat_argument (type : ArgType) (format : List Char) :
    readFormat (formatTypeToPrintf type ++ format) = (readFormat format).map (argItems type ++ ·) := by
  have hlong : readFormat ('%' :: 'l' :: 'f' :: format) = (readFormat format).map (.conversion 0 'f' :: ·) := by
    rw [readFormat_directive (by decide), readDirective, if_neg (by decide)]
    rfl
  cases type with
  | int => exact readFormat_conversion (by decide) rfl format
  | float => exact hlong
  | double => exact hlong
  | string => exact readFormat_conversion (by decide) rfl format
  | pointer => exact readFormat_conversion (by decide) rfl format
  | bool => exact readFormat_conversion (by decide) rfl format
  | array => exact Option.map_id'.symm

/-- What `printf` reads where no `%` is text. -/
theorem readFormat_output {ps : List Piece} (htext : ∀ c, .text c ∈ ps → c ≠ '%') (types : List ArgType) :
    readFormat (output ps types) = some (itemsOf ps types) := by
  induction ps generalizing types with
  | nil => rfl
  | cons piece ps ih =>
    have ih' := ih fun c hmem => htext c (List.mem_cons_of_mem _ hmem)
    cases piece with
    | text c => rw [output, readFormat_text (htext c List.mem_cons_self), ih', itemsOf]; rfl
    | openBrace => rw [output, readFormat_text (by decide), readFormat_text (by decide), ih', itemsOf]; rfl
    | closeBrace => rw [output, readFormat_text (by decide), readFormat_text (by decide), ih', itemsOf]; rfl
    | placeholder content =>
      cases types with
      | nil => rw [output, readFormat_conversion (by decide) rfl, ih', itemsOf]; rfl
      | cons type types => rw [output, readFormat_argument, ih', itemsOf]; rfl

/-! ## Text, escapes and arguments -/

/-- What faithful items have in common with their format. -/
theorem prints_spec {ps : List Piece} {types : List ArgType} {items : List Item} (h : prints ps types items = true) :
    text items = literalText ps ∧ (conversions items).length = types.length ∧ types.length = placeholders ps := by
  fun_induction prints ps types items with
  | case1 => exact ⟨rfl, rfl, rfl⟩
  | case2 c ps types d items ih =>
    obtain ⟨hc, hrest⟩ := Bool.and_eq_true_iff.mp h
    obtain ⟨htext, hconv, hlen⟩ := ih hrest
    rw [← eq_of_beq hc]
    exact ⟨congrArg (c :: ·) htext, hconv, hlen⟩
  | case3 ps types d items ih =>
    obtain ⟨hc, hrest⟩ := Bool.and_eq_true_iff.mp h
    obtain ⟨htext, hconv, hlen⟩ := ih hrest
    rw [← eq_of_beq hc]
    exact ⟨congrArg ('{' :: ·) htext, hconv, hlen⟩
  | case4 ps types d items ih =>
    obtain ⟨hc, hrest⟩ := Bool.and_eq_true_iff.mp h
    obtain ⟨htext, hconv, hlen⟩ := ih hrest
    rw [← eq_of_beq hc]
    exact ⟨congrArg ('}' :: ·) htext, hconv, hlen⟩
  | case5 content ps type types stars letter items ih =>
    obtain ⟨_, hrest⟩ := Bool.and_eq_true_iff.mp h
    obtain ⟨htext, hconv, hlen⟩ := ih hrest
    rw [placeholders_placeholder, ← hlen]
    exact ⟨htext, congrArg (· + 1) hconv, rfl⟩
  | case6 => cases h

/-- Without escapes and arrays the items print the pieces. -/
theorem prints_itemsOf {ps : List Piece} {types : List ArgType} (hbraces : braces ps = 0)
    (harray : .array ∉ types) (hlen : types.length = placeholders ps) : prints ps types (itemsOf ps types) = true := by
  induction ps generalizing types with
  | nil =>
    cases types with
    | nil => rfl
    | cons => cases hlen
  | cons piece ps ih =>
    cases piece with
    | text c =>
      rw [itemsOf, prints, ih hbraces harray hlen, beq_self_eq_true]
      rfl
    | openBrace => rw [braces_openBrace] at hbraces; cases hbraces
    | closeBrace => rw [braces_closeBrace] at hbraces; cases hbraces
    | placeholder content =>
      rw [placeholders_placeholder] at hlen
      cases types with
      | nil => cases hlen
      | cons type types =>
        have hrest := ih hbraces (fun hmem => harray (List.mem_cons_of_mem _ hmem)) (Nat.succ.inj hlen)
        cases type with
        | array => exact absurd List.mem_cons_self harray
        | _ => exact hrest

theorem text_append (items items' : List Item) : text (items ++ items') = text items ++ text items' := by
  fun_induction text items <;> simp_all [text]

theorem conversions_append (items items' : List Item) :
    conversions (items ++ items') = conversions items ++ conversions items' := by
  fun_induction conversions items <;> simp_all [conversions]

/-- An escape prints one character too many, an array one conversion too few. -/
theorem itemsOf_counts {ps : List Piece} {types : List ArgType} (hlen : types.length = placeholders ps) :
    (text (itemsOf ps types)).length = (literalText ps).length + braces ps ∧
      (conversions (itemsOf ps types)).length + types.count .array = types.length := by
  induction ps generalizing types with
  | nil =>
    cases types with
    | nil => exact ⟨rfl, rfl⟩
    | cons => cases hlen
  | cons piece ps ih =>
    cases piece with
    | text c =>
      obtain ⟨htext, hconv⟩ := ih hlen
      rw [itemsOf, text, literalText, List.length_cons, List.length_cons, htext, braces_text]
      exact ⟨by omega, hconv⟩
    | openBrace =>
      obtain ⟨htext, hconv⟩ := ih hlen
      rw [itemsOf, text, text, literalText, braces_openBrace]
      simp only [List.length_cons, htext]
      exact ⟨by omega, hconv⟩
    | closeBrace =>
      obtain ⟨htext, hconv⟩ := ih hlen
      rw [itemsOf, text, text, literalText, braces_closeBrace]
      simp only [List.length_cons, htext]
      exact ⟨by omega, hconv⟩
    | placeholder content =>
      rw [placeholders_placeholder] at hlen
      cases types with
      | nil => cases hlen
      | cons type types =>
        obtain ⟨htext, hconv⟩ := ih (Nat.succ.inj hlen)
        rw [itemsOf, text_append, conversions_append, List.length_append, List.length_append, htext]
        rw [List.count_cons, List.length_cons, ← hconv, literalText, braces_placeholder]
        cases type <;> simp [argItems, text, conversions] <;> omega

/-! ## Formats with arguments -/

theorem faithful_of_plain {formatStr : List Char} {argTypes : List ArgType} {fmt : FormatString} {printed : List Char}
    (hparse : formatStringParse formatStr argTypes.length = some fmt) (hvalid : fmt.isValid = true)
    (hbuild : formatStringBuildPrintfFormat fmt argTypes = some printed) (hplain : plain formatStr argTypes = true) :
    faithful formatStr argTypes printed = true := by
  unfold plain at hplain
  split at hplain
  · rename_i ps hpieces
    simp only [Bool.and_eq_true, Bool.not_eq_true', decide_eq_true_eq] at hplain
    obtain ⟨⟨hall, harray⟩, hle⟩ := hplain
    have hreads := pieces_reads hpieces
    obtain ⟨htext, hspec, hbraces⟩ := plain_pieces.mp hall
    obtain ⟨found, _, _, hfirst, hcount, _, _⟩ := parse_cases hparse hvalid
    have hfound : ∀ {found}, firstPass formatStr [] = .placeholders found →
        AllInt found ∧ found.length = placeholders ps := by
      intro found hfirst
      obtain ⟨hint, hlen⟩ := firstPass_reads hreads hall allInt_nil hfirst
      rw [List.length_nil, Nat.zero_add] at hlen
      exact ⟨hint, hlen⟩
    rw [printed_eq hparse hvalid hreads hspec (fun hfirst => ⟨(hfound hfirst).1, (hfound hfirst).2.ge⟩) (.inr hbraces)
      hle, buildLoop_converted htext _ _ _ _ (by rw [List.length_nil]; omega)] at hbuild
    cases hbuild
    have hnone : .array ∉ argTypes := by simpa using harray
    rw [faithful, hpieces, List.drop_zero, List.nil_append, readFormat_output htext]
    exact prints_itemsOf hbraces hnone (hcount ▸ (hfound hfirst).2)
  · cases hplain

theorem plain_of_faithful {formatStr : List Char} {argTypes : List ArgType} {fmt : FormatString} {printed : List Char}
    (hparse : formatStringParse formatStr argTypes.length = some fmt) (hvalid : fmt.isValid = true)
    (hbuild : formatStringBuildPrintfFormat fmt argTypes = some printed) (hlen : formatStr.length ≤ maxFormat)
    (hspec : ¬ ['{', ':'] <:+: formatStr) (hfaithful : faithful formatStr argTypes printed = true) :
    plain formatStr argTypes = true := by
  unfold faithful at hfaithful
  split at hfaithful
  · rename_i ps items hpieces hitems
    have hreads := pieces_reads hpieces
    have hspec' := reads_spec hreads hspec
    obtain ⟨htext, hconv, hargs⟩ := prints_spec hfaithful
    obtain ⟨found, _, _, hfirst, hcount, _, _⟩ := parse_cases hparse hvalid
    have hle : (converted ps).length ≤ maxFormat := (converted_length hreads).trans hlen
    rw [printed_eq hparse hvalid hreads hspec' (fun hfirst' => ⟨firstPass_allInt formatStr hspec allInt_nil hfirst',
      by rw [hfirst] at hfirst'; cases hfirst'; omega⟩) (.inl hlen) hle] at hbuild
    cases hbuild
    -- every `%` of the text would take two, and there is only one
    have hpercent : (literalText ps).count '%' = 0 := by
      have hitems' := percent_le _ hitems
      have hbuilt := buildLoop_count ((converted ps).length * 2 + 1) argTypes 0 [] (converted ps)
      rw [percents, htext, hconv] at hitems'
      rw [List.count_nil, count_converted] at hbuilt
      omega
    have hne := text_ne_percent hpercent
    rw [buildLoop_converted hne _ _ _ _ (by rw [List.length_nil]; omega), List.nil_append, List.drop_zero,
      readFormat_output hne] at hitems
    cases hitems
    obtain ⟨hchars, hconvs⟩ := itemsOf_counts hargs
    rw [htext] at hchars
    have hnone : .array ∉ argTypes := List.count_eq_zero.mp (by omega)
    have hall := plain_pieces.mpr ⟨hne, hspec', by omega⟩
    simp [plain, hpieces, hall, hnone, hle]
  · cases hfaithful

/-! ## Formats without arguments -/

/-- A print call without arguments prints the literal text of its format. -/
def printsText (formatStr : List Char) (ps : List Piece) : Prop :=
  ∃ printed, printedFormat formatStr [] = some (.ok printed) ∧
    readFormat printed = some ((literalText ps).map .text)

theorem printsText_iff {formatStr : List Char} {ps : List Piece} (h : Reads formatStr ps) :
    printsText formatStr ps ↔ ps.all Piece.isQuiet = true := by
  constructor
  · intro ⟨printed, hprinted, hread⟩
    cases hprinted
    obtain ⟨hcount, hlength⟩ := readFormat_only_text formatStr hread
    have hle := reads_length h
    have hbraces : braces ps = 0 := by omega
    have hplaceholders : placeholders ps = 0 := by omega
    have heq := congrArg (List.count '%') (reads_quiet h hbraces hplaceholders)
    exact quiet_pieces.mpr ⟨List.count_eq_zero.mp (by omega), hbraces, hplaceholders⟩
  · intro hquiet
    obtain ⟨hpercent, hbraces, hplaceholders⟩ := quiet_pieces.mp hquiet
    have heq := reads_quiet h hbraces hplaceholders
    refine ⟨formatStr, rfl, ?_⟩
    rw [← heq] at hpercent ⊢
    exact readFormat_plain hpercent

/-! ## Faithful translation -/

/-- A format of at most `maxFormat` characters without `{:` is printed faithfully exactly
    when it has no `%` and no escape and no argument is an array, and a plain format of any
    length is; without arguments the text is printed exactly when it has no `%` and no brace. -/
theorem format_faithful_iff (formatStr : List Char) :
    (∀ argTypes fmt printed, formatStringParse formatStr argTypes.length = some fmt → fmt.isValid = true →
      formatStringBuildPrintfFormat fmt argTypes = some printed →
        (plain formatStr argTypes = true → faithful formatStr argTypes printed = true) ∧
          (formatStr.length ≤ maxFormat → ¬ ['{', ':'] <:+: formatStr →
            faithful formatStr argTypes printed = true → plain formatStr argTypes = true)) ∧
      ∀ ps, pieces formatStr = some ps → (printsText formatStr ps ↔ ps.all Piece.isQuiet = true) := by
  constructor
  · intro argTypes fmt printed hparse hvalid hbuild
    exact ⟨faithful_of_plain hparse hvalid hbuild, plain_of_faithful hparse hvalid hbuild⟩
  · intro ps hpieces
    exact printsText_iff (pieces_reads hpieces)

theorem format_faithful_iff_double :
    faithful ['x', '=', '{', '}'] [.double] ['x', '=', '%', 'l', 'f'] = true ∧
      printsText ['o', 'k'] [.text 'o', .text 'k'] :=
  ⟨((format_faithful_iff ['x', '=', '{', '}']).1 [.double] ⟨some ['x', '=', '%', 'd'], [⟨0, .int⟩], 1, true, none⟩ _
      (by decide +kernel) rfl (by decide +kernel)).1 (by decide +kernel),
    ((format_faithful_iff ['o', 'k']).2 _ (by decide +kernel)).mpr rfl⟩

/-- `9% done: {}` with an integer: printf takes `% d` for a conversion, the first of two. -/
theorem percent_opens_conversion :
    ¬ ∀ formatStr argTypes fmt printed, formatStringParse formatStr argTypes.length = some fmt → fmt.isValid = true →
      formatStringBuildPrintfFormat fmt argTypes = some printed → faithful formatStr argTypes printed = true := by
  intro h
  have hfaithful := h ['9', '%', ' ', 'd', 'o', 'n', 'e', ':', ' ', '{', '}'] [.int]
    ⟨some ['9', '%', ' ', 'd', 'o', 'n', 'e', ':', ' ', '%', 'd'], [⟨0, .int⟩], 1, true, none⟩
    ['9', '%', ' ', 'd', 'o', 'n', 'e', ':', ' ', '%', 'd'] (by decide +kernel) rfl (by decide +kernel)
  have hnot : faithful ['9', '%', ' ', 'd', 'o', 'n', 'e', ':', ' ', '{', '}'] [.int]
      ['9', '%', ' ', 'd', 'o', 'n', 'e', ':', ' ', '%', 'd'] = false := by decide +kernel
  rw [hnot] at hfaithful
  cases hfaithful

end Xvr.Format
