/-
  Xvr.Runtime.PrintedTexts — what is printed where memory is zeroed.

  There the NUL that `printToBuffer` leaves out stands behind the text already, and a buffer holds
  what has been printed to it (`Holding`); so every part appends its rendering (`Appends`).

  Proved:
  - `printToBuffer_appends`, `printBuffered_appends`: a string is appended, and so is a compound.
  - `printed_zeroed`: a compound is printed completely, if its strings and names fit into the
    arrays they are formatted in and the compounds inside it into 4096 characters.
-/

import Xvr.Runtime.PrintBuffers
import Xvr.Runtime.DeepCopy

namespace Xvr.Runtime

open Xvr.Lib.CStrings Xvr.Lib.Floats Xvr.Lib.Decimals

def zeroed : Nat → Nat → Char := fun _ _ => nul

/-! ## Appending -/

/-- The buffer holds the text, and NULs behind it. -/
structure Holding (printed : List (List Char)) (text : List Char) (s : PrintState) : Prop where
  buffer : s.buffer = text ++ List.replicate (s.capacity - text.length) nul
  count : s.count = text.length
  room : text.length < s.capacity ∨ text = [] ∧ s.capacity = 0
  inInt : s.capacity < 2 ^ 31
  printed : s.printed = printed

/-- Appends the text to what the buffer holds, as long as there is less than a gigabyte. -/
def Appends (f : PrintState → Option PrintState) (added : List Char) : Prop :=
  ∀ ⦃printed text s⦄, Holding printed text s → text.length + added.length < 2 ^ 30 →
    ∃ s', f s = some s' ∧ Holding printed (text ++ added) s'

section

variable {printed : List (List Char)} {text : List Char} {s : PrintState}

theorem Holding.le_capacity (h : Holding printed text s) : text.length ≤ s.capacity := by
  rcases h.room with hlt | ⟨rfl, -⟩
  · exact Nat.le_of_lt hlt
  · exact Nat.zero_le _

theorem Holding.length_buffer (h : Holding printed text s) : s.buffer.length = s.capacity := by
  have := h.le_capacity
  rw [h.buffer, List.length_append, List.length_replicate]
  omega

theorem holding_empty (s : PrintState) :
    Holding s.printed [] { s with buffer := [], capacity := 0, count := 0 } :=
  ⟨rfl, rfl, .inr ⟨rfl, rfl⟩, Nat.two_pow_pos 31, rfl⟩

theorem growCapacity_bound {capacity need : Nat} (hless : capacity < need) (hneed : need ≤ 2 ^ 30) :
    growCapacity capacity < 2 ^ 31 := by
  unfold growCapacity
  split <;> omega

/-- The loop ends with enough room, and keeps the text. -/
theorem grow_holding (need : Nat) (h : Holding printed text s) (hneed : need ≤ 2 ^ 30) :
    ∃ s', growPrintBuffer zeroed need s = some s' ∧ Holding printed text s' ∧ need ≤ s'.capacity := by
  induction s using growPrintBuffer.induct need with
  | case1 s hless ih =>
    have hmore := lt_growCapacity s.capacity
    have hle := h.le_capacity
    have hall : s.buffer.take (growCapacity s.capacity) = s.buffer :=
      List.take_of_length_le (by rw [h.length_buffer]; omega)
    have hbuffer : reallocate s.buffer (growCapacity s.capacity) (some (zeroed s.allocations)) =
        some (text ++ List.replicate (growCapacity s.capacity - text.length) nul) := by
      have hsplit : growCapacity s.capacity - text.length =
          (s.capacity - text.length) + (growCapacity s.capacity - s.capacity) := by omega
      have hfresh (n : Nat) : (List.range n).map (zeroed s.allocations) = List.replicate n nul := by
        rw [List.eq_replicate_iff, List.length_map, List.length_range]
        exact ⟨rfl, List.forall_mem_map.mpr fun _ _ => rfl⟩
      rw [reallocate, if_neg (by omega), hall, h.length_buffer, h.buffer, hsplit,
        ← List.replicate_append_replicate]
      simp [hfresh]
    have hgrown : Holding printed text { s with
        buffer := text ++ List.replicate (growCapacity s.capacity - text.length) nul
        capacity := growCapacity s.capacity, allocations := s.allocations + 1 } :=
      ⟨rfl, h.count, .inl (by dsimp only; omega), growCapacity_bound hless hneed, h.printed⟩
    obtain ⟨s', hrun, hholds, hroom⟩ := ih _ hgrown
    refine ⟨s', ?_, hholds, hroom⟩
    rw [growPrintBuffer, if_pos hless, hbuffer]
    exact hrun
  | case2 s hless => exact ⟨s, by rw [growPrintBuffer, if_neg hless], h, by omega⟩

/-- A string of no more than 4096 characters is appended, whatever stands behind its NUL. -/
theorem printToBuffer_appends {str : List Char} (hplain : nul ∉ str) (hlen : str.length ≤ 4096)
    (rest : List Char) : Appends (printToBuffer zeroed (str ++ nul :: rest)) str := by
  intro printed text s h hsmall
  have hcount := h.count
  obtain ⟨t, hgrow, hholds, hroom⟩ := grow_holding (str.length + s.count + 1) h (by omega)
  have hlength : safeStrlen (str ++ nul :: rest) 4096 = some str.length := by
    rw [safeStrlen_region hplain, Nat.min_eq_left hlen]
  have hcopy : min str.length (t.capacity - t.count) = str.length := by
    rw [hholds.count]
    omega
  rw [printToBuffer, hlength, Option.bind_eq_bind, Option.bind_some, hgrow, Option.bind_eq_bind, Option.bind_some]
  dsimp only
  rw [hcopy]
  by_cases hempty : str.length = 0
  · obtain rfl := List.length_eq_zero_iff.mp hempty
    exact ⟨t, by simp, by simpa using hholds⟩
  · have hin : ¬ t.buffer.length < t.count + str.length := by
      rw [hholds.length_buffer, hholds.count]
      omega
    rw [if_neg hempty, if_neg hin]
    refine ⟨_, rfl, ?_, ?_, .inl ?_, hholds.inInt, hholds.printed⟩
    · have hdrop : t.capacity - text.length - str.length = t.capacity - (text ++ str).length := by
        rw [List.length_append]
        omega
      dsimp only
      rw [hholds.buffer, hholds.count, List.take_left, List.take_left, ← List.drop_drop, List.drop_left,
        List.drop_replicate, hdrop]
    · dsimp only
      rw [hholds.count, List.length_append]
    · dsimp only
      rw [List.length_append]
      omega

end

namespace Appends

variable {f g : PrintState → Option PrintState} {a b : List Char}

theorem nothing : Appends some [] := fun _ _ s h _ => ⟨s, rfl, by simpa using h⟩

theorem bind (hf : Appends f a) (hg : Appends g b) : Appends (fun s => f s >>= g) (a ++ b) := by
  intro printed text s h hsmall
  rw [List.length_append] at hsmall
  obtain ⟨t, hrun, ht⟩ := hf h (by omega)
  obtain ⟨s', hrest, hs'⟩ := hg ht (by rw [List.length_append]; omega)
  refine ⟨s', ?_, by rwa [← List.append_assoc]⟩
  show (f s).bind g = some s'
  rw [hrun]
  exact hrest

/-- The quotes may be set before. -/
theorem setQuotes (hf : Appends f a) (quotes : Char) : Appends (fun s => f { s with quotes }) a :=
  fun _ _ _ h hsmall => hf ⟨h.buffer, h.count, h.room, h.inInt, h.printed⟩ hsmall

end Appends

theorem constant_appends (str : String) (hplain : nul ∉ str.toList) (hlen : str.toList.length ≤ 4096) :
    Appends (printToBuffer zeroed (constant str)) str.toList := printToBuffer_appends hplain hlen []

theorem printIf_appends (c : Bool) (str : String) (hplain : nul ∉ str.toList) (hlen : str.toList.length ≤ 4096) :
    Appends (printIf zeroed c (constant str)) (if c then str.toList else []) := by
  cases c
  · exact Appends.nothing
  · exact constant_appends str hplain hlen

theorem printBracketed_appends {contents : PrintState → Option PrintState} {parts : List (List Char)}
    (h : Appends contents ([','].intercalate parts)) : Appends (printBracketed zeroed contents) (bracketed parts) := by
  have hopen := constant_appends "[" (by decide) (by decide)
  have hclose := constant_appends "]" (by decide) (by decide)
  exact hopen.bind (h.bind hclose)

theorem throughInt_small {n : Nat} (h : n < 2 ^ 31) : throughInt n = n := by
  have hmsb : (BitVec.ofNat 32 n).msb = false := by
    rw [BitVec.msb_eq_false_iff_two_mul_lt, BitVec.toNat_ofNat]
    omega
  rw [throughInt, BitVec.signExtend_eq_setWidth_of_msb_false hmsb, BitVec.toNat_setWidth, BitVec.toNat_ofNat]
  omega

/-- The buffer of a compound whose contents are appended. -/
theorem contents_held {contents : PrintState → Option PrintState} {str : List Char} (h : Appends contents str)
    (hpos : 0 < str.length) (hsmall : str.length < 2 ^ 30) (s : PrintState) :
    ∃ (inner : PrintState) (rest : List Char),
      contents { s with buffer := [], capacity := 0, count := 0 } = some inner ∧ inner.buffer = str ++ nul :: rest ∧ inner.printed = s.printed := by
  obtain ⟨inner, hrun, hholds⟩ := h (holding_empty s) (by simpa using hsmall)
  rw [List.nil_append] at hholds
  have hroom : str.length < inner.capacity := by
    rcases hholds.room with hlt | ⟨rfl, -⟩
    · exact hlt
    · cases hpos
  obtain ⟨n, hn⟩ := Nat.exists_eq_add_of_lt hroom
  have hbuffer : inner.buffer = str ++ nul :: List.replicate n nul := by
    rw [hholds.buffer, hn, show str.length + n + 1 - str.length = n + 1 by omega, List.replicate_succ]
  exact ⟨inner, _, hrun, hbuffer, hholds.printed⟩

/-- A compound inside another. -/
theorem printBuffered_appends {contents : PrintState → Option PrintState} {str : List Char} (h : Appends contents str)
    (hplain : nul ∉ str) (hpos : 0 < str.length) (hlen : str.length ≤ 4096) :
    Appends (printBuffered (printToBuffer zeroed) contents) str := by
  intro printed text s hs hsmall
  obtain ⟨inner, rest, hrun, hbuffer, hprinted⟩ := contents_held h hpos (by omega) s
  have hcapacity : throughInt s.capacity = s.capacity := throughInt_small hs.inInt
  have hcount : throughInt s.count = s.count := by
    refine throughInt_small ?_
    rw [hs.count]
    omega
  let back : PrintState := { inner with buffer := s.buffer, capacity := s.capacity, count := s.count }
  have hback : Holding printed text back := ⟨hs.buffer, hs.count, hs.room, hs.inInt, hprinted.trans hs.printed⟩
  obtain ⟨t, hprint, ht⟩ := printToBuffer_appends hplain hlen rest hback hsmall
  refine ⟨{ t with quotes := nul }, ?_, ht.buffer, ht.count, ht.room, ht.inInt, ht.printed⟩
  rw [printBuffered, hrun, Option.bind_eq_bind, Option.bind_some, hbuffer, hcapacity, hcount, hprint]
  rfl

/-! ## Renderings without a NUL -/

theorem commas_cons (x : List Char) (xs : List (List Char)) :
    [','].intercalate (x :: xs) = x ++ xs.flatMap (',' :: ·) := by
  induction xs generalizing x with
  | nil => simp
  | cons y xs ih => simp [List.intercalate_cons_cons, ih]

theorem bracketed_plain {parts : List (List Char)} (h : ∀ x ∈ parts, nul ∉ x) : nul ∉ bracketed parts := by
  have hcommas : nul ∉ [','].intercalate parts := by
    cases parts with
    | nil => simp
    | cons x xs =>
      rw [commas_cons, List.mem_append, not_or]
      refine ⟨h x List.mem_cons_self, fun hmem => ?_⟩
      obtain ⟨y, hy, hnul⟩ := List.mem_flatMap.mp hmem
      rcases List.mem_cons.mp hnul with heq | hnul
      · cases heq
      · exact h y (List.mem_cons_of_mem _ hy) hnul
  simp only [bracketed, List.mem_cons, List.mem_append, List.not_mem_nil, or_false, not_or]
  exact ⟨by decide, hcommas, by decide⟩

theorem withQuotes_plain (quotes : Char) {text : List Char} (h : nul ∉ text) : nul ∉ withQuotes quotes text := by
  unfold withQuotes
  split
  · exact h
  · rename_i hquotes
    simp [h, Ne.symm hquotes]

theorem numeral_plain {text : List Char} (h : Numeral text) : nul ∉ text :=
  fun hmem => absurd (h nul hmem) (by decide)

theorem floatText_plain (beyond : ℚ → Bool) (exponentBits mantissaBits word : ℕ) :
    nul ∉ floatText beyond exponentBits mantissaBits word := by
  have hsigned {negative : Bool} {text : List Char} (h : nul ∉ text) : nul ∉ signed negative text := by
    cases negative
    · exact h
    · rw [signed, if_pos rfl, List.mem_cons, not_or]
      exact ⟨by decide, h⟩
  unfold floatText
  refine hsigned ?_
  cases ieeeValue exponentBits mantissaBits word with
  | none => dsimp only; split <;> decide
  | some x =>
    dsimp only
    split
    · exact numeral_plain (general_numeral _)
    · exact numeral_plain (fixed_numeral _ _)

theorem typeName_plain {t : LiteralType} {name : List Char} (h : typeName t = some name) :
    nul ∉ name ∧ name.length ≤ 4096 := by
  cases t <;> cases h <;> decide

/-- Directly inside a compound. -/
def Literal.Inside (x l : Literal) : Prop :=
  x ∈ l.parts ∨ ∃ d e, l = .dictionary d ∧ e ∈ liveEntries d.entries ∧ (x = e.key ∨ x = e.value)

theorem Literal.Inside.depth {x l : Literal} (h : x.Inside l) : x.depth < l.depth := by
  rcases h with h | ⟨d, e, rfl, he, rfl | rfl⟩
  · exact parts_depth h
  · exact (entry_depth he).1
  · exact (entry_depth he).2

theorem Literal.Inside.everywhere {test : Literal → Bool} {x l : Literal} (h : x.Inside l)
    (hl : l.everywhere test = true) : x.everywhere test = true := by
  rcases h with h | ⟨d, e, rfl, he, rfl | rfl⟩
  · exact everywhere_part hl h
  · exact (everywhere_entry hl he).1
  · exact (everywhere_entry hl he).2

section

variable (beyond : ℚ → Bool)

/-- A string or name has no NUL and fits into its array, and so does the text of anything else
    without parts; the count of a dictionary tells whether it is empty, and a type has the
    subtypes it needs. -/
def Literal.fits : Literal → Bool
  | .string text => nul ∉ text && text.length + 2 < 4096
  | .identifier name => nul ∉ name && name.length < 256
  | .array _ => true
  | .dictionary d => decide (d.count = 0) == (renderEntries beyond d.entries).isEmpty
  | .type t _ subtypes =>
    subtypes.all Literal.isCompound && (t ≠ .array || subtypes.length ≤ 1) &&
      (t ≠ .dictionary || subtypes.length = 0 || subtypes.length = 2)
  | l => ((scalarText beyond nul l).getD []).length < 256

variable {beyond}

theorem fits_string {text : List Char} (h : (Literal.string text).fits beyond = true) :
    nul ∉ text ∧ text.length + 2 < 4096 := by
  have hboth : (decide (nul ∉ text) && decide (text.length + 2 < 4096)) = true := h
  rwa [Bool.and_eq_true, decide_eq_true_iff, decide_eq_true_iff] at hboth

theorem fits_identifier {name : List Char} (h : (Literal.identifier name).fits beyond = true) :
    nul ∉ name ∧ name.length < 256 := by
  have hboth : (decide (nul ∉ name) && decide (name.length < 256)) = true := h
  rwa [Bool.and_eq_true, decide_eq_true_iff, decide_eq_true_iff] at hboth

theorem fits_type {t : LiteralType} {c : Bool} {subtypes : List Literal}
    (h : (Literal.type t c subtypes).fits beyond = true) :
    (∀ l ∈ subtypes, l.isCompound = true) ∧ (t = .array → subtypes.length ≤ 1) ∧
      (t = .dictionary → subtypes.length = 0 ∨ subtypes.length = 2) := by
  have hall : (subtypes.all Literal.isCompound && (t ≠ .array || subtypes.length ≤ 1) &&
      (t ≠ .dictionary || subtypes.length = 0 || subtypes.length = 2)) = true := h
  simp only [Bool.and_eq_true, Bool.or_eq_true, decide_eq_true_iff, List.all_eq_true, or_assoc] at hall
  obtain ⟨⟨hcompounds, harray⟩, hdictionary⟩ := hall
  exact ⟨hcompounds, fun ht => harray.resolve_left (not_not.mpr ht),
    fun ht => hdictionary.resolve_left (not_not.mpr ht)⟩

theorem scalarText_plain {l : Literal} (h : l.fits beyond = true) {quotes : Char} {text : List Char}
    (htext : scalarText beyond quotes l = some text) : nul ∉ text := by
  cases l <;> cases htext
  case string => exact withQuotes_plain quotes (fits_string h).1
  case identifier => exact (fits_identifier h).1
  case boolean value => cases value <;> decide
  all_goals first
    | exact numeral_plain (integer_numeral _)
    | exact floatText_plain beyond _ _ _
    | decide

/-! ## Parts -/

theorem renderList_plain {quotes : Char} {ls : List Literal} (h : ∀ l ∈ ls, nul ∉ render beyond quotes l) :
    ∀ x ∈ renderList beyond quotes ls, nul ∉ x := by
  induction ls with
  | nil => simp [renderList]
  | cons l ls ih =>
    rw [renderList, List.forall_mem_cons]
    exact ⟨h l List.mem_cons_self, ih fun x hx => h x (List.mem_cons_of_mem l hx)⟩

/-- What is printed of a literal between the given quotes. -/
abbrev printQuoted (beyond : ℚ → Bool) (quotes : Char) (l : Literal) (s : PrintState) : Option PrintState :=
  printLiteralCustom zeroed beyond (printToBuffer zeroed) l { s with quotes }

theorem printElements_appends {es : List Literal}
    (h : ∀ e ∈ es, Appends (printQuoted beyond '"' e) (render beyond '"' e)) :
    Appends (printElements zeroed beyond es) ([','].intercalate (renderList beyond '"' es)) := by
  induction es with
  | nil => exact Appends.nothing
  | cons e es ih =>
    have hrest := ih fun x hx => h x (List.mem_cons_of_mem e hx)
    have hcomma := printIf_appends (!es.isEmpty) "," (by decide) (by decide)
    have happends := (h e List.mem_cons_self).bind (hcomma.bind hrest)
    have htext : [','].intercalate (renderList beyond '"' (e :: es)) =
        render beyond '"' e ++ ((if !es.isEmpty then ",".toList else []) ++
          [','].intercalate (renderList beyond '"' es)) := by
      cases es with
      | nil => simp [renderList]
      | cons e' es => simp [renderList, List.intercalate_cons_cons]
    rw [htext]
    exact happends

theorem printEntry_appends {key value : Literal} (hkey : Appends (printQuoted beyond '"' key) (render beyond '"' key))
    (hvalue : Appends (printQuoted beyond '"' value) (render beyond '"' value)) (hlive : key.isNull = false)
    (delimCount : Nat) :
    Appends (printEntry zeroed beyond ⟨key, value⟩ delimCount)
      ((if 0 < delimCount then ",".toList else []) ++ renderEntry beyond ⟨key, value⟩) := by
  have hcomma := printIf_appends (0 < delimCount) "," (by decide) (by decide)
  have hcolon := constant_appends ":" (by decide) (by decide)
  have happends := hcomma.bind (hkey.bind (hcolon.bind hvalue))
  intro printed text s hs hsmall
  rw [printEntry, if_neg (by simp [hlive])]
  simpa [renderEntry] using happends hs (by simpa [renderEntry] using hsmall)

theorem forall_live_cons {P : Entry Literal → Prop} {e : Entry Literal} {es : List (Entry Literal)} :
    (∀ x ∈ liveEntries (e :: es), P x) ↔ (e.key.isNull = false → P e) ∧ ∀ x ∈ liveEntries es, P x := by
  cases h : e.key.isNull <;> simp [liveEntries, Entry.live, h]

theorem renderEntries_null {e : Entry Literal} (h : e.key.isNull = true) (es : List (Entry Literal)) :
    renderEntries beyond (e :: es) = renderEntries beyond es := by rw [renderEntries, if_pos h]

theorem renderEntries_live {e : Entry Literal} (h : e.key.isNull = false) (es : List (Entry Literal)) :
    renderEntries beyond (e :: es) = renderEntry beyond e :: renderEntries beyond es := by
  rw [renderEntries, if_neg (by simp [h])]

theorem renderEntries_plain {es : List (Entry Literal)}
    (h : ∀ e ∈ liveEntries es, nul ∉ render beyond '"' e.key ∧ nul ∉ render beyond '"' e.value) :
    ∀ x ∈ renderEntries beyond es, nul ∉ x := by
  induction es with
  | nil => simp [renderEntries]
  | cons e es ih =>
    obtain ⟨hentry, hrest⟩ := forall_live_cons.mp h
    cases hnull : e.key.isNull with
    | true =>
      rw [renderEntries_null hnull]
      exact ih hrest
    | false =>
      obtain ⟨hkey, hvalue⟩ := hentry hnull
      rw [renderEntries_live hnull, List.forall_mem_cons]
      refine ⟨?_, ih hrest⟩
      rw [renderEntry, List.mem_append, List.mem_cons, not_or, not_or]
      exact ⟨hkey, by decide, hvalue⟩

/-- The bindings printed behind so many others. -/
theorem printEntries_appends {es : List (Entry Literal)}
    (h : ∀ e ∈ liveEntries es, Appends (printQuoted beyond '"' e.key) (render beyond '"' e.key) ∧
      Appends (printQuoted beyond '"' e.value) (render beyond '"' e.value)) (delimCount : Nat) :
    Appends (printEntries zeroed beyond es delimCount)
      (if 0 < delimCount then (renderEntries beyond es).flatMap (',' :: ·)
        else [','].intercalate (renderEntries beyond es)) := by
  induction es generalizing delimCount with
  | nil =>
    simp only [renderEntries, List.flatMap_nil, List.intercalate_nil, ite_self]
    exact Appends.nothing
  | cons e es ih =>
    obtain ⟨hentry, hrest⟩ := forall_live_cons.mp h
    cases hnull : e.key.isNull with
    | true =>
      rw [renderEntries_null hnull]
      intro printed text s hs hsmall
      obtain ⟨s', hrun, hs'⟩ := ih hrest delimCount hs hsmall
      refine ⟨s', ?_, hs'⟩
      rw [printEntries, printEntry, if_pos hnull, if_pos hnull]
      exact hrun
    | false =>
      obtain ⟨hkey, hvalue⟩ := hentry hnull
      have happends := (printEntry_appends hkey hvalue hnull delimCount).bind (ih hrest (delimCount + 1))
      have htext : (if 0 < delimCount then (renderEntries beyond (e :: es)).flatMap (',' :: ·)
            else [','].intercalate (renderEntries beyond (e :: es))) =
          (if 0 < delimCount then ",".toList else []) ++ renderEntry beyond e ++
            (if 0 < delimCount + 1 then (renderEntries beyond es).flatMap (',' :: ·)
              else [','].intercalate (renderEntries beyond es)) := by
        rw [renderEntries_live hnull, commas_cons, if_pos (Nat.succ_pos delimCount)]
        split <;> simp
      rw [htext]
      intro printed text s hs hsmall
      obtain ⟨s', hrun, hs'⟩ := happends hs hsmall
      refine ⟨s', ?_, hs'⟩
      rw [printEntries, if_neg (by simp [hnull])]
      exact hrun

theorem printDictionary_appends {d : Dictionary} (hcount : d.count = 0 ↔ renderEntries beyond d.entries = [])
    (h : ∀ e ∈ liveEntries d.entries, Appends (printQuoted beyond '"' e.key) (render beyond '"' e.key) ∧
      Appends (printQuoted beyond '"' e.value) (render beyond '"' e.value)) :
    Appends (printBracketed zeroed (printDictionary zeroed beyond d)) (renderDictionary beyond d) := by
  obtain ⟨entries, count, contains⟩ := d
  have hcolon := printIf_appends (count = 0) ":" (by decide) (by decide)
  have hentries := (printEntries_appends h 0).bind hcolon
  rw [renderDictionary]
  refine printBracketed_appends ?_
  have htext : [','].intercalate
        (if (renderEntries beyond entries).isEmpty then [[':']] else renderEntries beyond entries) =
      [','].intercalate (renderEntries beyond entries) ++ (if decide (count = 0) then ":".toList else []) := by
    by_cases hempty : renderEntries beyond entries = []
    · have hzero : count = 0 := hcount.mpr hempty
      simp [hempty, hzero]
    · have hne : ¬ count = 0 := fun heq => hempty (hcount.mp heq)
      simp [hempty, hne]
  rw [htext]
  exact hentries

/-- A type prints its subtypes as it finds the quotes. -/
abbrev printInside (beyond : ℚ → Bool) (l : Literal) : PrintState → Option PrintState :=
  printLiteralCustom zeroed beyond (printToBuffer zeroed) l

theorem printSubtypes_appends {ls : List Literal} (hlen : ls.length ≤ 1)
    (h : ∀ l ∈ ls, Appends (printInside beyond l) (render beyond nul l)) :
    Appends (printSubtypes zeroed beyond ls) ([','].intercalate (renderList beyond nul ls)) := by
  match ls with
  | [] => exact Appends.nothing
  | [l] =>
    have htext : [','].intercalate (renderList beyond nul [l]) = render beyond nul l ++ [] := by simp [renderList]
    rw [htext]
    exact (h l List.mem_cons_self).bind Appends.nothing
  | _ :: _ :: _ => simp at hlen

theorem printPairs_appends {ls : List Literal} (hlen : ls.length = 0 ∨ ls.length = 2)
    (h : ∀ l ∈ ls, Appends (printInside beyond l) (render beyond nul l)) :
    Appends (printPairs zeroed beyond ls) ([','].intercalate (renderPairs beyond ls)) := by
  match ls with
  | [] => exact Appends.nothing
  | [l, r] =>
    have hcolon := constant_appends ":" (by decide) (by decide)
    have hright := (h r (by simp)).bind Appends.nothing
    have htext : [','].intercalate (renderPairs beyond [l, r]) =
        render beyond nul l ++ (":".toList ++ (render beyond nul r ++ [])) := by simp [renderPairs]
    rw [htext]
    exact (h l (by simp)).bind (hcolon.bind hright)
  | [_] => simp at hlen
  | _ :: _ :: _ :: _ => simp at hlen

theorem renderPairs_plain {ls : List Literal} (h : ∀ l ∈ ls, nul ∉ render beyond nul l) :
    ∀ x ∈ renderPairs beyond ls, nul ∉ x := by
  match ls with
  | [] => simp [renderPairs]
  | [_] => simp [renderPairs]
  | l :: r :: ls =>
    rw [renderPairs, List.forall_mem_cons]
    refine ⟨?_, renderPairs_plain fun x hx => h x (by simp [hx])⟩
    rw [List.mem_append, List.mem_cons, not_or, not_or]
    exact ⟨h l (by simp), by decide, h r (by simp)⟩

/-- What the `switch` over a type prints. -/
def nameOf (beyond : ℚ → Bool) (t : LiteralType) (subtypes : List Literal) : List Char :=
  if t = .array then bracketed (renderList beyond nul subtypes)
  else if t = .dictionary then bracketed (renderPairs beyond subtypes)
  else (typeName t).getD []

theorem render_type (quotes : Char) (t : LiteralType) (c : Bool) (subtypes : List Literal) :
    render beyond quotes (.type t c subtypes) =
      '<' :: (nameOf beyond t subtypes ++ (if c then " const".toList else []) ++ ['>']) := rfl

theorem ifConst_plain (c : Bool) : nul ∉ if c then " const".toList else [] := by
  cases c <;> decide

theorem nameOf_plain {t : LiteralType} {subtypes : List Literal} (h : ∀ l ∈ subtypes, nul ∉ render beyond nul l) :
    nul ∉ nameOf beyond t subtypes := by
  unfold nameOf
  split
  · exact bracketed_plain (renderList_plain h)
  · split
    · exact bracketed_plain (renderPairs_plain h)
    · cases hname : typeName t with
      | none => simp
      | some name => exact (typeName_plain hname).1

theorem printTypeOf_appends {t : LiteralType} {subtypes : List Literal} {c : Bool}
    (hfits : (Literal.type t c subtypes).fits beyond = true)
    (h : ∀ l ∈ subtypes, Appends (printInside beyond l) (render beyond nul l)) :
    Appends (printTypeOf zeroed t (printSubtypes zeroed beyond subtypes) (printPairs zeroed beyond subtypes))
      (nameOf beyond t subtypes) := by
  obtain ⟨-, harray, hdictionary⟩ := fits_type hfits
  intro printed text s hs hsmall
  unfold printTypeOf
  unfold nameOf at hsmall ⊢
  by_cases ht : t = .array
  · rw [if_pos ht] at hsmall ⊢
    rw [if_pos ht]
    exact printBracketed_appends (printSubtypes_appends (harray ht) h) hs hsmall
  · rw [if_neg ht] at hsmall ⊢
    rw [if_neg ht]
    by_cases ht' : t = .dictionary
    · rw [if_pos ht'] at hsmall ⊢
      rw [if_pos ht']
      exact printBracketed_appends (printPairs_appends (hdictionary ht') h) hs hsmall
    · rw [if_neg ht'] at hsmall ⊢
      rw [if_neg ht']
      cases hname : typeName t with
      | none => exact Appends.nothing hs (by simp [hname] at hsmall ⊢; omega)
      | some name =>
        obtain ⟨hplain, hlen⟩ := typeName_plain hname
        exact printToBuffer_appends hplain hlen [] hs (by simpa [hname] using hsmall)

/-! ## Literals -/

/-- Printed to a buffer, the literal appends its rendering, in which there is no NUL. -/
structure Printed (beyond : ℚ → Bool) (l : Literal) : Prop where
  plain (quotes : Char) : nul ∉ render beyond quotes l
  quoted (quotes : Char) : Appends (printQuoted beyond quotes l) (render beyond quotes l)
  inside : l.isCompound = true → Appends (printInside beyond l) (render beyond nul l)

/-- The literal is printed by way of a buffer, to which its rendering is appended. -/
structure Buffered (beyond : ℚ → Bool) (quotes : Char) (l : Literal) : Prop where
  plain : nul ∉ render beyond quotes l
  pos : 0 < (render beyond quotes l).length
  contents : ∃ contents, Appends contents (render beyond quotes l) ∧
    ∀ printFn s, printLiteralCustom zeroed beyond printFn l s = printBuffered printFn contents s

theorem array_buffered {es : List Literal} (h : ∀ x : Literal, x.Inside (.array es) → Printed beyond x)
    (quotes : Char) : Buffered beyond quotes (.array es) := by
  have hin (e : Literal) (he : e ∈ es) : Printed beyond e := h e (.inl he)
  have hplain := renderList_plain fun e he => (hin e he).plain '"'
  have hprint := printElements_appends fun e he => (hin e he).quoted '"'
  exact ⟨bracketed_plain hplain, Nat.succ_pos _, _, printBracketed_appends hprint, fun _ _ => rfl⟩

theorem dictionary_buffered {d : Dictionary} (hfits : (Literal.dictionary d).fits beyond = true)
    (h : ∀ x : Literal, x.Inside (.dictionary d) → Printed beyond x) (quotes : Char) :
    Buffered beyond quotes (.dictionary d) := by
  have hin (e : Entry Literal) (he : e ∈ liveEntries d.entries) : Printed beyond e.key ∧ Printed beyond e.value :=
    ⟨h e.key (.inr ⟨d, e, rfl, he, .inl rfl⟩), h e.value (.inr ⟨d, e, rfl, he, .inr rfl⟩)⟩
  have hcount : d.count = 0 ↔ renderEntries beyond d.entries = [] := by
    have hempty : decide (d.count = 0) = (renderEntries beyond d.entries).isEmpty := beq_iff_eq.mp hfits
    rw [← List.isEmpty_iff, ← hempty, decide_eq_true_iff]
  have hprint := printDictionary_appends hcount fun e he => ⟨(hin e he).1.quoted '"', (hin e he).2.quoted '"'⟩
  have hplain := renderEntries_plain fun e he => ⟨(hin e he).1.plain '"', (hin e he).2.plain '"'⟩
  obtain ⟨entries, count, contains⟩ := d
  refine ⟨bracketed_plain ?_, Nat.succ_pos _, _, hprint, fun _ _ => rfl⟩
  split
  · rw [List.forall_mem_singleton]
    decide
  · exact hplain

theorem type_buffered {t : LiteralType} {c : Bool} {subtypes : List Literal}
    (hfits : (Literal.type t c subtypes).fits beyond = true)
    (h : ∀ x : Literal, x.Inside (.type t c subtypes) → Printed beyond x) (quotes : Char) :
    Buffered beyond quotes (.type t c subtypes) := by
  have hin (l : Literal) (hl : l ∈ subtypes) : Printed beyond l := h l (.inl hl)
  have hcompounds : ∀ l ∈ subtypes, l.isCompound = true := (fits_type hfits).1
  have hname := printTypeOf_appends hfits fun l hl => (hin l hl).inside (hcompounds l hl)
  have hnamePlain : nul ∉ nameOf beyond t subtypes := nameOf_plain fun l hl => (hin l hl).plain nul
  have hplain : nul ∉ render beyond quotes (.type t c subtypes) := by
    simp only [render_type, List.mem_cons, List.mem_append, List.not_mem_nil, or_false, not_or]
    exact ⟨by decide, ⟨hnamePlain, ifConst_plain c⟩, by decide⟩
  have hopen := constant_appends "<" (by decide) (by decide)
  have hconst := printIf_appends c " const" (by decide) (by decide)
  have hclose := constant_appends ">" (by decide) (by decide)
  have happends := hopen.bind (hname.bind (hconst.bind hclose))
  have htext : render beyond quotes (.type t c subtypes) =
      "<".toList ++ (nameOf beyond t subtypes ++ ((if c then " const".toList else []) ++ ">".toList)) := by
    rw [render_type, List.append_assoc]
    rfl
  rw [← htext] at happends
  exact ⟨hplain, Nat.succ_pos _, _, happends, fun _ _ => rfl⟩

theorem compound_buffered {l : Literal} (hcompound : l.isCompound = true) (hfits : l.fits beyond = true)
    (h : ∀ x : Literal, x.Inside l → Printed beyond x) (quotes : Char) : Buffered beyond quotes l := by
  cases l with
  | array es => exact array_buffered h quotes
  | dictionary d => exact dictionary_buffered hfits h quotes
  | type t c subtypes => exact type_buffered hfits h quotes
  | _ => cases hcompound

theorem precisionText_plain {text : List Char} (h : nul ∉ text) (hlen : text.length < 2 ^ 31) :
    precisionText text = text := by
  have hprecision : (BitVec.ofNat 32 text.length).toInt = text.length := by
    rw [BitVec.toInt_eq_toNat_of_lt (by rw [BitVec.toNat_ofNat]; omega), BitVec.toNat_ofNat,
      Nat.mod_eq_of_lt (by omega)]
  simp only [precisionText, hprecision, if_neg (Int.not_lt.mpr (Int.natCast_nonneg _)), Int.toNat_natCast]
  exact textWithin_self h

theorem snprintf_fits {size : Nat} {text : List Char} (h : text.length < size) : snprintf size text = text :=
  List.take_of_length_le (by omega)

theorem length_withQuotes (quotes : Char) (text : List Char) : (withQuotes quotes text).length ≤ text.length + 2 := by
  unfold withQuotes
  split <;> simp

theorem printedText_number {l : Literal} {quotes : Char}
    (hfits : decide (((scalarText beyond nul l).getD []).length < 256) = true)
    (hquotes : scalarText beyond quotes l = scalarText beyond nul l)
    (hprinted : printedText beyond quotes l = (scalarText beyond quotes l).map (snprintf 256)) :
    printedText beyond quotes l = scalarText beyond quotes l ∧
      ((scalarText beyond quotes l).getD []).length ≤ 4096 := by
  rw [decide_eq_true_iff] at hfits
  rw [hprinted, hquotes]
  cases htext : scalarText beyond nul l with
  | none => exact ⟨rfl, Nat.zero_le _⟩
  | some text =>
    rw [htext, Option.getD_some] at hfits
    rw [Option.map_some, Option.getD_some, snprintf_fits hfits]
    exact ⟨rfl, by omega⟩

/-- What fits is printed whole. -/
theorem printedText_fits {l : Literal} (hfits : l.fits beyond = true) (hscalar : l.isCompound = false) (quotes : Char) :
    printedText beyond quotes l = scalarText beyond quotes l ∧
      ((scalarText beyond quotes l).getD []).length ≤ 4096 := by
  cases l with
  | string text =>
    obtain ⟨hplain, hlen⟩ := fits_string hfits
    have hquoted := length_withQuotes quotes text
    have hprinted : printedText beyond quotes (.string text) =
        some (snprintf 4096 (withQuotes quotes (precisionText text))) := rfl
    rw [hprinted, precisionText_plain hplain (by omega), snprintf_fits (by omega)]
    exact ⟨rfl, show (withQuotes quotes text).length ≤ 4096 by omega⟩
  | identifier name =>
    obtain ⟨hplain, hlen⟩ := fits_identifier hfits
    have hprinted : printedText beyond quotes (.identifier name) = some (snprintf 256 (precisionText name)) := rfl
    rw [hprinted, precisionText_plain hplain (by omega), snprintf_fits hlen]
    exact ⟨rfl, show name.length ≤ 4096 by omega⟩
  | array | dictionary | type => cases hscalar
  | _ => exact printedText_number hfits rfl rfl

theorem render_scalar {l : Literal} (h : l.isCompound = false) (quotes : Char) :
    render beyond quotes l = (scalarText beyond quotes l).getD [] := by
  cases l with
  | array | dictionary | type => cases h
  | _ => rfl

theorem scalar_printed {l : Literal} (hfits : l.fits beyond = true) (hscalar : l.isCompound = false) :
    Printed beyond l := by
  have hrun (quotes : Char) (s : PrintState) :
      printQuoted beyond quotes l s = printScalar beyond (printToBuffer zeroed) l { s with quotes } := by
    cases l with
    | array | dictionary | type => cases hscalar
    | _ => rfl
  refine ⟨fun quotes => ?_, fun quotes => ?_, fun hcompound => ?_⟩
  · rw [render_scalar hscalar]
    cases htext : scalarText beyond quotes l with
    | none => simp
    | some text => exact scalarText_plain hfits htext
  · obtain ⟨hprinted, hlen⟩ := printedText_fits hfits hscalar quotes
    rw [render_scalar hscalar]
    intro printed text s hs hsmall
    rw [hrun, printScalar, hprinted]
    cases htext : scalarText beyond quotes l with
    | none =>
      rw [htext] at hsmall
      exact Appends.nothing.setQuotes quotes hs hsmall
    | some added =>
      rw [htext] at hlen hsmall
      exact (printToBuffer_appends (scalarText_plain hfits htext) hlen []).setQuotes quotes hs hsmall
  · rw [hscalar] at hcompound
    cases hcompound

/-- A compound inside another is short enough for `printToBuffer`. -/
def Literal.fitsInside (beyond : ℚ → Bool) (l : Literal) : Bool :=
  l.fits beyond && (!l.isCompound || (render beyond nul l).length ≤ 4096)

theorem render_compound {l : Literal} (h : l.isCompound = true) (quotes : Char) :
    render beyond quotes l = render beyond nul l := by
  cases l <;> first | rfl | cases h

theorem printed_inside {l : Literal} (h : l.everywhere (Literal.fitsInside beyond) = true) : Printed beyond l := by
  induction hn : l.depth using Nat.strong_induction_on generalizing l with
  | _ n ih =>
    subst hn
    have hself := everywhere_self h
    rw [Literal.fitsInside, Bool.and_eq_true] at hself
    obtain ⟨hfits, hshort⟩ := hself
    cases hcompound : l.isCompound with
    | false => exact scalar_printed hfits hcompound
    | true =>
      have hlen : (render beyond nul l).length ≤ 4096 := by simpa [hcompound] using hshort
      obtain ⟨hplain, hpos, contents, hcontents, hrun⟩ := compound_buffered hcompound hfits
        (fun x hx => ih x.depth hx.depth (hx.everywhere h) rfl) nul
      have hbuffered := printBuffered_appends hcontents hplain hpos hlen
      have happends : Appends (printInside beyond l) (render beyond nul l) := by
        intro printed text s hs hsmall
        rw [printInside, hrun]
        exact hbuffered hs hsmall
      refine ⟨fun quotes => ?_, fun quotes => ?_, fun _ => happends⟩
      · rwa [render_compound hcompound]
      · rw [render_compound hcompound]
        exact happends.setQuotes quotes

/-- A compound of less than a gigabyte is printed completely, whatever is inside it. -/
theorem printed_zeroed {l : Literal} (hcompound : l.isCompound = true) (hfits : l.fits beyond = true)
    (hinside : ∀ x : Literal, x.Inside l → x.everywhere (Literal.fitsInside beyond) = true)
    (hsmall : (render beyond nul l).length < 2 ^ 30) (s : PrintState) : PrintsCompletely zeroed beyond l s := by
  obtain ⟨hplain, hpos, contents, hcontents, hrun⟩ := compound_buffered hcompound hfits
    (fun x hx => printed_inside (hinside x hx)) s.quotes
  rw [← render_compound hcompound s.quotes] at hsmall
  obtain ⟨inner, rest, hinner, hbuffer, hprinted⟩ := contents_held hcontents hpos hsmall s
  have hend : nul ∈ inner.buffer := by
    rw [hbuffer]
    simp
  have htext : textWithin inner.buffer.length inner.buffer = render beyond s.quotes l := by
    rw [hbuffer, textWithin_plain hplain]
    exact List.take_of_length_le (by simp)
  refine ⟨_, inner.buffer, (hrun callerPrint s).trans (printBuffered_caller hinner), ?_, hend, htext⟩
  dsimp only
  rw [hprinted]

/-- `[["a"],2]`. -/
example (s : PrintState) : PrintsCompletely zeroed beyond (.array [.array [.string ['a']], .integer 2]) s := by
  have hinside : Literal.everywhere (Literal.fitsInside beyond) (.array [.array [.string ['a']], .integer 2]) = true :=
    rfl
  have htext : render beyond nul (.array [.array [.string ['a']], .integer 2]) = "[[\"a\"],2]".toList := rfl
  exact printed_zeroed rfl rfl (fun x hx => hx.everywhere hinside) (by rw [htext]; decide) s

end

end Xvr.Runtime
