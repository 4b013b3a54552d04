/-
  Xvr.Frontend.GrammarCompounds — the grammar's compound literals, as the loop of `compound`
  reads them.

  The loop learns from its first entry whether it reads an array or a dictionary, and every
  entry but the first has a comma in front of it. `Enters`: from inside the loop, behind the
  comma, the tokens up to the closing bracket add their nodes to those collected. A list of
  entries is followed from its end to its front, so one entry is one lemma for either kind.

  Proved: `Enters.last`, `Enters.more`, and from them `brings_array`, `brings_dictionary`;
  `brings_emptyArray`, `brings_emptyDictionary`.
-/

import Xvr.Frontend.GrammarExpressions

namespace Xvr.Frontend.Parse

open Xvr.Runtime Xvr.Lib

variable (z : Parser → Node → Bool)

/-! ## Entries -/

/-- Behind the comma. -/
def entryTurn (rec : Rec) (entries : Entries) : P CompoundTurn := do
  let left ← rec.parsePrecedence .null .primary
  if left.isNull then pure (.inr none)
  else if ← matchToken .colon then dictionaryEntry rec entries left
  else arrayEntry entries left

theorem compoundEntry_eq (rec : Rec) (entries : Entries) :
    compoundEntry rec entries =
      compoundComma entries >>= fun _ => entryTurn rec { entries with iterations := entries.iterations + 1 } := rfl

/-- What the loop holds of an array's nodes. -/
def arrayed (nodes : List Node) : Entries := ⟨if nodes.isEmpty then none else some nodes, none, nodes.length⟩

/-- What the loop holds of a dictionary's entries. -/
def paired (nodes : List Node) : Entries := ⟨none, if nodes.isEmpty then none else some nodes, nodes.length⟩

def Entries.counted (entries : Entries) : Entries := { entries with iterations := entries.iterations + 1 }

/-- The tokens of one entry, read behind a comma and up to a mark behind it. -/
structure EntryText (collected : List Node → Entries) (tokens : List Token) (node : Node) : Prop where
  starts : ∃ t ts, tokens = t :: ts ∧ startsExpression t.type = true
  read : ∀ {type : TokenType} (m : Mark type), type = .comma ∨ type = .bracketRight →
    ∀ before n p ts (tail : TokenStream), 8 * tokens.length + 7 ≤ n → Poised p (tail.prepend (tokens ++ m.token :: ts)) →
    ∃ q, entryTurn (recAt z (n + 1)) (collected before).counted p = .ok (.inl (collected (before ++ [node]))) q ∧
      Poised q (tail.prepend (m.token :: ts))

/-- The tokens of the entries to come add their nodes to those collected. -/
structure Enters (collected : List Node → Entries) (tokens : List Token) (nodes : List Node) : Prop where
  starts : ∃ t ts, tokens = t :: ts ∧ startsExpression t.type = true
  given : nodes ≠ []
  short : nodes.length ≤ tokens.length
  read : ∀ before k n p tail (right : Mark .bracketRight), Clean tail → nodes.length ≤ k → 8 * tokens.length + 7 ≤ n →
    Poised p (tail.prepend (tokens ++ [right.token])) →
    ∃ q, (entryTurn (recAt z (n + 1)) (collected before).counted >>= loopNext .outOfFuel (compoundTurn (recAt z (n + 1))) k) p =
      .ok (some (collected (before ++ nodes))) q ∧ Poised q tail

variable {z} {reach : Nat} {collected : List Node → Entries} {xs ys : List Token} {x y : Node} {nodes : List Node}

theorem clean_of_start {t : Token} {ts : List Token} (heq : xs = t :: ts) (h : startsExpression t.type = true) (zs : List Token)
    (tail : TokenStream) : Clean (tail.prepend (xs ++ zs)) := by
  rw [heq]
  exact clean_of_starts h tail

/-- A turn of the loop at a comma. -/
theorem compoundTurn_comma (rec : Rec) {entries : Entries} (hentries : entries.iterations ≠ 0) (comma : Mark .comma) {p : Parser}
    {ts : List Token} {tail : TokenStream} (hclean : Clean (tail.prepend ts)) (hp : Poised p (tail.prepend (comma.token :: ts))) :
    compoundTurn rec entries p = entryTurn rec entries.counted (advanced p) ∧ Poised (advanced p) (tail.prepend ts) := by
  obtain ⟨hcomma, hq⟩ := consume_poised comma "Expected ',' in array or dictionary" hclean hp
  refine ⟨?_, hq⟩
  unfold compoundTurn
  rw [bind_ok (match_other hp (by rw [comma.isType]; nofun))]
  show (if entries.iterations = 0 then _ else compoundEntry rec entries : P CompoundTurn) p = _
  rw [if_neg hentries, compoundEntry_eq]
  unfold compoundComma
  rw [if_pos (Nat.pos_of_ne_zero hentries)]
  exact bind_ok hcomma

theorem compoundTurn_close (rec : Rec) (entries : Entries) (right : Mark .bracketRight) {p : Parser} {tail : TokenStream}
    (hclean : Clean tail) (hp : Poised p (tail.prepend [right.token])) :
    compoundTurn rec entries p = .ok (.inr (some entries)) (advanced p) ∧ Poised (advanced p) tail := by
  obtain ⟨hmatch, hq⟩ := match_mark right hp hclean
  exact ⟨bind_ok hmatch, hq⟩

theorem Enters.last (h : EntryText z collected xs x) : Enters z collected xs [x] := by
  obtain ⟨t, ts, htokens, hstart⟩ := h.starts
  refine ⟨h.starts, nofun, by rw [htokens]; exact Nat.le_add_left _ _, fun before k n p tail right hclean hk hn hp => ?_⟩
  obtain ⟨q, hrun, hq⟩ := h.read right (.inr rfl) before n p [] tail hn hp
  obtain ⟨k, rfl⟩ : ∃ k', k = k' + 1 := ⟨k - 1, by simp at hk; omega⟩
  obtain ⟨hclose, hq'⟩ := compoundTurn_close (recAt z (n + 1)) (collected (before ++ [x])) right hclean hq
  exact ⟨advanced q, (bind_ok hrun).trans (bind_ok hclose), hq'⟩

theorem Enters.more (hcount : ∀ nodes, (collected nodes).iterations = nodes.length) (h : EntryText z collected xs x)
    (comma : Mark .comma) (hs : Enters z collected ys nodes) : Enters z collected (xs ++ comma.token :: ys) (x :: nodes) := by
  obtain ⟨t, ts, htokens, hstart⟩ := h.starts
  obtain ⟨u, us, hothers, hnext⟩ := hs.starts
  have hshort := hs.short
  refine ⟨⟨t, ts ++ comma.token :: ys, by rw [htokens]; rfl, hstart⟩, nofun, ?_, fun before k n p tail right hclean hk hn hp => ?_⟩
  · simp only [List.length_cons, List.length_append]
    omega
  · simp only [List.length_append, List.length_cons] at hn hk
    rw [List.append_assoc] at hp
    obtain ⟨q, hrun, hq⟩ := h.read comma (.inl rfl) before n p (ys ++ [right.token]) tail (by omega) hp
    obtain ⟨k, rfl⟩ : ∃ k', k = k' + 1 := ⟨k - 1, by omega⟩
    have hiterations : (collected (before ++ [x])).iterations ≠ 0 := by rw [hcount]; simp
    obtain ⟨hturn, hq'⟩ := compoundTurn_comma (recAt z (n + 1)) hiterations comma (clean_of_start hothers hnext _ tail) hq
    obtain ⟨q', hloop, hq''⟩ := hs.read (before ++ [x]) k n (advanced q) tail right hclean (by omega) (by omega) hq'
    refine ⟨q', (bind_ok hrun).trans ((bind_run hturn).trans (hloop.trans ?_)), hq''⟩
    rw [List.append_assoc]
    rfl

/-! ## The two kinds -/

theorem arrayed_count (nodes : List Node) : (arrayed nodes).iterations = nodes.length := rfl

theorem paired_count (nodes : List Node) : (paired nodes).iterations = nodes.length := rfl

theorem arrayed_snoc (nodes : List Node) (x : Node) :
    { (arrayed nodes).counted with array := some ((arrayed nodes).array.getD [] ++ [x]) } = arrayed (nodes ++ [x]) := by
  cases nodes <;> simp [arrayed, Entries.counted]

theorem paired_snoc (nodes : List Node) (x : Node) :
    { (paired nodes).counted with dictionary := some ((paired nodes).dictionary.getD [] ++ [x]) } = paired (nodes ++ [x]) := by
  cases nodes <;> simp [paired, Entries.counted]

/-- What an entry reads first. -/
theorem entry_left (h : ReadsBelow z .primary reach xs x) (hreach : 1 ≤ reach) {type : TokenType} (m : Mark type)
    (hmark : type ≠ .error ∧ levelOf type = .none) (entries : Entries) {n : Nat} (hn : 8 * xs.length + 7 ≤ n) {p : Parser}
    {ts : List Token} {tail : TokenStream} (hp : Poised p (tail.prepend (xs ++ m.token :: ts))) :
    ∃ q, Poised q (tail.prepend (m.token :: ts)) ∧ entryTurn (recAt z (n + 1)) entries p = (do
      if ← matchToken .colon then dictionaryEntry (recAt z (n + 1)) entries x
      else arrayEntry entries x : P CompoundTurn) q := by
  obtain ⟨q, hrun, hq⟩ := h.read_to (t := m.token) (by rw [m.isType]; exact hmark.1) (by rw [m.isType, hmark.2]; exact hreach)
    .null hn hp
  refine ⟨q, hq, ?_⟩
  unfold entryTurn
  rw [bind_ok hrun, (h.solid hreach).not_null]
  rfl

theorem entry_element (h : ReadsBelow z .primary reach xs x) (hreach : 1 ≤ reach) : EntryText z arrayed xs x := by
  refine ⟨h.starts hreach, fun {type} m htype before n p ts tail hn hp => ?_⟩
  have hmark : type ≠ .error ∧ levelOf type = .none ∧ type ≠ .colon := by
    rcases htype with rfl | rfl <;> exact ⟨nofun, rfl, nofun⟩
  obtain ⟨q, hq, hrun⟩ := entry_left h hreach m ⟨hmark.1, hmark.2.1⟩ (arrayed before).counted hn hp
  have hcolon : matchToken .colon q = .ok false q := match_other hq (by rw [m.isType]; exact hmark.2.2)
  refine ⟨q, hrun.trans ((bind_ok hcolon).trans ?_), hq⟩
  have hderef : deref x q = .ok () q := by
    unfold deref
    rw [if_pos (h.solid hreach).isNode]
    rfl
  rw [← arrayed_snoc]
  exact bind_ok hderef

theorem entry_pair {reach' : Nat} (h : ReadsBelow z .primary reach xs x) (hreach : 1 ≤ reach) (colon : Mark .colon)
    (h' : ReadsBelow z .primary reach' ys y) (hreach' : 1 ≤ reach') : EntryText z paired (xs ++ colon.token :: ys) (.pair x y) := by
  obtain ⟨t, ts, htokens, hstart⟩ := h.starts hreach
  refine ⟨⟨t, ts ++ colon.token :: ys, by rw [htokens]; rfl, hstart⟩, fun {type} m htype before n p ts tail hn hp => ?_⟩
  have hmark : type ≠ .error ∧ levelOf type = .none := by
    rcases htype with rfl | rfl <;> exact ⟨nofun, rfl⟩
  simp only [List.length_append, List.length_cons] at hn
  rw [List.append_assoc] at hp
  obtain ⟨q, hq, hrun⟩ := entry_left h hreach colon ⟨nofun, rfl⟩ (paired before).counted (n := n) (by omega) hp
  obtain ⟨hcolon, hq'⟩ := match_mark colon hq (h'.clean hreach' _ tail)
  obtain ⟨q', hright, hq''⟩ := h'.read_to (t := m.token) (by rw [m.isType]; exact hmark.1)
    (by rw [m.isType, hmark.2]; exact hreach') .null (by omega : 8 * ys.length + 7 ≤ n) hq'
  refine ⟨q', hrun.trans ((bind_ok hcolon).trans ((bind_ok hright).trans ?_)), hq''⟩
  rw [(h'.solid hreach').not_null, ← paired_snoc]
  rfl

/-! ## Literals -/

variable {rule : PrecedenceRule}

/-- A first turn without a bracket or a colon is the first entry. -/
theorem compoundTurn_first (rec : Rec) (hstart : ∃ t ts, xs = t :: ts ∧ startsExpression t.type = true) {p : Parser}
    {tail : TokenStream} (hp : Poised p (tail.prepend (xs ++ ys))) :
    compoundTurn rec ⟨none, none, 0⟩ p = entryTurn rec ⟨none, none, 1⟩ p := by
  obtain ⟨t, ts, rfl, hstart⟩ := hstart
  have hother (type : TokenType) (h : startsExpression type = false) : matchToken type p = .ok false p := by
    refine match_other hp fun heq => ?_
    rw [heq, h] at hstart
    cases hstart
  unfold compoundTurn
  rw [bind_ok (hother .bracketRight rfl)]
  exact bind_ok (hother .colon rfl)

theorem brings_entries (hcollected : collected [] = ⟨none, none, 0⟩) (left : Mark .bracketLeft) (right : Mark .bracketRight)
    (h : Enters z collected xs nodes) (rule : PrecedenceRule)
    (hnode : ∀ rec handle p q, loop .outOfFuel (compoundTurn rec) rec.fuel ⟨none, none, 0⟩ p = .ok (some (collected nodes)) q →
      compound rec handle p = .ok (.eof, node) q) :
    Brings z rule endless (left.token :: (xs ++ [right.token])) node := by
  obtain ⟨t, ts, htokens, hstart⟩ := h.starts
  refine .begins compound (fun rec => by rw [left.isType]; rfl) (fun tail _ => clean_of_start htokens hstart _ tail)
    fun tail n handle p hclean _ hn _ hp => ?_
  rw [List.length_append] at hn
  have hshort := h.short
  obtain ⟨q, hrun, hq⟩ := h.read [] n n p tail right hclean (by omega) (by omega) hp
  refine ⟨.eof, q, hnode _ handle p q ?_, hq⟩
  show loop .outOfFuel (compoundTurn (recAt z (n + 1))) (n + 1) ⟨none, none, 0⟩ p = _
  rw [loop_succ, bind_run (compoundTurn_first _ h.starts hp)]
  rw [hcollected] at hrun
  exact hrun

theorem brings_array (rule : PrecedenceRule) (left : Mark .bracketLeft) (right : Mark .bracketRight)
    (h : Enters z arrayed xs nodes) : Brings z rule endless (left.token :: (xs ++ [right.token])) (.compound .array nodes) := by
  refine brings_entries rfl left right h rule fun rec handle p q hrun => ?_
  unfold compound
  rw [bind_ok hrun]
  have harray : (arrayed nodes).array = some nodes := if_neg (by simpa using h.given)
  dsimp only
  rw [harray]
  rfl

theorem brings_dictionary (rule : PrecedenceRule) (left : Mark .bracketLeft) (right : Mark .bracketRight)
    (h : Enters z paired xs nodes) : Brings z rule endless (left.token :: (xs ++ [right.token])) (.compound .dictionary nodes) := by
  refine brings_entries rfl left right h rule fun rec handle p q hrun => ?_
  unfold compound
  rw [bind_ok hrun]
  have hdictionary : (paired nodes).dictionary = some nodes := if_neg (by simpa using h.given)
  dsimp only
  rw [hdictionary]
  rfl

theorem brings_emptyArray (rule : PrecedenceRule) (left : Mark .bracketLeft) (right : Mark .bracketRight) :
    Brings z rule endless [left.token, right.token] (.compound .array []) := by
  refine .begins compound (fun rec => by rw [left.isType]; rfl) (fun tail _ => mark_clean right nofun [] tail)
    fun tail n handle p hclean _ hn _ hp => ?_
  obtain ⟨hclose, hq⟩ := compoundTurn_close (recAt z (n + 1)) ⟨none, none, 0⟩ right hclean hp
  have hloop : loop .outOfFuel (compoundTurn (recAt z (n + 1))) (n + 1) ⟨none, none, 0⟩ p =
      .ok (some ⟨none, none, 0⟩) (advanced p) := bind_ok hclose
  exact ⟨.eof, advanced p, bind_ok hloop, hq⟩

theorem brings_emptyDictionary (rule : PrecedenceRule) (left : Mark .bracketLeft) (colon : Mark .colon) (right : Mark .bracketRight) :
    Brings z rule endless [left.token, colon.token, right.token] (.compound .dictionary []) := by
  refine .begins compound (fun rec => by rw [left.isType]; rfl) (fun tail _ => mark_clean colon nofun _ tail)
    fun tail n handle p hclean _ hn _ hp => ?_
  obtain ⟨hmatch, hq⟩ := match_mark colon hp (mark_clean right nofun [] tail)
  obtain ⟨hconsume, hq'⟩ := consume_last right "Expected ']' at the end of empty dictionary definition" hclean hq
  have hturn : compoundTurn (recAt z (n + 1)) ⟨none, none, 0⟩ p = .ok (.inr (some ⟨none, some [], 0⟩)) (advanced (advanced p)) := by
    unfold compoundTurn
    rw [bind_ok (match_other hp (by rw [colon.isType]; nofun))]
    exact (bind_ok hmatch).trans (bind_ok hconsume)
  have hloop : loop .outOfFuel (compoundTurn (recAt z (n + 1))) (n + 1) ⟨none, none, 0⟩ p =
      .ok (some ⟨none, some [], 0⟩) (advanced (advanced p)) := bind_ok hturn
  exact ⟨.eof, _, bind_ok hloop, hq'⟩

end Xvr.Frontend.Parse
