/-
  Xvr.Frontend.GrammarRuns — the parser reads the grammar.

  `Meaning` says of each kind of phrase how its tokens are read; every rule of the grammar
  keeps it, so by induction on the derivation every phrase has it. The driver calls
  `Xvr_scanParser` until it gets NULL; a program is read by one call a statement.

  Proved:
  - `derives_meaning`: every phrase of the grammar is read as its nodes.
  - `program_read`: the driver's loop gets a program's statements, in order, and no error.
  - `program_unique`: so a program has one tree.
-/

import Xvr.Frontend.GrammarCompounds
import Xvr.Frontend.GrammarDeclarations

namespace Xvr.Frontend.Parse

open Xvr.Runtime Xvr.Lib

variable (z : Parser → Node → Bool)

/-! ## Phrases -/

/-- How a phrase is read. An expression at a level from TERNARY on stands in front of
    everything below TERNARY. -/
def Meaning : Phrase → List Token → List Node → Prop
  | .operand rule reach, tokens, nodes =>
    ∃ x, nodes = [x] ∧ Brings z rule reach tokens x ∧ min rule.level PrecedenceRule.ternary.level ≤ reach ∧ 1 ≤ reach
  | .expression rule reach, tokens, nodes =>
    ∃ x, nodes = [x] ∧ ReadsBelow z rule reach tokens x ∧ min rule.level PrecedenceRule.ternary.level ≤ reach
  | .list, tokens, nodes => ∃ (first : Part z) (others : List (Mark .comma × Part z)),
    tokens = first.tokens ++ Arguments.othersTokens others ∧ nodes = (first :: others.map Prod.snd).map Part.node
  | .arguments, tokens, nodes => ∃ a : Arguments z, tokens = a.tokens ∧ nodes = a.nodes
  | .elements, tokens, nodes => Enters z arrayed tokens nodes
  | .entries, tokens, nodes => Enters z paired tokens nodes
  | .optional, tokens, nodes => ∃ a : Option (Part z), tokens = partTokens a ∧ nodes = a.toList.map Part.node
  | .index, tokens, nodes => ∃ form : IndexForm z, tokens = form.tokens ∧ nodes = [partNode form.first, form.secondNode]
  | .statement isOpen, tokens, nodes => ∃ x, nodes = [x] ∧ Declares z isOpen tokens x
  | .chain isOpen, tokens, nodes => ∃ x, nodes = [x] ∧ Chains z isOpen tokens x
  | .branch isOpen, tokens, nodes => ∃ x, nodes = [x] ∧ Branches z isOpen tokens x
  | .statements, tokens, nodes => Sequence z tokens nodes
  | .preClause, tokens, nodes => ∃ x, nodes = [x] ∧ Clause z forPreClause tokens x
  | .condition, tokens, nodes => ∃ x, nodes = [x] ∧ Clause z forCondition tokens x
  | .postClause, tokens, nodes => ∃ x, nodes = [x] ∧ Clause z forPostClause tokens x
  | .initializer, tokens, nodes => ∃ x, nodes = [x] ∧ Initializes z tokens x

variable {z} {rule : PrecedenceRule} {reach : Nat} {tokens xs ys : List Token} {nodes : List Node} {x y : Node}

/-! ### Expressions -/

theorem Meaning.operand (h : Brings z rule reach tokens x) (hreach : PrecedenceRule.ternary.level ≤ reach) :
    Meaning z (.operand rule reach) tokens [x] :=
  ⟨x, rfl, h, Nat.le_trans (Nat.min_le_right _ _) hreach, Nat.le_trans (by decide) hreach⟩

theorem Meaning.brings (h : Meaning z (.operand rule reach) tokens [x]) : Brings z rule reach tokens x := by
  obtain ⟨_, heq, h, -⟩ := h
  cases heq
  exact h

theorem Meaning.readsBelow (h : Meaning z (.expression rule reach) tokens [x]) : ReadsBelow z rule reach tokens x := by
  obtain ⟨_, heq, h, -⟩ := h
  cases heq
  exact h

theorem Meaning.level_le (h : Meaning z (.expression rule reach) tokens nodes) :
    min rule.level PrecedenceRule.ternary.level ≤ reach := by
  obtain ⟨_, -, -, h⟩ := h
  exact h

/-- An expression at a level of its own is never in front of everything. -/
theorem Meaning.reach_pos (h : Meaning z (.expression rule reach) tokens nodes) (hrule : 1 ≤ rule.level) : 1 ≤ reach :=
  Nat.le_trans (Nat.le_min.mpr ⟨hrule, (by decide : 1 ≤ PrecedenceRule.ternary.level)⟩) h.level_le

/-- What a right side at the level gives its operand. -/
theorem Meaning.extended {level : PrecedenceRule} {reach' : Nat} (h : Meaning z (.expression level reach') ys nodes)
    (hlevel : rule.level ≤ level.level) (hpos : 1 ≤ level.level) (hbrings : Brings z rule reach' tokens x) :
    Meaning z (.operand rule reach') tokens [x] := by
  refine ⟨x, rfl, hbrings, Nat.le_trans ?_ h.level_le, h.reach_pos hpos⟩
  exact Nat.le_min.mpr ⟨Nat.le_trans (Nat.min_le_left _ _) hlevel, Nat.min_le_right _ _⟩

/-- An expression at TERNARY is a part. -/
def partOf (h : Meaning z (.expression .ternary reach) tokens [x]) : Part z :=
  ⟨tokens, x, h.readsBelow.reads h.level_le⟩

/-! ### Indices -/

theorem givenOr_part (a : Option (Part z)) : givenOr (a.toList.map Part.node) = partNode a := by cases a <;> rfl

theorem secondOf_double (left : Mark .bracketLeft) (a : Option (Part z)) (colon : Mark .colon) (b : Option (Part z))
    (right : Mark .bracketRight) : secondOf (a.toList.map Part.node) (b.toList.map Part.node) =
      (IndexForm.double left a colon b right).secondNode := by
  cases b <;> cases a <;> rfl

/-! ### Every phrase -/

theorem derives_meaning {phrase : Phrase} (h : Derives phrase tokens nodes) : Meaning z phrase tokens nodes := by
  induction h with
  -- operands of one token
  | literal rule hl => exact .operand ((opens_literal hl).brings endless) (by decide)
  | string rule m h hlen => exact .operand (brings_string rule m h hlen) (by decide)
  | name rule name => exact .operand ((opens_name name.isType name.fits).brings endless) (by decide)
  | keyword rule m => exact .operand (brings_keyword rule m) (by decide)
  | typeName rule ht => exact .operand (brings_typeName rule ht) (by decide)
  -- operands of several tokens
  | cast rule left right ht _ ih =>
    exact .operand (brings_cast rule ht left right ih.readsBelow (ih.reach_pos (by decide))) (by decide)
  | group rule left right _ ih =>
    exact .operand (brings_group rule left right ih.readsBelow (ih.reach_pos (by decide))) (by decide)
  | minus rule m _ hnode ih =>
    exact .operand (brings_minus rule m ih.readsBelow (ih.reach_pos (by decide)) hnode) ih.level_le
  | not rule m _ ih => exact .operand (brings_not rule m ih.readsBelow (ih.reach_pos (by decide))) ih.level_le
  | typeOf rule m _ ih => exact .operand (brings_typeOf rule m ih.readsBelow (ih.reach_pos (by decide))) ih.level_le
  | increment rule m name => exact .operand (brings_increment rule m name) (by decide)
  | decrement rule m name => exact .operand (brings_decrement rule m name) (by decide)
  | emptyArray rule left right => exact .operand (brings_emptyArray rule left right) (by decide)
  | array rule left right _ ih => exact .operand (brings_array rule left right ih) (by decide)
  | emptyDictionary rule left colon right => exact .operand (brings_emptyDictionary rule left colon right) (by decide)
  | dictionary rule left right _ ih => exact .operand (brings_dictionary rule left right ih) (by decide)
  | ifExpression rule m _ ih =>
    obtain ⟨_, heq, ih⟩ := ih
    cases heq
    exact .operand (brings_if rule m ih) (by decide)
  -- what goes on behind an operand
  | operator _ hop hrule hreach _ hfold ih ih' =>
    have hpos := (operator_rule hop (recAt z 0)).2.2.2.1
    exact ih'.extended hrule hpos (brings_operator ih.brings hop hrule hreach ih'.readsBelow (ih'.reach_pos hpos) hfold)
  | ternary question colon _ hrule hreach _ _ ih ih₁ ih₂ =>
    exact ih₂.extended hrule (by decide) (brings_ternary question colon ih.brings hrule hreach ih₁.readsBelow
      (ih₁.reach_pos (by decide)) ih₂.readsBelow (ih₂.reach_pos (by decide)))
  | call left right _ hrule hreach _ ih ih' =>
    obtain ⟨a, rfl, rfl⟩ := ih'
    exact .operand (brings_call left a right ih.brings hrule hreach) (by decide)
  | indexed _ hrule hreach _ ih ih' =>
    obtain ⟨form, rfl, heq⟩ := ih'
    cases heq
    exact .operand (brings_indexed form ih.brings hrule hreach) (by decide)
  | dot _ ht hrule hreach _ ih ih' =>
    exact ih'.extended hrule (by decide) (brings_dot ih.brings ht hrule hreach ih'.readsBelow (ih'.reach_pos (by decide)))
  | juxtaposed _ hrule ht ih => exact .operand (brings_juxtaposed ih.brings hrule ht) (by decide)
  -- whole expressions
  | ended _ ih =>
    obtain ⟨_, heq, ih, hreach, -⟩ := ih
    cases heq
    exact ⟨_, rfl, ih.ended, Nat.le_min.mpr ⟨Nat.min_le_left _ _, hreach⟩⟩
  | incremented rule name m hrule =>
    exact ⟨_, rfl, readsBelow_step (by decide) (fun _ => rfl) name m hrule, Nat.le_trans (Nat.min_le_right _ _) (by decide)⟩
  | decremented rule name m hrule =>
    exact ⟨_, rfl, readsBelow_step (by decide) (fun _ => rfl) name m hrule, Nat.le_trans (Nat.min_le_right _ _) (by decide)⟩
  -- lists of expressions
  | one _ ih => exact ⟨partOf ih, [], (List.append_nil _).symm, rfl⟩
  | more comma _ _ ih ih' =>
    obtain ⟨first, others, rfl, rfl⟩ := ih'
    exact ⟨partOf ih, (comma, first) :: others, rfl, rfl⟩
  | noArguments => exact ⟨.none, rfl, rfl⟩
  | someArguments _ ih =>
    obtain ⟨first, others, rfl, rfl⟩ := ih
    exact ⟨.some first others, rfl, rfl⟩
  | lastElement _ ih => exact .last (entry_element ih.readsBelow (ih.reach_pos (by decide)))
  | moreElements comma _ _ ih ih' =>
    exact .more arrayed_count (entry_element ih.readsBelow (ih.reach_pos (by decide))) comma ih'
  | lastEntry colon _ _ ih ih' =>
    exact .last (entry_pair ih.readsBelow (ih.reach_pos (by decide)) colon ih'.readsBelow (ih'.reach_pos (by decide)))
  | moreEntries colon comma _ _ _ ih ih' ih'' =>
    have h : Enters z paired _ _ := .more paired_count
      (entry_pair ih.readsBelow (ih.reach_pos (by decide)) colon ih'.readsBelow (ih'.reach_pos (by decide))) comma ih''
    rwa [List.append_assoc] at h
  -- indices
  | noPart => exact ⟨none, rfl, rfl⟩
  | part _ ih => exact ⟨some (partOf ih), rfl, rfl⟩
  | single left right _ ih => exact ⟨.single left (partOf ih) right, rfl, rfl⟩
  | double left colon right _ _ ih ih' =>
    obtain ⟨a, rfl, rfl⟩ := ih
    obtain ⟨b, rfl, rfl⟩ := ih'
    exact ⟨.double left a colon b right, rfl, by rw [givenOr_part, secondOf_double left a colon b right]; rfl⟩
  | triple left colon colon' right _ _ _ ih ih' ih'' =>
    obtain ⟨a, rfl, rfl⟩ := ih
    obtain ⟨b, rfl, rfl⟩ := ih'
    obtain ⟨c, rfl, rfl⟩ := ih''
    exact ⟨.triple left a colon b colon' c right, rfl, by rw [givenOr_part, givenOr_part]; rfl⟩
  -- statements
  | block left right _ ih => exact ⟨_, rfl, declares_block left ih right⟩
  | assertStmt m comma semicolon _ _ ih ih' =>
    exact ⟨_, rfl, declares_assert m comma semicolon ih.readsBelow (ih.reach_pos (by decide)) ih'.readsBelow (ih'.reach_pos (by decide))⟩
  | ifStmt m _ ih =>
    obtain ⟨x, heq, ih⟩ := ih
    exact ⟨x, heq, declares_if m ih⟩
  | whileStmt m left right _ _ ih ih' =>
    obtain ⟨_, heq, ih'⟩ := ih'
    cases heq
    exact ⟨_, rfl, declares_while m left right ih.readsBelow (ih.reach_pos (by decide)) ih'⟩
  | forStmt m left _ _ _ _ ihw ihx ihy ihs =>
    obtain ⟨_, heq, ihw⟩ := ihw
    cases heq
    obtain ⟨_, heq, ihx⟩ := ihx
    cases heq
    obtain ⟨_, heq, ihy⟩ := ihy
    cases heq
    obtain ⟨_, heq, ihs⟩ := ihs
    cases heq
    exact ⟨_, rfl, declares_for m left ihw ihx ihy ihs⟩
  | breakStmt m semicolon => exact ⟨_, rfl, declares_break m semicolon⟩
  | continueStmt m semicolon => exact ⟨_, rfl, declares_continue m semicolon⟩
  | returnNothing m semicolon => exact ⟨_, rfl, declares_returnNothing m semicolon⟩
  | returnStmt m semicolon _ ih =>
    obtain ⟨first, others, rfl, rfl⟩ := ih
    exact ⟨_, rfl, declares_return m first others semicolon⟩
  | importStmt m name semicolon => exact ⟨_, rfl, declares_import m name semicolon⟩
  | importAs m name as other semicolon => exact ⟨_, rfl, declares_importAs m name as other semicolon⟩
  | emptyStmt semicolon => exact ⟨_, rfl, declares_empty semicolon⟩
  | expressionStmt semicolon _ hif ih =>
    exact ⟨_, rfl, declares_expression semicolon ih.readsBelow (ih.reach_pos (by decide)) hif⟩
  | varDecl m name semicolon hl _ ih =>
    obtain ⟨_, heq, ih⟩ := ih
    cases heq
    exact ⟨_, rfl, declares_var m name semicolon hl ih⟩
  | fnDecl m name left right open_ close hx hy _ ih => exact ⟨_, rfl, declares_fn m name left right open_ close hx hy ih⟩
  -- the parts of statements
  | initialized assign _ ih => exact ⟨_, rfl, .some assign ih.readsBelow (ih.reach_pos (by decide))⟩
  | uninitialized => exact ⟨_, rfl, .none⟩
  | noElse left right _ _ ih ih' =>
    obtain ⟨_, heq, ih'⟩ := ih'
    cases heq
    exact ⟨_, rfl, chains_noElse left right ih.readsBelow (ih.reach_pos (by decide)) ih'⟩
  | elsePath left right m _ _ _ hif ih ih' ih'' =>
    obtain ⟨_, heq, ih'⟩ := ih'
    cases heq
    obtain ⟨_, heq, ih''⟩ := ih''
    cases heq
    exact ⟨_, rfl, chains_elsePath left right m ih.readsBelow (ih.reach_pos (by decide)) ih' ih'' hif⟩
  | elseIf left right m m' _ _ _ ih ih' ih'' =>
    obtain ⟨_, heq, ih'⟩ := ih'
    cases heq
    obtain ⟨_, heq, ih''⟩ := ih''
    cases heq
    exact ⟨_, rfl, chains_elseIf left right m m' ih.readsBelow (ih.reach_pos (by decide)) ih' ih''⟩
  | braces left right _ ih => exact ⟨_, rfl, branches_braces left ih right⟩
  | single_ _ hbrace ih =>
    obtain ⟨x, heq, ih⟩ := ih
    exact ⟨x, heq, branches_single ih hbrace⟩
  | noClause semicolon => exact ⟨_, rfl, clause_noPre semicolon⟩
  | clause _ hsemicolon ih =>
    obtain ⟨x, heq, ih⟩ := ih
    exact ⟨x, heq, clause_pre ih hsemicolon⟩
  | noCondition semicolon => exact ⟨_, rfl, clause_noCondition semicolon⟩
  | condition semicolon _ ih => exact ⟨_, rfl, clause_condition semicolon ih.readsBelow (ih.reach_pos (by decide))⟩
  | noPost right => exact ⟨_, rfl, clause_noPost right⟩
  | post right _ ih => exact ⟨_, rfl, clause_post right ih.readsBelow (ih.reach_pos (by decide))⟩
  | nothing => exact .nil
  | next _ _ ih ih' =>
    obtain ⟨_, heq, ih⟩ := ih
    cases heq
    exact .cons ih ih'

/-! ## Programs -/

variable (z)

/-- The driver's loop: the nodes it gets before NULL, and where it ends. -/
inductive Yields : Parser → List Node → Parser → Prop
  | null {p p' : Parser} : Returns z p none p' → Yields p [] p'
  | call {p q p' : Parser} {node : Node} {nodes : List Node} : Returns z p (some node) q → Yields q nodes p' →
      Yields p (node :: nodes) p'

variable {z}

theorem Yields.unique {p q q' : Parser} {nodes nodes' : List Node} (h : Yields z p nodes q) (h' : Yields z p nodes' q') :
    nodes = nodes' := by
  induction h generalizing nodes' q' with
  | null hret =>
    cases h' with
    | null => rfl
    | call hret' _ => cases (returns_unique z hret hret').1
  | call hret _ ih =>
    cases h' with
    | null hret' => cases (returns_unique z hret hret').1
    | call hret' hyields =>
      obtain ⟨heq, rfl⟩ := returns_unique z hret hret'
      cases heq
      rw [ih hyields]

/-- A statement that is read raises nothing. -/
theorem Declares.returns {isOpen : Bool} (h : Declares z isOpen xs x) {p : Parser} {tail : TokenStream} (htail : Tailed isOpen tail)
    (hp : Poised p (tail.prepend xs)) :
    ∃ q, Returns z p (some x) q ∧ Poised q tail ∧ q.errors = p.errors ∧ q.error = p.error := by
  obtain ⟨t, ts, htokens, hstart⟩ := h.starts
  have heof := (startsStatement_ne hstart).2.1
  have hcurrent : p.current.type ≠ .eof := by
    rw [htokens] at hp
    rwa [hp.at_head.current]
  have hfuel : 8 * xs.length + 8 ≤ fuelFor p := by
    rw [htokens] at hp ⊢
    exact fuel_of_head heof hp
  obtain ⟨q, hrun, hq⟩ := h.read (fuelFor p) p tail htail hfuel hp
  obtain ⟨hstep, -⟩ := Meets.ok ((recAt_spec z (fuelFor p)).declaration p (by unfold fuelFor; omega)) hrun
  obtain ⟨new, herrors, hpanic, herror⟩ := hstep.raised
  rw [hq.quiet] at hpanic
  have hnew : new = [] := by simpa using (Bool.or_eq_false_iff.mp hpanic.symm).2
  refine ⟨q, ?_, hq, by rw [herrors, hnew]; rfl, by rw [herror, hnew]; simp⟩
  show scanParser z p = _
  rw [scan_declares z hcurrent, bind_ok hrun]
  exact finish_quiet hq.quiet

theorem eof_tailed (eof : Token) (heof : eof.type = .eof) : Tailed true ⟨[], eof, heof⟩ :=
  mark_tailed ⟨eof, heof⟩ ⟨nofun, nofun⟩ [] ⟨[], eof, heof⟩

theorem Sequence.yields (h : Sequence z tokens nodes) (eof : Token) (heof : eof.type = .eof) {p : Parser}
    (hp : Poised p (TokenStream.prepend tokens ⟨[], eof, heof⟩)) :
    ∃ q, Yields z p nodes q ∧ Poised q ⟨[], eof, heof⟩ ∧ q.errors = p.errors ∧ q.error = p.error := by
  induction h generalizing p with
  | nil =>
    have hcurrent : p.current.type = .eof := by rw [hp.before.current]; exact heof
    exact ⟨p, .null (scan_eof z hcurrent), hp, rfl, rfl⟩
  | cons hx hs ih =>
    rw [prepend_append] at hp
    obtain ⟨q, hret, hq, herrors, herror⟩ := hx.returns (hs.tailed (eof_tailed eof heof)).mono hp
    obtain ⟨q', hyields, hq', herrors', herror'⟩ := ih hq
    exact ⟨q', .call hret hyields, hq', herrors'.trans herrors, herror'.trans herror⟩

/-- In front of a clean stream `Xvr_initParser` raises nothing. -/
theorem init_poised {lexer : TokenStream} (hclean : Clean lexer) :
    Poised (initParser lexer) lexer ∧ (initParser lexer).errors = [] ∧ (initParser lexer).error = false := by
  have hshift : ¬ (shift (blankParser lexer)).current.type = .error := hclean
  rw [initParser_eq]
  unfold advanced
  rw [if_neg hshift]
  exact ⟨⟨⟨rfl, rfl⟩, rfl⟩, rfl, rfl⟩

theorem program_yields (h : Derives .statements tokens nodes) (eof : Token) (heof : eof.type = .eof) :
    ∃ p, Yields z (initParser ⟨tokens, eof, heof⟩) nodes p ∧ Poised p ⟨[], eof, heof⟩ ∧ p.errors = [] ∧ p.error = false := by
  have hsequence : Sequence z tokens nodes := derives_meaning h
  have hstream : (⟨tokens, eof, heof⟩ : TokenStream) = TokenStream.prepend tokens ⟨[], eof, heof⟩ := by
    simp [TokenStream.prepend]
  have hclean : Clean (TokenStream.prepend tokens ⟨[], eof, heof⟩) := (hsequence.tailed (eof_tailed eof heof)).1
  obtain ⟨hp, herrors, herror⟩ := init_poised hclean
  obtain ⟨q, hyields, hq, herrors', herror'⟩ := hsequence.yields eof heof hp
  exact ⟨q, hstream ▸ hyields, hq, herrors'.trans herrors, herror'.trans herror⟩

/-- The driver's loop over a program gets its statements' trees, in order, and then NULL; no
    error is raised and every token is consumed. -/
theorem program_read (h : Derives .statements tokens nodes) (eof : Token) (heof : eof.type = .eof) :
    ∃ p, Yields z (initParser ⟨tokens, eof, heof⟩) nodes p ∧ p.errors = [] ∧ p.error = false ∧ p.panic = false ∧
      remaining p = 0 := by
  obtain ⟨p, hyields, hp, herrors, herror⟩ := program_yields (z := z) h eof heof
  refine ⟨p, hyields, herrors, herror, hp.quiet, ?_⟩
  unfold remaining
  rw [hp.before.current, hp.before.lexer]
  show 0 + (if eof.type = .eof then 0 else 1) = 0
  rw [if_pos heof]

/-- `if (true) break; else continue;` -/
theorem program_read_if : ∃ p, Yields neverZero
    (initParser ⟨[⟨.if_, [], 1⟩, ⟨.parenLeft, [], 1⟩, ⟨.literalTrue, [], 1⟩, ⟨.parenRight, [], 1⟩, ⟨.break_, [], 1⟩, ⟨.semicolon, [], 1⟩,
      ⟨.else_, [], 1⟩, ⟨.continue_, [], 1⟩, ⟨.semicolon, [], 1⟩], ⟨.eof, [], 1⟩, rfl⟩)
    [emitASTNodeIf (emitASTNodeLiteral (.boolean true)) .pathBreak .pathContinue] p ∧
      p.errors = [] ∧ p.error = false ∧ p.panic = false ∧ remaining p = 0 :=
  program_read
    (.next (.ifStmt ⟨⟨.if_, [], 1⟩, rfl⟩ (.elsePath ⟨⟨.parenLeft, [], 1⟩, rfl⟩ ⟨⟨.parenRight, [], 1⟩, rfl⟩ ⟨⟨.else_, [], 1⟩, rfl⟩
      (.ended (.literal .ternary (rfl : tokenLiteral ⟨.literalTrue, [], 1⟩ = some (.boolean true))))
      (.single_ (.breakStmt ⟨⟨.break_, [], 1⟩, rfl⟩ ⟨⟨.semicolon, [], 1⟩, rfl⟩) (by unfold NotStarting; simp))
      (.single_ (.continueStmt ⟨⟨.continue_, [], 1⟩, rfl⟩ ⟨⟨.semicolon, [], 1⟩, rfl⟩) (by unfold NotStarting; simp))
      (by unfold NotStarting; simp))) .nothing)
    ⟨.eof, [], 1⟩ rfl

/-- A program has one tree. -/
theorem program_unique (h : Derives .statements tokens nodes) (nodes' : List Node) :
    Derives .statements tokens nodes' ↔ nodes' = nodes := by
  constructor
  · intro h'
    obtain ⟨_, hyields, -⟩ := program_yields (z := neverZero) h ⟨.eof, [], 1⟩ rfl
    obtain ⟨_, hyields', -⟩ := program_yields (z := neverZero) h' ⟨.eof, [], 1⟩ rfl
    exact hyields'.unique hyields
  · rintro rfl
    exact h

/-- `if (true) if (true) break; else continue;`: the else is the inner one's. -/
theorem program_unique_else : ¬ Derives .statements
    [⟨.if_, [], 1⟩, ⟨.parenLeft, [], 1⟩, ⟨.literalTrue, [], 1⟩, ⟨.parenRight, [], 1⟩,
      ⟨.if_, [], 1⟩, ⟨.parenLeft, [], 1⟩, ⟨.literalTrue, [], 1⟩, ⟨.parenRight, [], 1⟩, ⟨.break_, [], 1⟩, ⟨.semicolon, [], 1⟩,
      ⟨.else_, [], 1⟩, ⟨.continue_, [], 1⟩, ⟨.semicolon, [], 1⟩]
    [emitASTNodeIf (emitASTNodeLiteral (.boolean true))
      (emitASTNodeIf (emitASTNodeLiteral (.boolean true)) .pathBreak .null) .pathContinue] := by
  have hinner : Derives (.statement false) _ _ :=
    .ifStmt ⟨⟨.if_, [], 1⟩, rfl⟩ (.elsePath ⟨⟨.parenLeft, [], 1⟩, rfl⟩ ⟨⟨.parenRight, [], 1⟩, rfl⟩ ⟨⟨.else_, [], 1⟩, rfl⟩
      (.ended (.literal .ternary (rfl : tokenLiteral ⟨.literalTrue, [], 1⟩ = some (.boolean true))))
      (.single_ (.breakStmt ⟨⟨.break_, [], 1⟩, rfl⟩ ⟨⟨.semicolon, [], 1⟩, rfl⟩) (by unfold NotStarting; simp))
      (.single_ (.continueStmt ⟨⟨.continue_, [], 1⟩, rfl⟩ ⟨⟨.semicolon, [], 1⟩, rfl⟩) (by unfold NotStarting; simp))
      (by unfold NotStarting; simp))
  have hprogram : Derives .statements _ _ :=
    .next (.ifStmt ⟨⟨.if_, [], 1⟩, rfl⟩ (.noElse ⟨⟨.parenLeft, [], 1⟩, rfl⟩ ⟨⟨.parenRight, [], 1⟩, rfl⟩
      (.ended (.literal .ternary (rfl : tokenLiteral ⟨.literalTrue, [], 1⟩ = some (.boolean true))))
      (.single_ hinner (by unfold NotStarting; simp)))) .nothing
  intro h
  have heq := (program_unique hprogram _).mp h
  simp [emitASTNodeIf] at heq

end Xvr.Frontend.Parse
