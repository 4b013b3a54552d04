/-
  Xvr.Frontend.GrammarStatements — the grammar's statements, as `declaration` reads them.

  `Declares`: the tokens are read as one statement, in front of a token that is no error
  and, where the statement is open, no `else`. As in the expression part each rule is one
  lemma and what is read inside is a hypothesis.

  `declaration` and `statement` try one keyword after the other, so which function runs is
  a table (`behindKeyword`); where the table has nothing, it is an expression statement.
-/

import Xvr.Frontend.GrammarTypes

namespace Xvr.Frontend.Parse

open Xvr.Runtime Xvr.Lib

/-! ## Which statement -/

theorem match_branch {α : Type} (type : TokenType) (a b : P α) (p : Parser) :
    (do if ← matchToken type then a else b) p = if p.current.type = type then a (advanced p) else b p := by
  by_cases h : p.current.type = type
  · rw [if_pos h, bind_ok (by rw [matchToken_eq, if_pos h])]
    rfl
  · rw [if_neg h, bind_ok (by rw [matchToken_eq, if_neg h])]
    rfl

/-- What reads a statement behind its keyword. -/
def behindKeyword (rec : Rec) : TokenType → Option (P Node)
  | .var_ => some (varDecl rec)
  | .function => some (fnDecl rec)
  | .braceLeft => some (blockStmt rec)
  | .assert_ => some (assertStmt rec)
  | .if_ => some rec.parseIfChain
  | .while_ => some (whileStmt rec)
  | .for_ => some (forStmt rec)
  | .break_ => some breakStmt
  | .continue_ => some continueStmt
  | .return_ => some (returnStmt rec)
  | .import_ => some importStmt
  | .semicolon => some (pure (emitASTNodeLiteral .null))
  | _ => none

theorem declaration_keyword {rec : Rec} {stmt : P Node} {p : Parser} (h : behindKeyword rec p.current.type = some stmt) :
    declaration rec p = stmt (advanced p) := by
  unfold declaration statement expressionStmt
  simp only [match_branch]
  cases htype : p.current.type <;> rw [htype] at h <;> cases h <;> rfl

theorem declaration_expression {rec : Rec} {p : Parser} (h : behindKeyword rec p.current.type = none) :
    declaration rec p = (do
      let node ← expression rec .null
      consumeSemicolon
      pure node : P Node) p := by
  unfold declaration statement expressionStmt
  simp only [match_branch]
  cases htype : p.current.type <;> rw [htype] at h <;> cases h <;> rfl

/-- The token starts a statement. -/
def startsStatement (t : TokenType) : Bool := startsExpression t || (behindKeyword (recAt neverZero 0) t).isSome

theorem startsStatement_ne {t : TokenType} (h : startsStatement t = true) :
    t ≠ .error ∧ t ≠ .eof ∧ t ≠ .else_ ∧ t ≠ .braceRight := by
  cases t <;> first | exact absurd h (by decide) | exact ⟨by decide, by decide, by decide, by decide⟩

theorem behindKeyword_isSome (rec : Rec) {type : TokenType} {stmt : P Node} (h : behindKeyword rec type = some stmt) :
    startsStatement type = true := by
  cases type <;> cases h <;> rfl

/-! ## What is read -/

/-- What may stand behind a statement. -/
def Tailed (isOpen : Bool) (tail : TokenStream) : Prop := Clean tail ∧ (isOpen = true → Lacks .else_ tail)

theorem Tailed.mono {isOpen : Bool} {tail : TokenStream} (h : Tailed true tail) : Tailed isOpen tail := ⟨h.1, fun _ => h.2 rfl⟩

theorem Tailed.closed {tail : TokenStream} (h : Clean tail) : Tailed false tail := ⟨h, nofun⟩

theorem mark_tailed {type : TokenType} (m : Mark type) (h : type ≠ .error ∧ type ≠ .else_) {isOpen : Bool} (ts : List Token)
    (tail : TokenStream) : Tailed isOpen (tail.prepend (m.token :: ts)) :=
  ⟨mark_clean m h.1 ts tail, fun _ => mark_lacks m h.2 ts tail⟩

/-- The tokens start a statement. -/
def Starts (tokens : List Token) : Prop := ∃ t ts, tokens = t :: ts ∧ startsStatement t.type = true

theorem Starts.tailed {tokens : List Token} (h : Starts tokens) (isOpen : Bool) (ts : List Token) (tail : TokenStream) :
    Tailed isOpen (tail.prepend (tokens ++ ts)) := by
  obtain ⟨t, ts', rfl, hstart⟩ := h
  obtain ⟨herror, -, helse, -⟩ := startsStatement_ne hstart
  exact ⟨herror, fun _ => helse⟩

theorem Starts.clean {tokens : List Token} (h : Starts tokens) (tail : TokenStream) : Clean (tail.prepend tokens) := by
  simpa using (h.tailed false [] tail).1

theorem Starts.append {tokens : List Token} (h : Starts tokens) (ts : List Token) : Starts (tokens ++ ts) := by
  obtain ⟨t, ts', rfl, hstart⟩ := h
  exact ⟨t, ts' ++ ts, rfl, hstart⟩

section Reading

variable (z : Parser → Node → Bool)

structure Declares (isOpen : Bool) (tokens : List Token) (node : Node) : Prop where
  starts : Starts tokens
  read : ∀ n p tail, Tailed isOpen tail → 8 * tokens.length + 8 ≤ n → Poised p (tail.prepend tokens) →
    ∃ q, (recAt z n).declaration p = .ok node q ∧ Poised q tail

/-- Behind `if`. -/
structure Chains (isOpen : Bool) (tokens : List Token) (node : Node) : Prop where
  clean : ∀ tail : TokenStream, Clean (tail.prepend tokens)
  given : node.isNull = false
  read : ∀ n p tail, Tailed isOpen tail → 8 * tokens.length + 8 ≤ n → Poised p (tail.prepend tokens) →
    ∃ q, (recAt z n).parseIfChain p = .ok node q ∧ Poised q tail

/-- A path of an if. -/
structure Branches (isOpen : Bool) (tokens : List Token) (node : Node) : Prop where
  starts : Starts tokens
  read : ∀ n p tail, Tailed isOpen tail → 8 * tokens.length + 8 ≤ n → Poised p (tail.prepend tokens) →
    ∃ q, branch (recAt z n) p = .ok (some node) q ∧ Poised q tail

/-- A part of a `for`, by the function that reads it. -/
structure Clause (f : Rec → P Node) (tokens : List Token) (node : Node) : Prop where
  tailed : ∀ ts (tail : TokenStream), Tailed true (tail.prepend (tokens ++ ts))
  read : ∀ n p tail, Tailed true tail → 8 * tokens.length + 8 ≤ n → Poised p (tail.prepend tokens) →
    ∃ q, f (recAt z n) p = .ok node q ∧ Poised q tail

/-- Statements one after the other. -/
inductive Sequence : List Token → List Node → Prop
  | nil : Sequence [] []
  | cons {isOpen : Bool} {xs ys : List Token} {x : Node} {nodes : List Node} : Declares z isOpen xs x → Sequence ys nodes →
      Sequence (xs ++ ys) (x :: nodes)

/-- `= expression`, or nothing. -/
inductive Initializes : List Token → Node → Prop
  | none : Initializes [] (emitASTNodeLiteral .null)
  | some (assign : Mark .assign) {reach : Nat} {xs : List Token} {x : Node} : ReadsBelow z .assignment reach xs x → 1 ≤ reach →
      Initializes (assign.token :: xs) x

end Reading

variable {z : Parser → Node → Bool} {isOpen : Bool} {reach : Nat} {xs ys zs : List Token} {x y s node : Node} {nodes : List Node}

/-- A statement behind a keyword. -/
theorem Declares.behind {type : TokenType} (m : Mark type) (stmt : Rec → P Node)
    (hkeyword : ∀ rec, behindKeyword rec type = some (stmt rec)) (hclean : ∀ tail, Clean tail → Clean (tail.prepend xs))
    (hrun : ∀ n p tail, Tailed isOpen tail → 8 * xs.length + 15 ≤ n → Poised p (tail.prepend xs) →
      ∃ q, stmt (recAt z n) p = .ok node q ∧ Poised q tail) : Declares z isOpen (m.token :: xs) node := by
  refine ⟨⟨_, _, rfl, ?_⟩, fun n p tail htail hn hp => ?_⟩
  · rw [m.isType]
    exact behindKeyword_isSome (recAt z 0) (hkeyword _)
  · rw [List.length_cons] at hn
    obtain ⟨n, rfl⟩ : ∃ n', n = n' + 1 := ⟨n - 1, by omega⟩
    obtain ⟨q, hstmt, hq⟩ := hrun n (advanced p) tail htail (by omega) (hp.advanced (hclean tail htail.1))
    refine ⟨q, ?_, hq⟩
    show declaration (recAt z n) p = _
    rw [declaration_keyword (by rw [hp.at_head.current, m.isType]; exact hkeyword _)]
    exact hstmt

theorem semicolon_read (semicolon : Mark .semicolon) {p : Parser} {r : List Token} {tail : TokenStream}
    (hclean : Clean (tail.prepend r)) (hp : Poised p (tail.prepend (semicolon.token :: r))) :
    consumeSemicolon p = .ok () (advanced p) ∧ Poised (advanced p) (tail.prepend r) := by
  obtain ⟨hmatch, hq⟩ := match_mark semicolon hp hclean
  exact ⟨bind_ok hmatch, hq⟩

/-- An expression up to a mark that ends every expression. -/
theorem ReadsBelow.read_mark {rule : PrecedenceRule} (h : ReadsBelow z rule reach xs x) (hreach : 1 ≤ reach) {type : TokenType}
    (m : Mark type) (hmark : type ≠ .error ∧ levelOf type = .none) (handle : Node) {n : Nat} (hn : 8 * xs.length + 7 ≤ n)
    {p : Parser} {ts : List Token} {tail : TokenStream} (hp : Poised p (tail.prepend (xs ++ m.token :: ts))) :
    ∃ q, (recAt z (n + 1)).parsePrecedence handle rule p = .ok x q ∧ Poised q (tail.prepend (m.token :: ts)) :=
  h.read_to (by rw [m.isType]; exact hmark.1) (by rw [m.isType, hmark.2]; exact hreach) handle hn hp

/-! ## Blocks -/

theorem Declares.solid (h : Declares z isOpen xs x) : Solid x := by
  have htail : Tailed isOpen (tokensOf []) := Tailed.mono ⟨endless_clean, fun _ => by unfold Lacks; decide⟩
  obtain ⟨q, hrun, hq⟩ := h.read (8 * xs.length + 8) (standing ((tokensOf []).prepend xs)) _ htail (Nat.le_refl _) (standing_poised _)
  have hremaining : remaining (standing ((tokensOf []).prepend xs)) ≤ xs.length := by
    unfold remaining
    cases xs with
    | nil => exact Nat.le_refl _
    | cons t ts =>
      show (ts ++ []).length + (if t.type = .eof then 0 else 1) ≤ ts.length + 1
      rw [List.append_nil]
      split <;> omega
  have hspec := (recAt_spec z (8 * xs.length + 8)).declaration (standing ((tokensOf []).prepend xs)) (by omega)
  exact (Meets.ok hspec hrun).2.solid hq.quiet

theorem Sequence.tailed (h : Sequence z xs nodes) {tail : TokenStream} (htail : Tailed true tail) :
    Tailed true (tail.prepend xs) := by
  cases h with
  | nil => exact htail
  | cons hx _ => exact hx.starts.tailed true _ tail

theorem Sequence.short (h : Sequence z xs nodes) : nodes.length ≤ xs.length := by
  induction h with
  | nil => exact Nat.le_refl _
  | cons hx _ ih =>
    obtain ⟨t, ts, rfl, -⟩ := hx.starts
    simp only [List.length_cons, List.length_append]
    omega

/-- The loop of `blockStmt` reads the statements up to the closing brace. -/
theorem Sequence.block_read (h : Sequence z xs nodes) (right : Mark .braceRight) (before : List Node) {k n : Nat}
    (hk : nodes.length < k) (hn : 8 * xs.length + 8 ≤ n) {p : Parser} {tail : TokenStream} (hclean : Clean tail)
    (hp : Poised p (tail.prepend (xs ++ [right.token]))) :
    ∃ q, loop .outOfFuel (blockTurn (recAt z n)) k before p = .ok (true, before ++ nodes) q ∧ Poised q tail := by
  obtain ⟨k, rfl⟩ : ∃ k', k = k' + 1 := ⟨k - 1, by omega⟩
  induction h generalizing before k p with
  | nil =>
    obtain ⟨hmatch, hq⟩ := match_mark right hp hclean
    have hturn : blockTurn (recAt z n) before p = .ok (.inr (true, before)) (advanced p) := bind_ok hmatch
    refine ⟨advanced p, ?_, hq⟩
    rw [loop_succ, bind_ok hturn, List.append_nil]
    rfl
  | @cons isOpen xs ys x nodes hx hs ih =>
    rw [List.length_append] at hn
    rw [List.length_cons] at hk
    rw [List.append_assoc, prepend_append] at hp
    have htail : Tailed isOpen (tail.prepend (ys ++ [right.token])) := by
      rw [prepend_append]
      exact (hs.tailed (mark_tailed right ⟨nofun, nofun⟩ [] tail)).mono
    obtain ⟨q, hrun, hq⟩ := hx.read n p _ htail (by omega) hp
    obtain ⟨t, ts, htokens, hstart⟩ := hx.starts
    have hopen : matchToken .braceRight p = .ok false p := by
      rw [htokens] at hp
      exact match_other hp (startsStatement_ne hstart).2.2.2
    have hturn : blockTurn (recAt z n) before p = .ok (.inl (before ++ [x])) q := by
      unfold blockTurn
      rw [bind_ok hopen]
      refine (bind_ok hrun).trans ?_
      rw [bind_get, hq.quiet]
      have hderef : deref x q = .ok () q := by
        unfold deref
        rw [if_pos hx.solid.isNode]
        rfl
      exact bind_ok hderef
    obtain ⟨k, rfl⟩ : ∃ k', k = k' + 1 := ⟨k - 1, by omega⟩
    obtain ⟨q', hloop, hq'⟩ := ih (before ++ [x]) (by omega) hq k (by omega)
    refine ⟨q', ?_, hq'⟩
    rw [loop_succ, bind_ok hturn]
    rw [← List.append_cons] at hloop
    exact hloop

theorem Sequence.clean (h : Sequence z xs nodes) (right : Mark .braceRight) (ts : List Token) (tail : TokenStream) :
    Clean (tail.prepend (xs ++ right.token :: ts)) := by
  rw [prepend_append]
  exact (h.tailed (mark_tailed right ⟨nofun, nofun⟩ ts tail)).1

theorem Sequence.nodes_read (h : Sequence z xs nodes) (right : Mark .braceRight) {n : Nat} (hn : 8 * xs.length + 8 ≤ n) {p : Parser}
    {tail : TokenStream} (hclean : Clean tail) (hp : Poised p (tail.prepend (xs ++ [right.token]))) :
    ∃ q, blockNodes (recAt z n) p = .ok (true, nodes) q ∧ Poised q tail := by
  have hshort := h.short
  have hfuel : (recAt z n).fuel = n := recAt_fuel n
  obtain ⟨q, hrun, hq⟩ := h.block_read right [] (k := n) (by omega) hn hclean hp
  refine ⟨q, ?_, hq⟩
  unfold blockNodes
  rw [hfuel]
  exact hrun

theorem declares_block (left : Mark .braceLeft) (h : Sequence z xs nodes) (right : Mark .braceRight) :
    Declares z isOpen (left.token :: (xs ++ [right.token])) (.block nodes) := by
  refine .behind left blockStmt (fun _ => rfl) (fun tail _ => h.clean right [] tail) fun n p tail htail hn hp => ?_
  rw [List.length_append] at hn
  obtain ⟨q, hrun, hq⟩ := h.nodes_read right (n := n) (by omega) htail.1 hp
  exact ⟨q, bind_ok hrun, hq⟩

/-! ## Paths -/

theorem branches_braces (left : Mark .braceLeft) (h : Sequence z xs nodes) (right : Mark .braceRight) :
    Branches z isOpen (left.token :: (xs ++ [right.token])) (.block nodes) := by
  refine ⟨⟨_, _, rfl, by rw [left.isType]; rfl⟩, fun n p tail htail hn hp => ?_⟩
  simp only [List.length_cons, List.length_append, List.length_nil] at hn
  obtain ⟨hmatch, hq⟩ := match_mark left hp (h.clean right [] tail)
  obtain ⟨q, hrun, hq'⟩ := h.nodes_read right (n := n) (by omega) htail.1 hq
  refine ⟨q, ?_, hq'⟩
  unfold branch
  rw [bind_ok hmatch]
  exact bind_ok hrun

theorem branches_single (h : Declares z isOpen xs x) (hbrace : NotStarting .braceLeft xs) : Branches z isOpen xs x := by
  refine ⟨h.starts, fun n p tail htail hn hp => ?_⟩
  obtain ⟨q, hrun, hq⟩ := h.read n p tail htail hn hp
  have hother : matchToken .braceLeft p = .ok false p := by
    obtain ⟨t, ts, rfl, -⟩ := h.starts
    exact match_other hp (hbrace t rfl)
  refine ⟨q, ?_, hq⟩
  unfold branch
  rw [bind_ok hother]
  exact bind_ok hrun

/-- A condition, a path, and what `elseBranch` makes of the rest. -/
theorem chains_of {isOpen' : Bool} (left : Mark .parenLeft) (right : Mark .parenRight) (hx : ReadsBelow z .ternary reach xs x)
    (hreach : 1 ≤ reach) (hy : Branches z isOpen' ys y) (hbehind : ∀ tail, Tailed isOpen tail → Tailed isOpen' (tail.prepend zs))
    (helse : ∀ n p tail, Tailed isOpen tail → 8 * zs.length + 8 ≤ n → Poised p (tail.prepend zs) →
      ∃ q, elseBranch (recAt z n) p = .ok (some s) q ∧ Poised q tail) :
    Chains z isOpen (left.token :: (xs ++ right.token :: (ys ++ zs))) (emitASTNodeIf x y s) := by
  refine ⟨fun tail => mark_clean left nofun _ tail, rfl, fun n p tail htail hn hp => ?_⟩
  simp only [List.length_cons, List.length_append] at hn
  obtain ⟨n, rfl⟩ : ∃ n', n = n' + 2 := ⟨n - 2, by omega⟩
  obtain ⟨hleft, hq⟩ := consume_poised left "Expected '(' at beginning of if clause" (hx.clean hreach _ tail) hp
  obtain ⟨q, hcondition, hq'⟩ := hx.read_mark hreach right ⟨nofun, rfl⟩ .null (n := n) (by omega) hq
  obtain ⟨hright, hq''⟩ := consume_poised right "Expected ')' at end of if clause" (hy.starts.tailed false _ tail).1 hq'
  rw [prepend_append] at hq''
  obtain ⟨q₁, hbranch, hq₁⟩ := hy.read (n + 1) (advanced q) _ (hbehind tail htail) (by omega) hq''
  obtain ⟨q₂, hrest, hq₂⟩ := helse (n + 1) q₁ tail htail (by omega) hq₁
  refine ⟨q₂, ?_, hq₂⟩
  show parseIfChain (recAt z (n + 1)) p = _
  unfold parseIfChain
  rw [bind_ok hleft, bind_ok hcondition, bind_ok hright, bind_ok hbranch]
  exact bind_ok hrest

theorem chains_noElse {isOpen : Bool} (left : Mark .parenLeft) (right : Mark .parenRight) (hx : ReadsBelow z .ternary reach xs x)
    (hreach : 1 ≤ reach) (hy : Branches z isOpen ys y) :
    Chains z true (left.token :: (xs ++ right.token :: ys)) (emitASTNodeIf x y .null) := by
  have h : Chains z true (left.token :: (xs ++ right.token :: (ys ++ []))) (emitASTNodeIf x y .null) :=
    chains_of left right hx hreach hy (fun _ htail => htail.mono)
      fun n p tail htail _ hp => ⟨p, bind_ok (lacks_match (htail.2 rfl) hp), hp⟩
  rwa [List.append_nil] at h

theorem chains_elsePath (left : Mark .parenLeft) (right : Mark .parenRight) (m : Mark .else_) (hx : ReadsBelow z .ternary reach xs x)
    (hreach : 1 ≤ reach) (hy : Branches z false ys y) (hs : Branches z isOpen zs s) (hif : NotStarting .if_ zs) :
    Chains z isOpen (left.token :: (xs ++ right.token :: (ys ++ m.token :: zs))) (emitASTNodeIf x y s) := by
  refine chains_of left right hx hreach hy (fun tail _ => .closed (mark_clean m nofun zs tail)) fun n p tail htail hn hp => ?_
  rw [List.length_cons] at hn
  obtain ⟨hmatch, hq⟩ := match_mark m hp (hs.starts.clean tail)
  have hother : matchToken .if_ (advanced p) = .ok false (advanced p) := by
    obtain ⟨t, ts, rfl, -⟩ := hs.starts
    exact match_other hq (hif t rfl)
  obtain ⟨q, hrun, hq'⟩ := hs.read n (advanced p) tail htail (by omega) hq
  refine ⟨q, ?_, hq'⟩
  unfold elseBranch
  rw [bind_ok hmatch]
  exact (bind_ok hother).trans hrun

theorem chains_elseIf (left : Mark .parenLeft) (right : Mark .parenRight) (m : Mark .else_) (m' : Mark .if_)
    (hx : ReadsBelow z .ternary reach xs x) (hreach : 1 ≤ reach) (hy : Branches z false ys y) (hs : Chains z isOpen zs s) :
    Chains z isOpen (left.token :: (xs ++ right.token :: (ys ++ m.token :: m'.token :: zs))) (emitASTNodeIf x y s) := by
  refine chains_of left right hx hreach hy (fun tail _ => .closed (mark_clean m nofun _ tail)) fun n p tail htail hn hp => ?_
  simp only [List.length_cons] at hn
  obtain ⟨hmatch, hq⟩ := match_mark m hp (mark_clean m' nofun zs tail)
  obtain ⟨hmatch', hq'⟩ := match_mark m' hq (hs.clean tail)
  obtain ⟨q, hrun, hq''⟩ := hs.read n (advanced (advanced p)) tail htail (by omega) hq'
  refine ⟨q, ?_, hq''⟩
  unfold elseBranch
  rw [bind_ok hmatch]
  exact (bind_ok hmatch').trans (bind_ok hrun)

theorem declares_if (m : Mark .if_) (h : Chains z isOpen xs x) : Declares z isOpen (m.token :: xs) x :=
  .behind m (·.parseIfChain) (fun _ => rfl) (fun tail _ => h.clean tail) fun n p tail htail hn hp =>
    h.read n p tail htail (by omega) hp

/-- With an else at its end a chain is an expression. -/
theorem brings_if (rule : PrecedenceRule) (m : Mark .if_) (h : Chains z false xs x) :
    Brings z rule endless (m.token :: xs) x := by
  refine .begins ifExpression (fun rec => by rw [m.isType]; rfl) (fun tail _ => h.clean tail)
    fun tail n handle p hclean _ hn _ hp => ?_
  obtain ⟨q, hrun, hq⟩ := h.read (n + 1) p tail (.closed hclean) (by omega) hp
  refine ⟨.eof, q, ?_, hq⟩
  unfold ifExpression
  rw [bind_ok hrun, h.given]
  rfl

/-! ## Loops -/

theorem declares_while (m : Mark .while_) (left : Mark .parenLeft) (right : Mark .parenRight) (hx : ReadsBelow z .ternary reach xs x)
    (hreach : 1 ≤ reach) (hy : Declares z isOpen ys y) :
    Declares z isOpen (m.token :: left.token :: (xs ++ right.token :: ys)) (.pathWhile x y) := by
  refine .behind m whileStmt (fun _ => rfl) (fun tail _ => mark_clean left nofun _ tail) fun n p tail htail hn hp => ?_
  simp only [List.length_cons, List.length_append] at hn
  obtain ⟨n, rfl⟩ : ∃ n', n = n' + 1 := ⟨n - 1, by omega⟩
  obtain ⟨hleft, hq⟩ := consume_poised left "Expected '(' at beginning of while clause" (hx.clean hreach _ tail) hp
  obtain ⟨q, hcondition, hq'⟩ := hx.read_mark hreach right ⟨nofun, rfl⟩ .null (n := n) (by omega) hq
  obtain ⟨hright, hq''⟩ := consume_poised right "Expected ')' at end of while clause" (hy.starts.clean tail) hq'
  obtain ⟨q₁, hrun, hq₁⟩ := hy.read (n + 1) (advanced q) tail htail (by omega) hq''
  refine ⟨q₁, ?_, hq₁⟩
  unfold whileStmt
  rw [bind_ok hleft, bind_ok hcondition, bind_ok hright]
  exact bind_ok hrun

theorem clause_noPre (semicolon : Mark .semicolon) : Clause z forPreClause [semicolon.token] .pass := by
  refine ⟨fun ts tail => mark_tailed semicolon ⟨nofun, nofun⟩ ts tail, fun n p tail htail _ hp => ?_⟩
  obtain ⟨hconsume, hq⟩ := consume_last semicolon "Expected `;` after empty declaration of for clause" htail.1 hp
  refine ⟨advanced p, ?_, hq⟩
  unfold forPreClause
  rw [bind_get, if_neg (by rw [hp.at_head.current, semicolon.isType]; exact not_not.mpr rfl)]
  exact bind_ok hconsume

theorem clause_pre (h : Declares z isOpen xs x) (hsemicolon : NotStarting .semicolon xs) : Clause z forPreClause xs x := by
  refine ⟨h.starts.tailed true, fun n p tail htail hn hp => ?_⟩
  obtain ⟨q, hrun, hq⟩ := h.read n p tail htail.mono hn hp
  refine ⟨q, ?_, hq⟩
  have hother : p.current.type ≠ .semicolon := by
    obtain ⟨t, ts, rfl, -⟩ := h.starts
    rw [hp.at_head.current]
    exact hsemicolon t rfl
  unfold forPreClause
  rw [bind_get, if_pos hother]
  exact hrun

theorem clause_noCondition (semicolon : Mark .semicolon) :
    Clause z forCondition [semicolon.token] (emitASTNodeLiteral (.boolean true)) := by
  refine ⟨fun ts tail => mark_tailed semicolon ⟨nofun, nofun⟩ ts tail, fun n p tail htail _ hp => ?_⟩
  obtain ⟨hconsume, hq⟩ := consume_last semicolon "Expected `;` after empty condition of for clause" htail.1 hp
  refine ⟨advanced p, ?_, hq⟩
  unfold forCondition
  rw [bind_get, if_neg (by rw [hp.at_head.current, semicolon.isType]; exact not_not.mpr rfl)]
  exact bind_ok hconsume

theorem ReadsBelow.begin {rule : PrecedenceRule} (h : ReadsBelow z rule reach xs x) (hreach : 1 ≤ reach) : Starts xs := by
  obtain ⟨t, ts, rfl, hstart⟩ := h.starts hreach
  exact ⟨t, ts, rfl, by unfold startsStatement; rw [hstart]; rfl⟩

theorem ReadsBelow.head_ne {rule : PrecedenceRule} (h : ReadsBelow z rule reach xs x) (hreach : 1 ≤ reach) {type : TokenType}
    (htype : startsExpression type = false) {p : Parser} {ts : List Token} {tail : TokenStream}
    (hp : Poised p (tail.prepend (xs ++ ts))) : p.current.type ≠ type := by
  obtain ⟨t, ts', rfl, hstart⟩ := h.starts hreach
  rw [hp.at_head.current]
  rintro rfl
  rw [htype] at hstart
  cases hstart

theorem clause_condition (semicolon : Mark .semicolon) (h : ReadsBelow z .ternary reach xs x) (hreach : 1 ≤ reach) :
    Clause z forCondition (xs ++ [semicolon.token]) x := by
  refine ⟨((h.begin hreach).append _).tailed true, fun n p tail htail hn hp => ?_⟩
  simp only [List.length_append, List.length_cons, List.length_nil] at hn
  obtain ⟨n, rfl⟩ : ∃ n', n = n' + 1 := ⟨n - 1, by omega⟩
  obtain ⟨q, hrun, hq⟩ := h.read_mark hreach semicolon ⟨nofun, rfl⟩ .null (n := n) (by omega) hp
  obtain ⟨hconsume, hq'⟩ := consume_last semicolon "Expected ';' after condition of for clause" htail.1 hq
  refine ⟨advanced q, ?_, hq'⟩
  unfold forCondition
  rw [bind_get, if_pos (h.head_ne hreach rfl hp), bind_ok hrun]
  exact bind_ok hconsume

theorem clause_noPost (right : Mark .parenRight) : Clause z forPostClause [right.token] .pass := by
  refine ⟨fun ts tail => mark_tailed right ⟨nofun, nofun⟩ ts tail, fun n p tail htail _ hp => ?_⟩
  obtain ⟨hconsume, hq⟩ := consume_last right "Expected `)` after empty increment of for clause" htail.1 hp
  refine ⟨advanced p, ?_, hq⟩
  unfold forPostClause
  rw [bind_get, if_neg (by rw [hp.at_head.current, right.isType]; exact not_not.mpr rfl)]
  exact bind_ok hconsume

theorem clause_post (right : Mark .parenRight) (h : ReadsBelow z .assignment reach xs x) (hreach : 1 ≤ reach) :
    Clause z forPostClause (xs ++ [right.token]) x := by
  refine ⟨((h.begin hreach).append _).tailed true, fun n p tail htail hn hp => ?_⟩
  simp only [List.length_append, List.length_cons, List.length_nil] at hn
  obtain ⟨n, rfl⟩ : ∃ n', n = n' + 1 := ⟨n - 1, by omega⟩
  obtain ⟨q, hrun, hq⟩ := h.read_mark hreach right ⟨nofun, rfl⟩ .null (n := n) (by omega) hp
  obtain ⟨hconsume, hq'⟩ := consume_last right "Expected ')' at end of for clause" htail.1 hq
  refine ⟨advanced q, ?_, hq'⟩
  unfold forPostClause
  rw [bind_get, if_pos (h.head_ne hreach rfl hp), bind_ok hrun]
  exact bind_ok hconsume

theorem declares_for {ws : List Token} {w : Node} (m : Mark .for_) (left : Mark .parenLeft) (hw : Clause z forPreClause ws w)
    (hx : Clause z forCondition xs x) (hy : Clause z forPostClause ys y) (hs : Declares z isOpen zs s) :
    Declares z isOpen (m.token :: left.token :: (ws ++ (xs ++ (ys ++ zs)))) (.pathFor w x y s) := by
  refine .behind m forStmt (fun _ => rfl) (fun tail _ => mark_clean left nofun _ tail) fun n p tail htail hn hp => ?_
  simp only [List.length_cons, List.length_append] at hn
  obtain ⟨hleft, hq⟩ := consume_poised left "Expected '(' at beginning of for clause" (hw.tailed _ tail).1 hp
  rw [prepend_append] at hq
  obtain ⟨q, hpre, hq'⟩ := hw.read n _ _ (hx.tailed _ tail) (by omega) hq
  rw [prepend_append] at hq'
  obtain ⟨q₁, hcondition, hq₁⟩ := hx.read n q _ (hy.tailed _ tail) (by omega) hq'
  rw [prepend_append] at hq₁
  have hbody : Tailed true (tail.prepend zs) := by simpa using hs.starts.tailed true [] tail
  obtain ⟨q₂, hpost, hq₂⟩ := hy.read n q₁ _ hbody (by omega) hq₁
  obtain ⟨q₃, hthen, hq₃⟩ := hs.read n q₂ tail htail (by omega) hq₂
  refine ⟨q₃, ?_, hq₃⟩
  unfold forStmt
  rw [bind_ok hleft, bind_ok hpre, bind_ok hcondition, bind_ok hpost]
  exact bind_ok hthen

end Xvr.Frontend.Parse
