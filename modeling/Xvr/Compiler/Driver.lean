/-
  Xvr.Compiler.Driver — from a source to its syntax trees (`parse_to_ast` of
  `compiler_tools.c`).

  The driver calls the parser until it answers NULL. An error node ends the loop: the nodes
  read so far are freed and the answer is NULL, as it is where no statement was read.

  Proved:
  - `parse_to_ast_iff`: the answer is the nodes of the run exactly where the run raises no
    error; where it is NULL behind an error, every node read was freed, once.
  - `source_parsed`: a source laid out as a program is answered with the trees of its
    statements.
-/

import Xvr.Frontend.FormedStatements
import Xvr.Frontend.FoldedNodes
import Xvr.Frontend.GrammarRuns
import Xvr.Frontend.Layouts

namespace Xvr.Compiler

open Xvr.Lib Xvr.Frontend.Parse
open Xvr.Frontend (Node Token)

/-! ## The array of nodes -/

/-- `nodes`, `nodeCount` and `nodeCapacity`. -/
structure NodeBuffer where
  nodes : List Node
  capacity : Nat
  fits : nodes.length ≤ capacity
  /-- Nothing is allocated before the first node. -/
  late : nodes = [] → capacity = 0

namespace NodeBuffer

def empty : NodeBuffer := ⟨[], 0, Nat.le_refl _, fun _ => rfl⟩

def grow (capacity : Nat) : Nat := if capacity < 8 then 8 else capacity * 2

theorem lt_grow (capacity : Nat) : capacity < grow capacity := by
  unfold grow
  split <;> omega

/-- `nodes[nodeCount++] = node`, behind the reallocation. -/
def push (b : NodeBuffer) (node : Node) : NodeBuffer where
  nodes := b.nodes ++ [node]
  capacity := if b.capacity ≤ b.nodes.length then grow b.capacity else b.capacity
  fits := by
    have := b.fits
    have := lt_grow b.capacity
    rw [List.length_append, List.length_singleton]
    split <;> omega
  late := fun h => absurd h (List.append_ne_nil_of_right_ne_nil _ (List.cons_ne_nil _ _))

def pushAll (b : NodeBuffer) (nodes : List Node) : NodeBuffer := nodes.foldl push b

/-- The pointer is null as long as nothing is allocated. -/
def pointer (b : NodeBuffer) : Option (List Node) := if b.capacity = 0 then none else some b.nodes

theorem pushAll_nodes (b : NodeBuffer) (nodes : List Node) : (b.pushAll nodes).nodes = b.nodes ++ nodes := by
  induction nodes generalizing b with
  | nil => simp [pushAll]
  | cons node nodes ih => exact (ih (b.push node)).trans (List.append_assoc _ _ _)

theorem pointer_eq (b : NodeBuffer) : b.pointer = if b.nodes = [] then none else some b.nodes := by
  unfold pointer
  by_cases h : b.nodes = []
  · rw [if_pos h, if_pos (b.late h)]
  · rw [if_neg h, if_neg]
    intro hc
    exact h (List.length_eq_zero_iff.mp (Nat.le_zero.mp (hc ▸ b.fits)))

end NodeBuffer

/-! ## The loop -/

section

variable (z : Parser → Node → Bool)

def freeNodes : List Node → P Unit
  | [] => pure ()
  | node :: nodes => do
    freeASTNode node
    freeNodes nodes

def parseTurn (b : NodeBuffer) : P (NodeBuffer ⊕ Option (List Node)) := do
  match ← scanParser z with
  | none => pure (.inr b.pointer)
  | some node =>
    if node.isError then
      freeASTNode node
      freeNodes b.nodes
      pure (.inr none)
    else pure (.inl (b.push node))

/-- `parse_to_ast`: `none` is NULL. Every turn takes a token, so they are enough of fuel. -/
def parseToAst (lexer : TokenStream) : EStateM.Result Stop Parser (Option (List Node)) :=
  let p := initParser lexer
  loop .outOfFuel (parseTurn z) (remaining p + 1) .empty p

/-! ## The calls -/

/-- Calls that answer trees, and the state behind them. -/
inductive Gathered : Parser → List Node → Parser → Prop
  | nil (p : Parser) : Gathered p [] p
  | call {p q p' : Parser} {node : Node} {nodes : List Node} : Returns z p (some node) q → node ≠ .error →
      Gathered q nodes p' → Gathered p (node :: nodes) p'

variable {z} {p p' q : Parser} {nodes : List Node} {node : Node}

theorem isError_iff {node : Node} : node.isError = true ↔ node = .error := by
  cases node <;> simp [Node.isError]

theorem Gathered.formed (h : Gathered z p nodes p') : ∀ node ∈ nodes, Formed .child node := by
  induction h with
  | nil => nofun
  | call hret hne _ ih => exact List.forall_mem_cons.mpr ⟨(scan_formed z hret).resolve_left hne, ih⟩

theorem Gathered.remaining (h : Gathered z p nodes p') : nodes.length + remaining p' ≤ remaining p := by
  induction h with
  | nil => simp
  | call hret _ _ ih =>
    have := (called_of_returns z hret).consumes
    rw [List.length_cons]
    omega

theorem run_behind (hret : Returns z p (some node) q) (hrun : RunFrom z q p') : RunFrom z p p' := by
  induction hrun with
  | start => exact .call .start hret
  | call _ hret' ih => exact .call ih hret'

theorem Gathered.run (h : Gathered z p nodes p') : RunFrom z p p' := by
  induction h with
  | nil => exact .start
  | call hret _ _ ih => exact run_behind hret ih

theorem Gathered.errors (h : Gathered z p nodes p') : p'.errors = p.errors := by
  induction h with
  | nil => rfl
  | call hret hne _ ih =>
    obtain ⟨new, herrors, hraised⟩ := (called_of_returns z hret).raised
    have hnew : new = [] := by
      by_contra hnew
      exact hne (hraised.mpr (.inr hnew))
    rw [ih, herrors, hnew]
    rfl

/-- The calls lead to EOF, to an error node, or to a call that is stopped. -/
theorem gathers (p : Parser) : ∃ nodes p', Gathered z p nodes p' ∧ (p'.current.type = .eof ∨
    (∃ q, Returns z p' (some .error) q) ∨ ∃ a q, ComesTo z p' a q ∧ a.defined = false) := by
  generalize hn : remaining p = n
  induction n using Nat.strongRecOn generalizing p with
  | ind n ih =>
    by_cases he : p.current.type = .eof
    · exact ⟨[], p, .nil p, .inl he⟩
    · rcases scan_call z he with ⟨node, q, hret, hcalled⟩ | hstop
      · by_cases herror : node = .error
        · exact ⟨[], p, .nil p, .inr (.inl ⟨q, herror ▸ hret⟩)⟩
        · obtain ⟨nodes, p', hgathered, hend⟩ := ih _ (hn ▸ hcalled.consumes) q rfl
          exact ⟨node :: nodes, p', .call hret herror hgathered, hend⟩
      · exact ⟨[], p, .nil p, .inr (.inr hstop)⟩

/-! ## The run of the loop -/

/-- The nodes are freed in order. -/
theorem freeNodes_run (h : ∀ node ∈ nodes, node.freeable = true) (p : Parser) :
    freeNodes nodes p = .ok () (accessedAll (nodes.reverse.map .free) p) := by
  induction nodes generalizing p with
  | nil => rfl
  | cons node nodes ih =>
    obtain ⟨hnode, hnodes⟩ := List.forall_mem_cons.mp h
    have hfree : freeASTNode node p = .ok () (accessed (.free node) p) := access_defined hnode
    rw [freeNodes, bind_ok hfree, ih hnodes]
    simp [accessedAll, accessed]

theorem turn_tree (hret : Returns z p (some node) q) (hne : node ≠ .error) (b : NodeBuffer) :
    parseTurn z b p = .ok (.inl (b.push node)) q := by
  rw [parseTurn, bind_ok hret]
  dsimp only
  rw [if_neg (fun h => hne (isError_iff.mp h))]
  rfl

theorem turn_eof (he : p.current.type = .eof) (b : NodeBuffer) : parseTurn z b p = .ok (.inr b.pointer) p := by
  rw [parseTurn, bind_ok (scan_eof z he)]
  rfl

theorem turn_error (hret : Returns z p (some .error) q) {b : NodeBuffer} (hb : ∀ node ∈ b.nodes, node.freeable = true) :
    parseTurn z b p = .ok (.inr none) (accessedAll (b.nodes.reverse.map .free) (accessed (.free .error) q)) := by
  have hfree : freeASTNode .error q = .ok () (accessed (.free .error) q) := access_defined rfl
  rw [parseTurn, bind_ok hret]
  dsimp only
  rw [if_pos (show Node.error.isError = true from rfl), bind_ok hfree, bind_ok (freeNodes_run hb _)]
  rfl

/-- The calls that answer trees fill the array. -/
theorem loop_gathered (h : Gathered z p nodes p') (n : Nat) (b : NodeBuffer) :
    loop .outOfFuel (parseTurn z) (nodes.length + n) b p = loop .outOfFuel (parseTurn z) n (b.pushAll nodes) p' := by
  induction h generalizing b with
  | nil => rw [List.length_nil, Nat.zero_add]; rfl
  | @call p q p' node nodes hret hne _ ih =>
    rw [List.length_cons, Nat.add_right_comm, loop_succ, bind_ok (turn_tree hret hne b)]
    exact ih _

/-- Behind the calls that answer trees one more turn is left. -/
theorem parseToAst_gathered {lexer : TokenStream} (h : Gathered z (initParser lexer) nodes p) :
    ∃ n, parseToAst z lexer = loop .outOfFuel (parseTurn z) (n + 1) (NodeBuffer.empty.pushAll nodes) p := by
  have hlength := h.remaining
  refine ⟨remaining (initParser lexer) - nodes.length, ?_⟩
  rw [← loop_gathered h, parseToAst]
  congr 1
  omega

theorem pushAll_empty (nodes : List Node) : (NodeBuffer.empty.pushAll nodes).nodes = nodes :=
  NodeBuffer.pushAll_nodes _ _

theorem parseToAst_eof {lexer : TokenStream} (h : Gathered z (initParser lexer) nodes p) (he : p.current.type = .eof) :
    parseToAst z lexer = .ok (if nodes = [] then none else some nodes) p := by
  obtain ⟨n, hrun⟩ := parseToAst_gathered h
  rw [hrun, loop_succ, bind_ok (turn_eof he _), NodeBuffer.pointer_eq, pushAll_empty]
  rfl

theorem parseToAst_error {lexer : TokenStream} (h : Gathered z (initParser lexer) nodes p) (hret : Returns z p (some .error) q) :
    parseToAst z lexer = .ok none (accessedAll (nodes.reverse.map .free) (accessed (.free .error) q)) := by
  obtain ⟨n, hrun⟩ := parseToAst_gathered h
  have hfreeable : ∀ node ∈ (NodeBuffer.empty.pushAll nodes).nodes, node.freeable = true := by
    rw [pushAll_empty]
    exact fun node hnode => (h.formed node hnode).freeable
  rw [hrun, loop_succ, bind_ok (turn_error hret hfreeable), pushAll_empty]
  rfl

/-! ## Errors -/

theorem not_eof_of_returns (hret : Returns z p (some node) q) : p.current.type ≠ .eof := by
  intro he
  cases (returns_unique z hret (scan_eof z he)).1

/-- A parser that starts at EOF has raised nothing. -/
theorem init_eof {lexer : TokenStream} (he : (initParser lexer).current.type = .eof) : (initParser lexer).errors = [] := by
  rw [initParser_eq] at he ⊢
  unfold advanced at he ⊢
  split at he
  · rename_i herror
    have : (shift (blankParser lexer)).current.type = .eof := he
    rw [herror] at this
    cases this
  · rename_i herror
    rw [if_neg herror]
    rfl

theorem no_errors_at_eof {lexer : TokenStream} (h : Gathered z (initParser lexer) nodes p) (he : p.current.type = .eof) :
    p.errors = [] := by
  rw [h.errors]
  cases h with
  | nil => exact init_eof he
  | call hret hne _ =>
    obtain ⟨_, _, hraised⟩ := (called_of_returns z hret).raised
    have hpanic : (initParser lexer).panic = false := by
      by_contra hpanic
      exact hne (hraised.mpr (.inl (by simpa using hpanic)))
    rw [init_raised] at hpanic
    simpa using hpanic

theorem errors_behind_error {lexer : TokenStream} (h : Gathered z (initParser lexer) nodes p)
    (hret : Returns z p (some .error) q) : q.errors ≠ [] := by
  obtain ⟨new, herrors, hraised⟩ := (called_of_returns z hret).raised
  rw [herrors]
  rcases hraised.mp rfl with hpanic | hnew
  · cases h.run with
    | start =>
      rw [init_raised] at hpanic
      simp only [Bool.not_eq_true', List.isEmpty_eq_false_iff] at hpanic
      exact List.append_ne_nil_of_right_ne_nil _ hpanic
    | call _ hret' =>
      rw [(called_of_returns z hret').quiet (not_eof_of_returns hret)] at hpanic
      cases hpanic
  · exact List.append_ne_nil_of_left_ne_nil hnew _

/-- Errors stay. -/
theorem yields_errors (h : Yields z p nodes q) (hp : p.errors ≠ []) : q.errors ≠ [] := by
  induction h with
  | @null p q hret =>
    by_cases he : p.current.type = .eof
    · rwa [← (returns_unique z hret (scan_eof z he)).2] at hp
    · rcases scan_call z he with ⟨node, q', hret', _⟩ | ⟨a, q', hcomes, hundef⟩
      · cases (returns_unique z hret hret').1
      · rw [defined_of_returns z hret hcomes] at hundef
        cases hundef
  | call hret _ ih =>
    obtain ⟨new, herrors, _⟩ := (called_of_returns z hret).raised
    exact ih (herrors ▸ List.append_ne_nil_of_right_ne_nil _ hp)

theorem Gathered.yields (h : Gathered z p nodes p') (he : p'.current.type = .eof) : Yields z p nodes p' := by
  induction h with
  | nil p => exact .null (scan_eof z he)
  | call hret _ _ ih => exact .call hret (ih he)

/-- The driver's run goes on behind the trees. -/
theorem Gathered.behind (h : Gathered z p nodes p') {all : List Node} (hall : Yields z p all q) : ∃ rest, Yields z p' rest q := by
  induction h generalizing all with
  | nil => exact ⟨all, hall⟩
  | call hret _ _ ih =>
    cases hall with
    | null hret' => cases (returns_unique z hret hret').1
    | call hret' hrest =>
      obtain ⟨-, rfl⟩ := returns_unique z hret hret'
      exact ih hrest

/-- A run with an error node raises an error. -/
theorem yields_error {lexer : TokenStream} (h : Gathered z (initParser lexer) nodes p) (hret : Returns z p (some .error) p')
    {all : List Node} (hall : Yields z (initParser lexer) all q) : q.errors ≠ [] := by
  obtain ⟨rest, hrest⟩ := h.behind hall
  cases hrest with
  | null hret' => cases (returns_unique z hret hret').1
  | call hret' hyields =>
    obtain ⟨-, rfl⟩ := returns_unique z hret hret'
    exact yields_errors hyields (errors_behind_error h hret)

/-! ## What the driver answers -/

variable (z) in
/-- The driver answers. It is the nodes of the whole run, all well formed, exactly where the
    run raises no error and has a node; where an error was raised the nodes read before it
    were freed, and nothing else behind the call. -/
theorem parse_to_ast_iff (lexer : TokenStream) (hd : Defined z lexer) :
    ∃ answer p, parseToAst z lexer = .ok answer p ∧
      (∀ nodes, answer = some nodes ↔ nodes ≠ [] ∧ ∃ q, Yields z (initParser lexer) nodes q ∧ q.errors = []) ∧
      (∀ nodes, answer = some nodes → ∀ node ∈ nodes, Formed .child node) ∧
      (p.errors ≠ [] → ∃ nodes q q', Gathered z (initParser lexer) nodes q ∧ Returns z q (some .error) q' ∧
        p.accesses = nodes.reverse.map .free ++ .free .error :: q'.accesses) := by
  obtain ⟨nodes, p, hgathered, he | ⟨q, hret⟩ | ⟨a, q, hcomes, hundef⟩⟩ := gathers (z := z) (initParser lexer)
  · have herrors := no_errors_at_eof hgathered he
    refine ⟨_, p, parseToAst_eof hgathered he, fun nodes' => ?_, fun nodes' heq => ?_, fun h => absurd herrors h⟩
    · have hyields := hgathered.yields he
      constructor
      · intro heq
        split at heq
        · cases heq
        · rename_i hne
          cases heq
          exact ⟨hne, p, hyields, herrors⟩
      · rintro ⟨hne, q, hyields', -⟩
        rw [hyields.unique hyields', if_neg hne]
    · split at heq
      · cases heq
      · cases heq
        exact hgathered.formed
  · refine ⟨none, _, parseToAst_error hgathered hret, fun nodes' => ⟨nofun, ?_⟩, nofun, fun _ => ?_⟩
    · rintro ⟨-, q', hyields, herrors⟩
      exact absurd herrors (yields_error hgathered hret hyields)
    · exact ⟨nodes, p, q, hgathered, hret, rfl⟩
  · rw [hd p hgathered.run a q hcomes] at hundef
    cases hundef

/-- `break;` -/
theorem parse_to_ast_break : ∃ p, parseToAst neverZero (tokensOf [.break_, .semicolon]) = .ok (some [.pathBreak]) p := by
  have hret : Returns neverZero (initParser (tokensOf [.break_, .semicolon])) (some .pathBreak) _ := rfl
  obtain ⟨answer, p, hrun, hanswer, -⟩ := parse_to_ast_iff neverZero _ (defined_of_one neverZero hret rfl)
  exact ⟨p, hrun.trans (by rw [(hanswer [.pathBreak]).mpr ⟨nofun, _, .call hret (.null rfl), rfl⟩])⟩

/-! ## From the source -/

open Xvr.Frontend.Lexer (Source Gap Laid Lexes Calls initLexer laid_lexes)

/-- The tokens the lexer takes the source apart into. -/
def Streams (source : Source) (lexer : TokenStream) : Prop := Lexes (initLexer source) (lexer.tokens ++ [lexer.eof])

theorem calls_unique {l l₁ l₂ m₁ m₂ : Xvr.Frontend.Lexer.Lexer} {calls calls' : List (Token × Xvr.Frontend.Lexer.Lexer)}
    {t t' : Token} (hcalls : Calls l calls l₁) (hret : Xvr.Frontend.Lexer.Returns l₁ t l₂) (ht : t.type = .eof)
    (hcalls' : Calls l calls' m₁) (hret' : Xvr.Frontend.Lexer.Returns m₁ t' m₂) (ht' : t'.type = .eof) :
    calls = calls' ∧ t = t' := by
  induction hcalls generalizing calls' with
  | nil l =>
    cases hcalls' with
    | nil => exact ⟨rfl, (Xvr.Frontend.Lexer.returns_unique hret hret').1⟩
    | cons h hne _ => exact absurd ((Xvr.Frontend.Lexer.returns_unique h hret).1 ▸ ht) hne
  | cons h hne _ ih =>
    cases hcalls' with
    | nil => exact absurd ((Xvr.Frontend.Lexer.returns_unique h hret').1 ▸ ht') hne
    | cons h' _ hcalls' =>
      obtain ⟨rfl, rfl⟩ := Xvr.Frontend.Lexer.returns_unique h h'
      obtain ⟨rfl, rfl⟩ := ih hret hcalls'
      exact ⟨rfl, rfl⟩

theorem streams_unique {source : Source} {lexer lexer' : TokenStream} (h : Streams source lexer) (h' : Streams source lexer') :
    lexer = lexer' := by
  obtain ⟨calls, l₁, t, l₂, hcalls, hret, ht, heq⟩ := h
  obtain ⟨calls', m₁, t', m₂, hcalls', hret', ht', heq'⟩ := h'
  obtain ⟨rfl, rfl⟩ := calls_unique hcalls hret ht hcalls' hret' ht'
  obtain ⟨htokens, heof⟩ := List.append_inj' (heq.trans heq'.symm) rfl
  cases lexer
  cases lexer'
  cases htokens
  cases heof
  rfl

/-- A run without an error and its trees. -/
theorem parseToAst_yields {lexer : TokenStream} (h : Yields z (initParser lexer) nodes q) (herrors : q.errors = [])
    (hne : nodes ≠ []) : ∃ p, parseToAst z lexer = .ok (some nodes) p ∧ p.errors = [] := by
  obtain ⟨nodes', p, hgathered, he | ⟨q', hret⟩ | ⟨a, q', hcomes, hundef⟩⟩ := gathers (z := z) (initParser lexer)
  · obtain rfl := (hgathered.yields he).unique h
    refine ⟨p, ?_, no_errors_at_eof hgathered he⟩
    rw [parseToAst_eof hgathered he, if_neg hne]
  · exact absurd herrors (yields_error hgathered hret h)
  · obtain ⟨rest, hrest⟩ := hgathered.behind h
    have hdefined : a.defined = true := by
      cases hrest with
      | null hret => exact defined_of_returns z hret hcomes
      | call hret _ => exact defined_of_returns z hret hcomes
    rw [hdefined] at hundef
    cases hundef

variable (z) in
/-- A source that is laid out as the tokens of a program is read as that program. -/
theorem source_parsed (source : Source) (tokens : List Token) (eof : Token) (nodes : List Node)
    (hlaid : Laid 0 0 1 source.text (tokens ++ [eof])) (hprogram : Derives .statements tokens nodes) (hne : nodes ≠ []) :
    ∃ lexer, (∀ lexer', Streams source lexer' ↔ lexer' = lexer) ∧
      ∃ p, parseToAst z lexer = .ok (some nodes) p ∧ p.errors = [] := by
  have hlexes : Lexes (initLexer source) (tokens ++ [eof]) := (laid_lexes hlaid rfl rfl rfl rfl).1
  have heof : eof.type = .eof := by
    obtain ⟨calls, _, t, _, _, _, ht, heq⟩ := hlexes
    obtain ⟨-, heq⟩ := List.append_inj' heq rfl
    cases heq
    exact ht
  obtain ⟨q, hyields, -, herrors, -⟩ := program_yields (z := z) hprogram eof heof
  refine ⟨⟨tokens, eof, heof⟩, fun lexer' => ⟨fun h => streams_unique h hlexes, ?_⟩, parseToAst_yields hyields herrors hne⟩
  rintro rfl
  exact hlexes

/-- `break; // x` -/
theorem source_parsed_break : ∃ lexer, (∀ lexer', Streams ⟨"break; // x".toList, by decide⟩ lexer' ↔ lexer' = lexer) ∧
    ∃ p, parseToAst neverZero lexer = .ok (some [.pathBreak]) p ∧ p.errors = [] := by
  have hgap : Gap false [] ([' '] ++ '/' :: '/' :: " x".toList) := .cons (.space (.inl rfl)) (.lastLine rfl (by decide))
  have hfinish : Laid 5 6 1 " // x".toList [⟨.eof, [], 1⟩] := .finish hgap
  have hsemicolon : Laid 0 5 1 "; // x".toList [⟨.semicolon, [';'], 1⟩, ⟨.eof, [], 1⟩] :=
    .token .nil (.operator (by decide : (.semicolon, [';']) ∈ Xvr.Frontend.Lexer.operators) (by decide)) hfinish
  have hbreak : Laid 0 0 1 "break; // x".toList [⟨.break_, "break".toList, 1⟩, ⟨.semicolon, [';'], 1⟩, ⟨.eof, [], 1⟩] :=
    .token .nil (.word ⟨'b', "reak".toList, by decide, fun c hc => by fin_cases hc <;> rfl⟩ (by decide)) hsemicolon
  exact source_parsed neverZero ⟨"break; // x".toList, by decide⟩ [⟨.break_, "break".toList, 1⟩, ⟨.semicolon, [';'], 1⟩]
    ⟨.eof, [], 1⟩ [.pathBreak] hbreak
    (.next (.breakStmt ⟨⟨.break_, _, 1⟩, rfl⟩ ⟨⟨.semicolon, _, 1⟩, rfl⟩) .nothing) nofun

end

end Xvr.Compiler
