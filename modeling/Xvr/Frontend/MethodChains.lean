/-
  Xvr.Frontend.MethodChains — calls behind dots (`fnCall`, `dot`, `dottify` and the dot case
  of `parsePrecedence` of `xvr_parser.cpp`).

  The right side of a dot is parsed at CALL, so a chain nests to the right: each dot has
  its own call and the chain behind it in one node, which `dottify` then walks. A call it
  has walked over is no FN_CALL any more, so the dots in front of it pass it by.

  Proved:
  - `arguments_read`, `Opens.called`: an argument list, and a call of anything.
  - `dottify_call`, `dottify_dotted`: what `dottify` makes of a call, and that it leaves a
    chain it has walked as it is.
  - `chain_read`: the node of a whole chain.
  - `receiver_counted`: every call of a chain is a DOT that counts one argument more than
    were written, and its argument list is as it was read.
-/

import Xvr.Frontend.IndexForms

namespace Xvr.Frontend.Parse

open Xvr.Runtime Xvr.Lib

/-! ## Calls -/

variable (z : Parser → Node → Bool)

/-- Arguments between parentheses, a comma in front of each but the first. -/
inductive Arguments where
  | none
  | some (first : Part z) (others : List (Mark .comma × Part z))

variable {z}

namespace Arguments

def parts : Arguments z → List (Part z)
  | none => []
  | some first others => first :: others.map Prod.snd

def othersTokens (others : List (Mark .comma × Part z)) : List Token := others.flatMap fun o => o.1.token :: o.2.tokens

theorem length_othersTokens (others : List (Mark .comma × Part z)) : others.length ≤ (othersTokens others).length := by
  induction others with
  | nil => exact Nat.le_refl _
  | cons other others ih =>
    have htokens : othersTokens (other :: others) = other.1.token :: (other.2.tokens ++ othersTokens others) := rfl
    rw [htokens, List.length_cons, List.length_cons, List.length_append]
    omega

def tokens : Arguments z → List Token
  | none => []
  | some first others => first.tokens ++ othersTokens others

/-- The nodes of the arguments, as they are read. -/
def nodes (arguments : Arguments z) : List Node := arguments.parts.map Part.node

end Arguments

section Reading

variable {n : Nat} {p : Parser} {tail : TokenStream}

/-- An argument is collected, and what follows it decides how the loop goes on. -/
theorem argument_read (a : Part z) {type : TokenType} (m : Mark type) (hmark : type ≠ .error)
    (hlevel : ¬ PrecedenceRule.ternary ≤ levelOf type) (collected : List Node) (hn : 8 * a.tokens.length + 7 ≤ n)
    {ts : List Token} (hp : Poised p (tail.prepend (a.tokens ++ m.token :: ts))) :
    ∃ q, Poised q (tail.prepend (m.token :: ts)) ∧ argumentTurn (recAt z (n + 1)) collected p = (do
      if ← matchToken .comma then pure (.inl (collected ++ [a.node]))
      else
        consume .parenRight "Expected ')' at end of argument list"
        pure (.inr (some (collected ++ [a.node]))) : P (List Node ⊕ Option (List Node))) q := by
  obtain ⟨q, hrun, hq⟩ := a.read_to m hmark hlevel .null hn hp
  have hsolid := a.reads.solid nofun
  refine ⟨q, hq, ?_⟩
  unfold argumentTurn
  rw [bind_ok hrun, hsolid.not_null]
  have hderef : deref a.node q = .ok () q := by
    unfold deref
    rw [if_pos hsolid.isNode]
    rfl
  exact bind_ok hderef

/-- The loop of `fnCall` collects the arguments. -/
theorem arguments_read (first : Part z) (others : List (Mark .comma × Part z)) (right : Mark .parenRight) (collected : List Node)
    {k : Nat} (hk : others.length < k) (hn : 8 * (first.tokens ++ Arguments.othersTokens others).length + 7 ≤ n)
    (hclean : Clean tail)
    (hp : Poised p (tail.prepend (first.tokens ++ (Arguments.othersTokens others ++ [right.token])))) :
    ∃ q, loop .outOfFuel (argumentTurn (recAt z (n + 1))) k collected p =
      .ok (some (collected ++ (first :: others.map Prod.snd).map Part.node)) q ∧ Poised q tail := by
  obtain ⟨k, rfl⟩ : ∃ k', k = k' + 1 := ⟨k - 1, by omega⟩
  rw [List.length_append] at hn
  rw [loop_succ]
  induction others generalizing first collected k p with
  | nil =>
    obtain ⟨q, hq, hturn⟩ := argument_read first right nofun (by decide) collected (n := n) (by omega) hp
    have hcomma : matchToken .comma q = .ok false q := match_other hq (by rw [right.isType]; nofun)
    refine ⟨advanced q, ?_, hq.advanced hclean⟩
    have hlast : argumentTurn (recAt z (n + 1)) collected p = .ok (.inr (some (collected ++ [first.node]))) (advanced q) := by
      rw [hturn, bind_ok hcomma]
      exact bind_ok (consume_mark right _ hq)
    rw [bind_ok hlast]
    rfl
  | cons other others ih =>
    obtain ⟨comma, next⟩ := other
    have htokens : Arguments.othersTokens ((comma, next) :: others) =
        comma.token :: (next.tokens ++ Arguments.othersTokens others) := rfl
    rw [htokens, List.cons_append, List.append_assoc] at hp
    rw [htokens, List.length_cons, List.length_append] at hn
    rw [List.length_cons] at hk
    obtain ⟨q, hq, hturn⟩ := argument_read first comma nofun (by decide) collected (n := n) (by omega) hp
    obtain ⟨hcomma, hq'⟩ := match_mark comma hq (next.clean _ tail)
    have hmore : argumentTurn (recAt z (n + 1)) collected p = .ok (.inl (collected ++ [first.node])) (advanced q) := by
      rw [hturn]
      exact bind_ok hcomma
    obtain ⟨k, rfl⟩ : ∃ k', k = k' + 1 := ⟨k - 1, by omega⟩
    obtain ⟨q', hrun, hq''⟩ := ih next (collected ++ [first.node]) (by omega) hq' k (by omega)
    refine ⟨q', ?_, hq''⟩
    rw [bind_ok hmore]
    show loop .outOfFuel (argumentTurn (recAt z (n + 1))) (k + 1) (collected ++ [first.node]) (advanced q) = _
    rw [loop_succ, hrun]
    simp

/-- A call's node: what `fnCall` answers. -/
def Arguments.callNode (arguments : Arguments z) : Node :=
  .fnCall (.fnCollection arguments.nodes) arguments.nodes.length

/-- `fnCall` reads the whole argument list. -/
theorem fnCall_reads (left : Mark .parenLeft) (arguments : Arguments z) (right : Mark .parenRight) (handle : Node)
    (hn : 8 * arguments.tokens.length + 7 ≤ n) (hclean : Clean tail)
    (hp : Poised p (tail.prepend (left.token :: (arguments.tokens ++ [right.token])))) :
    ∃ q, fnCall (recAt z (n + 1)) handle p = .ok (.fnCall, arguments.callNode) q ∧ Poised q tail := by
  have htype : (advanced p).previous.type = .parenLeft := by rw [advanced_previous, hp.at_head.current, left.isType]
  unfold fnCall
  rw [bind_ok (advance_eq p), bind_get, if_pos htype]
  cases arguments with
  | none =>
    have hq := hp.advanced (mark_clean right nofun [] tail)
    obtain ⟨hmatch, hq'⟩ := match_mark right hq hclean
    exact ⟨_, bind_ok hmatch, hq'⟩
  | some first others =>
    rw [Arguments.tokens, List.append_assoc] at hp
    have hq := hp.advanced (first.clean _ tail)
    have hlen := Arguments.length_othersTokens others
    rw [Arguments.tokens, List.length_append] at hn
    obtain ⟨q, hrun, hq'⟩ := arguments_read first others right [] (n := n) (k := n + 1) (by omega)
      (by rw [List.length_append]; exact hn) hclean hq
    refine ⟨q, ?_, hq'⟩
    rw [bind_ok (first.match_other rfl hq)]
    exact bind_ok hrun

end Reading

/-- An opcode that does not fold makes a node of both sides. -/
theorem binaryTurn_unfolded {opcode : Opcode} (h : foldable opcode = false) (lhs rhs : Node) (p : Parser) :
    binaryTurn lhs rhs opcode p = .ok (.inl (.binary opcode lhs rhs)) p := by
  have hcalc : calcStaticBinaryArithmetic (.binary opcode lhs rhs) p = .ok (true, .binary opcode lhs rhs) p := by
    unfold calcStaticBinaryArithmetic
    rw [if_neg (by simp [h])]
    rfl
  unfold binaryTurn
  rw [bind_get]
  cases p.panic with
  | true => rfl
  | false => exact bind_ok hcalc

section Chains

variable {rule : PrecedenceRule} {target : List Token} {node : Node}

/-- A call extends any target. -/
theorem Opens.called (h : Opens z rule target node) (hrule : rule ≤ .call) (left : Mark .parenLeft) (arguments : Arguments z)
    (right : Mark .parenRight) : Opens z rule (target ++ left.token :: (arguments.tokens ++ [right.token]))
      (.binary .fnCall node arguments.callNode) := by
  intro tail n handle p hclean hn hp
  simp only [List.length_append, List.length_cons, List.length_nil] at hn
  rw [prepend_append] at hp
  obtain ⟨k, q, hk, hq, hrun⟩ := h _ n handle p (mark_clean left nofun _ _) (by omega) hp
  obtain ⟨k, rfl⟩ : ∃ k', k = k' + 1 := ⟨k - 1, by omega⟩
  obtain ⟨n, rfl⟩ : ∃ n', n = n' + 1 := ⟨n - 1, by omega⟩
  obtain ⟨q', hcall, hq'⟩ := fnCall_reads left arguments right .null (n := n) (by omega) hclean hq
  have htype : q.current.type = .parenLeft := by rw [hq.at_head.current, left.isType]
  refine ⟨k, q', ?_, hq', hrun.trans (loop_turn ?_)⟩
  · simp only [List.length_append, List.length_cons, List.length_nil]
    omega
  · rw [turn_operator (by rw [htype]; exact hrule) (by rw [htype]; rfl) hcall]
    exact binaryTurn_unfolded rfl _ _ _

/-! ## What `dottify` does -/

theorem dottify_leaf {node : Node} (hnode : node.isNode = true) (hbinary : node.isBinary = false) (p : Parser) :
    dottify node p = .ok node (accessed (.dotted node) p) := by
  have haccess : access (.dotted node) p = .ok () (accessed (.dotted node) p) := access_defined hnode
  cases node with
  | binary => cases hbinary
  | _ => exact bind_ok haccess

/-- What `dottify` makes of a node, wherever the parser stands. -/
def Dottified (node node' : Node) : Prop := ∀ p s, Poised p s → ∃ q, dottify node p = .ok node' q ∧ Poised q s

theorem dottified_leaf {node : Node} (hnode : node.isNode = true) (hbinary : node.isBinary = false) : Dottified node node :=
  fun p _ hp => ⟨_, dottify_leaf hnode hbinary p, hp.accessed _⟩

theorem dottified_binary (opcode : Opcode) {left left' right right' : Node} (hl : Dottified left left')
    (hr : Dottified right right') :
    Dottified (.binary opcode left right)
      (if opcode = .fnCall then .binary .dot left' (countArgument right') else .binary opcode left' right') := by
  intro p s hp
  obtain ⟨q, hleft, hq⟩ := hl _ s (hp.accessed (.dotted (.binary opcode left right)))
  obtain ⟨q', hright, hq'⟩ := hr q s hq
  have haccess : access (.dotted (.binary opcode left right)) p = .ok () (accessed (.dotted (.binary opcode left right)) p) :=
    access_defined rfl
  refine ⟨q', ?_, hq'⟩
  unfold dottify
  rw [bind_ok haccess]
  refine (bind_ok hleft).trans ((bind_ok hright).trans ?_)
  split <;> rfl

/-! ## Chains -/

variable (z) in
/-- `.name(arguments)` or `::name(arguments)`. -/
structure MethodCall where
  operator : Token
  isOperator : operator.type = .dot ∨ operator.type = .colonColon
  name : Token
  isName : name.type = .identifier
  fits : name.lexeme.length ≤ maxIdentifierLength
  left : Mark .parenLeft
  arguments : Arguments z
  right : Mark .parenRight

namespace MethodCall

variable (c : MethodCall z)

def nameNode : Node := .literal (.identifier c.name.lexeme)

/-- The tokens behind the dot. -/
def tokens : List Token := [c.name] ++ c.left.token :: (c.arguments.tokens ++ [c.right.token])

/-- The call as it is read. -/
def called : Node := .binary .fnCall c.nameNode c.arguments.callNode

/-- The call with its receiver counted. -/
def counted : Node := .binary .dot c.nameNode (.fnCall (.fnCollection c.arguments.nodes) (c.arguments.nodes.length + 1))

theorem opens : Opens z rule [c.name] c.nameNode := opens_name c.isName c.fits

/-- A call is turned into a DOT, and its receiver counted. -/
theorem dottify_call : Dottified c.called c.counted :=
  dottified_binary .fnCall (dottified_leaf rfl rfl) (dottified_leaf rfl rfl)

/-- Once. -/
theorem dottify_counted : Dottified c.counted c.counted :=
  dottified_binary .dot (dottified_leaf rfl rfl) (dottified_leaf rfl rfl)

end MethodCall

/-- The calls of a chain behind its receiver, each with its own dot. -/
def spine : MethodCall z → List (MethodCall z) → Node
  | c, [] => c.counted
  | c, d :: ds => .binary .dot c.counted (spine d ds)

/-- The same as it is read, before the dot in front of it. -/
def unwalked : MethodCall z → List (MethodCall z) → Node
  | c, [] => c.called
  | c, d :: ds => .binary .dot c.called (spine d ds)

/-- A chain that was walked is left as it is. -/
theorem dottify_spine (c : MethodCall z) (cs : List (MethodCall z)) : Dottified (spine c cs) (spine c cs) := by
  induction cs generalizing c with
  | nil => exact c.dottify_counted
  | cons d ds ih => exact dottified_binary .dot c.dottify_counted (ih d)

theorem dottify_unwalked (c : MethodCall z) (cs : List (MethodCall z)) : Dottified (unwalked c cs) (spine c cs) := by
  cases cs with
  | nil => exact c.dottify_call
  | cons d ds => exact dottified_binary .dot c.dottify_call (dottify_spine d ds)

/-- The tokens of a chain behind its receiver. -/
def behindDots (cs : List (MethodCall z)) : List Token := cs.flatMap fun c => c.operator :: c.tokens

variable (z) in
/-- In front of a token that continues no call, the tokens bring the loop to the node. -/
def Leads (rule : PrecedenceRule) (tokens : List Token) (node : Node) : Prop :=
  ∀ tail n handle p, Clean tail → Stops .call tail → 8 * tokens.length + 7 ≤ n → Poised p (tail.prepend tokens) →
    ∃ k q, n ≤ k + tokens.length ∧ Poised q tail ∧ parsePrecedence (recAt z n) handle rule p =
      (loop .outOfFuel (prattTurn (recAt z n) rule) k node >>= endExpression rule) q

theorem Leads.reads {tokens : List Token} (h : Leads z rule tokens node) (hrule : rule ≤ .call) : Reads z rule tokens node := by
  intro tail n handle p hclean hstop hn hp
  obtain ⟨k, q, hk, hq, hrun⟩ := h tail n handle p hclean (hstop.mono hrule) hn hp
  obtain ⟨k, rfl⟩ : ∃ k', k = k' + 1 := ⟨k - 1, by omega⟩
  exact ⟨q, hrun.trans (expression_end hq.before hstop), hq⟩

theorem spine_not_null (c : MethodCall z) (cs : List (MethodCall z)) : (spine c cs).isNull = false := by
  cases cs <;> rfl

/-- `dot` answers the whole chain behind it. -/
theorem dot_reads {n : Nat} {p : Parser} {tail : TokenStream} (c : MethodCall z) (cs : List (MethodCall z)) (handle : Node)
    (h : Reads z .call (c.tokens ++ behindDots cs) (unwalked c cs))
    (hn : 8 * (c.tokens ++ behindDots cs).length + 7 ≤ n) (hclean : Clean tail) (hstop : Stops .call tail)
    (hp : Poised p (tail.prepend (c.operator :: (c.tokens ++ behindDots cs)))) :
    ∃ q, dot (recAt z (n + 1)) handle p = .ok (.dot, unwalked c cs) q ∧ Poised q tail := by
  have hname : startsExpression c.name.type = true := by rw [c.isName]; rfl
  obtain ⟨q, hrun, hq⟩ := h tail n .null _ hclean hstop hn (hp.advanced (clean_starts tail hname))
  refine ⟨q, ?_, hq⟩
  unfold dot
  rw [bind_ok (advance_eq p)]
  refine (bind_ok hrun).trans ?_
  cases cs with
  | nil => rfl
  | cons d ds =>
    show (if (spine d ds).isNull then _ else _ : P (Opcode × Node)) q = _
    rw [spine_not_null]
    rfl

/-- A chain of calls behind any target. -/
theorem Opens.behind (h : Opens z rule target node) (hrule : rule ≤ .call) (c : MethodCall z) (cs : List (MethodCall z))
    (hchain : Reads z .call (c.tokens ++ behindDots cs) (unwalked c cs)) :
    Leads z rule (target ++ behindDots (c :: cs)) (.binary .dot node (spine c cs)) := by
  intro tail n handle p hclean hstop hn hp
  have htokens : behindDots (c :: cs) = c.operator :: (c.tokens ++ behindDots cs) := rfl
  rw [htokens, List.length_append, List.length_cons] at hn
  rw [htokens, prepend_append] at hp
  have hlevel : levelOf c.operator.type = .call ∧ (getRule (recAt z n) c.operator.type).infixRule = some (dot (recAt z n)) := by
    rcases c.isOperator with hdot | hdot
    · rw [hdot]
      exact ⟨rfl, rfl⟩
    · rw [hdot]
      exact ⟨rfl, rfl⟩
  have hclean' : Clean (tail.prepend (c.operator :: (c.tokens ++ behindDots cs))) := by
    show c.operator.type ≠ .error
    rcases c.isOperator with hdot | hdot
    · rw [hdot]
      nofun
    · rw [hdot]
      nofun
  obtain ⟨k, q, hk, hq, hrun⟩ := h _ n handle p hclean' (by omega) hp
  obtain ⟨k, rfl⟩ : ∃ k', k = k' + 1 := ⟨k - 1, by omega⟩
  obtain ⟨n, rfl⟩ : ∃ n', n = n' + 1 := ⟨n - 1, by omega⟩
  obtain ⟨q', hdot, hq'⟩ := dot_reads c cs .null hchain (n := n) (by omega) hclean hstop hq
  obtain ⟨q'', hwalk, hq''⟩ := dottify_unwalked c cs q' tail hq'
  have hcurrent : q.current.type = c.operator.type := by rw [hq.at_head.current]
  refine ⟨k, q'', ?_, hq'', hrun.trans (loop_turn ?_)⟩
  · rw [htokens, List.length_append, List.length_cons]
    omega
  · rw [turn_operator (by rw [hcurrent, hlevel.1]; exact hrule) (by rw [hcurrent]; exact hlevel.2) hdot]
    exact (bind_ok hwalk).trans (binaryTurn_unfolded rfl _ _ _)

/-- The right side of a dot. -/
theorem chain_reads (c : MethodCall z) (cs : List (MethodCall z)) :
    Reads z .call (c.tokens ++ behindDots cs) (unwalked c cs) := by
  have hcall (c : MethodCall z) : Opens z .call c.tokens c.called :=
    c.opens.called (Nat.le_refl _) c.left c.arguments c.right
  induction cs generalizing c with
  | nil =>
    rw [behindDots, List.flatMap_nil, List.append_nil]
    exact (hcall c).reads
  | cons d ds ih => exact ((hcall c).behind (Nat.le_refl _) d ds (ih d)).reads (Nat.le_refl _)

/-- The node of a chain on its receiver. -/
def methodNode (receiver : Node) : List (MethodCall z) → Node
  | [] => receiver
  | c :: cs => .binary .dot receiver (spine c cs)

theorem chain_leads (h : Opens z rule target node) (hrule : rule ≤ .call) (cs : List (MethodCall z)) :
    Leads z rule (target ++ behindDots cs) (methodNode node cs) := by
  cases cs with
  | nil =>
    rw [behindDots, List.flatMap_nil, List.append_nil]
    exact fun tail n handle p hclean _ hn hp => h tail n handle p hclean hn hp
  | cons c cs => exact h.behind hrule c cs (chain_reads c cs)

end Chains

/-! ## The calls of a tree -/

structure CallNode where
  opcode : Opcode
  callee : Node
  arguments : Node
  argumentCount : Nat

/-- The calls of a tree outside argument lists, from left to right. -/
def callsOf : Node → List CallNode
  | .binary opcode left (.fnCall arguments argumentCount) => callsOf left ++ [⟨opcode, left, arguments, argumentCount⟩]
  | .binary _ left right => callsOf left ++ callsOf right
  | _ => []

/-- What the first call of a tree is made on. -/
def receiverOf : Node → Node
  | .binary _ left _ => receiverOf left
  | node => node

/-- A call of a chain with its receiver counted. -/
def MethodCall.node (c : MethodCall z) : CallNode :=
  ⟨.dot, c.nameNode, .fnCollection c.arguments.nodes, c.arguments.parts.length + 1⟩

theorem callsOf_counted (c : MethodCall z) : callsOf c.counted = [c.node] := by
  have hcount : c.arguments.nodes.length = c.arguments.parts.length := List.length_map ..
  show [(⟨.dot, c.nameNode, .fnCollection c.arguments.nodes, c.arguments.nodes.length + 1⟩ : CallNode)] = _
  rw [hcount]
  rfl

theorem callsOf_spine (c : MethodCall z) (cs : List (MethodCall z)) : callsOf (spine c cs) = (c :: cs).map MethodCall.node := by
  induction cs generalizing c with
  | nil => exact callsOf_counted c
  | cons d ds ih =>
    have hright : callsOf (spine c (d :: ds)) = callsOf c.counted ++ callsOf (spine d ds) := by
      cases ds <;> rfl
    rw [hright, callsOf_counted, ih d]
    rfl

theorem callsOf_methodNode (name : List Char) (cs : List (MethodCall z)) :
    callsOf (methodNode (.literal (.identifier name)) cs) = cs.map MethodCall.node := by
  cases cs with
  | nil => rfl
  | cons c cs =>
    have hright : callsOf (methodNode (.literal (.identifier name)) (c :: cs)) = callsOf (spine c cs) := by
      cases cs <;> rfl
    rw [hright, callsOf_spine]

/-- Every call of a chain is a DOT node that counts one argument more than were written,
    with its arguments as they were read, and the chain stands behind its receiver. -/
theorem receiver_counted {rule : PrecedenceRule} (hrule : rule ≤ .call) (x : Token) (hx : x.type = .identifier)
    (hfits : x.lexeme.length ≤ maxIdentifierLength) (cs : List (MethodCall z)) (handle : Node) {tail : TokenStream}
    (hclean : Clean tail) (hstop : Stops .call tail) {p : Parser} (hp : Poised p (tail.prepend ([x] ++ behindDots cs))) :
    ∃ node k q, (recAt z (fuelFor p)).parsePrecedence handle rule p =
        (loop .outOfFuel (prattTurn (recAt z (fuelFor p - 1)) rule) (k + 1) node >>= endExpression rule) q ∧ Poised q tail ∧
      (Stops rule tail → (recAt z (fuelFor p)).parsePrecedence handle rule p = .ok node q) ∧
      receiverOf node = .literal (.identifier x.lexeme) ∧ callsOf node = cs.map MethodCall.node := by
  have hleads : Leads z rule ([x] ++ behindDots cs) (methodNode (.literal (.identifier x.lexeme)) cs) :=
    chain_leads (opens_name hx hfits) hrule cs
  have hfuel : 8 * ([x] ++ behindDots cs).length + 8 ≤ fuelFor p := fuel_of_head (by rw [hx]; nofun) hp
  obtain ⟨n, hn⟩ : ∃ n, fuelFor p = n + 1 := ⟨fuelFor p - 1, by omega⟩
  obtain ⟨k, q, hk, hq, hrun⟩ := hleads tail n handle p hclean hstop (by omega) hp
  obtain ⟨k, rfl⟩ : ∃ k', k = k' + 1 := ⟨k - 1, by omega⟩
  rw [hn]
  refine ⟨methodNode (.literal (.identifier x.lexeme)) cs, k, q, hrun, hq, fun hend => ?_, ?_, callsOf_methodNode _ cs⟩
  · exact hrun.trans (expression_end hq.before hend)
  · cases cs <;> rfl

/-! ## A short chain -/

/-- `.f(1)` and `::g()`. -/
def callF : MethodCall neverZero :=
  ⟨⟨.dot, ".".toList, 1⟩, Or.inl rfl, ⟨.identifier, ['f'], 1⟩, rfl, by decide, leftMark, .some one.part [], rightMark⟩

def callG : MethodCall neverZero :=
  ⟨⟨.colonColon, "::".toList, 1⟩, Or.inr rfl, ⟨.identifier, ['g'], 1⟩, rfl, by decide, leftMark, .none, rightMark⟩

/-- The parser in front of `x.f(1)::g();`. -/
def beforeChain : Parser := standing ((tokensOf [.semicolon]).prepend ([nameToken] ++ behindDots [callF, callG]))

theorem receiver_counted_two :
    ∃ node k q, (recAt neverZero (fuelFor beforeChain)).parsePrecedence .null .assignment beforeChain =
        (loop .outOfFuel (prattTurn (recAt neverZero (fuelFor beforeChain - 1)) .assignment) (k + 1) node >>=
          endExpression .assignment) q ∧ Poised q (tokensOf [.semicolon]) ∧
      (Stops .assignment (tokensOf [.semicolon]) →
        (recAt neverZero (fuelFor beforeChain)).parsePrecedence .null .assignment beforeChain = .ok node q) ∧
      receiverOf node = .literal (.identifier ['x']) ∧ callsOf node = [callF, callG].map MethodCall.node :=
  receiver_counted (by decide) nameToken rfl (by decide) [callF, callG] .null semicolon_clean
    (semicolon_stops.mono (by decide)) (standing_poised _)

end Xvr.Frontend.Parse
