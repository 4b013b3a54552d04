/-
  Xvr.Frontend.GrammarDeclarations — the grammar's simple statements and declarations, as
  `statement` and `declaration` read them.

  Proved: one lemma for each rule: `declares_assert` to `declares_expression`, and
  `declares_var`, `declares_fn`.
-/

import Xvr.Frontend.GrammarStatements

namespace Xvr.Frontend.Parse

open Xvr.Runtime Xvr.Lib

variable {z : Parser → Node → Bool} {isOpen : Bool} {reach reach' : Nat} {xs ys zs : List Token} {x y node : Node}
  {nodes : List Node}

/-! ## Simple statements -/

theorem declares_assert (m : Mark .assert_) (comma : Mark .comma) (semicolon : Mark .semicolon)
    (hx : ReadsBelow z .ternary reach xs x) (hreach : 1 ≤ reach) (hy : ReadsBelow z .ternary reach' ys y) (hreach' : 1 ≤ reach') :
    Declares z isOpen (m.token :: (xs ++ comma.token :: (ys ++ [semicolon.token]))) (.binary .assert x y) := by
  refine .behind m assertStmt (fun _ => rfl) (fun tail _ => hx.clean hreach _ tail) fun n p tail htail hn hp => ?_
  simp only [List.length_append, List.length_cons, List.length_nil] at hn
  obtain ⟨n, rfl⟩ : ∃ n', n = n' + 1 := ⟨n - 1, by omega⟩
  obtain ⟨q, hleft, hq⟩ := hx.read_mark hreach comma ⟨nofun, rfl⟩ .wild (n := n) (by omega) hp
  obtain ⟨hcomma, hq'⟩ := consume_poised comma "Expected ',' in assert statement" (hy.clean hreach' _ tail) hq
  obtain ⟨q₁, hright, hq₁⟩ := hy.read_mark hreach' semicolon ⟨nofun, rfl⟩ .wild (n := n) (by omega) hq'
  obtain ⟨hsemicolon, hq₂⟩ := semicolon_read semicolon (r := []) htail.1 hq₁
  refine ⟨advanced q₁, ?_, hq₂⟩
  unfold assertStmt
  rw [bind_ok hleft, bind_ok hcomma, bind_ok hright]
  exact bind_ok hsemicolon

/-- A keyword and its semicolon. -/
theorem declares_alone {type : TokenType} (m : Mark type) (semicolon : Mark .semicolon)
    (hkeyword : ∀ rec, behindKeyword rec type = some (do consumeSemicolon; pure node)) :
    Declares z isOpen [m.token, semicolon.token] node := by
  refine .behind m (fun _ => do consumeSemicolon; pure node) hkeyword (fun tail _ => mark_clean semicolon nofun [] tail)
    fun n p tail htail _ hp => ?_
  obtain ⟨hsemicolon, hq⟩ := semicolon_read semicolon (r := []) htail.1 hp
  exact ⟨advanced p, bind_ok hsemicolon, hq⟩

theorem declares_break (m : Mark .break_) (semicolon : Mark .semicolon) :
    Declares z isOpen [m.token, semicolon.token] .pathBreak := declares_alone m semicolon fun _ => rfl

theorem declares_continue (m : Mark .continue_) (semicolon : Mark .semicolon) :
    Declares z isOpen [m.token, semicolon.token] .pathContinue := declares_alone m semicolon fun _ => rfl

theorem declares_empty (semicolon : Mark .semicolon) : Declares z isOpen [semicolon.token] (emitASTNodeLiteral .null) :=
  .behind semicolon (fun _ => pure (emitASTNodeLiteral .null)) (fun _ => rfl) (fun _ h => h) fun _ p _ _ _ hp => ⟨p, rfl, hp⟩

/-! ### Returns -/

/-- A returned value is collected, and what follows it decides how the loop goes on. -/
theorem value_read (a : Part z) {type : TokenType} (m : Mark type) (hmark : type ≠ .error)
    (hlevel : ¬ PrecedenceRule.ternary ≤ levelOf type) (values : List Node) {n : Nat} (hn : 8 * a.tokens.length + 7 ≤ n)
    {p : Parser} {ts : List Token} {tail : TokenStream} (hp : Poised p (tail.prepend (a.tokens ++ m.token :: ts))) :
    ∃ q, Poised q (tail.prepend (m.token :: ts)) ∧ returnTurn (recAt z (n + 1)) values p = (do
      if ← matchToken .comma then pure (.inl (values ++ [a.node]))
      else pure (.inr (some (values ++ [a.node]))) : P (List Node ⊕ Option (List Node))) q := by
  obtain ⟨q, hrun, hq⟩ := a.read_to m hmark hlevel .null hn hp
  have hsolid := a.reads.solid nofun
  refine ⟨q, hq, ?_⟩
  unfold returnTurn
  rw [bind_ok hrun, hsolid.not_null]
  have hderef : deref a.node q = .ok () q := by
    unfold deref
    rw [if_pos hsolid.isNode]
    rfl
  exact bind_ok hderef

/-- The loop of `returnStmt` collects the values. -/
theorem values_read (first : Part z) (others : List (Mark .comma × Part z)) (semicolon : Mark .semicolon) (values : List Node)
    {k n : Nat} (hk : others.length < k) (hn : 8 * (first.tokens ++ Arguments.othersTokens others).length + 7 ≤ n) {p : Parser}
    {ts : List Token} {tail : TokenStream}
    (hp : Poised p (tail.prepend (first.tokens ++ (Arguments.othersTokens others ++ semicolon.token :: ts)))) :
    ∃ q, loop .outOfFuel (returnTurn (recAt z (n + 1))) k values p =
      .ok (some (values ++ (first :: others.map Prod.snd).map Part.node)) q ∧ Poised q (tail.prepend (semicolon.token :: ts)) := by
  obtain ⟨k, rfl⟩ : ∃ k', k = k' + 1 := ⟨k - 1, by omega⟩
  rw [List.length_append] at hn
  induction others generalizing first values k p with
  | nil =>
    obtain ⟨q, hq, hturn⟩ := value_read first semicolon nofun (by decide) values (n := n) (by omega) hp
    have hcomma : matchToken .comma q = .ok false q := match_other hq (by rw [semicolon.isType]; nofun)
    refine ⟨q, ?_, hq⟩
    rw [loop_succ, bind_ok (hturn.trans (bind_ok hcomma))]
    rfl
  | cons other others ih =>
    obtain ⟨comma, next⟩ := other
    have htokens : Arguments.othersTokens ((comma, next) :: others) =
        comma.token :: (next.tokens ++ Arguments.othersTokens others) := rfl
    rw [htokens, List.cons_append, List.append_assoc] at hp
    rw [htokens, List.length_cons, List.length_append] at hn
    rw [List.length_cons] at hk
    obtain ⟨q, hq, hturn⟩ := value_read first comma nofun (by decide) values (n := n) (by omega) hp
    obtain ⟨hcomma, hq'⟩ := match_mark comma hq (next.clean _ tail)
    obtain ⟨k, rfl⟩ : ∃ k', k = k' + 1 := ⟨k - 1, by omega⟩
    obtain ⟨q', hrun, hq''⟩ := ih next (values ++ [first.node]) (by omega) hq' k (by omega)
    refine ⟨q', ?_, hq''⟩
    rw [loop_succ, bind_ok (hturn.trans (bind_ok hcomma))]
    show loop .outOfFuel (returnTurn (recAt z (n + 1))) (k + 1) (values ++ [first.node]) (advanced q) = _
    rw [hrun]
    simp

theorem declares_return (m : Mark .return_) (first : Part z) (others : List (Mark .comma × Part z)) (semicolon : Mark .semicolon) :
    Declares z isOpen (m.token :: (first.tokens ++ Arguments.othersTokens others ++ [semicolon.token]))
      (.fnReturn (.fnCollection ((first :: others.map Prod.snd).map Part.node))) := by
  refine .behind m returnStmt (fun _ => rfl) (fun tail _ => by rw [List.append_assoc]; exact first.clean _ tail)
    fun n p tail htail hn hp => ?_
  rw [List.append_assoc] at hp
  have hlen := Arguments.length_othersTokens others
  simp only [List.length_append, List.length_cons, List.length_nil] at hn
  obtain ⟨n, rfl⟩ : ∃ n', n = n' + 1 := ⟨n - 1, by omega⟩
  obtain ⟨q, hrun, hq⟩ := values_read first others semicolon [] (n := n) (k := n + 1) (by omega)
    (by rw [List.length_append]; omega) hp
  obtain ⟨hsemicolon, hq'⟩ := semicolon_read semicolon (r := []) htail.1 hq
  refine ⟨advanced q, ?_, hq'⟩
  unfold returnStmt
  rw [bind_ok (first.match_other rfl hp)]
  exact (bind_ok hrun).trans (bind_ok hsemicolon)

theorem declares_returnNothing (m : Mark .return_) (semicolon : Mark .semicolon) :
    Declares z isOpen [m.token, semicolon.token] (.fnReturn (.fnCollection [])) := by
  refine .behind m returnStmt (fun _ => rfl) (fun tail _ => mark_clean semicolon nofun [] tail) fun n p tail htail _ hp => ?_
  obtain ⟨hmatch, hq⟩ := match_mark semicolon hp htail.1
  exact ⟨advanced p, bind_ok hmatch, hq⟩

/-! ### Imports -/

theorem namedLiteral_read (name : NameToken) {p : Parser} {ts : List Token} {tail : TokenStream}
    (hclean : Clean (tail.prepend ts)) (hp : Poised p (tail.prepend (name.token :: ts))) :
    namedLiteral p = .ok (some name.literal) (advanced p) ∧ Poised (advanced p) (tail.prepend ts) := by
  refine ⟨?_, hp.advanced hclean⟩
  unfold namedLiteral
  rw [bind_ok (advance_eq p)]
  exact bind_ok (identifier_name name .null (by rw [advanced_previous, hp.at_head.current]))

/-- The alias, or none in front of the semicolon. -/
theorem importAlias_read (as : Mark .as_) (name : NameToken) {p : Parser} {ts : List Token} {tail : TokenStream}
    (hclean : Clean (tail.prepend ts)) (hp : Poised p (tail.prepend (as.token :: name.token :: ts))) :
    ∃ q, importAlias p = .ok name.literal q ∧ Poised q (tail.prepend ts) := by
  obtain ⟨hmatch, hq⟩ := match_mark as hp (name_clean name ts tail)
  obtain ⟨hname, hq'⟩ := namedLiteral_read name hclean hq
  have hprev : (advanced (advanced p)).previous = name.token := by rw [advanced_previous, hq.at_head.current]
  have halias : access (.aliasNode name.token) (advanced (advanced p)) =
      .ok () (accessed (.aliasNode name.token) (advanced (advanced p))) :=
    access_defined (by show (name.token.type == .identifier) = true; rw [name.isType]; rfl)
  have hfree (p : Parser) : freeASTNode (.literal name.literal) p = .ok () (accessed (.free (.literal name.literal)) p) :=
    access_defined rfl
  refine ⟨_, ?_, (hq'.accessed (.aliasNode name.token)).accessed (.free (.literal name.literal))⟩
  unfold importAlias
  rw [bind_ok hmatch]
  refine (bind_ok hname).trans ?_
  rw [bind_get, hprev, bind_ok halias]
  exact bind_ok (hfree _)

theorem importStmt_read (name : NameToken) {l : Literal} {r : List Token} (semicolon : Mark .semicolon) {p : Parser}
    {tail : TokenStream} (htail : Clean tail) (hclean : Clean (tail.prepend (r ++ [semicolon.token])))
    (halias : ∀ p, Poised p (tail.prepend (r ++ [semicolon.token])) →
      ∃ q, importAlias p = .ok l q ∧ Poised q (tail.prepend [semicolon.token]))
    (hp : Poised p (tail.prepend (name.token :: (r ++ [semicolon.token])))) :
    ∃ q, importStmt p = .ok (emitASTNodeImport name.literal l) q ∧ Poised q tail := by
  obtain ⟨hname, hq⟩ := namedLiteral_read name hclean hp
  have hfree : freeASTNode (.literal name.literal) (advanced p) = .ok () (accessed (.free (.literal name.literal)) (advanced p)) :=
    access_defined rfl
  obtain ⟨q, hrun, hq'⟩ := halias _ (hq.accessed (.free (.literal name.literal)))
  obtain ⟨hsemicolon, hq''⟩ := semicolon_read semicolon (r := []) htail hq'
  refine ⟨advanced q, ?_, hq''⟩
  unfold importStmt
  rw [bind_ok hname]
  exact (bind_ok hfree).trans ((bind_ok hrun).trans (bind_ok hsemicolon))

theorem declares_import (m : Mark .import_) (name : NameToken) (semicolon : Mark .semicolon) :
    Declares z isOpen [m.token, name.token, semicolon.token] (emitASTNodeImport name.literal .null) := by
  refine .behind m (fun _ => importStmt) (fun _ => rfl) (fun tail _ => name_clean name _ tail) fun n p tail htail _ hp => ?_
  refine importStmt_read name (r := []) semicolon htail.1 (mark_clean semicolon nofun [] tail) (fun p hp => ?_) hp
  exact ⟨p, bind_ok (match_other hp (by rw [semicolon.isType]; nofun)), hp⟩

theorem declares_importAs (m : Mark .import_) (name : NameToken) (as : Mark .as_) (other : NameToken) (semicolon : Mark .semicolon) :
    Declares z isOpen [m.token, name.token, as.token, other.token, semicolon.token]
      (emitASTNodeImport name.literal other.literal) := by
  refine .behind m (fun _ => importStmt) (fun _ => rfl) (fun tail _ => name_clean name _ tail) fun n p tail htail _ hp => ?_
  exact importStmt_read name (r := [as.token, other.token]) semicolon htail.1 (mark_clean as nofun _ tail)
    (fun _ hp => importAlias_read as other (mark_clean semicolon nofun [] tail) hp) hp

/-! ### Expressions -/

/-- Only `if` starts both an expression and a statement. -/
theorem keywordless {t : TokenType} (h : startsExpression t = true) (hif : t ≠ .if_) (rec : Rec) : behindKeyword rec t = none := by
  cases t <;> first | rfl | exact absurd rfl hif | exact absurd h (by decide)

theorem declares_expression (semicolon : Mark .semicolon) (hx : ReadsBelow z .assignment reach xs x) (hreach : 1 ≤ reach)
    (hif : NotStarting .if_ xs) : Declares z isOpen (xs ++ [semicolon.token]) x := by
  refine ⟨(hx.begin hreach).append _, fun n p tail htail hn hp => ?_⟩
  simp only [List.length_append, List.length_cons, List.length_nil] at hn
  obtain ⟨n, rfl⟩ : ∃ n', n = n' + 2 := ⟨n - 2, by omega⟩
  have hkeyword : behindKeyword (recAt z (n + 1)) p.current.type = none := by
    obtain ⟨t, ts, rfl, hstart⟩ := hx.starts hreach
    rw [hp.at_head.current]
    exact keywordless hstart (hif t rfl) _
  obtain ⟨q, hrun, hq⟩ := hx.read_mark hreach semicolon ⟨nofun, rfl⟩ .null (n := n) (by omega) hp
  obtain ⟨hsemicolon, hq'⟩ := semicolon_read semicolon (r := []) htail.1 hq
  refine ⟨advanced q, ?_, hq'⟩
  show declaration (recAt z (n + 1)) p = _
  rw [declaration_expression hkeyword]
  exact (bind_ok hrun).trans (bind_ok hsemicolon)

/-! ## Declarations -/

theorem Initializes.tailed (h : Initializes z xs x) (semicolon : Mark .semicolon) (ts : List Token) (tail : TokenStream) :
    Clean (tail.prepend (xs ++ semicolon.token :: ts)) ∧ Lacks .colon (tail.prepend (xs ++ semicolon.token :: ts)) ∧
      Lacks .const_ (tail.prepend (xs ++ semicolon.token :: ts)) := by
  cases h with
  | none =>
    exact ⟨mark_clean semicolon nofun ts tail, mark_lacks semicolon (by decide) ts tail, mark_lacks semicolon (by decide) ts tail⟩
  | some assign _ _ =>
    exact ⟨mark_clean assign nofun _ tail, mark_lacks assign (by decide) _ tail, mark_lacks assign (by decide) _ tail⟩

/-- An if behind `=` is marked as an expression. -/
theorem initializer_read (h : Initializes z xs x) (typeWord : BitVec 32) (semicolon : Mark .semicolon) {n : Nat}
    (hn : 8 * xs.length + 7 ≤ n) {p : Parser} {ts : List Token} {tail : TokenStream}
    (hp : Poised p (tail.prepend (xs ++ semicolon.token :: ts))) :
    ∃ q, (do
      if ← matchToken .assign then
        let node ← expression (recAt z (n + 1)) .null
        pure (markIfAsExpression typeWord node)
      else pure (emitASTNodeLiteral .null) : P Node) p = .ok (markIfAsExpression typeWord x) q ∧
        Poised q (tail.prepend (semicolon.token :: ts)) := by
  cases h with
  | none => exact ⟨p, bind_ok (match_other hp (by rw [semicolon.isType]; nofun)), hp⟩
  | some assign hx hreach =>
    rw [List.length_cons] at hn
    obtain ⟨hmatch, hq⟩ := match_mark assign hp (hx.clean hreach _ tail)
    obtain ⟨q, hrun, hq'⟩ := hx.read_mark hreach semicolon ⟨nofun, rfl⟩ .null (n := n) (by omega) hq
    exact ⟨q, (bind_ok hmatch).trans (bind_ok hrun), hq'⟩

theorem declares_var (m : Mark .var_) (name : NameToken) {l : Literal} (semicolon : Mark .semicolon) (hl : Annotation xs l)
    (hx : Initializes z ys x) :
    Declares z isOpen (m.token :: name.token :: (xs ++ (ys ++ [semicolon.token])))
      (.varDecl name.literal l (markIfAsExpression (typeWord l) x) name.token.line) := by
  refine .behind m varDecl (fun _ => rfl) (fun tail _ => name_clean name _ tail) fun n p tail htail hn hp => ?_
  simp only [List.length_cons, List.length_append, List.length_nil] at hn
  obtain ⟨n, rfl⟩ : ∃ n', n = n' + 1 := ⟨n - 1, by omega⟩
  obtain ⟨hclean, hcolon, hconst⟩ := hx.tailed semicolon [] tail
  obtain ⟨hname, hq⟩ := declaredName_read name "Expected identifier after var keyword" (hl.clean hclean) hp
  rw [prepend_append] at hq
  obtain ⟨q, htype, hq'⟩ := annotation_read (z := z) hl hclean hcolon hconst (n := n) (by omega) hq
  obtain ⟨q₁, hexpression, hq₁⟩ := initializer_read hx (typeWord l) semicolon (n := n) (by omega) hq'
  obtain ⟨hsemicolon, hq₂⟩ := semicolon_read semicolon (r := []) htail.1 hq₁
  refine ⟨advanced q₁, ?_, hq₂⟩
  unfold varDecl
  rw [bind_ok hname]
  exact (bind_ok htype).trans ((bind_ok hexpression).trans (bind_ok hsemicolon))

theorem declares_fn (m : Mark .function) (name : NameToken) (left : Mark .parenLeft) {parameters returns : List Node}
    (right : Mark .parenRight) (open_ : Mark .braceLeft) (close : Mark .braceRight) (hx : ParameterList xs parameters)
    (hy : ReturnTypes ys returns) (hs : Sequence z zs nodes) :
    Declares z isOpen
      (m.token :: name.token :: left.token :: (xs ++ right.token :: (ys ++ open_.token :: (zs ++ [close.token]))))
      (.fnDecl name.literal (.fnCollection parameters) (.fnCollection returns) (.block nodes) name.token.line) := by
  refine .behind m fnDecl (fun _ => rfl) (fun tail _ => name_clean name _ tail) fun n p tail htail hn hp => ?_
  simp only [List.length_cons, List.length_append, List.length_nil] at hn
  obtain ⟨n, rfl⟩ : ∃ n', n = n' + 1 := ⟨n - 1, by omega⟩
  obtain ⟨hname, hq⟩ := declaredName_read name "Expected identifier after fn keyword" (mark_clean left nofun _ tail) hp
  obtain ⟨hleft, hq'⟩ := consume_poised left "Expected '(' after function identifier" (hx.clean right _ tail) hq
  obtain ⟨q, hparameters, hq₁⟩ := parameterList_read (z := z) hx right (hy.clean open_ _ tail) (n := n) (by omega) hq'
  obtain ⟨q₁, hreturns, hq₂⟩ := returnTypes_read (z := z) hy open_ (n := n) (by omega) hq₁
  obtain ⟨hopen, hq₃⟩ := consume_poised open_ "Expected '\x7b' after return list" (hs.clean close [] tail) hq₂
  obtain ⟨q₂, hnodes, hq₄⟩ := hs.nodes_read close (n := n + 1) (by omega) htail.1 hq₃
  refine ⟨q₂, ?_, hq₄⟩
  have hblock : blockStmt (recAt z (n + 1)) (advanced q₁) = .ok (.block nodes) q₂ := bind_ok hnodes
  unfold fnDecl
  rw [bind_ok hname]
  refine (bind_ok hleft).trans ((bind_ok hparameters).trans ((bind_ok hreturns).trans ((bind_ok hopen).trans ?_)))
  exact bind_ok hblock

end Xvr.Frontend.Parse
