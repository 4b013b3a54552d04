/-
  Xvr.Frontend.GrammarTypes — the grammar's types, parameters and return types, as
  `readTypeToLiteral`, `varDecl` and `fnDecl` read them.

  A type is read token by token until no `const` follows, so its token comes first
  (`typeToken_read`, by induction on the type), and the `const` behind it after. The lists
  are read by loops that stop where no comma follows.

  Proved: `type_read`, `annotation_read`, `declaredName_read`, `parameterList_read`,
  `returnTypes_read`.
-/

import Xvr.Frontend.GrammarExpressions

namespace Xvr.Frontend.Parse

open Xvr.Runtime Xvr.Lib

variable {z : Parser → Node → Bool} {bare : Bool} {xs ys : List Token} {l : Literal} {nodes : List Node} {n : Nat} {p : Parser}
  {ts : List Token} {tail : TokenStream}

/-- The next token is none of the type. -/
def Lacks (type : TokenType) (tail : TokenStream) : Prop := (scanLexer tail).1.type ≠ type

theorem mark_lacks {type other : TokenType} (m : Mark type) (h : type ≠ other) (ts : List Token) (tail : TokenStream) :
    Lacks other (tail.prepend (m.token :: ts)) := by
  show m.token.type ≠ other
  rwa [m.isType]

theorem lacks_match {type : TokenType} (h : Lacks type tail) (hp : Poised p tail) : matchToken type p = .ok false p := by
  rw [matchToken_eq, if_neg (by rw [hp.before.current]; exact h)]

/-! ## Types -/

theorem TypeText.starts (h : TypeText bare xs l) : ∃ t ts, xs = t :: ts ∧ t.type ≠ .error := by
  induction h with
  | @simple t typeOf hsimple =>
    refine ⟨t, [], rfl, fun herror => ?_⟩
    rw [herror] at hsimple
    cases hsimple
  | @named t hname _ => exact ⟨t, [], rfl, by rw [hname]; nofun⟩
  | array left right _ _ => exact ⟨_, _, rfl, by rw [left.isType]; nofun⟩
  | dictionary left colon right _ _ _ _ => exact ⟨_, _, rfl, by rw [left.isType]; nofun⟩
  | const m _ ih =>
    obtain ⟨t, ts, rfl, ht⟩ := ih
    exact ⟨t, ts ++ [m.token], rfl, ht⟩

theorem TypeText.clean (h : TypeText bare xs l) (ts : List Token) (tail : TokenStream) : Clean (tail.prepend (xs ++ ts)) := by
  obtain ⟨t, ts', rfl, ht⟩ := h.starts
  exact ht

theorem TypeText.clean_alone (h : TypeText bare xs l) (tail : TokenStream) : Clean (tail.prepend xs) := by
  simpa using h.clean [] tail

/-- What is read of a type, in front of no `const` that would still be its own. -/
def TypeReads (z : Parser → Node → Bool) (bare : Bool) (xs : List Token) (l : Literal) : Prop :=
  ∀ n p tail, Clean tail → (bare = true → Lacks .const_ tail) → xs.length ≤ n → Poised p (tail.prepend xs) →
    ∃ q, readTypeToLiteral (recAt z n) p = .ok l q ∧ Poised q tail

theorem simple_typeToken {t : Token} {typeOf : LiteralType} (h : simpleType t.type = some typeOf) (rec : Rec)
    (hp : p.previous = t) : typeToken rec p = .ok (some (.type typeOf false [])) p := by
  unfold typeToken
  rw [bind_get, hp, h]
  rfl

theorem name_typeToken {t : Token} (h : t.type = .identifier) (hfits : t.lexeme.length ≤ maxIdentifierLength) (rec : Rec)
    (hp : p.previous = t) : typeToken rec p = .ok (some (.identifier t.lexeme)) p := by
  have hname : identifierLiteral t p = .ok (.identifier t.lexeme) p := by
    unfold identifierLiteral errorIf
    rw [bind_get, if_neg (by simpa using hfits), List.take_of_length_le hfits]
    rfl
  unfold typeToken
  rw [bind_get, hp, h]
  exact bind_ok hname

theorem bracket_typeToken (left : Mark .bracketLeft) {rec : Rec} {q : Parser} (hp : p.previous = left.token)
    (h : compoundType rec p = .ok l q) : typeToken rec p = .ok (some l) q := by
  unfold typeToken
  rw [bind_get, hp, left.isType]
  exact bind_ok h

/-- A bare type's token is the whole of it. -/
def BareReads (z : Parser → Node → Bool) (xs : List Token) (l : Literal) : Prop :=
  ∀ n p tail, Clean tail → xs.length ≤ n → Poised p (tail.prepend xs) →
    ∃ q, typeToken (recAt z n) (advanced p) = .ok (some l) q ∧ Poised q tail

theorem BareReads.reads (h : BareReads z xs l) : TypeReads z true xs l := by
  intro n p tail hclean hconst hn hp
  obtain ⟨q, hrun, hq⟩ := h n p tail hclean hn hp
  refine ⟨q, ?_, hq⟩
  unfold readTypeToLiteral
  rw [bind_ok (advance_eq p), bind_ok hrun]
  exact bind_ok (lacks_match (hconst rfl) hq)

theorem BareReads.const (h : BareReads z xs l) (const : Mark .const_) : TypeReads z false (xs ++ [const.token]) (setConstant l) := by
  intro n p tail hclean _ hn hp
  rw [List.length_append] at hn
  rw [prepend_append] at hp
  obtain ⟨q, hrun, hq⟩ := h n p _ (mark_clean const nofun [] tail) (by omega) hp
  obtain ⟨hmatch, hq'⟩ := match_mark const hq hclean
  refine ⟨advanced q, ?_, hq'⟩
  unfold readTypeToLiteral
  rw [bind_ok (advance_eq p), bind_ok hrun]
  exact bind_ok hmatch

/-- The type inside a bracket, in front of a mark. -/
theorem TypeReads.inside (h : TypeReads z bare xs l) {type : TokenType} (m : Mark type) (hmark : type ≠ .error ∧ type ≠ .const_)
    (hn : xs.length ≤ n) (hp : Poised p (tail.prepend (xs ++ m.token :: ts))) :
    ∃ q, (recAt z (n + 1)).readTypeToLiteral p = .ok l q ∧ Poised q (tail.prepend (m.token :: ts)) := by
  rw [prepend_append] at hp
  exact h n p _ (mark_clean m hmark.1 ts tail) (fun _ => mark_lacks m hmark.2 ts tail) hn hp

theorem bareReads_array (left : Mark .bracketLeft) (hx : TypeText bare xs l) (h : TypeReads z bare xs l) (right : Mark .bracketRight) :
    BareReads z (left.token :: (xs ++ [right.token])) (.type .array false [l]) := by
  intro n p tail hclean hn hp
  simp only [List.length_cons, List.length_append, List.length_nil] at hn
  obtain ⟨n, rfl⟩ : ∃ n', n = n' + 1 := ⟨n - 1, by omega⟩
  have hq := hp.advanced (hx.clean [right.token] tail)
  obtain ⟨q, hrun, hq'⟩ := h.inside (n := n) right ⟨nofun, nofun⟩ (by omega) hq
  obtain ⟨hclose, hq''⟩ := consume_last right "Expected ']' at end of type definition" hclean hq'
  refine ⟨advanced q, bracket_typeToken left (by rw [advanced_previous, hp.at_head.current]) ?_, hq''⟩
  unfold compoundType
  rw [bind_ok hrun]
  have hcolon : matchToken .colon q = .ok false q := match_other hq' (by rw [right.isType]; nofun)
  have hliteral : (do
      if ← matchToken .colon then
        let r ← (recAt z (n + 1)).readTypeToLiteral
        pure (Literal.type .dictionary false [l, r])
      else pure (Literal.type .array false [l]) : P Literal) q = .ok (.type .array false [l]) q := bind_ok hcolon
  exact (bind_ok hliteral).trans (bind_ok hclose)

theorem bareReads_dictionary {bare' : Bool} {r : Literal} (left : Mark .bracketLeft) (hx : TypeText bare xs l)
    (h : TypeReads z bare xs l) (colon : Mark .colon) (hy : TypeText bare' ys r) (h' : TypeReads z bare' ys r)
    (right : Mark .bracketRight) :
    BareReads z (left.token :: (xs ++ colon.token :: (ys ++ [right.token]))) (.type .dictionary false [l, r]) := by
  intro n p tail hclean hn hp
  simp only [List.length_cons, List.length_append, List.length_nil] at hn
  obtain ⟨n, rfl⟩ : ∃ n', n = n' + 1 := ⟨n - 1, by omega⟩
  have hq := hp.advanced (hx.clean _ tail)
  obtain ⟨q, hrun, hq'⟩ := h.inside (n := n) colon ⟨nofun, nofun⟩ (by omega) hq
  obtain ⟨hcolon, hq''⟩ := match_mark colon hq' (hy.clean _ tail)
  obtain ⟨q₁, hrun', hq₁⟩ := h'.inside (n := n) right ⟨nofun, nofun⟩ (by omega) hq''
  obtain ⟨hclose, hq₁'⟩ := consume_last right "Expected ']' at end of type definition" hclean hq₁
  refine ⟨advanced q₁, bracket_typeToken left (by rw [advanced_previous, hp.at_head.current]) ?_, hq₁'⟩
  unfold compoundType
  rw [bind_ok hrun]
  exact (bind_ok ((bind_ok hcolon).trans (bind_ok hrun'))).trans (bind_ok hclose)

/-- By induction on the type; a bare one needs no look at what follows. -/
theorem typeText_reads (h : TypeText bare xs l) : TypeReads z bare xs l ∧ (bare = true → BareReads z xs l) := by
  induction h with
  | @simple t typeOf hsimple =>
    have hbare : BareReads z [t] (.type typeOf false []) := fun n p tail hclean _ hp =>
      ⟨_, simple_typeToken hsimple _ (by rw [advanced_previous, hp.at_head.current]), hp.advanced hclean⟩
    exact ⟨hbare.reads, fun _ => hbare⟩
  | @named t hname hfits =>
    have hbare : BareReads z [t] (.identifier t.lexeme) := fun n p tail hclean _ hp =>
      ⟨_, name_typeToken hname hfits _ (by rw [advanced_previous, hp.at_head.current]), hp.advanced hclean⟩
    exact ⟨hbare.reads, fun _ => hbare⟩
  | array left right hx ih =>
    have hbare := bareReads_array left hx ih.1 right
    exact ⟨hbare.reads, fun _ => hbare⟩
  | dictionary left colon right hx hy ih ih' =>
    have hbare := bareReads_dictionary left hx ih.1 colon hy ih'.1 right
    exact ⟨hbare.reads, fun _ => hbare⟩
  | const const _ ih => exact ⟨(ih.2 rfl).const const, nofun⟩

theorem type_read (h : TypeText bare xs l) : TypeReads z bare xs l := (typeText_reads h).1

/-- A type or none, behind a name. -/
theorem annotation_read (h : Annotation xs l) (hclean : Clean tail) (hcolon : Lacks .colon tail) (hconst : Lacks .const_ tail)
    (hn : xs.length ≤ n) (hp : Poised p (tail.prepend xs)) :
    ∃ q, declaredType (recAt z (n + 1)) p = .ok l q ∧ Poised q tail := by
  cases h with
  | any => exact ⟨p, bind_ok (lacks_match hcolon hp), hp⟩
  | typed colon htype =>
    obtain ⟨hmatch, hq⟩ := match_mark colon hp (htype.clean_alone tail)
    obtain ⟨q, hrun, hq'⟩ := type_read htype n (advanced p) tail hclean (fun _ => hconst) (Nat.le_of_succ_le hn) hq
    exact ⟨q, (bind_ok hmatch).trans hrun, hq'⟩

theorem Annotation.clean (h : Annotation xs l) (hclean : Clean (tail.prepend ts)) : Clean (tail.prepend (xs ++ ts)) := by
  cases h with
  | any => exact hclean
  | typed colon _ => exact mark_clean colon nofun _ tail

/-! ## Names and parameters -/

theorem declaredName_read (name : NameToken) (msg : String) (hclean : Clean (tail.prepend ts))
    (hp : Poised p (tail.prepend (name.token :: ts))) :
    declaredName msg p = .ok (name.token, name.literal) (advanced p) ∧ Poised (advanced p) (tail.prepend ts) := by
  obtain ⟨hconsume, hq⟩ := consume_poised name.toMark msg hclean hp
  have hprev : (advanced p).previous = name.token := by rw [advanced_previous, hp.at_head.current]
  have hname : identifierLiteral name.token (advanced p) = .ok name.literal (advanced p) := by
    unfold identifierLiteral errorIf
    rw [bind_get, if_neg (by simpa using name.fits), List.take_of_length_le name.fits]
    rfl
  refine ⟨?_, hq⟩
  unfold declaredName
  rw [bind_ok hconsume, bind_get, hprev]
  exact bind_ok hname

theorem Parameters.starts (h : Parameters xs nodes) : ∃ t ts, xs = t :: ts ∧ (t.type = .identifier ∨ t.type = .rest) := by
  cases h with
  | last name _ => exact ⟨_, _, rfl, .inl name.isType⟩
  | rest rest _ => exact ⟨_, _, rfl, .inr rest.isType⟩
  | more name _ _ _ => exact ⟨_, _, rfl, .inl name.isType⟩

theorem Parameters.clean (h : Parameters xs nodes) (ts : List Token) (tail : TokenStream) : Clean (tail.prepend (xs ++ ts)) := by
  obtain ⟨t, ts', rfl, ht⟩ := h.starts
  show t.type ≠ .error
  rcases ht with ht | ht <;> rw [ht] <;> nofun

theorem Parameters.short (h : Parameters xs nodes) : nodes.length ≤ xs.length := by
  induction h with
  | last | rest => simp
  | more _ _ _ _ ih =>
    simp only [List.length_cons, List.length_append]
    omega

/-- A name with its annotation, in front of what is neither a colon nor `const`. -/
theorem parameterTurn_named (name : NameToken) (h : Annotation xs l) (before : List Node) (hclean : Clean (tail.prepend ts))
    (hcolon : Lacks .colon (tail.prepend ts)) (hconst : Lacks .const_ (tail.prepend ts)) (hn : xs.length ≤ n)
    (hp : Poised p (tail.prepend (name.token :: (xs ++ ts)))) :
    ∃ q, Poised q (tail.prepend ts) ∧ parameterTurn (recAt z (n + 1)) before p = (do
      if ← matchToken .comma then pure (.inl (before ++ [.varDecl name.literal l .null name.token.line]))
      else pure (.inr (before ++ [.varDecl name.literal l .null name.token.line])) : P (List Node ⊕ List Node)) q := by
  obtain ⟨hname, hq⟩ := declaredName_read name "Expected identifier as function argument" (h.clean hclean) hp
  rw [prepend_append] at hq
  obtain ⟨q, htype, hq'⟩ := annotation_read (z := z) h hclean hcolon hconst hn hq
  refine ⟨q, hq', ?_⟩
  unfold parameterTurn
  rw [bind_ok (match_other hp (by rw [name.isType]; nofun))]
  exact (bind_ok hname).trans (bind_ok htype)

/-- The loop of the parameters, up to the closing parenthesis. -/
theorem parameters_read (h : Parameters xs nodes) (right : Mark .parenRight) (before : List Node) {k : Nat}
    (hk : nodes.length ≤ k) (hn : xs.length ≤ n) (hp : Poised p (tail.prepend (xs ++ right.token :: ts))) :
    ∃ q, loop .outOfFuel (parameterTurn (recAt z (n + 1))) k before p = .ok (before ++ nodes) q ∧
      Poised q (tail.prepend (right.token :: ts)) := by
  induction h generalizing before k p with
  | last name htype =>
    obtain ⟨k, rfl⟩ : ∃ k', k = k' + 1 := ⟨k - 1, by simp at hk; omega⟩
    obtain ⟨q, hq, hturn⟩ := parameterTurn_named (z := z) name htype before (mark_clean right nofun ts tail)
      (mark_lacks right (by decide) ts tail) (mark_lacks right (by decide) ts tail) (Nat.le_of_succ_le hn) hp
    have hcomma : matchToken .comma q = .ok false q := match_other hq (by rw [right.isType]; nofun)
    refine ⟨q, ?_, hq⟩
    rw [loop_succ, bind_ok (hturn.trans (bind_ok hcomma))]
    rfl
  | rest rest name =>
    obtain ⟨k, rfl⟩ : ∃ k', k = k' + 1 := ⟨k - 1, by simp at hk; omega⟩
    obtain ⟨hmatch, hq⟩ := match_mark rest hp (name_clean name _ tail)
    obtain ⟨hname, hq'⟩ := declaredName_read name "Expected identifier as function argument" (mark_clean right nofun ts tail) hq
    have hturn : parameterTurn (recAt z (n + 1)) before p =
        .ok (.inr (before ++ [.varDecl name.literal (.type .functionArgRest false []) .null name.token.line])) (advanced (advanced p)) :=
      (bind_ok hmatch).trans (bind_ok hname)
    refine ⟨_, ?_, hq'⟩
    rw [loop_succ, bind_ok hturn]
    rfl
  | @more name xs ys l nodes comma htype hs ih =>
    simp only [List.length_cons, List.length_append] at hk hn
    obtain ⟨k, rfl⟩ : ∃ k', k = k' + 1 := ⟨k - 1, by omega⟩
    rw [List.cons_append, List.append_assoc] at hp
    obtain ⟨q, hq, hturn⟩ := parameterTurn_named (z := z) (n := n) name htype before (mark_clean comma nofun _ tail)
      (mark_lacks comma (by decide) _ tail) (mark_lacks comma (by decide) _ tail) (by omega) hp
    obtain ⟨hcomma, hq'⟩ := match_mark comma hq (hs.clean _ tail)
    obtain ⟨q', hrun, hq''⟩ := ih (before ++ [.varDecl name.literal l .null name.token.line]) (k := k) (by omega) (by omega) hq'
    refine ⟨q', ?_, hq''⟩
    rw [loop_succ, bind_ok (hturn.trans (bind_ok hcomma))]
    rw [← List.append_cons] at hrun
    exact hrun

theorem ParameterList.clean (h : ParameterList xs nodes) (right : Mark .parenRight) (ts : List Token) (tail : TokenStream) :
    Clean (tail.prepend (xs ++ right.token :: ts)) := by
  cases h with
  | none => exact mark_clean right nofun ts tail
  | some h => exact h.clean _ tail

theorem parameterList_read (h : ParameterList xs nodes) (right : Mark .parenRight) (hclean : Clean (tail.prepend ts))
    (hn : xs.length ≤ n) (hp : Poised p (tail.prepend (xs ++ right.token :: ts))) :
    ∃ q, parameterList (recAt z (n + 1)) p = .ok nodes q ∧ Poised q (tail.prepend ts) := by
  cases h with
  | none =>
    obtain ⟨hmatch, hq⟩ := match_mark right hp hclean
    exact ⟨_, bind_ok hmatch, hq⟩
  | some h =>
    obtain ⟨t, ts', htokens, ht⟩ := h.starts
    have hopen : matchToken .parenRight p = .ok false p := by
      rw [htokens] at hp
      refine match_other hp ?_
      rcases ht with ht | ht <;> rw [ht] <;> nofun
    obtain ⟨q, hrun, hq⟩ := parameters_read (z := z) h right [] (k := n + 1) (Nat.le_succ_of_le (Nat.le_trans h.short hn)) hn hp
    obtain ⟨hclose, hq'⟩ := consume_poised right "Expected ')' after function argument list" hclean hq
    refine ⟨advanced q, ?_, hq'⟩
    unfold parameterList
    rw [bind_ok hopen]
    exact (bind_ok hrun).trans (bind_ok hclose)

/-! ## Return types -/

theorem Types.clean (h : Types xs nodes) (ts : List Token) (tail : TokenStream) : Clean (tail.prepend (xs ++ ts)) := by
  cases h with
  | last htype => exact htype.clean ts tail
  | more comma htype _ =>
    rw [List.append_assoc]
    exact htype.clean _ tail

theorem Types.short (h : Types xs nodes) : nodes.length ≤ xs.length := by
  induction h with
  | last htype =>
    obtain ⟨t, ts, rfl, -⟩ := htype.starts
    exact Nat.le_add_left _ _
  | more _ _ _ ih =>
    simp only [List.length_cons, List.length_append]
    omega

theorem returnTypeTurn_read {type : TokenType} (m : Mark type) (hmark : type ≠ .error ∧ type ≠ .const_) (h : TypeText bare xs l)
    (before : List Node) (hn : xs.length ≤ n) (hp : Poised p (tail.prepend (xs ++ m.token :: ts))) :
    ∃ q, Poised q (tail.prepend (m.token :: ts)) ∧ returnTypeTurn (recAt z (n + 1)) before p = (do
      if ← matchToken .comma then pure (.inl (before ++ [emitASTNodeLiteral l]))
      else pure (.inr (before ++ [emitASTNodeLiteral l])) : P (List Node ⊕ List Node)) q := by
  obtain ⟨q, hrun, hq⟩ := (type_read (z := z) h).inside m hmark hn hp
  exact ⟨q, hq, bind_ok hrun⟩

/-- The loop of the return types, up to the body's brace. -/
theorem types_read (h : Types xs nodes) (left : Mark .braceLeft) (before : List Node) {k : Nat} (hk : nodes.length ≤ k)
    (hn : xs.length ≤ n) (hp : Poised p (tail.prepend (xs ++ left.token :: ts))) :
    ∃ q, loop .outOfFuel (returnTypeTurn (recAt z (n + 1))) k before p = .ok (before ++ nodes) q ∧
      Poised q (tail.prepend (left.token :: ts)) := by
  induction h generalizing before k p with
  | last htype =>
    obtain ⟨k, rfl⟩ : ∃ k', k = k' + 1 := ⟨k - 1, by simp at hk; omega⟩
    obtain ⟨q, hq, hturn⟩ := returnTypeTurn_read (z := z) left ⟨nofun, nofun⟩ htype before hn hp
    have hcomma : matchToken .comma q = .ok false q := match_other hq (by rw [left.isType]; nofun)
    refine ⟨q, ?_, hq⟩
    rw [loop_succ, bind_ok (hturn.trans (bind_ok hcomma))]
    rfl
  | @more _ xs ys l nodes comma htype hs ih =>
    simp only [List.length_cons, List.length_append] at hk hn
    obtain ⟨k, rfl⟩ : ∃ k', k = k' + 1 := ⟨k - 1, by omega⟩
    rw [List.append_assoc] at hp
    obtain ⟨q, hq, hturn⟩ := returnTypeTurn_read (z := z) (n := n) comma ⟨nofun, nofun⟩ htype before (by omega) hp
    obtain ⟨hcomma, hq'⟩ := match_mark comma hq (hs.clean _ tail)
    obtain ⟨q', hrun, hq''⟩ := ih (before ++ [emitASTNodeLiteral l]) (k := k) (by omega) (by omega) hq'
    refine ⟨q', ?_, hq''⟩
    rw [loop_succ, bind_ok (hturn.trans (bind_ok hcomma))]
    rw [← List.append_cons] at hrun
    exact hrun

theorem ReturnTypes.clean (h : ReturnTypes xs nodes) (left : Mark .braceLeft) (ts : List Token) (tail : TokenStream) :
    Clean (tail.prepend (xs ++ left.token :: ts)) := by
  cases h with
  | none => exact mark_clean left nofun ts tail
  | some colon _ => exact mark_clean colon nofun _ tail

theorem returnTypes_read (h : ReturnTypes xs nodes) (left : Mark .braceLeft) (hn : xs.length ≤ n)
    (hp : Poised p (tail.prepend (xs ++ left.token :: ts))) :
    ∃ q, returnTypes (recAt z (n + 1)) p = .ok nodes q ∧ Poised q (tail.prepend (left.token :: ts)) := by
  cases h with
  | none => exact ⟨p, bind_ok (match_other hp (by rw [left.isType]; nofun)), hp⟩
  | some colon h =>
    obtain ⟨hmatch, hq⟩ := match_mark colon hp (h.clean _ tail)
    rw [List.length_cons] at hn
    obtain ⟨q, hrun, hq'⟩ := types_read (z := z) (n := n) h left [] (k := n + 1) (Nat.le_succ_of_le (by have := h.short; omega))
      (by omega) hq
    exact ⟨q, (bind_ok hmatch).trans hrun, hq'⟩

end Xvr.Frontend.Parse
