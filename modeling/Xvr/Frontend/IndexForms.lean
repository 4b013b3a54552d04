/-
  Xvr.Frontend.IndexForms — index accesses and what their nodes keep (`indexAccess` and
  the index case of `parsePrecedence` of `xvr_parser.cpp`).

  `indexAccess` answers a node of three parts. To make room for the target the Pratt loop
  moves the first two one place on, over the third.

  Proved:
  - `indexAccess_reads`: the node `indexAccess` answers, for every form.
  - `Opens.indexed`, `Opens.chain`: an access extends any target, and a chain nests in order.
  - `index_kept_iff`: a chain keeps its target and every part, and forms with different
    parts differ, exactly when none has a third part.
  - `third_part_lost`: `x[1:2:3]`.
-/

import Xvr.Frontend.SubExpressions
import Xvr.Frontend.Grouping

namespace Xvr.Frontend.Parse

open Xvr.Runtime Xvr.Lib

/-! ## Forms -/

variable (z : Parser → Node → Bool)

/-- A part that is given: an expression. -/
structure Part where
  tokens : List Token
  node : Node
  reads : Reads z .ternary tokens node

variable {z}

def partTokens : Option (Part z) → List Token
  | none => []
  | some a => a.tokens

def partNode : Option (Part z) → Node
  | none => indexBlank
  | some a => a.node

variable (z) in
/-- `[a]`, `[a : b]` and `[a : b : c]`; behind a colon or in front of one a part may be
    missing. -/
inductive IndexForm where
  | single (left : Mark .bracketLeft) (first : Part z) (right : Mark .bracketRight)
  | double (left : Mark .bracketLeft) (first : Option (Part z)) (colon : Mark .colon) (second : Option (Part z))
      (right : Mark .bracketRight)
  | triple (left : Mark .bracketLeft) (first : Option (Part z)) (colon : Mark .colon) (second : Option (Part z))
      (colon' : Mark .colon) (third : Option (Part z)) (right : Mark .bracketRight)

namespace IndexForm

def left : IndexForm z → Mark .bracketLeft
  | single left _ _ | double left _ _ _ _ | triple left _ _ _ _ _ _ => left

def first : IndexForm z → Option (Part z)
  | single _ first _ => some first
  | double _ first _ _ _ | triple _ first _ _ _ _ _ => first

def second : IndexForm z → Option (Part z)
  | single _ _ _ => none
  | double _ _ _ second _ | triple _ _ _ second _ _ _ => second

def third : IndexForm z → Option (Part z)
  | single _ _ _ | double _ _ _ _ _ => none
  | triple _ _ _ _ _ third _ => third

/-- The tokens behind the opening bracket. -/
def inner : IndexForm z → List Token
  | single _ first right => first.tokens ++ [right.token]
  | double _ first colon second right => partTokens first ++ colon.token :: (partTokens second ++ [right.token])
  | triple _ first colon second colon' third right =>
    partTokens first ++ colon.token :: (partTokens second ++ colon'.token :: (partTokens third ++ [right.token]))

def tokens (form : IndexForm z) : List Token := form.left.token :: form.inner

/-- What the node has in its second place, behind the first part. -/
def secondNode : IndexForm z → Node
  | single _ _ _ => .null
  | double _ first _ second _ =>
    match second with
    | some b => b.node
    | none => if first.isSome then .null else indexBlank
  | triple _ _ _ second _ _ _ => partNode second

def thirdNode (form : IndexForm z) : Node :=
  match form.third with
  | some c => c.node
  | none => .null

/-- Which parts are given. -/
def presence (form : IndexForm z) : Bool × Bool × Bool := (form.first.isSome, form.second.isSome, form.third.isSome)

end IndexForm

/-! ## Reading a form -/

theorem mark_clean {type : TokenType} (m : Mark type) (h : type ≠ .error) (ts : List Token) (tail : TokenStream) :
    Clean (tail.prepend (m.token :: ts)) := by
  show m.token.type ≠ .error
  rwa [m.isType]

theorem mark_stops {type : TokenType} (m : Mark type) {rule : PrecedenceRule} (h : ¬ rule ≤ levelOf type) (ts : List Token)
    (tail : TokenStream) : Stops rule (tail.prepend (m.token :: ts)) := by
  show ¬ rule ≤ levelOf m.token.type
  rwa [m.isType]

/-- A token that stands there is matched. -/
theorem match_mark {type : TokenType} (m : Mark type) {p : Parser} {ts : List Token} {tail : TokenStream}
    (hp : Poised p (tail.prepend (m.token :: ts))) (hclean : Clean (tail.prepend ts)) :
    matchToken type p = .ok true (advanced p) ∧ Poised (advanced p) (tail.prepend ts) := by
  refine ⟨?_, hp.advanced hclean⟩
  rw [matchToken_eq, if_pos (by rw [hp.at_head.current, m.isType])]

/-- Another token is not. -/
theorem match_other {type : TokenType} {p : Parser} {t : Token} {ts : List Token} {tail : TokenStream}
    (hp : Poised p (tail.prepend (t :: ts))) (h : t.type ≠ type) : matchToken type p = .ok false p := by
  rw [matchToken_eq, if_neg (by rw [hp.at_head.current]; exact h)]

namespace Part

variable (a : Part z)

theorem starts : ∃ t ts, a.tokens = t :: ts ∧ startsExpression t.type = true := a.reads.starts nofun

theorem clean (ts : List Token) (tail : TokenStream) : Clean (tail.prepend (a.tokens ++ ts)) := by
  obtain ⟨t, ts', heq, hstart⟩ := a.starts
  rw [heq]
  exact clean_starts tail hstart

/-- No token that starts no expression stands there. -/
theorem match_other {type : TokenType} (h : startsExpression type = false) {p : Parser} {ts : List Token} {tail : TokenStream}
    (hp : Poised p (tail.prepend (a.tokens ++ ts))) : matchToken type p = .ok false p := by
  obtain ⟨t, ts', heq, hstart⟩ := a.starts
  rw [heq] at hp
  refine Parse.match_other hp ?_
  rintro rfl
  rw [h] at hstart
  cases hstart

/-- A part is read up to the mark behind it. -/
theorem read_to {type : TokenType} (m : Mark type) (hmark : type ≠ .error) (hlevel : ¬ PrecedenceRule.ternary ≤ levelOf type)
    (handle : Node) {n : Nat} (hn : 8 * a.tokens.length + 7 ≤ n) {p : Parser} {ts : List Token} {tail : TokenStream}
    (hp : Poised p (tail.prepend (a.tokens ++ m.token :: ts))) :
    ∃ q, (recAt z (n + 1)).parsePrecedence handle .ternary p = .ok a.node q ∧ Poised q (tail.prepend (m.token :: ts)) := by
  rw [prepend_append] at hp
  exact a.reads _ n handle p (mark_clean m hmark ts tail) (mark_stops m hlevel ts tail) hn hp

theorem index_reads {type : TokenType} (m : Mark type) (hmark : type ≠ .error) (hlevel : ¬ PrecedenceRule.ternary ≤ levelOf type)
    {n : Nat} (hn : 8 * a.tokens.length + 7 ≤ n) {p : Parser} {ts : List Token} {tail : TokenStream}
    (hp : Poised p (tail.prepend (a.tokens ++ m.token :: ts))) :
    ∃ q, indexPart (recAt z (n + 1)) p = .ok a.node q ∧ Poised q (tail.prepend (m.token :: ts)) := by
  obtain ⟨q, hrun, hq⟩ := a.read_to m hmark hlevel .wild hn (hp.accessed (.free indexBlank))
  exact ⟨q, (bind_ok (access_defined rfl)).trans hrun, hq⟩

end Part

section Reading

variable {n : Nat} {p : Parser} {tail : TokenStream} {first : Node} {readFirst : Bool}

/-- The bracket closes behind the first part. -/
theorem indexRest_close (right : Mark .bracketRight) (hclean : Clean tail) (hp : Poised p (tail.prepend [right.token])) :
    ∃ q, indexRest (recAt z n) first readFirst p =
      .ok (.index, .index first (if readFirst then .null else indexBlank) .null) q ∧ Poised q tail := by
  obtain ⟨hmatch, hq⟩ := match_mark right hp hclean
  unfold indexRest
  rw [bind_ok hmatch]
  cases readFirst with
  | true => exact ⟨_, rfl, (hq.accessed _).accessed _⟩
  | false => exact ⟨_, rfl, hq.accessed _⟩

/-- The bracket closes behind a second part. -/
theorem indexRest_second (b : Part z) (hn : 8 * b.tokens.length + 7 ≤ n) (right : Mark .bracketRight) (hclean : Clean tail)
    (hp : Poised p (tail.prepend (b.tokens ++ [right.token]))) :
    ∃ q, indexRest (recAt z (n + 1)) first readFirst p = .ok (.index, .index first b.node .null) q ∧ Poised q tail := by
  obtain ⟨q, hpart, hq⟩ := b.index_reads right nofun (by decide) hn hp
  obtain ⟨hmatch, hq'⟩ := match_mark right hq hclean
  have hcolon : matchToken .colon q = .ok false q := match_other hq (by rw [right.isType]; nofun)
  refine ⟨accessed (.free indexBlank) (advanced q), ?_, hq'.accessed _⟩
  unfold indexRest
  rw [bind_ok (b.match_other rfl hp)]
  have hsecond : (do
      if ← matchToken .colon then pure indexBlank
      else
        let second ← indexPart (recAt z (n + 1))
        let _ ← matchToken .colon
        pure second : P Node) p = .ok b.node q := by
    rw [bind_ok (b.match_other rfl hp)]
    exact (bind_ok hpart).trans (bind_ok hcolon)
  refine (bind_ok hsecond).trans ((bind_ok hmatch).trans ?_)
  rfl

theorem clean_part (a : Option (Part z)) {type : TokenType} (m : Mark type) (h : type ≠ .error) (ts : List Token)
    (tail : TokenStream) : Clean (tail.prepend (partTokens a ++ m.token :: ts)) := by
  cases a with
  | none => exact mark_clean m h ts tail
  | some a => exact a.clean _ _

/-- A part and the colon behind it, or the colon alone. -/
theorem second_reads (b : Option (Part z)) (hn : 8 * (partTokens b).length + 7 ≤ n) (colon : Mark .colon) {ts : List Token}
    (hclean : Clean (tail.prepend ts)) (hp : Poised p (tail.prepend (partTokens b ++ colon.token :: ts))) :
    ∃ q, (do
      if ← matchToken .colon then pure indexBlank
      else
        let second ← indexPart (recAt z (n + 1))
        let _ ← matchToken .colon
        pure second : P Node) p = .ok (partNode b) q ∧ Poised q (tail.prepend ts) := by
  cases b with
  | none =>
    obtain ⟨hmatch, hq⟩ := match_mark colon hp hclean
    exact ⟨_, bind_ok hmatch, hq⟩
  | some b =>
    obtain ⟨q, hpart, hq⟩ := b.index_reads colon nofun (by decide) hn hp
    obtain ⟨hmatch, hq'⟩ := match_mark colon hq hclean
    refine ⟨_, ?_, hq'⟩
    rw [bind_ok (b.match_other rfl hp)]
    exact (bind_ok hpart).trans (bind_ok hmatch)

theorem consume_mark {type : TokenType} (m : Mark type) (message : String) {ts : List Token}
    (hp : Poised p (tail.prepend (m.token :: ts))) : consume type message p = .ok () (advanced p) := by
  have htype : p.current.type = type := by rw [hp.at_head.current, m.isType]
  unfold consume
  rw [bind_get, if_neg (not_not.mpr htype), advance_eq]

/-- A second colon, and perhaps a third part. -/
theorem indexRest_third (b c : Option (Part z)) (hn : 8 * ((partTokens b).length + (partTokens c).length) + 7 ≤ n)
    (colon : Mark .colon) (right : Mark .bracketRight) (hclean : Clean tail)
    (hp : Poised p (tail.prepend (partTokens b ++ colon.token :: (partTokens c ++ [right.token])))) :
    ∃ q, indexRest (recAt z (n + 1)) first readFirst p =
      .ok (.index, .index first (partNode b) (match c with | some c => c.node | none => .null)) q ∧ Poised q tail := by
  have hopen : matchToken .bracketRight p = .ok false p := by
    cases b with
    | none => exact match_other hp (by rw [colon.isType]; nofun)
    | some b => exact b.match_other rfl hp
  obtain ⟨q, hsecond, hq⟩ := second_reads b (n := n) (by omega) colon (clean_part c right nofun [] tail) hp
  unfold indexRest
  rw [bind_ok hopen]
  cases c with
  | none =>
    obtain ⟨hmatch, hq'⟩ := match_mark right hq hclean
    exact ⟨_, (bind_ok hsecond).trans (bind_ok hmatch), hq'.accessed (.free indexBlank)⟩
  | some c =>
    obtain ⟨q₁, hthird, hq₁⟩ := c.index_reads right nofun (by decide) (show 8 * c.tokens.length + 7 ≤ n from by
      have hlen : (partTokens (some c)).length = c.tokens.length := rfl
      omega) hq
    refine ⟨_, (bind_ok hsecond).trans ((bind_ok (c.match_other rfl hq)).trans ((bind_ok hthird).trans ?_)),
      hq₁.advanced hclean⟩
    exact bind_ok (consume_mark right _ hq₁)

/-- The first part and the colon behind it, or the colon alone. -/
theorem first_reads (a : Option (Part z)) (hn : 8 * (partTokens a).length + 7 ≤ n) (left : Mark .bracketLeft) (colon : Mark .colon)
    (handle : Node) {ts : List Token} (hclean : Clean (tail.prepend ts))
    (hp : Poised p (tail.prepend (left.token :: (partTokens a ++ colon.token :: ts)))) :
    ∃ q, indexAccess (recAt z (n + 1)) handle p = indexRest (recAt z (n + 1)) (partNode a) a.isSome q ∧
      Poised q (tail.prepend ts) := by
  have hq := hp.advanced (clean_part a colon nofun ts tail)
  unfold indexAccess
  rw [bind_ok (advance_eq p)]
  cases a with
  | none =>
    obtain ⟨hmatch, hq'⟩ := match_mark colon hq hclean
    exact ⟨_, bind_ok hmatch, hq'⟩
  | some a =>
    obtain ⟨q, hpart, hq'⟩ := a.index_reads colon nofun (by decide) hn hq
    obtain ⟨hmatch, hq''⟩ := match_mark colon hq' hclean
    refine ⟨_, ?_, hq''⟩
    rw [bind_ok (a.match_other rfl hq)]
    exact (bind_ok hpart).trans (bind_ok hmatch)

/-- The node `indexAccess` answers: its parts where they were written. -/
theorem indexAccess_reads (form : IndexForm z) (handle : Node) (hn : 8 * form.inner.length + 7 ≤ n) (hclean : Clean tail)
    (hp : Poised p (tail.prepend form.tokens)) :
    ∃ q, indexAccess (recAt z (n + 1)) handle p =
      .ok (.index, .index (partNode form.first) form.secondNode form.thirdNode) q ∧ Poised q tail := by
  cases form with
  | single left a right =>
    simp only [IndexForm.inner, List.length_append] at hn
    obtain ⟨q, hpart, hq⟩ := a.index_reads right nofun (by decide) (n := n) (by omega) (hp.advanced (a.clean [right.token] tail))
    obtain ⟨q', hrest, hq'⟩ : ∃ q', indexRest (recAt z (n + 1)) a.node true q = .ok (.index, .index a.node .null .null) q' ∧
        Poised q' tail := indexRest_close right hclean hq
    have hcolon : matchToken .colon q = .ok false q := match_other hq (by rw [right.isType]; nofun)
    refine ⟨q', ?_, hq'⟩
    unfold indexAccess
    rw [bind_ok (advance_eq p), bind_ok (a.match_other rfl (hp.advanced (a.clean [right.token] tail)))]
    exact (bind_ok hpart).trans ((bind_ok hcolon).trans hrest)
  | double left a colon b right =>
    simp only [IndexForm.inner, List.length_append, List.length_cons] at hn
    obtain ⟨q, hfirst, hq⟩ := first_reads a (n := n) (by omega) left colon handle (clean_part b right nofun [] tail) hp
    rw [hfirst]
    cases b with
    | none => exact indexRest_close right hclean hq
    | some b => exact indexRest_second b (by rw [partTokens] at hn; omega) right hclean hq
  | triple left a colon b colon' c right =>
    simp only [IndexForm.inner, List.length_append, List.length_cons] at hn
    obtain ⟨q, hfirst, hq⟩ := first_reads a (n := n) (by omega) left colon handle (clean_part b colon' nofun _ tail) hp
    rw [hfirst]
    exact indexRest_third b c (by omega) colon' right hclean hq

end Reading

/-! ## Chains -/

/-- The access's node on a target. -/
def IndexForm.onto (form : IndexForm z) (target : Node) : Node := .index target (partNode form.first) form.secondNode

/-- An access extends any target. -/
theorem Opens.indexed {rule : PrecedenceRule} {target : List Token} {node : Node} (h : Opens z rule target node)
    (hrule : rule ≤ .call) (form : IndexForm z) : Opens z rule (target ++ form.tokens) (form.onto node) := by
  intro tail n handle p hclean hn hp
  have hlen : form.tokens.length = form.inner.length + 1 := rfl
  rw [List.length_append] at hn
  rw [prepend_append] at hp
  obtain ⟨k, q, hk, hq, hrun⟩ := h _ n handle p (mark_clean form.left nofun _ _) (by omega) hp
  obtain ⟨k, rfl⟩ : ∃ k', k = k' + 1 := ⟨k - 1, by omega⟩
  obtain ⟨n, rfl⟩ : ∃ n', n = n' + 1 := ⟨n - 1, by omega⟩
  obtain ⟨q', haccess, hq'⟩ := indexAccess_reads form .null (n := n) (by omega) hclean hq
  have htype : q.current.type = .bracketLeft := by rw [hq.at_head.current, form.left.isType]
  refine ⟨k, q', by rw [List.length_append]; omega, hq', hrun.trans (loop_turn ?_)⟩
  rw [turn_operator (by rw [htype]; exact hrule) (by rw [htype]; rfl) haccess]
  rfl

def chainNode (target : Node) (forms : List (IndexForm z)) : Node := forms.foldl (fun node form => form.onto node) target

def chainTokens (forms : List (IndexForm z)) : List Token := forms.flatMap IndexForm.tokens

/-- A chain of accesses nests in order. -/
theorem Opens.chain {rule : PrecedenceRule} {target : List Token} {node : Node} (h : Opens z rule target node)
    (hrule : rule ≤ .call) (forms : List (IndexForm z)) :
    Opens z rule (target ++ chainTokens forms) (chainNode node forms) := by
  induction forms generalizing target node with
  | nil =>
    rw [chainTokens, List.flatMap_nil, List.append_nil]
    exact h
  | cons form forms ih =>
    rw [chainTokens, List.flatMap_cons, ← List.append_assoc]
    exact ih (h.indexed hrule form)

/-! ## What is kept -/

/-- The places of an index node. -/
def places : Node → List Node
  | .index target first second => [target, first, second]
  | _ => []

/-- The node has the target and every part given in its place. -/
structure Keeps (form : IndexForm z) (target node : Node) : Prop where
  target : (places node)[0]? = some target
  first : ∀ a, form.first = some a → (places node)[1]? = some a.node
  second : ∀ b, form.second = some b → (places node)[2]? = some b.node
  third : ∀ c, form.third = some c → (places node)[3]? = some c.node

theorem secondNode_given {form : IndexForm z} {b : Part z} (h : form.second = some b) : form.secondNode = b.node := by
  cases form with
  | single => cases h
  | double left first colon second right =>
    have hb : second = some b := h
    subst hb
    rfl
  | triple left first colon second colon' third right =>
    have hb : second = some b := h
    subst hb
    rfl

/-- An access keeps everything exactly when it has no third part. -/
theorem keeps_iff (form : IndexForm z) (target : Node) : Keeps form target (form.onto target) ↔ form.third = none := by
  constructor
  · intro h
    cases hthird : form.third with
    | none => rfl
    | some c => cases h.third c hthird
  · intro h
    refine ⟨rfl, fun a ha => ?_, fun b hb => ?_, fun c hc => ?_⟩
    · show some (partNode form.first) = some a.node
      rw [ha, partNode]
    · show some form.secondNode = some b.node
      rw [secondNode_given hb]
    · rw [h] at hc
      cases hc

theorem Part.ne_blank (a : Part z) : a.node ≠ indexBlank := a.reads.given nofun

theorem Part.ne_null (a : Part z) : a.node ≠ .null := by
  intro h
  have hsolid := a.reads.solid nofun
  rw [h] at hsolid
  exact hsolid

/-- A second part that is missing leaves no expression's node. -/
theorem secondNode_missing {form : IndexForm z} (h : form.second = none) :
    form.secondNode = .null ∨ form.secondNode = indexBlank := by
  cases form with
  | single => exact Or.inl rfl
  | double left first colon second right =>
    have hb : second = none := h
    subst hb
    cases first with
    | none => exact Or.inr rfl
    | some a => exact Or.inl rfl
  | triple left first colon second colon' third right =>
    have hb : second = none := h
    subst hb
    exact Or.inr rfl

/-- Without a third part, what a node has in its places says which parts are given. -/
theorem presence_of_onto {f g : IndexForm z} (hf : f.third = none) (hg : g.third = none) {target : Node}
    (h : f.onto target = g.onto target) : f.presence = g.presence := by
  injection h with _ hfirst hsecond
  have hone : f.first.isSome = g.first.isSome := by
    cases hfa : f.first with
    | none =>
      cases hga : g.first with
      | none => rfl
      | some b =>
        rw [hfa, hga] at hfirst
        exact absurd hfirst.symm b.ne_blank
    | some a =>
      cases hga : g.first with
      | none =>
        rw [hfa, hga] at hfirst
        exact absurd hfirst a.ne_blank
      | some b => rfl
  have hgiven {f g : IndexForm z} {b : Part z} (hb : f.second = some b) (hnone : g.second = none) :
      f.secondNode ≠ g.secondNode := by
    intro heq
    rw [secondNode_given hb] at heq
    rcases secondNode_missing hnone with hmissing | hmissing
    · exact b.ne_null (heq.trans hmissing)
    · exact b.ne_blank (heq.trans hmissing)
  have htwo : f.second.isSome = g.second.isSome := by
    cases hfb : f.second with
    | none =>
      cases hgb : g.second with
      | none => rfl
      | some b => exact absurd hsecond.symm (hgiven hgb hfb)
    | some b =>
      cases hgb : g.second with
      | none => exact absurd hsecond (hgiven hfb hgb)
      | some b' => rfl
  unfold IndexForm.presence
  rw [hone, htwo, hf, hg]

/-- The node is a chain of accesses, the last one first, each with everything kept. -/
def Nests (target : Node) : List (IndexForm z) → Node → Prop
  | [], node => node = target
  | form :: forms, node => ∃ inner, Keeps form inner node ∧ Nests target forms inner

theorem chainNode_append (target : Node) (forms : List (IndexForm z)) (form : IndexForm z) :
    chainNode target (forms ++ [form]) = form.onto (chainNode target forms) := by
  rw [chainNode, List.foldl_append]
  rfl

/-- A chain keeps everything exactly when no access has a third part. -/
theorem nests_iff (target : Node) (forms : List (IndexForm z)) :
    Nests target forms.reverse (chainNode target forms) ↔ ∀ form ∈ forms, form.third = none := by
  induction forms using List.reverseRecOn with
  | nil => exact iff_of_true rfl (List.forall_mem_nil _)
  | append_singleton forms form ih =>
    rw [List.reverse_append, chainNode_append]
    have hlast : Nests target (form :: forms.reverse) (form.onto (chainNode target forms)) ↔
        Keeps form (chainNode target forms) (form.onto (chainNode target forms)) ∧
          Nests target forms.reverse (chainNode target forms) := by
      constructor
      · intro h
        obtain ⟨inner, hkeeps, hnests⟩ := h
        have hinner : chainNode target forms = inner := by simpa [places, IndexForm.onto] using hkeeps.target
        subst hinner
        exact ⟨hkeeps, hnests⟩
      · intro h
        exact ⟨_, h.1, h.2⟩
    show Nests target (form :: forms.reverse) _ ↔ _
    rw [hlast, keeps_iff, ih]
    constructor
    · intro h other hmem
      rcases List.mem_append.mp hmem with hmem | hmem
      · exact h.2 other hmem
      · rw [List.mem_singleton.mp hmem]
        exact h.1
    · intro h
      exact ⟨h form (by simp), fun other hmem => h other (List.mem_append_left _ hmem)⟩

/-- A chain of accesses is parsed to its chain of nodes. -/
theorem parse_chain {rule : PrecedenceRule} {target : List Token} {node : Node} (h : Opens z rule target node)
    (hrule : rule ≤ .call) (forms : List (IndexForm z)) (handle : Node) {tail : TokenStream} (hclean : Clean tail)
    (hstop : Stops rule tail) {p : Parser} (hp : Poised p (tail.prepend (target ++ chainTokens forms))) :
    ∃ q, (recAt z (fuelFor p)).parsePrecedence handle rule p = .ok (chainNode node forms) q := by
  obtain ⟨q, hrun, -⟩ := (h.chain hrule forms).reads.parse handle hclean hstop hp
  exact ⟨q, hrun⟩

/-- A chain keeps its target and every part in its place and in order, and forms with
    different parts behind one target give different nodes, exactly when no access has a
    third part. -/
theorem index_kept_iff {rule : PrecedenceRule} (hrule : rule ≤ .call) {target : List Token} {node : Node}
    (htarget : Opens z rule target node) (forms : List (IndexForm z)) (f g : IndexForm z) (handle : Node) {tail : TokenStream}
    (hclean : Clean tail) (hstop : Stops rule tail) {p p' : Parser}
    (hp : Poised p (tail.prepend (target ++ chainTokens (forms ++ [f]))))
    (hp' : Poised p' (tail.prepend (target ++ chainTokens (forms ++ [g])))) :
    ∃ x q y q', (recAt z (fuelFor p)).parsePrecedence handle rule p = .ok x q ∧
      (recAt z (fuelFor p')).parsePrecedence handle rule p' = .ok y q' ∧
      ((Nests node (forms ++ [f]).reverse x ∧ Nests node (forms ++ [g]).reverse y ∧ (f.presence ≠ g.presence → x ≠ y)) ↔
        ∀ form ∈ f :: g :: forms, form.third = none) := by
  obtain ⟨q, hrun⟩ := parse_chain htarget hrule (forms ++ [f]) handle hclean hstop hp
  obtain ⟨q', hrun'⟩ := parse_chain htarget hrule (forms ++ [g]) handle hclean hstop hp'
  refine ⟨_, q, _, q', hrun, hrun', ?_⟩
  rw [nests_iff, nests_iff]
  constructor
  · intro h form hmem
    rcases List.mem_cons.mp hmem with rfl | hmem
    · exact h.1 _ (by simp)
    · rcases List.mem_cons.mp hmem with rfl | hmem
      · exact h.2.1 _ (by simp)
      · exact h.1 _ (List.mem_append_left _ hmem)
  · intro h
    have hf : f.third = none := h f (by simp)
    have hg : g.third = none := h g (by simp)
    have hall (last : IndexForm z) (hlast : last.third = none) : ∀ form ∈ forms ++ [last], form.third = none := by
      intro form hmem
      rcases List.mem_append.mp hmem with hmem | hmem
      · exact h form (by simp [hmem])
      · rwa [List.mem_singleton.mp hmem]
    refine ⟨hall f hf, hall g hg, fun hne heq => hne ?_⟩
    rw [chainNode_append, chainNode_append] at heq
    exact presence_of_onto hf hg heq

/-! ## Short accesses -/

def openBracket : Mark .bracketLeft := ⟨⟨.bracketLeft, "[".toList, 1⟩, rfl⟩
def closeBracket : Mark .bracketRight := ⟨⟨.bracketRight, "]".toList, 1⟩, rfl⟩
def colonMark : Mark .colon := ⟨⟨.colon, ":".toList, 1⟩, rfl⟩

def Operand.part (a : Operand) : Part neverZero :=
  ⟨[a.token], .literal (.integer a.word), (opens_literal (l := .integer a.word) (by
    rw [tokenLiteral, a.isInteger, ← a.scanned])).reads⟩

def nameToken : Token := ⟨.identifier, ['x'], 1⟩

theorem nameToken_opens (rule : PrecedenceRule) : Opens neverZero rule [nameToken] (.literal (.identifier ['x'])) :=
  opens_name rfl (by decide)

theorem semicolon_clean : Clean (tokensOf [.semicolon]) := by
  unfold Clean
  decide

/-- The parser in front of `x`, the access and a semicolon. -/
def beforeAccess (form : IndexForm neverZero) : Parser :=
  standing ((tokensOf [.semicolon]).prepend ([nameToken] ++ chainTokens [form]))

def parsedAccess (form : IndexForm neverZero) : EStateM.Result Stop Parser Node :=
  (recAt neverZero (fuelFor (beforeAccess form))).parsePrecedence .null .assignment (beforeAccess form)

/-- `[1 : 2 : 3]`. -/
def fullSlice : IndexForm neverZero :=
  .triple openBracket (some one.part) colonMark (some two.part) colonMark (some three.part) closeBracket

/-- The 3 of `x[1 : 2 : 3]` is lost. -/
theorem third_part_lost :
    ¬ ∃ node q, parsedAccess fullSlice = .ok node q ∧ Keeps fullSlice (.literal (.identifier ['x'])) node := by
  intro h
  obtain ⟨node, q, hrun, hkeeps⟩ := h
  obtain ⟨q', hparsed⟩ := parse_chain (nameToken_opens .assignment) (by decide) [fullSlice] .null semicolon_clean semicolon_stops
    (standing_poised _)
  have hnode : node = fullSlice.onto (.literal (.identifier ['x'])) := by
    have heq := Eq.trans (Eq.symm hrun) hparsed
    injection heq
  rw [hnode, keeps_iff] at hkeeps
  cases hkeeps

/-- `[1]` and `[1 : 2]`. -/
def oneIndex : IndexForm neverZero := .single openBracket one.part closeBracket
def oneTwoSlice : IndexForm neverZero := .double openBracket (some one.part) colonMark (some two.part) closeBracket

theorem index_kept_iff_two :
    ∃ x q y q', parsedAccess oneIndex = .ok x q ∧ parsedAccess oneTwoSlice = .ok y q' ∧
      ((Nests (.literal (.identifier ['x'])) [oneIndex] x ∧ Nests (.literal (.identifier ['x'])) [oneTwoSlice] y ∧
          (oneIndex.presence ≠ oneTwoSlice.presence → x ≠ y)) ↔ ∀ form ∈ [oneIndex, oneTwoSlice], form.third = none) :=
  index_kept_iff (by decide) (nameToken_opens .assignment) [] oneIndex oneTwoSlice .null semicolon_clean semicolon_stops
    (standing_poised _) (standing_poised _)

end Xvr.Frontend.Parse
