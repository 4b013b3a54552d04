/-
  Xvr.Backend.NameStages — the emission of a program goes through its names stage after stage.

  Each procedure and each statement of main is a stage; behind an error there is none.

  Proved:
  - `emitProgram_staged`: the emission of a program leaves the names that the stages of some
    courses leave, each in the emitter's order.
-/

import Xvr.Backend.MainFunction
import Xvr.Backend.NameCourses

namespace Xvr.Backend

open Xvr.Runtime Xvr.Lib
open Xvr.Frontend (Node)
open Xvr.Frontend.UnusedChecker (collection)

theorem FunctionEmitter.names_create {V : Type} : (FunctionEmitter.create : FunctionEmitter V).names = .create := by
  unfold FunctionEmitter.names FunctionEmitter.create
  simp [Variable.bare, Variable.blank]

/-! ## What leaves the names alone -/

theorem names_ensureMainFunction (s : Codegen) : (ensureMainFunction s).names = s.names := by
  unfold ensureMainFunction
  split
  · rfl
  · split
    · split <;> rfl
    · rfl

theorem names_finishBody (returnType : LlvmType) (name : List Char) (value : Option Value) (found : Bool) (s : Codegen) :
    (finishBody returnType name value found s).2.names = s.names := by
  unfold finishBody
  split
  · split
    · rfl
    · exact Codegen.names_append _ _
  · split
    · exact Codegen.names_append _ _
    · split <;> rfl

/-! ## Procedures -/

section

variable {library : Library Value} {modules : Literal → ModuleNames} {ts : List (Text (List Char))}

theorem shapeAll_eq (nodes : List Node) : shapeAll modules nodes = nodes.map (shape modules) := by
  induction nodes with
  | nil => rfl
  | cons node nodes ih => rw [shapeAll, ih, List.map_cons]

/-- A node among the parameters is none, or is added to the table. -/
theorem parameterText_goes (node : Node) :
    (parameter node = none ∧ ∀ n, Goes (parameterText node) n n) ∨
      ∃ p, parameter node = some p ∧ ∀ n, Goes (parameterText node) n (n.addEntry ⟨some p.name, none, .null, 0⟩) := by
  cases node with
  | varDecl identifier typeLiteral expression line =>
    refine .inr ⟨_, rfl, ?_⟩
    cases identifier with
    | identifier name => exact goes_declare name true
    | _ => exact goes_declare "arg".toList false
  | _ => exact .inl ⟨rfl, goes_nothing (by decide) none⟩

theorem names_parameter (p : Parameter) (i : Nat) (s : Codegen) :
    (emitParameters [p] i s).names = s.names.addEntry ⟨some p.name, none, .null, 0⟩ := by
  refine (FunctionEmitter.names_addEntry _ _).trans ?_
  exact congrArg _ ((Codegen.names_build _ _).trans (s.names_build _))

theorem parameters_walk (nodes : List Node) (k i : Nat)
    (hts : ∀ j node, nodes[j]? = some node → ts[k + j]? = some (parameterText node)) (s : Codegen) :
    Walk ts (List.range' k nodes.length) s.names (emitParameters (nodes.filterMap parameter) i s).names := by
  induction nodes generalizing k i s with
  | nil => exact .stop _ _
  | cons node nodes ih =>
    have hrest : ∀ j other, nodes[j]? = some other → ts[k + 1 + j]? = some (parameterText other) := by
      intro j other hj
      rw [Nat.add_assoc, Nat.add_comm 1 j]
      exact hts (j + 1) other hj
    rcases parameterText_goes node with ⟨hnone, hgoes⟩ | ⟨p, hp, hgoes⟩
    · rw [List.filterMap_cons, hnone]
      exact .visit (hts 0 node rfl) (hgoes _) (ih (k + 1) i hrest s)
    · rw [List.filterMap_cons, hp]
      refine .visit (hts 0 node rfl) (hgoes _) ?_
      have h := ih (k + 1) (i + 1) hrest (emitParameters [p] i s)
      rw [names_parameter] at h
      exact h

/-- A walk may stop early. -/
theorem Walk.upTo {k m : Nat} {n n' : Names} (h : Walk ts (List.range k) n n') (hle : k ≤ m) : Walk ts (List.range m) n n' := by
  obtain ⟨r, rfl⟩ := Nat.exists_eq_add_of_le hle
  rw [List.range_add]
  generalize List.range k = order at h
  induction h with
  | stop => exact .stop _ _
  | visit ht hgoes _ ih => exact .visit ht hgoes ih

/-- The first `maxParameters` parameters. -/
theorem openFunction_goes (name : List Char) (returnType : LlvmType) (arguments : Node) (s : Codegen) :
    Goes (.parts .plain (some (List.range maxParameters)) ((collection arguments).map parameterText)) s.names.clearLocalVars
      (openFunction name returnType (parameters arguments) s).names := by
  have hparameters : parameters arguments = ((collection arguments).take maxParameters).filterMap parameter := by
    cases arguments <;> rfl
  have hlength : ((collection arguments).take maxParameters).length ≤ maxParameters := List.length_take_le _ _
  rw [hparameters]
  unfold openFunction
  dsimp only
  generalize hs₁ : Codegen.enterFunction _ _ = s₁
  have hnames : s₁.names = s.names.clearLocalVars := by
    rw [← hs₁]
    rfl
  have hts : ∀ j node, ((collection arguments).take maxParameters)[j]? = some node →
      ((collection arguments).map parameterText)[0 + j]? = some (parameterText node) := by
    intro j node hj
    rw [List.getElem?_take] at hj
    split at hj
    · rw [Nat.zero_add, List.getElem?_map, hj]
      rfl
    · cases hj
  have hwalk := parameters_walk ((collection arguments).take maxParameters) 0 0 hts s₁
  rw [← List.range_eq_range'] at hwalk
  rw [← hnames]
  exact (hwalk.upTo hlength).ordered (by decide)

/-- A return takes its first expression. -/
theorem returnValue_goes (hl : library.Settled) (returns : Node) (value : Option Value) (s : Codegen) :
    Goes (shape modules (.fnReturn returns)) s.names (returnValue library returns value s).2.names := by
  have hwhole : Goes (.parts .plain (some [0]) [(shape modules returns).unread]) s.names (emit library returns s).2.names :=
    ((emit_goes modules hl returns s).unread.walk rfl).ordered (by decide)
  cases returns with
  | null => exact goes_nothing (by decide) _ _
  | fnCollection nodes =>
    cases nodes with
    | nil => exact goes_nothing (by decide) _ _
    | cons node nodes =>
      have hgoes := emit_goes modules hl node s
      exact (hgoes.walk (i := 0) rfl).ordered (by decide)
  | _ => exact hwhole

theorem emitReturn_goes (hl : library.Settled) (returnType : LlvmType) (name : List Char) (returns : Node)
    (value : Option Value) (s : Codegen) :
    Goes (shape modules (.fnReturn returns)) s.names (emitReturn library returnType name returns value s).2.names := by
  have hvalue : Goes (shape modules (.fnReturn returns)) _ _ := returnValue_goes hl returns value s
  unfold emitReturn
  dsimp only
  split
  · exact hvalue
  · split
    · exact hvalue
    · split
      · exact hvalue
      · unfold checkReturnType
        split
        · rename_i h
          split at h <;> cases h
          exact hvalue
        · rename_i h
          split at h <;> cases h
          exact hvalue

theorem emitStatements_walk (hl : library.Settled) (returnType : LlvmType) (name : List Char) (statements : List Node) (k : Nat)
    (hts : ∀ i node, statements[i]? = some node → ts[k + i]? = some (shape modules node)) (value : Option Value) (found : Bool)
    (s : Codegen) :
    Walk ts (List.range' k statements.length) s.names
      (emitStatements library returnType name statements value found s).2.names := by
  induction statements generalizing k value found s with
  | nil => exact .stop _ _
  | cons statement rest ih =>
    have hthis := hts 0 statement rfl
    have hrest : ∀ i node, rest[i]? = some node → ts[k + 1 + i]? = some (shape modules node) := by
      intro i node hi
      rw [Nat.add_assoc, Nat.add_comm 1 i]
      exact hts (i + 1) node hi
    by_cases hreturn : ∃ returns, statement = .fnReturn returns
    · obtain ⟨returns, rfl⟩ := hreturn
      have hgoes : Goes (shape modules (.fnReturn returns)) _ _ := emitReturn_goes hl returnType name returns value s
      rw [emitStatements]
      generalize emitReturn library returnType name returns value s = r at *
      rcases r with ⟨_ | kept, s₁⟩
      · exact .visit hthis hgoes (.stop _ _)
      · exact .visit hthis hgoes (ih (k + 1) hrest kept true s₁)
    · have hgoes := emit_goes modules hl statement s
      rw [emitStatements]
      · dsimp only
        split
        · exact .visit hthis hgoes (.stop _ _)
        · exact .visit hthis hgoes (ih (k + 1) hrest _ found _)
      · exact fun returns heq => hreturn ⟨returns, heq⟩

/-- A procedure empties the table and goes through its shape. -/
theorem procedure_goes (hl : library.Settled) (identifier : Literal) (arguments returns : Node) (statements : List Node)
    (line : Nat) (s : Codegen) :
    Goes (shape modules (.fnDecl identifier arguments returns (.block statements) line)) s.names.clearLocalVars
      (emitFunctionBody library identifier arguments returns (.block statements) s).2.names := by
  have hopen := openFunction_goes (functionName identifier) (returnTypeOf returns) arguments s
  have hts : ∀ i node, statements[i]? = some node → (shapeAll modules statements)[0 + i]? = some (shape modules node) := by
    intro i node hi
    rw [Nat.zero_add, shapeAll_eq, List.getElem?_map, hi]
    rfl
  have hwalk := emitStatements_walk hl (returnTypeOf returns) (functionName identifier) statements 0 hts none false
    (openFunction (functionName identifier) (returnTypeOf returns) (parameters arguments) s)
  rw [← List.range_eq_range'] at hwalk
  have hbody : Goes (shape modules (.block statements)).loose _ _ := hwalk.ordered (e := .first) (by decide)
  have hinner : Walk [.parts .plain (some (List.range maxParameters)) ((collection arguments).map parameterText),
      shape modules returns, (shape modules (.block statements)).loose] [0, 2] _ _ :=
    .visit rfl hopen (.visit rfl hbody (.stop _ _))
  have hgoes : Goes (shape modules (.fnDecl identifier arguments returns (.block statements) line)) _ _ :=
    Walk.ordered (e := .plain) (by decide) ((hinner.ordered (e := .first) (by decide)).walk (i := 1) rfl)
  rw [emitFunctionBody]
  generalize emitStatements library (returnTypeOf returns) (functionName identifier) statements none false
    (openFunction (functionName identifier) (returnTypeOf returns) (parameters arguments) s) = r at hgoes ⊢
  rcases r with ⟨_ | ⟨value, found⟩, s₁⟩
  · exact hgoes
  · dsimp only
    rw [names_finishBody]
    exact hgoes

end

/-! ## Stages -/

/-- The table behind the stages. -/
def bookTable (chapters : List (Text (List Char))) : List Stage → FunctionEmitter Place → FunctionEmitter Place
  | [], e => e
  | st :: stages, e =>
    let e := if st.fresh then e.clearLocalVars else e
    bookTable chapters stages (e.run (calls (callsIn st.course chapters [])))

/-- The stages that begin at the places are gone through in turn, up to where that stops. -/
inductive Staged (chapters : List (Text (List Char))) : List (Bool × Place) → Names → Names → Prop
  | stop (places : List (Bool × Place)) (n : Names) : Staged chapters places n n
  | stage {fresh : Bool} {place : Place} {places : List (Bool × Place)} {n m n' : Names} (c : Course) :
      Text.followsIn (Course.through place c) chapters →
        Renames (callsIn (Course.through place c) chapters []) (if fresh then n.clearLocalVars else n) m →
          Staged chapters places m n' → Staged chapters ((fresh, place) :: places) n n'

section

variable {chapters ts : List (Text (List Char))} {t : Text (List Char)} {places : List (Bool × Place)} {n m n' : Names}
  {f : Bool} {i k : Nat}

theorem Staged.courses (h : Staged chapters places n n') :
    ∃ courses : List Course,
      (∀ st ∈ places.zipWith (fun place c => (⟨place.1, Course.through place.2 c⟩ : Stage)) courses,
        Text.followsIn st.course chapters) ∧
      ∀ e : FunctionEmitter Place, e.names = n →
        (bookTable chapters (places.zipWith (fun place c => ⟨place.1, Course.through place.2 c⟩) courses) e).names = n' := by
  induction h with
  | stop places n =>
    refine ⟨[], ?_, ?_⟩
    · simp
    · intro e he
      rw [List.zipWith_nil_right]
      exact he
  | @stage fresh place places n m n' c hfollows hrenames _ ih =>
    obtain ⟨courses, hall, htable⟩ := ih
    refine ⟨c :: courses, ?_, ?_⟩
    · rw [List.zipWith_cons_cons, List.forall_mem_cons]
      exact ⟨hfollows, hall⟩
    · rintro e rfl
      rw [List.zipWith_cons_cons, bookTable]
      apply htable
      apply hrenames
      cases fresh <;> rfl

theorem followsIn_single {c : Course} (ht : ts[i]? = some t) (h : t.follows c) : Text.followsIn (.visit i c .done) ts := by
  have hc : Text.followsBy (Text.followsIn c) c t := h
  simp only [Text.followsIn, ht, hc, Bool.and_self]

theorem callsIn_single {c : Course} (ht : ts[i]? = some t) (p : Place) :
    callsIn (.visit i c .done) ts p = callsBy (callsIn c) t (i :: p) := by
  simp only [callsIn, ht, List.append_nil]

theorem Staged.node (ht : chapters[k]? = some t) (h : Goes t (if f then n.clearLocalVars else n) m)
    (hrest : Staged chapters places m n') : Staged chapters ((f, [k]) :: places) n n' := by
  obtain ⟨c, hfollows, hrenames⟩ := h
  refine .stage c (followsIn_single ht hfollows) ?_ hrest
  rw [Course.through, Course.through, callsIn_single ht]
  exact hrenames [k]

/-- A stage inside a node whose order is free. -/
theorem Staged.inside (ht : chapters[k]? = some (.parts .plain none ts)) (hi : ts[i]? = some t)
    (h : Goes t (if f then n.clearLocalVars else n) m) (hrest : Staged chapters places m n') :
    Staged chapters ((f, [i, k]) :: places) n n' := by
  obtain ⟨c, hfollows, hrenames⟩ := h
  have hinside : (Text.parts .plain none ts).follows (.visit i c .done) := followsIn_single hi hfollows
  refine .stage c (followsIn_single ht hinside) ?_ hrest
  rw [Course.through, Course.through, Course.through, callsIn_single ht, callsBy, if_neg (fun h => by cases h.1),
    callsIn_single hi]
  exact hrenames [i, k]

end

/-! ## Programs -/

/-- An import does to the table what is said of its module. -/
def Imports (modules : Literal → ModuleNames) (importModule : Literal → Codegen → Bool × Codegen) : Prop :=
  ∀ identifier s, Goes (.parts .plain none ((modules identifier).leaves.map (.declare · false)))
    (if (modules identifier).clears then s.names.clearLocalVars else s.names) (importModule identifier s).2.names

section

variable {library : Library Value} {modules : Literal → ModuleNames} {importModule : Literal → Codegen → Bool × Codegen}
  {chapters : List (Text (List Char))} {places : List (Bool × Place)}

/-- A procedure, and what follows unless it is refused. -/
theorem procedure_staged (hl : library.Settled) {identifier : Literal} {arguments returns body : Node} {line : Nat}
    {place : Bool × Place} {s result : Codegen}
    (hstage : ∀ {n m n' : Names}, Goes (shape modules (.fnDecl identifier arguments returns body line)) n.clearLocalVars m →
      Staged chapters places m n' → Staged chapters (place :: places) n n')
    (hrefused : ∀ t, emitFunctionBody library identifier arguments returns body s = (false, t) → result = t)
    (haccepted : ∀ t, emitFunctionBody library identifier arguments returns body s = (true, t) →
      Staged chapters places t.names result.names) :
    Staged chapters (place :: places) s.names result.names := by
  have hgoes : Goes (shape modules (.fnDecl identifier arguments returns body line)) s.names.clearLocalVars
      (emitFunctionBody library identifier arguments returns body s).2.names ∨
        (emitFunctionBody library identifier arguments returns body s).1 = false ∧
          (emitFunctionBody library identifier arguments returns body s).2.names = s.names := by
    cases body with
    | block statements => exact .inl (procedure_goes hl identifier arguments returns statements line s)
    | _ => exact .inr ⟨rfl, rfl⟩
  generalize emitFunctionBody library identifier arguments returns body s = r at *
  obtain ⟨accepted, t⟩ := r
  cases accepted with
  | true =>
    rcases hgoes with hgoes | ⟨hfalse, -⟩
    · exact hstage hgoes (haccepted t rfl)
    · cases hfalse
  | false =>
    rw [hrefused t rfl]
    rcases hgoes with hgoes | ⟨-, hnames⟩
    · exact hstage hgoes (.stop _ _)
    · rw [← hnames]
      exact .stop _ _

/-- The procedures of a collection, and what follows it. -/
theorem collection_staged (hl : library.Settled) {final : Codegen → Codegen} (hquiet : ∀ s, s.hasError = true → final s = s)
    (hrest : ∀ s, Staged chapters places s.names (final s).names) {k : Nat} {all : List Node}
    (hk : chapters[k]? = some (.parts .plain none (shapeAll modules all))) (nodes : List Node) (i : Nat)
    (hall : ∀ j node, nodes[j]? = some node → all[i + j]? = some node) (s : Codegen) :
    Staged chapters (procedurePlaces nodes [k] i ++ places) s.names
      (final (thenMain (emitCollection library nodes s)).2).names := by
  induction nodes generalizing i s with
  | nil =>
    have h := hrest (ensureMainFunction s)
    rw [names_ensureMainFunction] at h
    exact h
  | cons node nodes ih =>
    have hmore : ∀ j other, nodes[j]? = some other → all[i + 1 + j]? = some other := by
      intro j other hj
      rw [Nat.add_assoc, Nat.add_comm 1 j]
      exact hall (j + 1) other hj
    cases node with
    | fnDecl identifier arguments returns body line =>
      have hi : (shapeAll modules all)[i]? = some (shape modules (.fnDecl identifier arguments returns body line)) := by
        have hnode : all[i]? = _ := hall 0 _ rfl
        rw [shapeAll_eq, List.getElem?_map, hnode]
        rfl
      rw [emitCollection, emitProcedure]
      refine procedure_staged hl (fun hgoes h => .inside (f := true) hk hi hgoes h) ?_ ?_
      · intro t ht
        rw [ht]
        have herror := emitFunctionBody_refused (congrArg Prod.fst ht)
        rw [ht] at herror
        exact hquiet t herror
      · intro t ht
        rw [ht]
        exact ih (i + 1) hmore t
    | _ => exact hrest s

theorem program_staged (hl : library.Settled) (hi : Imports modules importModule) (before nodes : List Node) (s : Codegen) :
    Staged (shapeAll modules (before ++ nodes)) (stagePlaces modules nodes before.length) s.names
      (emitProgram library importModule nodes s).names := by
  induction nodes generalizing before s with
  | nil => exact .stop _ _
  | cons node nodes ih =>
    by_cases herror : s.hasError = true
    · rw [emitProgram_error herror]
      exact .stop _ _
    · have hk : (shapeAll modules (before ++ node :: nodes))[before.length]? = some (shape modules node) := by
        rw [shapeAll_eq, List.getElem?_map, List.getElem?_append_right (Nat.le_refl _), Nat.sub_self]
        rfl
      have hrest : ∀ t : Codegen, Staged (shapeAll modules (before ++ node :: nodes))
          (stagePlaces modules nodes (before.length + 1)) t.names (emitProgram library importModule nodes t).names := by
        intro t
        have h := ih (before ++ [node]) t
        rwa [List.append_assoc, List.length_append] at h
      have hgoes := emit_goes modules hl node (ensureMainFunction s)
      rw [names_ensureMainFunction] at hgoes
      unfold emitProgram emitAST
      rw [if_neg herror]
      cases node with
      | importNode identifier => exact .node hk (hi identifier s) (hrest _)
      | fnCollection procedures =>
        refine collection_staged hl (fun t ht => emitProgram_error ht) hrest hk procedures 0 ?_ s
        intro j node hj
        rwa [Nat.zero_add]
      | fnDecl identifier arguments returns body line =>
        refine procedure_staged hl (fun hgoes h => .node (f := true) hk hgoes h) ?_ ?_
        · intro t ht
          dsimp only [emitProcedure]
          rw [ht]
          have herror' := emitFunctionBody_refused (congrArg Prod.fst ht)
          rw [ht] at herror'
          exact emitProgram_error herror'
        · intro t ht
          dsimp only [emitProcedure]
          rw [ht]
          have h := hrest (ensureMainFunction t)
          rw [names_ensureMainFunction] at h
          exact h
      | _ =>
        exact .node (f := false) hk hgoes (hrest _)

/-- The emission of a program takes its stages, each on a course in the emitter's order, and
    leaves the names that their calls leave. -/
theorem emitProgram_staged (hl : library.Settled) (hi : Imports modules importModule) (program : List Node) :
    ∃ courses : List Course,
      (∀ st ∈ stagesOf modules program courses, Text.followsIn st.course (shapeAll modules program)) ∧
        (bookTable (shapeAll modules program) (stagesOf modules program courses) .create).names =
          (emitProgram library importModule program Codegen.create).names := by
  obtain ⟨courses, hfollows, htable⟩ := (program_staged hl hi [] program Codegen.create).courses
  exact ⟨courses, hfollows, htable _ (FunctionEmitter.names_create.trans FunctionEmitter.names_create.symm)⟩

end

end Xvr.Backend
