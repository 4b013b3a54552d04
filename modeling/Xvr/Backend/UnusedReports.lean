/-
  Xvr.Backend.UnusedReports — what the check for unused variables and procedures prints
  (`popScope`, `Xvr_checkUnusedEnd` of `xvr_unused.cpp`).

  A scope is looked through where it ends, and its declarations are then forgotten; no later
  use can mark one of them. `findings` lists the declarations of a program in the order in
  which they are looked at.

  Proved:
  - `checkNode_finds`: of the declarations looked at, those are printed whose places were
    never marked.
  - `unused_reported`: so the checker refuses a program exactly when some declaration has no
    use that means it, and prints these declarations, each once.
-/

import Xvr.Backend.NameTexts

namespace Xvr.Backend

open Xvr.Runtime Xvr.Lib
open Xvr.Frontend (Node UnusedChecker UnusedDecl)
open Xvr.Frontend.UnusedChecker (checkNode checkAll collection addParameters markIn markScopes)

/-! ## The declarations of a program -/

/-- What a part of the program declares: in the scope it stands in, and in the scopes that end
    inside it, in the order in which they do. -/
structure Findings where
  own : List UnusedDecl
  closed : List UnusedDecl

namespace Findings

def nothing : Findings := ⟨[], []⟩

def behind (f g : Findings) : Findings := ⟨f.own ++ g.own, f.closed ++ g.closed⟩

/-- The part with a scope around it. -/
def scope (f : Findings) : Findings := ⟨[], f.closed ++ f.own⟩

def declared (identifier : Literal) (line : Nat) (isFunction : Bool) (site : Place) : Findings :=
  match identifier with
  | .identifier name => ⟨[⟨name, line, false, isFunction, site⟩], []⟩
  | _ => nothing

def sites (f : Findings) : List Place := (f.own ++ f.closed).map (·.site)

end Findings

def parameterFindings : List Node → Place → Nat → Findings
  | [], _, _ => .nothing
  | .varDecl identifier _ _ line :: nodes, p, i =>
    (Findings.declared identifier line false (i :: p)).behind (parameterFindings nodes p (i + 1))
  | _ :: nodes, p, i => Findings.nothing.behind (parameterFindings nodes p (i + 1))

mutual

def findings : Node → Place → Findings
  | .unary _ child, p | .grouping child, p | .cast _ child, p => findings child (0 :: p)
  | .binary _ left right, p | .pair left right, p => (findings left (0 :: p)).behind (findings right (1 :: p))
  | .ternary condition thenPath elsePath, p | .pathIf condition thenPath elsePath _ _, p
  | .index condition thenPath elsePath, p =>
    ((findings condition (0 :: p)).behind (findings thenPath (1 :: p))).behind (findings elsePath (2 :: p))
  | .block nodes, p => (findingsAll nodes p 0).scope
  | .compound _ nodes, p | .fnCollection nodes, p => findingsAll nodes p 0
  | .varDecl identifier _ expression line, p => (findings expression (0 :: p)).behind (.declared identifier line false (1 :: p))
  | .fnDecl identifier arguments returns body line, p =>
    (Findings.declared identifier line true (0 :: p)).behind
      (((parameterFindings (collection arguments) (0 :: 1 :: p) 0).behind (findings returns (1 :: 1 :: p))).behind
        (findings body (2 :: 1 :: p))).scope
  | .fnCall (.fnCollection nodes) _, p | .fnReturn (.fnCollection nodes), p => findingsAll nodes p 0
  | .pathWhile condition thenPath, p => (findings condition (0 :: p)).behind (findings thenPath (1 :: p))
  | .pathFor preClause condition postClause thenPath, p =>
    ((((findings preClause (0 :: p)).behind (findings condition (1 :: p))).behind (findings postClause (2 :: p))).behind
      (findings thenPath (3 :: p))).scope
  | _, _ => .nothing

def findingsAll : List Node → Place → Nat → Findings
  | [], _, _ => .nothing
  | node :: nodes, p, i => (findings node (i :: p)).behind (findingsAll nodes p (i + 1))

end

/-- The declarations of a program, in the order in which the checker looks at them. -/
def declarations (program : List Node) : List UnusedDecl := (findingsAll program [] 0).scope.closed

/-! ## Marks -/

/-- No use was marked for the declaration. -/
def Unmarked (marked : List (Place × Place)) (d : UnusedDecl) : Prop := ∀ m ∈ marked, m.2 ≠ d.site

instance (marked : List (Place × Place)) (d : UnusedDecl) : Decidable (Unmarked marked d) :=
  inferInstanceAs (Decidable (∀ m ∈ marked, m.2 ≠ d.site))

/-- A declaration as it was added. -/
def bare (d : UnusedDecl) : UnusedDecl := { d with used := false }

def bares (scopes : List (List UnusedDecl)) : List (List UnusedDecl) := scopes.map (·.map bare)

/-- The scopes with more declarations in the innermost one. -/
def adding (ds : List UnusedDecl) : List (List UnusedDecl) → List (List UnusedDecl)
  | [] => []
  | scope :: scopes => (scope ++ ds) :: scopes

@[simp] theorem adding_nil (scopes : List (List UnusedDecl)) : adding [] scopes = scopes := by
  cases scopes <;> simp [adding]

@[simp] theorem adding_adding (ds es : List UnusedDecl) (scopes : List (List UnusedDecl)) :
    adding es (adding ds scopes) = adding (ds ++ es) scopes := by
  cases scopes <;> simp [adding]

def sitesOf (scopes : List (List UnusedDecl)) : List Place := scopes.flatten.map (·.site)

theorem sitesOf_bares (scopes : List (List UnusedDecl)) : sitesOf (bares scopes) = sitesOf scopes := by
  induction scopes with
  | nil => rfl
  | cons scope scopes ih =>
    simp only [sitesOf, bares, List.map_cons, List.flatten_cons, List.map_append, List.map_map] at ih ⊢
    rw [ih]
    rfl

/-- The declarations kept know whether they were marked, and each stands at a place of its own. -/
structure Settled (c : UnusedChecker) : Prop where
  flagged : ∀ d ∈ c.scopes.flatten, d.used = false ↔ Unmarked c.marked d
  distinct : (sitesOf c.scopes).Nodup
  open_ : c.scopes ≠ []

/-- Nothing in the region is known yet. -/
structure Beyond (region : Set Place) (c : UnusedChecker) : Prop where
  declared : ∀ s ∈ sitesOf c.scopes, s ∉ region
  marked : ∀ m ∈ c.marked, m.2 ∉ region

/-- What a step of the checker does that goes through a part of the program. -/
structure Covers (f : Findings) (c c' : UnusedChecker) : Prop where
  scopes : bares c'.scopes = adding f.own (bares c.scopes)
  flagged : ∀ d ∈ c'.scopes.flatten, d.used = false ↔ Unmarked c'.marked d
  marked : ∃ new, c'.marked = c.marked ++ new ∧ ∀ m ∈ new, m.2 ∈ sitesOf c.scopes ∨ m.2 ∈ f.sites
  printed : c'.printed = c.printed ++ (f.closed.filter fun d => Unmarked c'.marked d).flatMap UnusedDecl.report
  hasError : c'.hasError = true ↔ c.hasError = true ∨ (f.closed.filter fun d => Unmarked c'.marked d) ≠ []

/-- The step goes through a part of the program that has its places in the region. -/
structure Finds (region : Set Place) (f : Findings) (step : UnusedChecker → UnusedChecker) : Prop where
  inside : ∀ s ∈ f.sites, s ∈ region
  distinct : f.sites.Nodup
  covers : ∀ c, Settled c → Beyond region c → Covers f c (step c)

section

variable {region other : Set Place} {f g : Findings} {step step' : UnusedChecker → UnusedChecker} {c c' : UnusedChecker}
  {p : Place} {i : Nat}

theorem sitesOf_adding {ds : List UnusedDecl} {scopes : List (List UnusedDecl)} (h : scopes ≠ []) :
    (sitesOf (adding ds scopes)).Perm (sitesOf scopes ++ ds.map (·.site)) := by
  cases scopes with
  | nil => exact absurd rfl h
  | cons scope scopes =>
    simp only [sitesOf, adding, List.flatten_cons, List.map_append, List.append_assoc]
    exact List.perm_append_comm.append_left _

theorem own_site {d : UnusedDecl} (h : d ∈ f.own) : d.site ∈ f.sites :=
  List.mem_map_of_mem (List.mem_append_left _ h)

theorem closed_site {d : UnusedDecl} (h : d ∈ f.closed) : d.site ∈ f.sites :=
  List.mem_map_of_mem (List.mem_append_right _ h)

/-- Where a site behind a step comes from. -/
theorem Covers.site (h : Covers f c c') (hc : Settled c) {s : Place} (hs : s ∈ sitesOf c'.scopes) :
    s ∈ sitesOf c.scopes ∨ s ∈ f.own.map (·.site) := by
  have hbares : bares c.scopes ≠ [] := by simpa [bares] using hc.open_
  rw [← sitesOf_bares, h.scopes, (sitesOf_adding hbares).mem_iff, sitesOf_bares] at hs
  exact List.mem_append.mp hs

theorem Finds.settled (h : Finds region f step) (hc : Settled c) (hb : Beyond region c) : Settled (step c) := by
  have hcovers := h.covers c hc hb
  have hbares : bares c.scopes ≠ [] := by simpa [bares] using hc.open_
  refine ⟨hcovers.flagged, ?_, fun hempty => ?_⟩
  · rw [← sitesOf_bares, hcovers.scopes, (sitesOf_adding hbares).nodup_iff, sitesOf_bares, List.nodup_append]
    have hsites := h.distinct
    rw [Findings.sites, List.map_append, List.nodup_append] at hsites
    refine ⟨hc.distinct, hsites.1, fun s hs t ht heq => ?_⟩
    obtain ⟨d, hd, rfl⟩ := List.mem_map.mp ht
    exact hb.declared s hs (heq ▸ h.inside _ (own_site hd))
  · have hscopes := hcovers.scopes
    rw [hempty] at hscopes
    cases hc' : bares c.scopes with
    | nil => exact hbares hc'
    | cons => rw [hc'] at hscopes; cases hscopes

/-- A step in one region knows nothing of another. -/
theorem Finds.beyond (h : Finds region f step) (hc : Settled c) (hb : Beyond region c) (hother : Beyond other c)
    (hapart : ∀ s ∈ region, s ∉ other) : Beyond other (step c) := by
  have hcovers := h.covers c hc hb
  refine ⟨fun s hs => ?_, fun m hm => ?_⟩
  · rcases hcovers.site hc hs with hs | hs
    · exact hother.declared s hs
    · obtain ⟨d, hd, rfl⟩ := List.mem_map.mp hs
      exact hapart _ (h.inside _ (own_site hd))
  · obtain ⟨new, hmarked, hnew⟩ := hcovers.marked
    rw [hmarked] at hm
    rcases List.mem_append.mp hm with hm | hm
    · exact hother.marked m hm
    · rcases hnew m hm with hs | hs
      · exact hother.declared _ hs
      · exact hapart _ (h.inside _ hs)

theorem Beyond.mono (h : Beyond other c) (hsub : region ⊆ other) : Beyond region c :=
  ⟨fun s hs hr => h.declared s hs (hsub hr), fun m hm hr => h.marked m hm (hsub hr)⟩

theorem Finds.mono (h : Finds region f step) (hsub : region ⊆ other) : Finds other f step :=
  ⟨fun s hs => hsub (h.inside s hs), h.distinct, fun c hc hb => h.covers c hc (hb.mono hsub)⟩

/-! ## One part behind another -/

theorem finds_nothing (region : Set Place) : Finds region .nothing fun c => c := by
  refine ⟨nofun, List.nodup_nil, fun c hc _ => ⟨?_, hc.flagged, ⟨[], ?_, nofun⟩, ?_, ?_⟩⟩
  · simp [Findings.nothing]
  · simp
  · simp [Findings.nothing]
  · simp [Findings.nothing]

/-- What was looked at before a step was looked at for good. -/
theorem Finds.forgotten (hf : Finds region f step) (hg : Finds other g step') (hapart : ∀ s ∈ region, s ∉ other)
    (hc : Settled c) (hb : Beyond region c) (hother : Beyond other c) :
    (f.closed.filter fun d => Unmarked (step' (step c)).marked d) = f.closed.filter fun d => Unmarked (step c).marked d := by
  obtain ⟨new, hmarked, hnew⟩ :=
    (hg.covers _ (hf.settled hc hb) (hf.beyond hc hb hother hapart)).marked
  refine List.filter_congr fun d hd => ?_
  have hfresh : ∀ m ∈ new, m.2 ≠ d.site := by
    intro m hm heq
    have hsite := closed_site hd
    rcases hnew m hm with hs | hs
    · rcases (hf.covers c hc hb).site hc (heq ▸ hs) with hs | hs
      · exact hb.declared _ hs (hf.inside _ hsite)
      · have hdistinct := hf.distinct
        rw [Findings.sites, List.map_append, List.nodup_append] at hdistinct
        exact hdistinct.2.2 _ hs _ (List.mem_map_of_mem hd) rfl
    · exact hapart _ (hf.inside _ hsite) (hg.inside _ (heq ▸ hs))
  rw [hmarked]
  refine decide_eq_decide.mpr ?_
  simp only [Unmarked, List.forall_mem_append]
  exact ⟨fun h => h.1, fun h => ⟨h, hfresh⟩⟩

theorem Finds.behind (hf : Finds region f step) (hg : Finds other g step') (hapart : ∀ s ∈ region, s ∉ other) :
    Finds (region ∪ other) (f.behind g) fun c => step' (step c) := by
  have hsites : (f.behind g).sites.Perm (f.sites ++ g.sites) := by
    simp only [Findings.sites, Findings.behind, ← List.map_append]
    refine List.Perm.map _ ?_
    rw [List.append_assoc, List.append_assoc]
    refine List.Perm.append_left _ ?_
    rw [← List.append_assoc, ← List.append_assoc]
    exact List.perm_append_comm.append_right _
  refine ⟨fun s hs => ?_, ?_, fun c hc hb => ?_⟩
  · rcases List.mem_append.mp (hsites.mem_iff.mp hs) with hs | hs
    · exact .inl (hf.inside s hs)
    · exact .inr (hg.inside s hs)
  · rw [hsites.nodup_iff, List.nodup_append]
    exact ⟨hf.distinct, hg.distinct, fun s hs t ht heq => hapart s (hf.inside s hs) (heq ▸ hg.inside t ht)⟩
  · have hb₁ : Beyond region c := hb.mono Set.subset_union_left
    have hb₂ : Beyond other c := hb.mono Set.subset_union_right
    have h₁ := hf.covers c hc hb₁
    have h₂ := hg.covers _ (hf.settled hc hb₁) (hf.beyond hc hb₁ hb₂ hapart)
    have hclosed := hf.forgotten hg hapart hc hb₁ hb₂
    obtain ⟨new₁, hmarked₁, hnew₁⟩ := h₁.marked
    obtain ⟨new₂, hmarked₂, hnew₂⟩ := h₂.marked
    refine ⟨?_, h₂.flagged, ⟨new₁ ++ new₂, ?_, fun m hm => ?_⟩, ?_, ?_⟩
    · rw [h₂.scopes, h₁.scopes, adding_adding, Findings.behind]
    · rw [hmarked₂, hmarked₁, List.append_assoc]
    · rw [hsites.mem_iff, List.mem_append]
      rcases List.mem_append.mp hm with hm | hm
      · exact (hnew₁ m hm).imp_right .inl
      · rcases hnew₂ m hm with hs | hs
        · rcases h₁.site hc hs with hs | hs
          · exact .inl hs
          · obtain ⟨d, hd, heq⟩ := List.mem_map.mp hs
            exact .inr (.inl (heq ▸ own_site hd))
        · exact .inr (.inr hs)
    · rw [h₂.printed, h₁.printed, ← hclosed, Findings.behind, List.filter_append, List.flatMap_append, List.append_assoc]
    · rw [h₂.hasError, h₁.hasError, ← hclosed, Findings.behind, List.filter_append, Ne, Ne, Ne, List.append_eq_nil_iff,
        not_and_or, or_assoc]

/-! ## Scopes -/

theorem unused_eq {marked : List (Place × Place)} {scope : List UnusedDecl}
    (h : ∀ d ∈ scope, d.used = false ↔ Unmarked marked d) :
    (scope.filter fun d => !d.used) = (scope.map bare).filter fun d => Unmarked marked d := by
  induction scope with
  | nil => rfl
  | cons d scope ih =>
    obtain ⟨hd, hscope⟩ := List.forall_mem_cons.mp h
    rw [List.map_cons]
    cases hused : d.used with
    | true =>
      have hmarked : ¬ Unmarked marked (bare d) := fun hm => by
        rw [hd.mpr hm] at hused
        cases hused
      rw [List.filter_cons_of_neg (by simp [hused]), List.filter_cons_of_neg (by simpa using hmarked), ih hscope]
    | false =>
      have hbare : bare d = d := by
        cases d
        cases hused
        rfl
      rw [List.filter_cons_of_pos (by simp [hused]), hbare, List.filter_cons_of_pos (by simpa using hd.mp hused), ih hscope]

theorem scope_sites (f : Findings) : f.scope.sites.Perm f.sites := by
  simp only [Findings.sites, Findings.scope, List.nil_append]
  exact List.Perm.map _ List.perm_append_comm

/-- A scope is looked through where it ends. -/
theorem Finds.closes (hf : Finds region f step) (hc : Settled c.pushScope) (hb : Beyond region c.pushScope) :
    Covers f.scope c (step c.pushScope).popScope := by
  have hpushed : sitesOf c.pushScope.scopes = sitesOf c.scopes := by simp [sitesOf, UnusedChecker.pushScope]
  have hcovers := hf.covers _ hc hb
  generalize step c.pushScope = c' at hcovers
  obtain ⟨new, hmarked, hnew⟩ := hcovers.marked
  have hscopes : bares c'.scopes = f.own :: bares c.scopes := hcovers.scopes
  obtain ⟨scope, rest, hopen⟩ : ∃ scope rest, c'.scopes = scope :: rest := by
    cases hs : c'.scopes with
    | nil => rw [hs] at hscopes; cases hscopes
    | cons scope rest => exact ⟨scope, rest, rfl⟩
  rw [hopen] at hscopes
  obtain ⟨hown, hrest⟩ := List.cons.inj hscopes
  have hflagged := hcovers.flagged
  rw [hopen, List.flatten_cons] at hflagged
  have hunused : (scope.filter fun d => !d.used) = f.own.filter fun d => Unmarked c'.marked d := by
    rw [← hown]
    exact unused_eq fun d hd => hflagged d (List.mem_append_left _ hd)
  have hpop : c'.popScope =
      { c' with
        scopes := rest
        hasError := c'.hasError || !(scope.filter fun d => !d.used).isEmpty
        printed := c'.printed ++ (scope.filter fun d => !d.used).flatMap UnusedDecl.report } := by
    unfold UnusedChecker.popScope
    rw [hopen]
  rw [hpop]
  refine ⟨?_, fun d hd => hflagged d (List.mem_append_right _ hd), ⟨new, hmarked, fun m hm => ?_⟩, ?_, ?_⟩
  · exact hrest.trans (adding_nil _).symm
  · rw [(scope_sites f).mem_iff, ← hpushed]
    exact hnew m hm
  · show c'.printed ++ _ = _
    rw [hcovers.printed, hunused, Findings.scope, List.filter_append, List.flatMap_append, List.append_assoc]
    rfl
  · show (c'.hasError || _) = true ↔ _
    rw [Bool.or_eq_true, hcovers.hasError, hunused, Findings.scope, List.filter_append, Ne, Ne, List.append_eq_nil_iff,
      not_and_or, or_assoc]
    simp [UnusedChecker.pushScope]

theorem Finds.scope (hf : Finds region f step) : Finds region f.scope fun c => (step c.pushScope).popScope := by
  refine ⟨fun s hs => hf.inside s ((scope_sites f).mem_iff.mp hs), (scope_sites f).nodup_iff.mpr hf.distinct, fun c hc hb => ?_⟩
  have hpushed : sitesOf c.pushScope.scopes = sitesOf c.scopes := by simp [sitesOf, UnusedChecker.pushScope]
  have hsettled : Settled c.pushScope :=
    ⟨fun d hd => hc.flagged d (by simpa [UnusedChecker.pushScope] using hd), hpushed ▸ hc.distinct,
      by simp [UnusedChecker.pushScope]⟩
  exact hf.closes hsettled ⟨hpushed ▸ hb.declared, hb.marked⟩

/-! ## Uses and declarations -/

theorem markIn_split {name : List Char} {ds ds' : List UnusedDecl} {site : Place} (h : markIn name ds = some (site, ds')) :
    ∃ above d below, ds = above ++ d :: below ∧ ds' = above ++ { d with used := true } :: below ∧ d.site = site := by
  induction ds generalizing ds' with
  | nil => cases h
  | cons d ds ih =>
    rw [markIn] at h
    split at h
    · cases h
      exact ⟨[], d, ds, rfl, rfl, rfl⟩
    · obtain ⟨⟨_, rest⟩, hrest, heq⟩ := Option.map_eq_some_iff.mp h
      cases heq
      obtain ⟨above, e, below, rfl, rfl, hsite⟩ := ih hrest
      exact ⟨d :: above, e, below, rfl, rfl, hsite⟩

/-- Of all declarations one becomes used. -/
theorem markScopes_split {name : List Char} {scopes scopes' : List (List UnusedDecl)} {site : Place}
    (h : markScopes name scopes = some (site, scopes')) : bares scopes' = bares scopes ∧
      ∃ above d below, scopes.flatten = above ++ d :: below ∧ scopes'.flatten = above ++ { d with used := true } :: below ∧
        d.site = site := by
  induction scopes generalizing scopes' with
  | nil => cases h
  | cons scope scopes ih =>
    rw [markScopes] at h
    cases hin : markIn name scope with
    | some r =>
      rw [hin] at h
      cases h
      obtain ⟨above, d, below, rfl, hr, hsite⟩ := markIn_split hin
      refine ⟨?_, above, d, below ++ scopes.flatten, by simp, by simp [hr], hsite⟩
      rw [hr]
      simp [bares, bare]
    | none =>
      rw [hin] at h
      obtain ⟨⟨_, rest⟩, hrest, heq⟩ := Option.map_eq_some_iff.mp h
      cases heq
      obtain ⟨hbares, above, d, below, hflat, hflat', hsite⟩ := ih hrest
      refine ⟨by simpa [bares] using hbares, scope ++ above, d, below, by simp [hflat], by simp [hflat'], hsite⟩

theorem finds_used (region : Set Place) (literal : Literal) (place : Place) :
    Finds region .nothing fun c => c.markUsed literal place := by
  refine ⟨nofun, List.nodup_nil, fun c hc hb => ?_⟩
  have hidle : Covers .nothing c c := (finds_nothing region).covers c hc hb
  cases literal with
  | identifier name =>
    unfold UnusedChecker.markUsed
    dsimp only
    split
    · rename_i site scopes hmark
      obtain ⟨hbares, above, d, below, hflat, hflat', rfl⟩ := markScopes_split hmark
      refine ⟨hbares.trans (adding_nil _).symm, ?_, ⟨[(place, d.site)], rfl, fun m hm => ?_⟩, ?_, ?_⟩
      · have hdistinct := hc.distinct
        rw [sitesOf, hflat, List.map_append, List.map_cons, List.nodup_append, List.nodup_cons] at hdistinct
        intro e he
        show e.used = false ↔ Unmarked (c.marked ++ [(place, d.site)]) e
        have hold (he : e ∈ above ++ d :: below) (hne : d.site ≠ e.site) :
            e.used = false ↔ Unmarked (c.marked ++ [(place, d.site)]) e := by
          rw [hc.flagged e (hflat ▸ he)]
          simp only [Unmarked, List.forall_mem_append, List.forall_mem_singleton]
          exact ⟨fun h => ⟨h, hne⟩, fun h => h.1⟩
        rw [hflat', List.mem_append, List.mem_cons] at he
        rcases he with he | rfl | he
        · refine hold (List.mem_append_left _ he) fun heq => ?_
          exact hdistinct.2.2 _ (List.mem_map_of_mem he) _ (List.mem_cons_self ..) heq.symm
        · simp [Unmarked]
        · refine hold (List.mem_append_right _ (List.mem_cons_of_mem _ he)) fun heq => ?_
          exact hdistinct.2.1.1 (heq ▸ List.mem_map_of_mem he)
      · rw [List.mem_singleton.mp hm]
        left
        rw [sitesOf, hflat]
        simp
      · simp [Findings.nothing]
      · simp [Findings.nothing]
    · exact hidle
  | _ => exact hidle

theorem finds_declared (identifier : Literal) (line : Nat) (isFunction : Bool) (site : Place) (h : site ∈ region) :
    Finds region (.declared identifier line isFunction site) fun c => c.addDeclaration identifier line isFunction site := by
  cases identifier with
  | identifier name =>
    refine ⟨fun s hs => ?_, by simp [Findings.declared, Findings.sites], fun c hc hb => ?_⟩
    · rw [List.mem_singleton.mp hs]
      exact h
    · obtain ⟨scope, scopes, hopen⟩ : ∃ scope scopes, c.scopes = scope :: scopes := by
        cases hs : c.scopes with
        | nil => exact absurd hs hc.open_
        | cons scope scopes => exact ⟨scope, scopes, rfl⟩
      have hadd : c.addDeclaration (.identifier name) line isFunction site =
          { c with scopes := (scope ++ [⟨name, line, false, isFunction, site⟩]) :: scopes } := by
        unfold UnusedChecker.addDeclaration
        rw [hopen]
      rw [hadd]
      refine ⟨?_, fun d hd => ?_, ⟨[], by simp, nofun⟩, by simp [Findings.declared], by simp [Findings.declared]⟩
      · rw [hopen]
        simp [bares, adding, bare, Findings.declared]
      · have hflagged := hc.flagged d
        rw [hopen] at hflagged
        simp only [List.flatten_cons, List.mem_append, List.mem_singleton] at hd hflagged
        rcases hd with (hd | rfl) | hd
        · exact hflagged (.inl hd)
        · exact ⟨fun _ m hm heq => hb.marked m hm (heq ▸ h), fun _ => rfl⟩
        · exact hflagged (.inr hd)
  | _ => exact (finds_nothing region).mono fun _ h => h

/-! ## Parts -/

/-- The places under some of the parts of a place. -/
def parts (p : Place) (indices : Set Nat) : Set Place := {s | ∃ i ∈ indices, (i :: p) <:+ s}

def under (p : Place) : Set Place := {s | p <:+ s}

theorem parts_under (indices : Set Nat) : parts p indices ⊆ under p := fun _ ⟨_, _, h⟩ => Text.under_part h

variable {indices indices' : Set Nat}

theorem Finds.part (hf : Finds (under (i :: p)) f step) : Finds (parts p {i}) f step := hf.mono fun _ h => ⟨i, rfl, h⟩

theorem Finds.next (hf : Finds (parts p indices) f step) (hg : Finds (under (i :: p)) g step') (h : i ∉ indices) :
    Finds (parts p (indices ∪ {i})) (f.behind g) fun c => step' (step c) := by
  refine (hf.behind hg ?_).mono ?_
  · rintro s ⟨j, hj, hs⟩ hs'
    exact h (Text.place_unique hs hs' ▸ hj)
  · rintro s (⟨j, hj, hs⟩ | hs)
    · exact ⟨j, .inl hj, hs⟩
    · exact ⟨i, .inr rfl, hs⟩

theorem Finds.whole (hf : Finds (parts p indices) f step) : Finds (under p) f step := hf.mono (parts_under indices)

theorem finds_cons (hf : Finds (under (i :: p)) f step) (hg : Finds (parts p {j | i < j}) g step') :
    Finds (parts p {j | i ≤ j}) (f.behind g) fun c => step' (step c) := by
  refine (hf.part.behind hg ?_).mono ?_
  · rintro s ⟨j, hj, hs⟩ ⟨k, hk, hs'⟩
    obtain rfl := Text.place_unique hs hs'
    exact absurd hk (by simp [Set.mem_singleton_iff.mp hj])
  · rintro s (⟨j, hj, hs⟩ | ⟨j, hj, hs⟩)
    · exact ⟨j, Nat.le_of_eq (Set.mem_singleton_iff.mp hj).symm, hs⟩
    · exact ⟨j, Nat.le_of_lt hj, hs⟩

theorem finds_parameters (nodes : List Node) (p : Place) (i : Nat) :
    Finds (parts p {j | i ≤ j}) (parameterFindings nodes p i) (addParameters nodes p i) := by
  induction nodes generalizing i with
  | nil => exact finds_nothing _
  | cons node nodes ih =>
    cases node with
    | varDecl identifier typeLiteral expression line =>
      have hsite : i :: p ∈ under (i :: p) := List.suffix_refl _
      have hdeclared := finds_declared identifier line false (i :: p) hsite
      have hcons := finds_cons hdeclared (ih (i + 1))
      exact hcons
    | _ =>
      have hcons := finds_cons (finds_nothing (under (i :: p))) (ih (i + 1))
      exact hcons

mutual

/-- The checker goes through a node: of the declarations it looks at on the way it prints
    those that were never marked. -/
theorem checkNode_finds : ∀ (node : Node) (p : Place), Finds (under p) (findings node p) (checkNode node p)
  | .null, _ | .wild, _ | .error, _ | .pathBreak, _ | .pathContinue, _ | .pass, _ | .importNode _ _, _ => finds_nothing _
  | .literal literal, p => finds_used _ literal p
  | .unary _ child, p | .grouping child, p | .cast _ child, p => (checkNode_finds child (0 :: p)).part.whole
  | .binary _ left right, p | .pair left right, p | .pathWhile left right, p =>
    ((checkNode_finds left (0 :: p)).part.next (checkNode_finds right (1 :: p)) (by simp)).whole
  | .ternary condition thenPath elsePath, p | .index condition thenPath elsePath, p | .pathIf condition thenPath elsePath _ _, p =>
    (((checkNode_finds condition (0 :: p)).part.next (checkNode_finds thenPath (1 :: p)) (by simp)).next
      (checkNode_finds elsePath (2 :: p)) (by simp)).whole
  | .block nodes, p => (checkAll_finds nodes p 0).whole.scope
  | .compound _ nodes, p | .fnCollection nodes, p => (checkAll_finds nodes p 0).whole
  | .varDecl identifier _ expression line, p =>
    ((checkNode_finds expression (0 :: p)).part.next
      (finds_declared identifier line false (1 :: p) (List.suffix_refl _)) (by simp)).whole
  | .fnDecl identifier arguments returns body line, p => by
    have hsite : 0 :: p ∈ under (0 :: p) := List.suffix_refl _
    have hname := finds_declared identifier line true (0 :: p) hsite
    have hparameters := (finds_parameters (collection arguments) (0 :: 1 :: p) 0).whole
    have hreturns := hparameters.part.next (checkNode_finds returns (1 :: 1 :: p)) (by simp)
    have hbody := hreturns.next (checkNode_finds body (2 :: 1 :: p)) (by simp)
    exact (hname.part.next hbody.whole.scope (by simp)).whole
  | .fnCall arguments _, p => by
    cases arguments with
    | fnCollection nodes => exact (checkAll_finds nodes p 0).whole
    | _ => exact finds_nothing _
  | .fnReturn returns, p => by
    cases returns with
    | fnCollection nodes => exact (checkAll_finds nodes p 0).whole
    | _ => exact finds_nothing _
  | .pathFor preClause condition postClause thenPath, p => by
    have hcondition := (checkNode_finds preClause (0 :: p)).part.next (checkNode_finds condition (1 :: p)) (by simp)
    have hpost := hcondition.next (checkNode_finds postClause (2 :: p)) (by simp)
    exact (hpost.next (checkNode_finds thenPath (3 :: p)) (by simp)).whole.scope
  | .prefixIncrement identifier, p | .prefixDecrement identifier, p | .postfixIncrement identifier, p
  | .postfixDecrement identifier, p => finds_used _ identifier p

theorem checkAll_finds : ∀ (nodes : List Node) (p : Place) (i : Nat),
    Finds (parts p {j | i ≤ j}) (findingsAll nodes p i) (checkAll nodes p i)
  | [], _, _ => finds_nothing _
  | node :: nodes, p, i =>
    have hcons := finds_cons (checkNode_finds node (i :: p)) (checkAll_finds nodes p (i + 1))
    hcons

end

end

/-! ## Programs -/

/-- Some use in the program means the declaration: it is the first one of its name in the
    innermost scope around the use that has one. -/
def Used (modules : Literal → ModuleNames) (program : List Node) (d : UnusedDecl) : Prop :=
  ∃ use, (use, d.site) ∈ bookMarks (shapeAll modules program)

instance (modules : Literal → ModuleNames) (program : List Node) (d : UnusedDecl) : Decidable (Used modules program d) :=
  decidable_of_iff (¬ Unmarked (bookMarks (shapeAll modules program)) d) (by simp [Used, Unmarked])

/-- The checker prints the declarations that no use means, in the order in which their scopes
    end, and has an error exactly when there is one. -/
theorem unused_reported (modules : Literal → ModuleNames) (program : List Node) :
    (UnusedChecker.checkProgram program).printed =
        ((declarations program).filter fun d => ¬ Used modules program d).flatMap UnusedDecl.report ∧
      ((UnusedChecker.checkProgram program).hasError = true ↔ ∃ d ∈ declarations program, ¬ Used modules program d) ∧
      ((declarations program).map (·.site)).Nodup := by
  have hsettled : Settled UnusedChecker.init.pushScope :=
    ⟨by simp [UnusedChecker.init, UnusedChecker.pushScope], List.nodup_nil, by simp [UnusedChecker.pushScope]⟩
  have hbeyond : Beyond (parts [] {j | 0 ≤ j}) UnusedChecker.init.pushScope :=
    ⟨by simp [sitesOf, UnusedChecker.init, UnusedChecker.pushScope], nofun⟩
  have hfinds := checkAll_finds program [] 0
  have hcovers : Covers _ UnusedChecker.init (UnusedChecker.checkProgram program) := hfinds.closes hsettled hbeyond
  have hunused : ((declarations program).filter fun d => ¬ Used modules program d) =
      (declarations program).filter fun d => Unmarked (UnusedChecker.checkProgram program).marked d := by
    rw [checkProgram_marked modules]
    refine List.filter_congr fun d _ => decide_eq_decide.mpr ?_
    simp only [Used, Unmarked, not_exists, Prod.forall]
    exact ⟨fun h a b hab heq => h a (heq ▸ hab), fun h use huse => h use _ huse rfl⟩
  refine ⟨?_, ?_, ?_⟩
  · rw [hcovers.printed, hunused]
    rfl
  · rw [hcovers.hasError]
    show false = true ∨ (declarations program).filter _ ≠ [] ↔ _
    rw [← hunused, Ne, List.filter_eq_nil_iff]
    simp
  · have hdistinct := hfinds.scope.distinct
    exact hdistinct

end Xvr.Backend
