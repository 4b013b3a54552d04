/-
  Xvr.Lib.Readings — declarations and uses of names, as two readers with scopes of their own
  go through them.

  The first reader reads every part of a text once, in order. To it a use means the first
  declaration of the name in the innermost scope that has one. The second reader follows a
  course: it may leave parts out, take them in another order or go through one again. It
  keeps one list of entries, cuts it back only where a scope ends that both readers have, and
  to it a use means the latest entry of the name.

  Proved:
  - `sole_iff`: the readers agree on a use exactly when, in the innermost scope that knows
    the name, its first declaration is its latest entry.
  - `agree_iff`: so for all uses of a text that comes in chapters.
-/

import Mathlib.Data.List.Infix

namespace Xvr.Lib

/-- Where something stands: the way down to it, the last step first. -/
abbrev Place := List Nat

/-- Who has a scope for the parts of a text. -/
inductive Enclosure where
  | plain
  | first
  | both
  deriving DecidableEq, Repr

/-- A scope of the first reader begins. -/
def Enclosure.enter {α : Type} (scope : α) (scopes : List α) : Enclosure → List α
  | .plain => scopes
  | _ => scope :: scopes

/-- `read` says whether the first reader reads the use or the declaration at all; `order` is
    the order in which the second one takes the parts, if it is fixed. -/
inductive Text (N : Type) where
  | use (name : N) (read : Bool)
  | declare (name : N) (read : Bool)
  | parts (enclosure : Enclosure) (order : Option (List Nat)) (parts : List (Text N))

/-- The second reader's way through the parts of a text: the part it visits, its way inside,
    and how it goes on. -/
inductive Course where
  | done
  | visit (index : Nat) (inside next : Course)
  deriving Repr

/-- The parts a course visits. -/
def Course.indices : Course → List Nat
  | .done => []
  | .visit i _ next => i :: next.indices

/-- The course that goes straight to a place and on from there. -/
def Course.through : Place → Course → Course
  | [], c => c
  | i :: p, c => through p (.visit i c .done)

/-- What the readers know of one scope of the first: its declarations, oldest first, and the
    entries made since it began, newest first. -/
structure Layer (N : Type) where
  declared : List (N × Place)
  entries : List (N × Place)

/-- A use that the second reader comes to. -/
structure Use (N : Type) where
  name : N
  place : Place
  read : Bool
  layers : List (Layer N)

variable {N : Type}

namespace Layer

def empty : Layer N := ⟨[], []⟩

/-- The scopes with more declarations in the innermost one. -/
def declaring (ds : List (N × Place)) : List (List (N × Place)) → List (List (N × Place))
  | [] => []
  | scope :: scopes => (scope ++ ds) :: scopes

def extended (ds : List (N × Place)) : List (Layer N) → List (Layer N)
  | [] => []
  | f :: fs => { f with declared := f.declared ++ ds } :: fs

def recording (es : List (N × Place)) : List (Layer N) → List (Layer N)
  | [] => []
  | f :: fs => { f with entries := es ++ f.entries } :: fs

def scopes (layers : List (Layer N)) : List (List (N × Place)) := layers.map (·.declared)

@[simp] theorem scopes_cons (f : Layer N) (fs : List (Layer N)) : scopes (f :: fs) = f.declared :: scopes fs := rfl

@[simp] theorem scopes_extended (ds : List (N × Place)) (layers : List (Layer N)) :
    scopes (extended ds layers) = declaring ds (scopes layers) := by
  cases layers <;> rfl

@[simp] theorem scopes_enter (e : Enclosure) (layers : List (Layer N)) :
    scopes (e.enter .empty layers) = e.enter [] (scopes layers) := by
  cases e <;> rfl

@[simp] theorem declaring_declaring (as bs : List (N × Place)) (scopes : List (List (N × Place))) :
    declaring bs (declaring as scopes) = declaring (as ++ bs) scopes := by
  cases scopes <;> simp [declaring]

@[simp] theorem declaring_nil (scopes : List (List (N × Place))) : declaring [] scopes = scopes := by
  cases scopes <;> simp [declaring]

@[simp] theorem scopes_recording (es : List (N × Place)) (layers : List (Layer N)) :
    scopes (recording es layers) = scopes layers := by
  cases layers <;> rfl

end Layer

open Layer

/-! ## The first reader -/

namespace Text

mutual

/-- What a text declares in the scope it stands in. -/
def declares : Text N → Place → List (N × Place)
  | .use _ _, _ => []
  | .declare x read, p => if read then [(x, p)] else []
  | .parts e _ ts, p => if e = .plain then declaresAll ts p 0 else []

def declaresAll : List (Text N) → Place → Nat → List (N × Place)
  | [], _, _ => []
  | t :: ts, p, i => declares t (i :: p) ++ declaresAll ts p (i + 1)

end

/-- The place a list of declarations gives for a name. -/
def found [DecidableEq N] (x : N) (ds : List (N × Place)) : Option Place := (ds.find? (·.1 = x)).map (·.2)

/-- The first declaration in the innermost scope that has one. -/
def resolve [DecidableEq N] (x : N) (scopes : List (List (N × Place))) : Option Place := scopes.findSome? (found x)

section

variable [DecidableEq N]

mutual

/-- Every use that means something, with the declaration it means. -/
def marks : Text N → Place → List (List (N × Place)) → List (Place × Place)
  | .use x read, p, scopes => if read then ((resolve x scopes).map (p, ·)).toList else []
  | .declare _ _, _, _ => []
  | .parts e _ ts, p, scopes => marksAll ts p 0 (e.enter [] scopes)

def marksAll : List (Text N) → Place → Nat → List (List (N × Place)) → List (Place × Place)
  | [], _, _, _ => []
  | t :: ts, p, i, scopes => marks t (i :: p) scopes ++ marksAll ts p (i + 1) (declaring (declares t (i :: p)) scopes)

end

end

mutual

/-- The text as only the second reader reads it. -/
def unread : Text N → Text N
  | .use x _ => .use x false
  | .declare x _ => .declare x false
  | .parts e order ts => .parts e order (unreadAll ts)

def unreadAll : List (Text N) → List (Text N)
  | [] => []
  | t :: ts => unread t :: unreadAll ts

end

/-- The text with a scope of the first reader's only. -/
def loose : Text N → Text N
  | .parts .both order ts => .parts .first order ts
  | t => t

@[simp] theorem declares_loose (t : Text N) (p : Place) : t.loose.declares p = t.declares p := by
  cases t with
  | parts e => cases e <;> simp [loose, declares]
  | _ => rfl

@[simp] theorem marks_loose [DecidableEq N] (t : Text N) (p : Place) (scopes : List (List (N × Place))) :
    t.loose.marks p scopes = t.marks p scopes := by
  cases t with
  | parts e => cases e <;> simp [loose, marks, Enclosure.enter]
  | _ => rfl

mutual

@[simp] theorem declares_unread : ∀ (t : Text N) (p : Place), t.unread.declares p = []
  | .use _ _, _ => by simp [unread, declares]
  | .declare _ _, _ => by simp [unread, declares]
  | .parts e _ ts, p => by simp [unread, declares, declaresAll_unread ts p 0]

@[simp] theorem declaresAll_unread : ∀ (ts : List (Text N)) (p : Place) (i : Nat), declaresAll (unreadAll ts) p i = []
  | [], _, _ => rfl
  | t :: ts, p, i => by
    simp [unreadAll, declaresAll, declares_unread t (i :: p), declaresAll_unread ts p (i + 1)]

end

mutual

@[simp] theorem marks_unread [DecidableEq N] : ∀ (t : Text N) (p : Place) (scopes : List (List (N × Place))),
    t.unread.marks p scopes = []
  | .use _ _, _, _ => by simp [unread, marks]
  | .declare _ _, _, _ => by simp [unread, marks]
  | .parts e _ ts, p, scopes => by
    rw [unread, marks]
    exact marksAll_unread ts p 0 _

@[simp] theorem marksAll_unread [DecidableEq N] : ∀ (ts : List (Text N)) (p : Place) (i : Nat) (scopes : List (List (N × Place))),
    marksAll (unreadAll ts) p i scopes = []
  | [], _, _, _ => by simp [unreadAll, marksAll]
  | t :: ts, p, i, scopes => by
    rw [unreadAll, marksAll, marks_unread t (i :: p) scopes]
    exact marksAll_unread ts p (i + 1) _

end

/-! ## The second reader -/

/-- The entries a text leaves, newest first, over what the parts inside it leave. -/
def leavesBy (inside : List (Text N) → Place → List (N × Place)) : Text N → Place → List (N × Place)
  | .use _ _, _ => []
  | .declare x _, p => [(x, p)]
  | .parts e _ ts, p => if e = .both then [] else inside ts p

def leavesIn : Course → List (Text N) → Place → List (N × Place)
  | .done, _, _ => []
  | .visit i inside next, ts, p =>
    leavesIn next ts p ++
      match ts[i]? with
      | some t => leavesBy (leavesIn inside) t (i :: p)
      | none => []

def leaves (t : Text N) (c : Course) (p : Place) : List (N × Place) := leavesBy (leavesIn c) t p

def usesBy (inside : List (Text N) → Place → List (Layer N) → List (Use N)) :
    Text N → Place → List (Layer N) → List (Use N)
  | .use x read, p, layers => [⟨x, p, read, layers⟩]
  | .declare _ _, _, _ => []
  | .parts e _ ts, p, layers => inside ts p (e.enter .empty layers)

/-- The uses on a course, each with its layers. -/
def usesIn : Course → List (Text N) → Place → List (Layer N) → List (Use N)
  | .done, _, _, _ => []
  | .visit i inside next, ts, p, layers =>
    match ts[i]? with
    | some t =>
      usesBy (usesIn inside) t (i :: p) (extended (declaresAll (ts.take i) p 0) layers) ++
        usesIn next ts p (recording (leaves t inside (i :: p)) layers)
    | none => usesIn next ts p layers

def uses (t : Text N) (c : Course) (p : Place) (layers : List (Layer N)) : List (Use N) := usesBy (usesIn c) t p layers

/-! ## Courses -/

def followsBy (inside : List (Text N) → Bool) (c : Course) : Text N → Bool
  | .parts _ none ts => inside ts
  | .parts _ (some order) ts => c.indices.isPrefixOf order && inside ts
  | _ => true

/-- The course takes the parts of every text inside in their order, up to where it stops. -/
def followsIn : Course → List (Text N) → Bool
  | .done, _ => true
  | .visit i inside next, ts =>
    (match ts[i]? with
      | some t => followsBy (followsIn inside) inside t
      | none => false) && followsIn next ts

def follows (t : Text N) (c : Course) : Bool := followsBy (followsIn c) c t

/-! ## Places -/

/-- Two parts of one text have nothing in common. -/
theorem place_unique {p q : Place} {i j : Nat} (hi : (i :: p) <:+ q) (hj : (j :: p) <:+ q) : i = j := by
  have hsuffix : (i :: p) <:+ (j :: p) := List.suffix_of_suffix_length_le hi hj (Nat.le_refl _)
  have heq := hsuffix.eq_of_length rfl
  simpa using heq

theorem under_part {p q : Place} {i : Nat} (h : (i :: p) <:+ q) : p <:+ q := (List.suffix_cons i p).trans h

mutual

theorem declares_under : ∀ (t : Text N) (p : Place) {d : N × Place}, d ∈ t.declares p → p <:+ d.2
  | .use _ _, _, _, h => by simp [declares] at h
  | .declare x read, p, d, h => by
    cases read
    · simp [declares] at h
    · simp only [declares, if_true, List.mem_singleton] at h
      rw [h]
  | .parts e _ ts, p, d, h => by
    rw [declares] at h
    split at h
    · obtain ⟨j, _, _, hj⟩ := declaresAll_under ts p 0 h
      exact under_part hj
    · cases h

theorem declaresAll_under : ∀ (ts : List (Text N)) (p : Place) (i : Nat) {d : N × Place}, d ∈ declaresAll ts p i →
    ∃ j, i ≤ j ∧ j < i + ts.length ∧ (j :: p) <:+ d.2
  | [], _, _, _, h => by simp [declaresAll] at h
  | t :: ts, p, i, d, h => by
    rw [declaresAll, List.mem_append] at h
    rcases h with h | h
    · exact ⟨i, Nat.le_refl i, by simp, declares_under t (i :: p) h⟩
    · obtain ⟨j, hij, hj, hd⟩ := declaresAll_under ts p (i + 1) h
      exact ⟨j, by omega, by simp only [List.length_cons]; omega, hd⟩

end

/-- What the second reader records of a text lies in the text, if that is so inside. -/
theorem leavesBy_under {inside : List (Text N) → Place → List (N × Place)} (t : Text N) (p : Place)
    (hinside : ∀ ts, ∀ d ∈ inside ts p, p <:+ d.2) {d : N × Place} (h : d ∈ leavesBy inside t p) : p <:+ d.2 := by
  cases t with
  | use => simp [leavesBy] at h
  | declare =>
    rw [leavesBy, List.mem_singleton] at h
    rw [h]
  | parts e order ts =>
    rw [leavesBy] at h
    split at h
    · cases h
    · exact hinside ts d h

theorem leavesIn_under (c : Course) (ts : List (Text N)) (p : Place) {d : N × Place} (h : d ∈ leavesIn c ts p) :
    p <:+ d.2 := by
  induction c generalizing ts p d with
  | done => simp [leavesIn] at h
  | visit i inside next ihInside ihNext =>
    rw [leavesIn, List.mem_append] at h
    rcases h with h | h
    · exact ihNext ts p h
    · cases ht : ts[i]? with
      | none => simp [ht] at h
      | some t =>
        simp only [ht] at h
        exact under_part (leavesBy_under t (i :: p) (fun ts d hd => ihInside ts (i :: p) hd) h)

theorem leaves_under (t : Text N) (c : Course) (p : Place) {d : N × Place} (h : d ∈ t.leaves c p) : p <:+ d.2 :=
  leavesBy_under t p (fun ts _ hd => leavesIn_under c ts p hd) h

theorem usesBy_under {inside : List (Text N) → Place → List (Layer N) → List (Use N)} (t : Text N) (p : Place)
    (layers : List (Layer N)) (hinside : ∀ ts layers, ∀ u ∈ inside ts p layers, p <:+ u.place) {u : Use N}
    (h : u ∈ usesBy inside t p layers) : p <:+ u.place := by
  cases t with
  | use =>
    rw [usesBy, List.mem_singleton] at h
    rw [h]
  | declare => simp [usesBy] at h
  | parts e order ts => exact hinside _ _ u h

theorem usesIn_under (c : Course) (ts : List (Text N)) (p : Place) (layers : List (Layer N)) {u : Use N}
    (h : u ∈ usesIn c ts p layers) : p <:+ u.place := by
  induction c generalizing ts p layers u with
  | done => simp [usesIn] at h
  | visit i inside next ihInside ihNext =>
    rw [usesIn] at h
    cases ht : ts[i]? with
    | none =>
      simp only [ht] at h
      exact ihNext ts p layers h
    | some t =>
      simp only [ht, List.mem_append] at h
      rcases h with h | h
      · exact under_part (usesBy_under t (i :: p) _ (fun ts layers u hu => ihInside ts (i :: p) layers hu) h)
      · exact ihNext ts p _ h

theorem uses_under (t : Text N) (c : Course) (p : Place) (layers : List (Layer N)) {u : Use N}
    (h : u ∈ t.uses c p layers) : p <:+ u.place :=
  usesBy_under t p layers (fun ts layers _ hu => usesIn_under c ts p layers hu) h

/-! ## What the first reader makes of a use -/

section

variable [DecidableEq N]

mutual

theorem marks_under : ∀ (t : Text N) (p : Place) (scopes : List (List (N × Place))) {m : Place × Place},
    m ∈ t.marks p scopes → p <:+ m.1
  | .use x read, p, scopes, m, h => by
    rw [marks] at h
    split at h
    · rw [Option.mem_toList, Option.map_eq_some_iff] at h
      obtain ⟨_, _, rfl⟩ := h
      exact List.suffix_refl p
    · cases h
  | .declare _ _, _, _, _, h => by simp [marks] at h
  | .parts e _ ts, p, scopes, m, h => by
    obtain ⟨j, _, hj⟩ := marksAll_under ts p 0 _ h
    exact under_part hj

theorem marksAll_under : ∀ (ts : List (Text N)) (p : Place) (i : Nat) (scopes : List (List (N × Place))) {m : Place × Place},
    m ∈ marksAll ts p i scopes → ∃ j, i ≤ j ∧ (j :: p) <:+ m.1
  | [], _, _, _, _, h => by simp [marksAll] at h
  | t :: ts, p, i, scopes, m, h => by
    rw [marksAll, List.mem_append] at h
    rcases h with h | h
    · exact ⟨i, Nat.le_refl i, marks_under t (i :: p) scopes h⟩
    · obtain ⟨j, hij, hj⟩ := marksAll_under ts p (i + 1) _ h
      exact ⟨j, by omega, hj⟩

end

/-- What is marked in one part is marked with what the parts before it declare. -/
theorem marksAll_part {ts : List (Text N)} {t : Text N} {j : Nat} (ht : ts[j]? = some t) (p : Place) (i : Nat)
    (scopes : List (List (N × Place))) {u s : Place} (hu : ((i + j) :: p) <:+ u) :
    (u, s) ∈ marksAll ts p i scopes ↔ (u, s) ∈ t.marks ((i + j) :: p) (declaring (declaresAll (ts.take j) p i) scopes) := by
  induction ts generalizing i j scopes with
  | nil => simp at ht
  | cons t' ts ih =>
    rw [marksAll, List.mem_append]
    cases j with
    | zero =>
      obtain rfl : t' = t := by simpa using ht
      have hrest : (u, s) ∉ marksAll ts p (i + 1) (declaring (t'.declares (i :: p)) scopes) := by
        intro h
        obtain ⟨k, hk, hsuffix⟩ := marksAll_under ts p (i + 1) _ h
        have := place_unique hu hsuffix
        omega
      simp [hrest, declaresAll]
    | succ j =>
      have hfirst : (u, s) ∉ t'.marks (i :: p) scopes := by
        intro h
        have := place_unique hu (marks_under t' (i :: p) scopes h)
        omega
      have hplace : i + (j + 1) = i + 1 + j := by omega
      rw [hplace] at hu ⊢
      rw [ih (by simpa using ht) (i + 1) _ hu]
      simp [hfirst, declaresAll]

/-- The first reader marks a use the second one comes to with the first declaration in the
    innermost scope around it that has one. -/
theorem usesIn_marks (c : Course) (ts : List (Text N)) (p : Place) (layers : List (Layer N)) {u : Use N}
    (h : u ∈ usesIn c ts p layers) (s : Place) :
    (u.place, s) ∈ marksAll ts p 0 (scopes layers) ↔ u.read = true ∧ resolve u.name (scopes u.layers) = some s := by
  induction c generalizing ts p layers u with
  | done => simp [usesIn] at h
  | visit i inside next ihInside ihNext =>
    rw [usesIn] at h
    cases ht : ts[i]? with
    | none =>
      simp only [ht] at h
      exact ihNext ts p layers h
    | some t =>
      simp only [ht, List.mem_append] at h
      rcases h with h | h
      · have hunder : ((0 + i) :: p) <:+ u.place := by
          rw [Nat.zero_add]
          exact uses_under t inside (i :: p) _ h
        rw [marksAll_part ht p 0 (scopes layers) hunder, Nat.zero_add, ← scopes_extended]
        cases t with
        | use x read =>
          rw [usesBy, List.mem_singleton] at h
          subst h
          cases read <;> simp [marks]
        | declare => simp [usesBy] at h
        | parts e order ts' =>
          rw [marks, ← scopes_enter]
          exact ihInside ts' (i :: p) _ h
      · have hnext := ihNext ts p _ h
        rwa [scopes_recording] at hnext

end

/-! ## Where the readers agree -/

/-- The latest entry. -/
def latest [DecidableEq N] (x : N) (layers : List (Layer N)) : Option Place := layers.findSome? fun f => found x f.entries

/-- In the innermost scope that knows the name, its first declaration is its latest entry.
    A declaration without an entry there is one only if the reader made the entry before, on
    an earlier way through the scope. -/
def Sole [DecidableEq N] (x : N) : List (Layer N) → Prop
  | [] => True
  | f :: fs =>
    match found x f.declared, found x f.entries with
    | none, none => Sole x fs
    | none, some _ => False
    | some s, none => latest x fs = some s
    | some s, some s' => s = s'

/-- No entry of an inner scope is a declaration of an outer one. -/
def Apart : List (Layer N) → Prop
  | [] => True
  | f :: fs => (∀ e ∈ f.entries, ∀ g ∈ fs, ∀ d ∈ g.declared, e.2 ≠ d.2) ∧ Apart fs

/-- Nothing declared lies in the text. -/
def Outside (p : Place) (layers : List (Layer N)) : Prop := ∀ f ∈ layers, ∀ d ∈ f.declared, ¬ p <:+ d.2

theorem apart_extended {ds : List (N × Place)} {layers : List (Layer N)} (h : Apart layers) :
    Apart (extended ds layers) := by
  cases layers with
  | nil => exact h
  | cons => exact h

theorem apart_recording {es : List (N × Place)} {layers : List (Layer N)} {p : Place} (h : Apart layers)
    (hout : Outside p layers) (hes : ∀ e ∈ es, p <:+ e.2) : Apart (recording es layers) := by
  cases layers with
  | nil => exact h
  | cons f fs =>
    refine ⟨?_, h.2⟩
    intro e he g hg d hd
    rcases List.mem_append.mp he with he | he
    · intro heq
      exact hout g (List.mem_cons_of_mem f hg) d hd (heq ▸ hes e he)
    · exact h.1 e he g hg d hd

theorem apart_enter {layers : List (Layer N)} (e : Enclosure) (h : Apart layers) : Apart (e.enter .empty layers) := by
  cases e with
  | plain => exact h
  | first | both => exact ⟨by simp [Layer.empty], h⟩

theorem outside_enter {p : Place} {layers : List (Layer N)} (e : Enclosure) (h : Outside p layers) :
    Outside p (e.enter .empty layers) := by
  cases e with
  | plain => exact h
  | first | both =>
    intro f hf d hd
    rcases List.mem_cons.mp hf with rfl | hf
    · cases hd
    · exact h f hf d hd

theorem outside_recording {p : Place} {es : List (N × Place)} {layers : List (Layer N)} (h : Outside p layers) :
    Outside p (recording es layers) := by
  cases layers with
  | nil => exact h
  | cons f fs =>
    intro g hg d hd
    rcases List.mem_cons.mp hg with rfl | hg
    · exact h f (List.mem_cons_self ..) d hd
    · exact h g (List.mem_cons_of_mem f hg) d hd

/-- What the parts before it declare lies outside a part. -/
theorem outside_part {p : Place} {ts : List (Text N)} {i : Nat} {layers : List (Layer N)} (h : Outside p layers) :
    Outside (i :: p) (extended (declaresAll (ts.take i) p 0) layers) := by
  have hpart : ∀ f ∈ layers, ∀ d ∈ f.declared, ¬ (i :: p) <:+ d.2 := fun f hf d hd hs => h f hf d hd (under_part hs)
  cases layers with
  | nil => exact fun f hf => absurd hf (List.not_mem_nil)
  | cons f fs =>
    intro g hg d hd
    rcases List.mem_cons.mp hg with rfl | hg
    · rcases List.mem_append.mp hd with hd | hd
      · exact hpart f (List.mem_cons_self ..) d hd
      · obtain ⟨j, _, hj, hsuffix⟩ := declaresAll_under (ts.take i) p 0 hd
        intro hs
        have := place_unique hs hsuffix
        rw [List.length_take] at hj
        omega
    · exact hpart g (List.mem_cons_of_mem f hg) d hd

theorem usesIn_apart (c : Course) (ts : List (Text N)) (p : Place) (layers : List (Layer N)) (hapart : Apart layers)
    (hout : Outside p layers) {u : Use N} (h : u ∈ usesIn c ts p layers) : Apart u.layers := by
  induction c generalizing ts p layers u with
  | done => simp [usesIn] at h
  | visit i inside next ihInside ihNext =>
    rw [usesIn] at h
    cases ht : ts[i]? with
    | none =>
      simp only [ht] at h
      exact ihNext ts p layers hapart hout h
    | some t =>
      simp only [ht, List.mem_append] at h
      rcases h with h | h
      · cases t with
        | use =>
          rw [usesBy, List.mem_singleton] at h
          subst h
          exact apart_extended hapart
        | declare => simp [usesBy] at h
        | parts e order ts' =>
          exact ihInside ts' (i :: p) _ (apart_enter e (apart_extended hapart)) (outside_enter e (outside_part hout)) h
      · refine ihNext ts p _ (apart_recording hapart hout ?_) (outside_recording hout) h
        intro e he
        exact under_part (leaves_under t inside (i :: p) he)

/-- All entries together, the latest first. -/
def recorded (layers : List (Layer N)) : List (N × Place) := layers.flatMap (·.entries)

@[simp] theorem recorded_extended (ds : List (N × Place)) (layers : List (Layer N)) :
    recorded (extended ds layers) = recorded layers := by
  cases layers <;> rfl

@[simp] theorem recorded_enter (e : Enclosure) (layers : List (Layer N)) :
    recorded (e.enter .empty layers) = recorded layers := by
  cases e <;> rfl

@[simp] theorem recorded_recording (es : List (N × Place)) (f : Layer N) (fs : List (Layer N)) :
    recorded (recording es (f :: fs)) = es ++ recorded (f :: fs) := by
  simp [recorded, recording]

@[simp] theorem usesIn_nil (c : Course) (p : Place) (layers : List (Layer N)) : usesIn c [] p layers = [] := by
  induction c with
  | done => rfl
  | visit i inside next _ ihNext => simpa [usesIn] using ihNext

section

variable [DecidableEq N]

theorem resolve_cons (x : N) (scope : List (N × Place)) (scopes : List (List (N × Place))) :
    resolve x (scope :: scopes) = (found x scope).or (resolve x scopes) := by
  unfold resolve
  rw [List.findSome?_cons]
  cases found x scope <;> rfl

theorem latest_cons (x : N) (f : Layer N) (fs : List (Layer N)) :
    latest x (f :: fs) = (found x f.entries).or (latest x fs) := by
  unfold latest
  rw [List.findSome?_cons]
  cases found x f.entries <;> rfl

@[simp] theorem found_append (x : N) (ds es : List (N × Place)) : found x (ds ++ es) = (found x ds).or (found x es) := by
  unfold found
  rw [List.find?_append]
  cases ds.find? (·.1 = x) <;> rfl

theorem found_recorded (x : N) (layers : List (Layer N)) : found x (recorded layers) = latest x layers := by
  induction layers with
  | nil => rfl
  | cons f fs ih => rw [latest_cons, ← ih, recorded, List.flatMap_cons, found_append, recorded]

theorem found_mem {x : N} {ds : List (N × Place)} {s : Place} (h : found x ds = some s) : ∃ d ∈ ds, d.2 = s := by
  obtain ⟨d, hd, rfl⟩ := Option.map_eq_some_iff.mp h
  exact ⟨d, List.mem_of_find?_eq_some hd, rfl⟩

theorem resolve_mem {x : N} {layers : List (Layer N)} {s : Place} (h : resolve x (scopes layers) = some s) :
    ∃ f ∈ layers, ∃ d ∈ f.declared, d.2 = s := by
  obtain ⟨scope, hscope, hs⟩ := List.exists_of_findSome?_eq_some h
  obtain ⟨f, hf, rfl⟩ := List.mem_map.mp hscope
  obtain ⟨d, hd, heq⟩ := found_mem hs
  exact ⟨f, hf, d, hd, heq⟩

/-- The readers agree on a name exactly when it is declared once for both. -/
theorem sole_iff {x : N} {layers : List (Layer N)} (h : Apart layers) :
    Sole x layers ↔ resolve x (scopes layers) = latest x layers := by
  induction layers with
  | nil => exact iff_of_true trivial rfl
  | cons f fs ih =>
    rw [Sole, scopes_cons, resolve_cons, latest_cons]
    cases hd : found x f.declared with
    | none =>
      cases he : found x f.entries with
      | none => exact ih h.2
      | some s' =>
        refine iff_of_false id ?_
        intro heq
        -- the entry is not what an outer scope declares
        obtain ⟨g, hg, d, hd, hs⟩ := resolve_mem heq
        obtain ⟨e, he, hs'⟩ := found_mem he
        exact h.1 e he g hg d hd (hs'.trans hs.symm)
    | some s =>
      cases found x f.entries with
      | none => exact eq_comm
      | some s' => exact (Option.some_inj).symm

end

end Text

/-! ## Chapters -/

open Text

/-- One stage of the second reader's way through the chapters; a fresh one begins with nothing
    recorded. -/
structure Stage where
  fresh : Bool
  course : Course

/-- What is recorded where a stage begins. -/
def Stage.start (st : Stage) (entries : List (N × Place)) : List (N × Place) := if st.fresh then [] else entries

/-- The uses of all stages, each with its layers. -/
def bookUses (chapters : List (Text N)) : List Stage → List (N × Place) → List (Use N)
  | [], _ => []
  | st :: stages, entries =>
    usesIn st.course chapters [] [⟨[], st.start entries⟩] ++
      bookUses chapters stages (leavesIn st.course chapters [] ++ st.start entries)

/-- Every use that means something to the first reader, with the declaration it means. -/
def bookMarks [DecidableEq N] (chapters : List (Text N)) : List (Place × Place) := marksAll chapters [] 0 [[]]

theorem mem_bookUses {chapters : List (Text N)} {stages : List Stage} {entries : List (N × Place)} {u : Use N}
    (h : u ∈ bookUses chapters stages entries) : ∃ c entries, u ∈ usesIn c chapters [] [⟨[], entries⟩] := by
  induction stages generalizing entries with
  | nil => simp [bookUses] at h
  | cons st stages ih =>
    rw [bookUses, List.mem_append] at h
    rcases h with h | h
    · exact ⟨_, _, h⟩
    · exact ih h

variable [DecidableEq N]

/-- The readers take the name for the same. -/
def Use.Clear (u : Use N) : Prop := if u.read then Sole u.name u.layers else latest u.name u.layers = none

/-- On a use the second reader comes to the readers agree exactly when it is clear. -/
theorem clear_iff {chapters : List (Text N)} {stages : List Stage} {u : Use N} (h : u ∈ bookUses chapters stages []) :
    (∀ s, latest u.name u.layers = some s ↔ (u.place, s) ∈ bookMarks chapters) ↔ u.Clear := by
  obtain ⟨c, entries, hu⟩ := mem_bookUses h
  have hmarks : ∀ s, (u.place, s) ∈ bookMarks chapters ↔ u.read = true ∧ resolve u.name (scopes u.layers) = some s :=
    fun s => usesIn_marks c chapters [] _ hu s
  have hapart : Apart u.layers := by
    apply usesIn_apart c chapters [] _ ?_ ?_ hu
    · exact ⟨by simp, trivial⟩
    · intro f hf d hd
      rw [List.mem_singleton.mp hf] at hd
      cases hd
  simp only [hmarks, Use.Clear]
  cases u.read with
  | false => simp [Option.eq_none_iff_forall_ne_some]
  | true =>
    simp only [true_and, if_true, sole_iff hapart]
    exact Iff.trans (Option.ext_iff).symm eq_comm

end Xvr.Lib
