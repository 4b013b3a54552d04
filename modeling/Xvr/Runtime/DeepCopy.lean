/-
  Xvr.Runtime.DeepCopy — what `Xvr_copyLiteral` copies faithfully.

  Copying a dictionary sets its live entries, in slot order, into a fresh one. A set
  writes over an entry whose stored key the new key equals, and equality of dictionaries
  only looks for the left one's keys in the right one, whichever it finds first; so a key
  that equals no other key of its dictionary may equal what another one is stored as.

  `Duplicate` is the structure that has to survive: scalars and texts bit for bit, arrays
  and subtypes element by element, dictionaries as entries in any slots, with the count.

  Proved (`deep_copy`): where no live key of a dictionary inside equals what an earlier one
  is stored as, the copy is a duplicate; where keys are hash-consistent, only there. The
  converse counts entries: a set that writes over one loses it, and a duplicate has as
  many at every depth.
-/

import Xvr.Runtime.LiteralSame
import Mathlib.Algebra.BigOperators.Group.List.Basic
import Mathlib.Algebra.Order.BigOperators.Group.List
import Mathlib.Algebra.Order.Group.Nat

namespace Xvr.Runtime

open scoped List

/-! ## A test at every literal inside -/

mutual

/-- The test holds of the literal and of everything inside it. -/
def Literal.everywhere (test : Literal → Bool) : Literal → Bool
  | .array es => test (.array es) && everywhereList test es
  | .arrayIntermediate es => test (.arrayIntermediate es) && everywhereList test es
  | .dictionaryIntermediate es => test (.dictionaryIntermediate es) && everywhereList test es
  | .typeIntermediate es => test (.typeIntermediate es) && everywhereList test es
  | .type t c subtypes => test (.type t c subtypes) && everywhereList test subtypes
  | .dictionary d => test (.dictionary d) && everywhereDictionary test d
  | l => test l

def everywhereList (test : Literal → Bool) : List Literal → Bool
  | [] => true
  | l :: ls => l.everywhere test && everywhereList test ls

def everywhereDictionary (test : Literal → Bool) : LiteralDictionary Literal → Bool
  | ⟨entries, _, _⟩ => everywhereEntries test entries

def everywhereEntries (test : Literal → Bool) : List (Entry Literal) → Bool
  | [] => true
  | e :: es => everywhereEntry test e && everywhereEntries test es

/-- Nothing is inside a slot without a key. -/
def everywhereEntry (test : Literal → Bool) : Entry Literal → Bool
  | ⟨key, value⟩ => key.isNull || key.everywhere test && value.everywhere test

end

section Everywhere

variable {test : Literal → Bool}

theorem everywhereList_mem : ∀ {es : List Literal} {x : Literal}, everywhereList test es = true → x ∈ es →
    x.everywhere test = true
  | [], _, _, hx => by cases hx
  | e :: es, x, h, hx => by
    rw [everywhereList, Bool.and_eq_true] at h
    rcases List.mem_cons.mp hx with rfl | hx
    · exact h.1
    · exact everywhereList_mem h.2 hx

theorem everywhereList_of : ∀ {es : List Literal}, (∀ x ∈ es, x.everywhere test = true) → everywhereList test es = true
  | [], _ => rfl
  | e :: es, h => by
    rw [everywhereList, Bool.and_eq_true]
    exact ⟨h e (List.mem_cons_self ..), everywhereList_of fun x hx => h x (List.mem_cons_of_mem _ hx)⟩

theorem everywhereEntries_iff : ∀ {es : List (Entry Literal)}, everywhereEntries test es = true ↔
    ∀ e ∈ liveEntries es, e.key.everywhere test = true ∧ e.value.everywhere test = true
  | [] => by simp [everywhereEntries, liveEntries]
  | ⟨key, value⟩ :: es => by
    have ih := @everywhereEntries_iff es
    rw [everywhereEntries, everywhereEntry, Bool.and_eq_true, ih]
    cases hn : key.isNull with
    | true => simp [Entry.live, hn, liveEntries]
    | false => simp [Entry.live, hn, liveEntries]

theorem everywhereDictionary_iff (d : Dictionary) : everywhereDictionary test d = true ↔
    ∀ e ∈ liveEntries d.entries, e.key.everywhere test = true ∧ e.value.everywhere test = true := by
  obtain ⟨entries, count, contains⟩ := d
  exact everywhereEntries_iff

theorem everywhere_self {a : Literal} (h : a.everywhere test = true) : test a = true := by
  cases a <;> simp_all [Literal.everywhere]

theorem everywhere_part {a x : Literal} (h : a.everywhere test = true) (hx : x ∈ a.parts) : x.everywhere test = true := by
  cases a <;> simp only [Literal.parts, List.not_mem_nil] at hx <;>
    exact everywhereList_mem (Bool.and_eq_true_iff.mp h).2 hx

theorem everywhere_entry {d : Dictionary} (h : (Literal.dictionary d).everywhere test = true) {e : Entry Literal}
    (he : e ∈ liveEntries d.entries) : e.key.everywhere test = true ∧ e.value.everywhere test = true :=
  (everywhereDictionary_iff d).mp (Bool.and_eq_true_iff.mp h).2 e he

theorem everywhere_dictionary {d : Dictionary} (h : test (.dictionary d) = true)
    (hin : ∀ e ∈ liveEntries d.entries, e.key.everywhere test = true ∧ e.value.everywhere test = true) :
    (Literal.dictionary d).everywhere test = true :=
  Bool.and_eq_true_iff.mpr ⟨h, (everywhereDictionary_iff d).mpr hin⟩

theorem everywhere_plain {a : Literal} (hk : a.kind ≠ .dictionary) (h : test a = true)
    (hparts : ∀ x ∈ a.parts, x.everywhere test = true) : a.everywhere test = true := by
  cases a with
  | array es | arrayIntermediate es | dictionaryIntermediate es | typeIntermediate es | type _ _ es =>
    exact Bool.and_eq_true_iff.mpr ⟨h, everywhereList_of hparts⟩
  | dictionary d => exact absurd rfl hk
  | _ => exact h

end Everywhere

/-! ## The literals copied -/

/-- The kinds an original is built from, with the count of a dictionary the number of its
    live entries; which slots they are in, and what is in the others, is left open. -/
def copiedKind : Literal → Bool
  | .type _ _ subtypes => subtypes.length ≤ 128
  | .dictionary d => d.count == (liveEntries d.entries).length
  | .opaquePtr _ _ | .function _ | .functionIntermediate _ | .functionNative _ | .functionHook _ | .indexBlank
  | .arrayIntermediate _ | .dictionaryIntermediate _ | .typeIntermediate _ => false
  | _ => true

/-- No live key equals another one. -/
def keysUnequal : Literal → Bool
  | .dictionary d => decide ((liveEntries d.entries).Pairwise fun e e' =>
      literalsAreEqual e.key e'.key = false ∧ literalsAreEqual e'.key e.key = false)
  | _ => true

/-- A live key that equals what another one is stored as hashes as that one does. -/
def keysConsistent : Literal → Bool
  | .dictionary d => (liveEntries d.entries).all fun e => (liveEntries d.entries).all fun e' =>
      !literalsAreEqual e.key (copyLiteral e'.key) || hashLiteral e.key == hashLiteral e'.key
  | _ => true

/-- No live key equals what one in an earlier slot is stored as. -/
def keysApart : Literal → Bool
  | .dictionary d => decide ((liveEntries d.entries).Pairwise fun e e' =>
      literalsAreEqual e'.key (copyLiteral e.key) = false)
  | _ => true

inductive Duplicate : Literal → Literal → Prop
  | plain {a b : Literal} : a.kind ≠ .dictionary → a.shell = b.shell → a.parts.length = b.parts.length →
      (∀ (i : Nat) (x y : Literal), a.parts[i]? = some x → b.parts[i]? = some y → Duplicate x y) → Duplicate a b
  /-- `entries` are those of the second, in the order of the first's. -/
  | dictionary {d d' : Dictionary} (entries : List (Entry Literal)) : d.count = d'.count →
      liveEntries d'.entries ~ entries → (liveEntries d.entries).length = entries.length →
      (∀ (i : Nat) (e e' : Entry Literal), (liveEntries d.entries)[i]? = some e → entries[i]? = some e' →
        Duplicate e.key e'.key) →
      (∀ (i : Nat) (e e' : Entry Literal), (liveEntries d.entries)[i]? = some e → entries[i]? = some e' →
        Duplicate e.value e'.value) → Duplicate (.dictionary d) (.dictionary d')

theorem copiedKind_accepted {key : Literal} (h : copiedKind key = true) (hn : key.isNull = false) :
    rejectedKey key = false := by
  cases key <;> simp_all [copiedKind, rejectedKey, Literal.isNull, Literal.isFunction, Literal.isFunctionNative,
    Literal.isFunctionHook, Literal.isOpaque, Literal.kind]

/-- The parts of these kinds are copied once. -/
theorem copiedKind_parts {a : Literal} (h : copiedKind a = true) :
    (copyLiteral a).shell = a.shell ∧ (copyLiteral a).parts = a.parts.map copyLiteral := by
  rw [copyLiteral_eq]
  refine ⟨shell_copy realFns a, ?_⟩
  cases a <;> first | rfl | simp [copiedKind] at h

/-! ## One set, whatever the keys -/

/-- What is stored for an entry. -/
def storedEntry (e : Entry Literal) : Entry Literal := setEntryValues realFns e.key e.value

/-- A set adds an entry, or writes over one whose key the new key equals. -/
theorem set_turn {d : Dictionary} (h : Room d.entries d.contains) {e : Entry Literal} (hk : rejectedKey e.key = false) :
    ∃ d', setLiteralDictionary realFns d e.key e.value = some d' ∧ Room d'.entries d'.contains ∧
      (Reachable realFns d.entries → hashLiteral (copyLiteral e.key) = hashLiteral e.key →
        Reachable realFns d'.entries) ∧
      ((liveEntries d'.entries ~ storedEntry e :: liveEntries d.entries ∧ d'.count = d.count + 1 ∧
          (Reachable realFns d.entries → (∀ x ∈ liveEntries d.entries, literalsAreEqual e.key x.key = true →
            hashLiteral e.key = hashLiteral x.key) →
            ∀ x ∈ liveEntries d.entries, literalsAreEqual e.key x.key = false)) ∨
        ∃ x rest, liveEntries d.entries ~ x :: rest ∧ literalsAreEqual e.key x.key = true ∧
          liveEntries d'.entries ~ storedEntry e :: rest ∧ d'.count = d.count) := by
  obtain ⟨array, i, _, hroom, hload, hp, hr, hi, hset⟩ := set_room lawful_realFns h e.value hk
  obtain ⟨hstop, hchain⟩ := getEntryArray_some hi
  have hlt := hchain.lt
  have hlive : (storedEntry e).live = true := setEntryValues_live lawful_realFns hk e.value
  have hone : liveEntries [storedEntry e] = [storedEntry e] := by simp [liveEntries, hlive]
  obtain ⟨rest, hold, hnew⟩ := liveEntries_set hlt
  have hnew := hnew (storedEntry e)
  rw [hone, List.singleton_append] at hnew
  refine ⟨_, hset, room_set hroom hload hlt hlive, ?_, ?_⟩
  · intro hreach hhash
    refine reachable_set (hr hreach) hlt (live_unused hlive) fun _ => ?_
    rw [show (setEntryValues realFns e.key e.value).key = copyLiteral e.key from rfl,
      show realFns.hash (copyLiteral e.key) = realFns.hash e.key from hhash]
    exact chain_used hchain
  · rcases stopsAt_false.mp hstop with hu | ⟨hl, heq⟩
    · have hnull : (entryAt array i).key.isNull = true := (Bool.and_eq_true_iff.mp hu).1
      have hdead : liveEntries [entryAt array i] = [] := by simp [liveEntries, Entry.live, hnull]
      rw [hdead, List.nil_append] at hold
      refine .inl ⟨hnew.trans ((hold.symm.trans hp).cons _), by simp [hnull], ?_⟩
      intro hreach hhash x hx
      exact search_passed (hr hreach) (fun x hx => hhash x (hp.subset hx)) hi hu x (hp.symm.subset hx)
    · have hnull : (entryAt array i).key.isNull = false := by simpa [Entry.live] using hl
      have hsame : liveEntries [entryAt array i] = [entryAt array i] := by simp [liveEntries, hl]
      rw [hsame, List.singleton_append] at hold
      exact .inr ⟨entryAt array i, rest, hp.symm.trans hold, heq, hnew, by simp [hnull]⟩

/-! ## The loop of the copy -/

/-- The entries set in turn. -/
def setEntries (copy : Dictionary) (entries : List (Entry Literal)) : Dictionary :=
  entries.foldl (fun copy e => (setLiteralDictionary realFns copy e.key e.value).getD copy) copy

theorem copyDictionary_loop (d : Dictionary) :
    copyDictionary realFns d = setEntries initLiteralDictionary (liveEntries d.entries) := rfl

/-- The dictionary holds what is stored for these entries, and counts them. -/
structure Kept (copy : Dictionary) (kept : List (Entry Literal)) : Prop where
  room : Room copy.entries copy.contains
  live : liveEntries copy.entries ~ kept.map storedEntry
  count : copy.count = kept.length

theorem kept_init : Kept initLiteralDictionary [] where
  room := (init_inv (F := realFns)).toRoom
  live := by rw [initLiteralDictionary, liveEntries_replicate]; rfl
  count := rfl

/-- One turn keeps the entry, and loses at most one kept before. -/
theorem Kept.turn {copy : Dictionary} {kept : List (Entry Literal)} (h : Kept copy kept) {e : Entry Literal}
    (hk : rejectedKey e.key = false) :
    ∃ copy', (setLiteralDictionary realFns copy e.key e.value).getD copy = copy' ∧
      (Reachable realFns copy.entries → hashLiteral (copyLiteral e.key) = hashLiteral e.key →
        Reachable realFns copy'.entries) ∧
      ((Kept copy' (e :: kept) ∧ (Reachable realFns copy.entries →
          (∀ x ∈ kept, literalsAreEqual e.key (copyLiteral x.key) = true →
            hashLiteral e.key = hashLiteral (copyLiteral x.key)) →
          ∀ x ∈ kept, literalsAreEqual e.key (copyLiteral x.key) = false)) ∨
        ∃ x rest, kept ~ x :: rest ∧ literalsAreEqual e.key (copyLiteral x.key) = true ∧ Kept copy' (e :: rest)) := by
  obtain ⟨copy', hset, hroom, hreach, hcase⟩ := set_turn h.room hk
  refine ⟨copy', by rw [hset]; rfl, hreach, ?_⟩
  rcases hcase with ⟨hlive, hcount, habsent⟩ | ⟨y, ys, hold, heq, hlive, hcount⟩
  · refine .inl ⟨⟨hroom, hlive.trans (h.live.cons _), ?_⟩, ?_⟩
    · rw [hcount, h.count, List.length_cons]
      omega
    · intro hr hhash x hx
      refine habsent hr ?_ (storedEntry x) (h.live.symm.subset (List.mem_map_of_mem hx))
      intro y hy hyk
      obtain ⟨z, hz, rfl⟩ := List.mem_map.mp (h.live.subset hy)
      exact hhash z hz hyk
  · -- the entry written over is what is stored for one that was kept
    have hperm : kept.map storedEntry ~ y :: ys := h.live.symm.trans hold
    obtain ⟨x, hx, rfl⟩ := List.mem_map.mp (hperm.symm.subset (List.mem_cons_self ..))
    obtain ⟨before, behind, rfl⟩ := List.append_of_mem hx
    have hmiddle : before ++ x :: behind ~ x :: (before ++ behind) := List.perm_middle
    have hrest : (before ++ behind).map storedEntry ~ ys := ((hmiddle.map storedEntry).symm.trans hperm).cons_inv
    refine .inr ⟨x, before ++ behind, hmiddle, heq, hroom, hlive.trans (hrest.symm.cons _), ?_⟩
    rw [hcount, h.count, hmiddle.length_eq, List.length_cons, List.length_cons]

/-- Whatever the keys, the copy holds nothing but what is stored for the entries. -/
theorem Kept.loop : ∀ {entries : List (Entry Literal)} {copy : Dictionary} {kept : List (Entry Literal)},
    Kept copy kept → (∀ e ∈ entries, rejectedKey e.key = false) →
      ∃ kept', Kept (setEntries copy entries) kept' ∧ kept' <+~ kept ++ entries
  | [], copy, kept, h, _ => ⟨kept, h, by rw [List.append_nil]⟩
  | e :: entries, copy, kept, h, hk => by
    obtain ⟨copy', hset, _, hcase⟩ := h.turn (hk e (List.mem_cons_self ..))
    have hrest : ∀ x ∈ entries, rejectedKey x.key = false := fun x hx => hk x (List.mem_cons_of_mem _ hx)
    have hmiddle : kept ++ e :: entries ~ e :: (kept ++ entries) := List.perm_middle
    rw [setEntries, List.foldl_cons, hset]
    rcases hcase with ⟨hkept, _⟩ | ⟨x, rest, hold, _, hkept⟩
    · obtain ⟨kept', hkept', hsub⟩ := hkept.loop hrest
      exact ⟨kept', hkept', hsub.trans hmiddle.symm.subperm⟩
    · obtain ⟨kept', hkept', hsub⟩ := hkept.loop hrest
      refine ⟨kept', hkept', hsub.trans (List.Subperm.trans ?_ hmiddle.symm.subperm)⟩
      have hless : rest <+~ kept := (List.sublist_cons_self x rest).subperm.trans hold.symm.subperm
      exact (List.subperm_cons e).mpr ((List.subperm_append_right entries).mpr hless)

/-- Where no key equals what an earlier one is stored as, every entry is kept. -/
theorem Kept.loop_apart : ∀ {entries : List (Entry Literal)} {copy : Dictionary} {kept : List (Entry Literal)},
    Kept copy kept → (∀ e ∈ entries, rejectedKey e.key = false) →
      (∀ x ∈ kept, ∀ e ∈ entries, literalsAreEqual e.key (copyLiteral x.key) = false) →
      (entries.Pairwise fun e e' => literalsAreEqual e'.key (copyLiteral e.key) = false) →
      ∃ kept', Kept (setEntries copy entries) kept' ∧ kept' ~ kept ++ entries
  | [], copy, kept, h, _, _, _ => ⟨kept, h, by simp⟩
  | e :: entries, copy, kept, h, hk, hapart, hpair => by
    obtain ⟨copy', hset, _, hcase⟩ := h.turn (hk e (List.mem_cons_self ..))
    obtain ⟨hhead, hpair⟩ := List.pairwise_cons.mp hpair
    rw [setEntries, List.foldl_cons, hset]
    rcases hcase with ⟨hkept, _⟩ | ⟨x, rest, hold, heq, _⟩
    · have hapart' : ∀ x ∈ e :: kept, ∀ e' ∈ entries, literalsAreEqual e'.key (copyLiteral x.key) = false := by
        intro x hx e' he'
        rcases List.mem_cons.mp hx with rfl | hx
        · exact hhead e' he'
        · exact hapart x hx e' (List.mem_cons_of_mem _ he')
      obtain ⟨kept', hkept', hsub⟩ := hkept.loop_apart (fun x hx => hk x (List.mem_cons_of_mem _ hx)) hapart' hpair
      exact ⟨kept', hkept', hsub.trans List.perm_middle.symm⟩
    · have hx : x ∈ kept := hold.symm.subset (List.mem_cons_self ..)
      rw [hapart x hx e (List.mem_cons_self ..)] at heq
      cases heq

/-- Where every entry is kept, no key equals what an earlier one is stored as. -/
theorem Kept.loop_full : ∀ {entries : List (Entry Literal)} {copy : Dictionary} {kept : List (Entry Literal)},
    Kept copy kept → Reachable realFns copy.entries → (∀ e ∈ entries, rejectedKey e.key = false) →
      (∀ e ∈ entries, hashLiteral (copyLiteral e.key) = hashLiteral e.key) →
      (∀ x ∈ kept ++ entries, ∀ e ∈ entries, literalsAreEqual e.key (copyLiteral x.key) = true →
        hashLiteral e.key = hashLiteral (copyLiteral x.key)) →
      (setEntries copy entries).count = (kept ++ entries).length →
      (∀ x ∈ kept, ∀ e ∈ entries, literalsAreEqual e.key (copyLiteral x.key) = false) ∧
        entries.Pairwise fun e e' => literalsAreEqual e'.key (copyLiteral e.key) = false
  | [], _, _, _, _, _, _, _, _ => ⟨fun _ _ _ he => (List.not_mem_nil he).elim, List.Pairwise.nil⟩
  | e :: entries, copy, kept, h, hr, hk, hcopy, hhash, hfull => by
    obtain ⟨copy', hset, hreach, hcase⟩ := h.turn (hk e (List.mem_cons_self ..))
    have hrest : ∀ x ∈ entries, rejectedKey x.key = false := fun x hx => hk x (List.mem_cons_of_mem _ hx)
    rw [setEntries, List.foldl_cons, hset] at hfull
    rcases hcase with ⟨hkept, habsent⟩ | ⟨x, rest, hold, _, hkept⟩
    · have hmem : ∀ x ∈ (e :: kept) ++ entries, x ∈ kept ++ e :: entries := fun x hx => List.perm_middle.symm.subset hx
      obtain ⟨hapart, hpair⟩ := hkept.loop_full (hreach hr (hcopy e (List.mem_cons_self ..))) hrest
        (fun x hx => hcopy x (List.mem_cons_of_mem _ hx))
        (fun x hx e' he' => hhash x (hmem x hx) e' (List.mem_cons_of_mem _ he'))
        (hfull.trans (by simp; omega))
      refine ⟨?_, List.pairwise_cons.mpr ⟨hapart e (List.mem_cons_self ..), hpair⟩⟩
      intro x hx e' he'
      rcases List.mem_cons.mp he' with rfl | he'
      · exact habsent hr (fun x hx => hhash x (List.mem_append_left _ hx) _ (List.mem_cons_self ..)) x hx
      · exact hapart x (List.mem_cons_of_mem _ hx) e' he'
    · -- one entry was written over, and no later turn brings it back
      obtain ⟨kept', hkept', hsub⟩ := hkept.loop hrest
      have hle := hsub.length_le
      have hlen := hold.length_eq
      rw [show entries.foldl _ copy' = setEntries copy' entries from rfl, hkept'.count] at hfull
      simp only [List.length_append, List.length_cons] at hle hlen hfull
      omega

/-! ## Entries at every depth -/

mutual

/-- How many live entries the dictionaries inside hold. -/
def Literal.entryCount : Literal → Nat
  | .array es | .arrayIntermediate es | .dictionaryIntermediate es | .typeIntermediate es => entryCountList es
  | .type _ _ subtypes => entryCountList subtypes
  | .dictionary d => entryCountDictionary d
  | _ => 0

def entryCountList : List Literal → Nat
  | [] => 0
  | l :: ls => l.entryCount + entryCountList ls

def entryCountDictionary : LiteralDictionary Literal → Nat
  | ⟨entries, _, _⟩ => entryCountEntries entries

def entryCountEntries : List (Entry Literal) → Nat
  | [] => 0
  | e :: es => entryCountEntry e + entryCountEntries es

def entryCountEntry : Entry Literal → Nat
  | ⟨key, value⟩ => if key.isNull then 0 else key.entryCount + value.entryCount + 1

end

/-- The entries inside an entry. -/
def inner (e : Entry Literal) : Nat := e.key.entryCount + e.value.entryCount

theorem entryCountList_sum (es : List Literal) : entryCountList es = (es.map Literal.entryCount).sum := by
  induction es with
  | nil => rfl
  | cons e es ih => rw [entryCountList, ih, List.map_cons, List.sum_cons]

theorem entryCount_plain {a : Literal} (hk : a.kind ≠ .dictionary) :
    a.entryCount = (a.parts.map Literal.entryCount).sum := by
  cases a with
  | dictionary d => exact absurd rfl hk
  | array es | arrayIntermediate es | dictionaryIntermediate es | typeIntermediate es | type _ _ es =>
    exact entryCountList_sum es
  | _ => rfl

theorem entryCount_dictionary (d : Dictionary) : (Literal.dictionary d).entryCount =
    ((liveEntries d.entries).map inner).sum + (liveEntries d.entries).length := by
  obtain ⟨entries, count, contains⟩ := d
  rw [Literal.entryCount, entryCountDictionary]
  induction entries with
  | nil => rfl
  | cons e entries ih =>
    obtain ⟨key, value⟩ := e
    rw [entryCountEntries, entryCountEntry, ih]
    cases hn : key.isNull with
    | true => simp [liveEntries, Entry.live, hn]
    | false =>
      simp [liveEntries, Entry.live, hn, inner]
      omega

/-- Two sums with the same terms in every place, one of them at least as large. -/
theorem sum_eq_of_le {α : Type} {f g : α → Nat} : ∀ {l : List α}, (∀ x ∈ l, f x ≤ g x) →
    (l.map f).sum ≤ (l.map g).sum ∧ ((l.map f).sum = (l.map g).sum → ∀ x ∈ l, f x = g x)
  | [], _ => ⟨Nat.le_refl _, fun _ _ hx => (List.not_mem_nil hx).elim⟩
  | x :: l, h => by
    have hx := h x (List.mem_cons_self ..)
    obtain ⟨hle, heq⟩ := sum_eq_of_le fun y hy => h y (List.mem_cons_of_mem x hy)
    simp only [List.map_cons, List.sum_cons]
    refine ⟨by omega, ?_⟩
    intro hsum y hy
    rcases List.mem_cons.mp hy with rfl | hy
    · omega
    · exact heq (by omega) y hy

theorem sum_subperm {α : Type} (f : α → Nat) {l l' : List α} (h : l <+~ l') : (l.map f).sum ≤ (l'.map f).sum := by
  obtain ⟨m, hm, hsub⟩ := h
  rw [← (hm.map f).sum_eq]
  exact (hsub.map f).sum_le_sum fun _ _ => Nat.zero_le _

theorem Duplicate.entryCount_eq {a b : Literal} (h : Duplicate a b) : a.entryCount = b.entryCount := by
  induction h with
  | @plain a b hk hshell hlen _ ih =>
    have hkb : b.kind ≠ .dictionary := by rw [← shell_kind, ← hshell, shell_kind]; exact hk
    rw [entryCount_plain hk, entryCount_plain hkb]
    congr 1
    apply List.ext_getElem (by simpa using hlen)
    intro i hi hi'
    rw [List.length_map] at hi hi'
    rw [List.getElem_map, List.getElem_map]
    exact ih i _ _ (List.getElem?_eq_getElem hi) (List.getElem?_eq_getElem hi')
  | @dictionary d d' entries _ hperm hlen _ _ ihk ihv =>
    rw [entryCount_dictionary, entryCount_dictionary, (hperm.map inner).sum_eq, hperm.length_eq, hlen]
    congr 2
    apply List.ext_getElem (by simpa using hlen)
    intro i hi hi'
    rw [List.length_map] at hi hi'
    rw [List.getElem_map, List.getElem_map, inner, inner,
      ihk i _ _ (List.getElem?_eq_getElem hi) (List.getElem?_eq_getElem hi'),
      ihv i _ _ (List.getElem?_eq_getElem hi) (List.getElem?_eq_getElem hi')]

theorem kept_copy {d : Dictionary} (hk : ∀ e ∈ liveEntries d.entries, rejectedKey e.key = false) :
    ∃ kept, Kept (copyDictionary realFns d) kept ∧ kept <+~ liveEntries d.entries := by
  rw [copyDictionary_loop]
  exact kept_init.loop hk

theorem Kept.entryCount {copy : Dictionary} {kept : List (Entry Literal)} (h : Kept copy kept) :
    (Literal.dictionary copy).entryCount = (kept.map fun e => inner (storedEntry e)).sum + kept.length := by
  rw [entryCount_dictionary, (h.live.map inner).sum_eq, h.live.length_eq, List.map_map, List.length_map]
  rfl

/-- The keys a dictionary of these kinds holds are ones a set takes. -/
theorem everywhere_accepted {d : Dictionary} (h : (Literal.dictionary d).everywhere copiedKind = true) :
    ∀ e ∈ liveEntries d.entries, rejectedKey e.key = false := fun _ he =>
  copiedKind_accepted (everywhere_self (everywhere_entry h he).1) (live_key he)

theorem copy_entryCount_le {a : Literal} (h : a.everywhere copiedKind = true) :
    (copyLiteral a).entryCount ≤ a.entryCount := by
  induction hn : a.depth using Nat.strong_induction_on generalizing a with
  | _ n ih =>
    subst hn
    by_cases hk : a.kind = .dictionary
    · obtain ⟨d, rfl⟩ := kind_dictionary hk
      obtain ⟨kept, hkept, hsub⟩ := kept_copy (everywhere_accepted h)
      rw [copyLiteral_eq, copyBody, hkept.entryCount, entryCount_dictionary]
      have hinner : ∀ e ∈ kept, inner (storedEntry e) ≤ inner e := by
        intro e he
        have hlive := hsub.subset he
        obtain ⟨hkey, hvalue⟩ := everywhere_entry h hlive
        exact Nat.add_le_add (ih _ (entry_depth hlive).1 hkey rfl) (ih _ (entry_depth hlive).2 hvalue rfl)
      have hle := (sum_eq_of_le hinner).1
      have hsum := sum_subperm inner hsub
      have hlen := hsub.length_le
      omega
    · obtain ⟨hshell, hparts⟩ := copiedKind_parts (everywhere_self h)
      have hkc : (copyLiteral a).kind ≠ .dictionary := by rw [← shell_kind, hshell, shell_kind]; exact hk
      rw [entryCount_plain hk, entryCount_plain hkc, hparts, List.map_map]
      exact (sum_eq_of_le fun x hx => ih _ (parts_depth hx) (everywhere_part h hx) rfl).1

/-! ## Duplicates -/

theorem kind_array {a : Literal} (h : a.kind = .array) : ∃ es, a = .array es := by
  cases a <;> simp_all [Literal.kind]

/-- The hash of what is no dictionary depends on its shell and the hashes of its parts. -/
theorem hash_plain {a b : Literal} (hk : a.kind ≠ .dictionary) (hshell : a.shell = b.shell)
    (hparts : a.parts.map hashLiteral = b.parts.map hashLiteral) : hashLiteral a = hashLiteral b := by
  have hkind : a.kind = b.kind := by rw [← shell_kind, hshell, shell_kind]
  by_cases ha : a.kind = .array
  · obtain ⟨as, rfl⟩ := kind_array ha
    obtain ⟨bs, rfl⟩ := kind_array (hkind.symm.trans ha)
    rw [Literal.parts, Literal.parts] at hparts
    rw [hash_elements, hash_elements, hparts]
  · rw [hash_shell hk ha, hshell]
    rw [hkind] at hk ha
    exact (hash_shell hk ha).symm

theorem Duplicate.hash_eq {a b : Literal} (h : Duplicate a b) : hashLiteral a = hashLiteral b := by
  induction h with
  | @plain a b hk hshell hlen _ ih =>
    apply hash_plain hk hshell
    apply List.ext_getElem (by simpa using hlen)
    intro i hi hi'
    rw [List.length_map] at hi hi'
    rw [List.getElem_map, List.getElem_map]
    exact ih i _ _ (List.getElem?_eq_getElem hi) (List.getElem?_eq_getElem hi')
  | @dictionary d d' entries _ hperm hlen _ _ ihk ihv =>
    have hmap : (liveEntries d.entries).map entryHash = entries.map entryHash := by
      apply List.ext_getElem (by simpa using hlen)
      intro i hi hi'
      rw [List.length_map] at hi hi'
      rw [List.getElem_map, List.getElem_map, entryHash, entryHash,
        ihk i _ _ (List.getElem?_eq_getElem hi) (List.getElem?_eq_getElem hi'),
        ihv i _ _ (List.getElem?_eq_getElem hi) (List.getElem?_eq_getElem hi')]
    rw [hash_entries, hash_entries, hmap, hash_sum_perm (hperm.map entryHash)]

/-- A copy that kept every entry of a dictionary, each of them a duplicate. -/
theorem Kept.duplicate {d copy : Dictionary} {kept : List (Entry Literal)} (h : Kept copy kept)
    (hkept : kept ~ liveEntries d.entries) (hcount : d.count = (liveEntries d.entries).length)
    (hkey : ∀ e ∈ liveEntries d.entries, Duplicate e.key (copyLiteral e.key))
    (hvalue : ∀ e ∈ liveEntries d.entries, Duplicate e.value (copyLiteral e.value)) :
    Duplicate (.dictionary d) (.dictionary copy) := by
  have hentry : ∀ (i : Nat) (e e' : Entry Literal), (liveEntries d.entries)[i]? = some e →
      ((liveEntries d.entries).map storedEntry)[i]? = some e' → e ∈ liveEntries d.entries ∧ e' = storedEntry e := by
    intro i e e' he he'
    rw [List.getElem?_map, he] at he'
    exact ⟨List.mem_of_getElem? he, (Option.some.inj he').symm⟩
  refine .dictionary ((liveEntries d.entries).map storedEntry) ?_ (h.live.trans (hkept.map storedEntry))
    (List.length_map _).symm ?_ ?_
  · rw [hcount, h.count, hkept.length_eq]
  · intro i e e' he he'
    obtain ⟨hmem, rfl⟩ := hentry i e e' he he'
    exact hkey e hmem
  · intro i e e' he he'
    obtain ⟨hmem, rfl⟩ := hentry i e e' he he'
    exact hvalue e hmem

theorem everywhere_count {d : Dictionary} (h : (Literal.dictionary d).everywhere copiedKind = true) :
    d.count = (liveEntries d.entries).length := beq_iff_eq.mp (everywhere_self h)

theorem duplicate_of_apart {a : Literal} (h : a.everywhere copiedKind = true) (hapart : a.everywhere keysApart = true) :
    Duplicate a (copyLiteral a) := by
  induction hn : a.depth using Nat.strong_induction_on generalizing a with
  | _ n ih =>
    subst hn
    by_cases hk : a.kind = .dictionary
    · obtain ⟨d, rfl⟩ := kind_dictionary hk
      have hpair := of_decide_eq_true (everywhere_self hapart)
      obtain ⟨kept, hkept, hperm⟩ := kept_init.loop_apart (everywhere_accepted h)
        (fun _ hx => (List.not_mem_nil hx).elim) hpair
      rw [copyLiteral_eq, copyBody, copyDictionary_loop]
      refine hkept.duplicate hperm (everywhere_count h) ?_ ?_
      · intro e he
        exact ih _ (entry_depth he).1 (everywhere_entry h he).1 (everywhere_entry hapart he).1 rfl
      · intro e he
        exact ih _ (entry_depth he).2 (everywhere_entry h he).2 (everywhere_entry hapart he).2 rfl
    · obtain ⟨hshell, hparts⟩ := copiedKind_parts (everywhere_self h)
      refine .plain hk hshell.symm (by rw [hparts, List.length_map]) ?_
      intro i x y hx hy
      rw [hparts, List.getElem?_map, hx] at hy
      cases hy
      have hmem := List.mem_of_getElem? hx
      exact ih _ (parts_depth hmem) (everywhere_part h hmem) (everywhere_part hapart hmem) rfl

/-- A copy with as many entries inside as the original lost none of them, at any depth. -/
theorem apart_of_entryCount {a : Literal} (h : a.everywhere copiedKind = true)
    (hhash : a.everywhere keysConsistent = true) (hcount : (copyLiteral a).entryCount = a.entryCount) :
    a.everywhere keysApart = true := by
  induction hn : a.depth using Nat.strong_induction_on generalizing a with
  | _ n ih =>
    subst hn
    by_cases hk : a.kind = .dictionary
    · obtain ⟨d, rfl⟩ := kind_dictionary hk
      obtain ⟨kept, hkept, hsub⟩ := kept_copy (everywhere_accepted h)
      rw [copyLiteral_eq, copyBody, hkept.entryCount, entryCount_dictionary] at hcount
      have hle : ∀ e ∈ liveEntries d.entries, (copyLiteral e.key).entryCount ≤ e.key.entryCount ∧
          (copyLiteral e.value).entryCount ≤ e.value.entryCount := fun e he =>
        ⟨copy_entryCount_le (everywhere_entry h he).1, copy_entryCount_le (everywhere_entry h he).2⟩
      have hinner := sum_eq_of_le (f := fun e => inner (storedEntry e)) (g := inner) fun e he =>
        Nat.add_le_add (hle e (hsub.subset he)).1 (hle e (hsub.subset he)).2
      have hsum := sum_subperm inner hsub
      have hlen := hsub.length_le
      have hperm := hsub.perm_of_length_le (by omega)
      -- every entry is kept, so nothing inside one is lost either
      have heq : ∀ e ∈ liveEntries d.entries, e.key.everywhere keysApart = true ∧ e.value.everywhere keysApart = true := by
        intro e he
        obtain ⟨hek, hev⟩ := hle e he
        have hsame : (copyLiteral e.key).entryCount + (copyLiteral e.value).entryCount =
            e.key.entryCount + e.value.entryCount := hinner.2 (by omega) e (hperm.symm.subset he)
        obtain ⟨hck, hcv⟩ := everywhere_entry h he
        obtain ⟨hhk, hhv⟩ := everywhere_entry hhash he
        exact ⟨ih _ (entry_depth he).1 hck hhk (by omega) rfl, ih _ (entry_depth he).2 hcv hhv (by omega) rfl⟩
      have hcopied : ∀ e ∈ liveEntries d.entries, hashLiteral (copyLiteral e.key) = hashLiteral e.key := fun e he =>
        (duplicate_of_apart (everywhere_entry h he).1 (heq e he).1).hash_eq.symm
      have hconsistent := everywhere_self hhash
      simp only [keysConsistent, List.all_eq_true, Bool.or_eq_true, Bool.not_eq_true', beq_iff_eq] at hconsistent
      obtain ⟨_, hpair⟩ := kept_init.loop_full (init_inv (F := realFns)).reachable (everywhere_accepted h) hcopied
        (fun x hx e he hxe => by
          rw [hcopied x hx]
          exact (hconsistent e he x hx).resolve_left (by simp [hxe]))
        (by rw [← copyDictionary_loop, hkept.count, hperm.length_eq]; rfl)
      exact everywhere_dictionary (decide_eq_true hpair) heq
    · obtain ⟨hshell, hparts⟩ := copiedKind_parts (everywhere_self h)
      have hkc : (copyLiteral a).kind ≠ .dictionary := by rw [← shell_kind, hshell, shell_kind]; exact hk
      rw [entryCount_plain hk, entryCount_plain hkc, hparts, List.map_map] at hcount
      have heq := (sum_eq_of_le fun x hx => copy_entryCount_le (everywhere_part h hx)).2 hcount
      refine everywhere_plain hk ?_ fun x hx =>
        ih _ (parts_depth hx) (everywhere_part h hx) (everywhere_part hhash hx) (heq x hx) rfl
      cases a <;> first | rfl | exact absurd rfl hk

/-- A deep copy has the structure of its original where no live key of a dictionary inside
    equals what an earlier one is stored as; with hash-consistent keys, only there. -/
theorem deep_copy (a : Literal) (h : a.everywhere copiedKind = true) :
    (a.everywhere keysApart = true → Duplicate a (copyLiteral a)) ∧
      (a.everywhere keysConsistent = true → (Duplicate a (copyLiteral a) ↔ a.everywhere keysApart = true)) :=
  ⟨duplicate_of_apart h, fun hhash =>
    ⟨fun hdup => apart_of_entryCount h hhash hdup.entryCount_eq.symm, duplicate_of_apart h⟩⟩

/-- An array of a string and a dictionary with a tombstone. -/
def afterRemove : Literal := .array [.string ['a'],
  .dictionary (dictionaryOf [.set (.integer 1) .null, .set (.integer 2) (.string ['b']), .remove (.integer 1)])]

theorem deep_copy_afterRemove : Duplicate afterRemove (copyLiteral afterRemove) :=
  (deep_copy afterRemove (by decide +kernel)).1 (by decide +kernel)

/-! ## A key that is found instead of another -/

def partKey : Literal := .dictionary (dictionaryOf [.set (.integer 16) (.boolean false)])

def wholeKey (other : Literal) : Literal :=
  .dictionary (dictionaryOf [.set (.integer 16) (.boolean false), .set other (.boolean false)])

/-- Binds one key to null. -/
def onePart : Literal := .dictionary (dictionaryOf [.set partKey .null])

/-- Binds two keys, which `partKey` equals both, to null and to a number. Their home is the
    last slot, so a copy finds them in the other order. -/
def twoWholes : Literal := .dictionary (dictionaryOf
  [.set (wholeKey (.boolean false)) .null, .set (wholeKey (.integer 0)) (.integer 105406671)])

/-- `onePart` in the last slot, `twoWholes` in the first. -/
def nestedKeys : Literal := .dictionary (dictionaryOf [.set onePart .null, .set twoWholes .null])

/-- Set after `twoWholes`, `onePart` equals what it is stored as, and is written over it. -/
theorem copy_loses_key :
    ¬ ∀ a : Literal, a.everywhere copiedKind = true → a.everywhere keysUnequal = true →
      a.everywhere keysConsistent = true → Duplicate a (copyLiteral a) := by
  intro h
  have hkinds : nestedKeys.everywhere copiedKind = true := by decide +kernel
  have hunequal : nestedKeys.everywhere keysUnequal = true := by decide +kernel
  have hconsistent : nestedKeys.everywhere keysConsistent = true := by decide +kernel
  have hapart : nestedKeys.everywhere keysApart = false := by decide +kernel
  have hkept := apart_of_entryCount hkinds hconsistent (h nestedKeys hkinds hunequal hconsistent).entryCount_eq.symm
  rw [hapart] at hkept
  cases hkept

end Xvr.Runtime
