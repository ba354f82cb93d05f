import Verax.Lib.Dictionary
import Verax.Lib.Outcome

/-!
# Name mappings

A plan builder tracks which column each user-visible name means in a dictionary from names, with or
without a relation alias, to column ids. A name of several columns is dropped and marked ambiguous.
This module embeds the dictionary and its operations, and says for each operation what a lookup
gives afterwards.

* `lookup_insert`, `lookup_setAlias`, `lookup_merge`, `lookup_of_enableUnqualifiedAccess`: lookups
  after each operation.
* `mem_ambiguousNames_merge`: what a merge marks.
* `mem_of_reverseLookup`, `exists_reverseLookup`: the names of a column.
* `exists_foldlM_add`, `exists_enableUnqualifiedAccess`: additions that succeed.

The index from ids back to names is kept in sync with the dictionary, so it is not a field here:
`reverseLookup` reads the dictionary.
-/

namespace Verax.Names

open Lib.Dictionary Lib.Outcome

/-- A column name, under a relation alias or without one.
Source: `NameMappings.h` `QualifiedName`. -/
structure QualifiedName where
  «alias» : Option String
  name : String
  deriving DecidableEq, Repr

/-- The internal name of a column, unique in a plan. -/
abbrev ColumnId := String

/-- Failed checks and user errors of the functions below. -/
inductive NameError where
  | duplicateName (name : QualifiedName)
  | duplicateUserName (id : ColumnId)
  | tooManyNames (id : ColumnId)
  | namesDiffer (id : ColumnId)
  | emptyUsing
  | usingNotFoundOnLeft (column : String)
  | usingNotFoundOnRight (column : String)
  | usingDifferentTypes (column : String)
  | usingIncompatibleTypes (column : String)
  | columnNotFound (id : ColumnId)
  deriving DecidableEq, Repr

/-- The mapping from user-visible names to column ids.
Source: `NameMappings.h` `NameMappings`. -/
structure NameMappings where
  mappings : Dict QualifiedName ColumnId := ∅
  ambiguousNames : List QualifiedName := []
  hiddenIds : List ColumnId := []
  userNames : Dict ColumnId String := ∅

namespace NameMappings

/-- Adds a mapping unless the name is marked ambiguous or has one.
Source: `NameMappings.cpp` `insert`. -/
def insert (m : NameMappings) (name : QualifiedName) (id : ColumnId) : NameMappings :=
  if name ∈ m.ambiguousNames then m else { m with mappings := emplace m.mappings name id }

/-- Adds a mapping for a name that has none.
Source: `NameMappings.cpp` `add`. -/
def add (m : NameMappings) (name : QualifiedName) (id : ColumnId) :
    Except NameError NameMappings :=
  if name ∈ m.mappings then .error (.duplicateName name) else .ok (m.insert name id)

/-- Drops the mapping of a name and marks the name.
Source: `NameMappings.cpp` `markAmbiguous`. -/
def markAmbiguous (m : NameMappings) (name : QualifiedName) : NameMappings :=
  { m with
    ambiguousNames := name :: m.ambiguousNames
    mappings := m.mappings.erase name }

/-- Source: `NameMappings.cpp` `markHidden`. -/
def markHidden (m : NameMappings) (id : ColumnId) : NameMappings :=
  { m with hiddenIds := id :: m.hiddenIds }

/-- Source: `NameMappings.cpp` `isHidden`. -/
def isHidden (m : NameMappings) (id : ColumnId) : Bool := m.hiddenIds.contains id

/-- Source: `NameMappings.cpp` `userName`. -/
def userName (m : NameMappings) (id : ColumnId) : Option String := m.userNames.lookup id

/-- Records the name a user gave to a column; each column has one at most.
Source: `NameMappings.cpp` `addUserName`. -/
def addUserName (m : NameMappings) (id : ColumnId) (name : String) :
    Except NameError NameMappings :=
  if id ∈ m.userNames then .error (.duplicateUserName id)
  else .ok { m with userNames := m.userNames.insert id name }

/-- Source: `NameMappings.cpp` `copyUserName`. -/
def copyUserName (m : NameMappings) (id : ColumnId) (source : NameMappings) :
    Except NameError NameMappings :=
  match source.userName id with
  | some name => m.addUserName id name
  | none => .ok m

/-- The column a name means.
Source: `NameMappings.cpp` `lookup`, both overloads. -/
def lookup (m : NameMappings) (name : QualifiedName) : Option ColumnId := m.mappings.lookup name

/-- The names of a column, checked to be at most two with one base name.
Source: `NameMappings.cpp` `reverseLookup`. -/
def reverseLookup (m : NameMappings) (id : ColumnId) : Except NameError (List QualifiedName) :=
  let names := (m.mappings.entries.filter fun e => e.2 == id).map Sigma.fst
  match names with
  | [] => .ok names
  | [_] => .ok names
  | [a, b] =>
      if a.name = b.name ∧ a.alias.isSome ≠ b.alias.isSome then .ok names
      else .error (.namesDiffer id)
  | _ => .error (.tooManyNames id)

/-- Gives every unqualified name an alias and drops the other aliases.
Source: `NameMappings.cpp` `setAlias`. -/
def setAlias (m : NameMappings) («alias» : String) : NameMappings :=
  let kept := { m with mappings := removeIf (fun n => n.alias.isSome) m.mappings }
  kept.mappings.entries.foldl (fun m e => m.insert ⟨some «alias», e.1.name⟩ e.2) kept

/-- The user name `other` has for a column, else a fallback, unless one is known.
Source: `NameMappings.cpp` `merge`, lambda `preserveOtherUserName`. -/
def preserveOtherUserName (m other : NameMappings) (id : ColumnId) (fallback : String) :
    NameMappings :=
  { m with userNames := emplace m.userNames id ((other.userName id).getD fallback) }

/-- One name of the right side.
Source: `NameMappings.cpp` `merge`, body of the loop over `other.mappings_`. -/
def mergeEntry (leftQualifiedNames : List String) (other m : NameMappings)
    (entry : Σ _ : QualifiedName, ColumnId) : NameMappings :=
  match m.lookup entry.1 with
  | some existing =>
      -- The name exists on both sides: it names neither column from here on.
      let named := { m with userNames := emplace m.userNames existing entry.1.name }
      (named.preserveOtherUserName other entry.2 entry.1.name).markAmbiguous entry.1
  | none =>
      if entry.1.alias.isNone && leftQualifiedNames.contains entry.1.name then
        m.preserveOtherUserName other entry.2 entry.1.name
      else m.insert entry.1 entry.2

/-- The base names of the qualified names.
Source: `NameMappings.cpp` `merge`, `leftQualifiedNames`. -/
def qualifiedNames (m : NameMappings) : List String :=
  (m.mappings.entries.filter fun e => e.1.alias.isSome).map fun e => e.1.name

/-- Merges the names of the right side of a join into those of the left side.
Source: `NameMappings.cpp` `merge`. -/
def merge (m other : NameMappings) : NameMappings :=
  let merged := other.mappings.entries.foldl (mergeEntry m.qualifiedNames other) m
  let hidden := other.hiddenIds.foldl markHidden merged
  { hidden with
    userNames := other.userNames.entries.foldl (fun d e => emplace d e.1 e.2) hidden.userNames }

/-- How many names have a base name.
Source: `NameMappings.cpp` `enableUnqualifiedAccess`, `counts`. -/
def countOf (m : NameMappings) (name : String) : ℕ :=
  m.mappings.entries.countP fun e => e.1.name == name

/-- The qualified names whose base name no other name has.
Source: `NameMappings.cpp` `enableUnqualifiedAccess`, `toAdd`. -/
def unambiguousQualified (m : NameMappings) : List (String × ColumnId) :=
  (m.mappings.entries.filter fun e => m.countOf e.1.name == 1 && e.1.alias.isSome).map
    fun e => (e.1.name, e.2)

/-- Lets a column be named without its alias where the base name is unique.
Source: `NameMappings.cpp` `enableUnqualifiedAccess`. -/
def enableUnqualifiedAccess (m : NameMappings) : Except NameError NameMappings :=
  m.unambiguousQualified.foldlM (fun m e => m.add ⟨none, e.1⟩ e.2) m

/-! ### Lookups after each operation -/

variable (m other : NameMappings) (n k : QualifiedName) (id : ColumnId)

lemma lookup_insert : (m.insert n id).lookup k =
    if k = n ∧ n ∉ m.ambiguousNames then some ((m.lookup n).getD id) else m.lookup k := by
  unfold insert lookup
  by_cases ha : n ∈ m.ambiguousNames
  · simp [ha]
  · simp only [ha, if_false, not_false_eq_true, and_true]
    exact lookup_emplace ..

@[simp] lemma ambiguousNames_insert : (m.insert n id).ambiguousNames = m.ambiguousNames := by
  unfold insert
  split <;> rfl

@[simp] lemma hiddenIds_insert : (m.insert n id).hiddenIds = m.hiddenIds := by
  unfold insert
  split <;> rfl

lemma lookup_markAmbiguous :
    (m.markAmbiguous n).lookup k = if k = n then none else m.lookup k :=
  lookup_erase_eq ..

@[simp] lemma lookup_preserveOtherUserName (fallback : String) :
    (m.preserveOtherUserName other id fallback).lookup k = m.lookup k := rfl

@[simp] lemma lookup_markHidden : (m.markHidden id).lookup k = m.lookup k := rfl

/-- A successful `add` maps a new name and leaves the others. -/
lemma lookup_of_add {m m' : NameMappings} {n : QualifiedName} {id : ColumnId}
    (h : m.add n id = .ok m') (ha : n ∉ m.ambiguousNames) :
    m.lookup n = none ∧ m' = m.insert n id ∧
      ∀ k, m'.lookup k = if k = n then some id else m.lookup k := by
  unfold add at h
  split at h
  · cases h
  · next hn =>
      have hn : m.lookup n = none := AList.lookup_eq_none.mpr hn
      injection h with h
      refine ⟨hn, h.symm, fun k => ?_⟩
      rw [← h, lookup_insert]
      simp [ha, hn]

/-- A user name changes nothing a lookup reads. -/
lemma of_addUserName {m m' : NameMappings} {id : ColumnId} {name : String}
    (h : m.addUserName id name = .ok m') :
    m'.mappings = m.mappings ∧ m'.ambiguousNames = m.ambiguousNames ∧
      m'.hiddenIds = m.hiddenIds := by
  unfold addUserName at h
  split at h
  · cases h
  · injection h with h
    subst h
    exact ⟨rfl, rfl, rfl⟩

lemma of_copyUserName {m m' source : NameMappings} {id : ColumnId}
    (h : m.copyUserName id source = .ok m') :
    m'.mappings = m.mappings ∧ m'.ambiguousNames = m.ambiguousNames ∧
      m'.hiddenIds = m.hiddenIds := by
  unfold copyUserName at h
  split at h
  · exact of_addUserName h
  · injection h with h
    subst h
    exact ⟨rfl, rfl, rfl⟩

/-- What a loop of `add` over names that are not marked gives: the names were new and distinct. -/
lemma lookup_of_foldlM_add {α : Type} (name : α → QualifiedName) (id : α → ColumnId) :
    ∀ (l : List α) (m m' : NameMappings), (∀ a ∈ l, name a ∉ m.ambiguousNames) →
      l.foldlM (fun m a => m.add (name a) (id a)) m = .ok m' →
      m'.ambiguousNames = m.ambiguousNames ∧ m'.hiddenIds = m.hiddenIds ∧
        (∀ k i, m'.lookup k = some i ↔ m.lookup k = some i ∨ ∃ a ∈ l, name a = k ∧ id a = i) ∧
        (l.map name).Nodup ∧ ∀ a ∈ l, m.lookup (name a) = none
  | [], m, m', ha, h => by
      cases h
      exact ⟨rfl, rfl, fun k i => by simp, by simp, by simp⟩
  | a :: l, m, m', ha, h => by
      obtain ⟨m₁, hadd, h⟩ := foldlM_cons_eq_ok.mp h
      obtain ⟨hnone, rfl, hlookup⟩ := lookup_of_add hadd (ha a List.mem_cons_self)
      obtain ⟨ha', hh', hl', hnodup, hnew⟩ := lookup_of_foldlM_add name id l _ m'
        (fun b hb => by simpa using ha b (List.mem_cons_of_mem a hb)) h
      rw [ambiguousNames_insert] at ha'
      have hfresh : ∀ b ∈ l, name b ≠ name a ∧ m.lookup (name b) = none := by
        intro b hb
        have := hnew b hb
        rw [hlookup] at this
        by_cases hba : name b = name a
        · simp [hba] at this
        · exact ⟨hba, by simpa [hba] using this⟩
      refine ⟨ha', by rw [hh', hiddenIds_insert], fun k i => ?_, ?_, ?_⟩
      · rw [hl', hlookup]
        simp only [List.mem_cons, exists_eq_or_imp]
        by_cases hk : k = name a
        · subst hk
          simp [hnone]
        · have hk' : ¬ name a = k := fun h => hk h.symm
          simp [hk, hk']
      · rw [List.map_cons, List.nodup_cons]
        refine ⟨?_, hnodup⟩
        intro hmem
        obtain ⟨b, hb, hba⟩ := List.mem_map.mp hmem
        exact (hfresh b hb).1 hba
      · intro b hb
        rcases List.mem_cons.mp hb with rfl | hb
        · exact hnone
        · exact (hfresh b hb).2

/-- A loop of `add` over distinct names that mean nothing succeeds. -/
lemma exists_foldlM_add {α : Type} (name : α → QualifiedName) (id : α → ColumnId) :
    ∀ (l : List α) (m : NameMappings), (l.map name).Nodup → (∀ a ∈ l, m.lookup (name a) = none) →
      ∃ m', l.foldlM (fun m a => m.add (name a) (id a)) m = .ok m'
  | [], m, _, _ => ⟨m, rfl⟩
  | a :: l, m, hnodup, hnew => by
      obtain ⟨hname, hnodup⟩ := List.nodup_cons.mp hnodup
      have hadd : m.add (name a) (id a) = .ok (m.insert (name a) (id a)) := by
        rw [add, if_neg (AList.lookup_eq_none.mp (hnew a List.mem_cons_self))]
      obtain ⟨m', hm'⟩ := exists_foldlM_add name id l (m.insert (name a) (id a)) hnodup
        fun b hb => by
          have hne : name b ≠ name a := fun heq => hname (heq ▸ List.mem_map_of_mem hb)
          rw [lookup_insert, if_neg fun h => hne h.1]
          exact hnew b (List.mem_cons_of_mem a hb)
      exact ⟨m', foldlM_cons_eq_ok.mpr ⟨_, hadd, hm'⟩⟩

/-- The names that mean a column, in the order of the entries. -/
def namesOf (m : NameMappings) (id : ColumnId) : List QualifiedName :=
  (m.mappings.entries.filter fun e => e.2 == id).map Sigma.fst

lemma mem_namesOf {m : NameMappings} {id : ColumnId} {n : QualifiedName} :
    n ∈ m.namesOf id ↔ m.lookup n = some id := by
  rw [lookup, ← mem_entries_iff, namesOf, List.mem_map]
  constructor
  · rintro ⟨e, he, rfl⟩
    obtain ⟨hmem, hid⟩ := List.mem_filter.mp he
    have hid : e.2 = id := by simpa using hid
    exact hid ▸ hmem
  · intro hn
    exact ⟨⟨n, id⟩, List.mem_filter.mpr ⟨hn, by simp⟩, rfl⟩

lemma nodup_namesOf (m : NameMappings) (id : ColumnId) : (m.namesOf id).Nodup :=
  m.mappings.keys_nodup.sublist (List.filter_sublist.map _)

lemma reverseLookup_eq {m : NameMappings} {id : ColumnId} {names : List QualifiedName}
    (h : m.reverseLookup id = .ok names) : names = m.namesOf id := by
  unfold namesOf
  simp only [reverseLookup] at h
  split at h
  · injection h with h
    exact h.symm
  · injection h with h
    exact h.symm
  · split at h
    · injection h with h
      exact h.symm
    · cases h
  · cases h

/-- The names of a column are those that mean it. -/
lemma mem_of_reverseLookup {m : NameMappings} {id : ColumnId} {names : List QualifiedName}
    (h : m.reverseLookup id = .ok names) (n : QualifiedName) :
    n ∈ names ↔ m.lookup n = some id := by
  rw [reverseLookup_eq h, mem_namesOf]

/-- The check of the names of a column: they have one base name, and at most one of them is
qualified, and at most one is not. -/
lemma exists_reverseLookup {m : NameMappings} {id : ColumnId} :
    (∃ names, m.reverseLookup id = .ok names) ↔
      ∀ k k', m.lookup k = some id → m.lookup k' = some id →
        k.name = k'.name ∧ (k.alias.isSome = k'.alias.isSome → k = k') := by
  simp only [← mem_namesOf]
  have hnodup := m.nodup_namesOf id
  show (∃ names, (match m.namesOf id with
    | [] => Except.ok (m.namesOf id)
    | [_] => .ok (m.namesOf id)
    | [a, b] =>
        if a.name = b.name ∧ a.alias.isSome ≠ b.alias.isSome then .ok (m.namesOf id)
        else .error (NameError.namesDiffer id)
    | _ => .error (NameError.tooManyNames id)) = .ok names) ↔ _
  generalize m.namesOf id = keys at hnodup ⊢
  rcases keys with - | ⟨a, - | ⟨b, - | ⟨c, rest⟩⟩⟩
  · simp
  · simp
  · have hab : a ≠ b := by simpa using hnodup
    simp only [List.mem_cons, List.not_mem_nil, or_false]
    constructor
    · rintro ⟨names, hnames⟩ k k' (rfl | rfl) (rfl | rfl)
      all_goals split at hnames
      all_goals grind
    · intro h
      obtain ⟨hname, halias⟩ := h a b (.inl rfl) (.inr rfl)
      exact ⟨_, if_pos ⟨hname, fun heq => hab (halias heq)⟩⟩
  · simp only [List.nodup_cons, List.mem_cons, not_or] at hnodup
    constructor
    · rintro ⟨names, hnames⟩
      cases hnames
    · intro h
      have hab := (h a b (by simp) (by simp)).2
      have hac := (h a c (by simp) (by simp)).2
      have hbc := (h b c (by simp) (by simp)).2
      rcases ha : a.alias.isSome <;> rcases hb : b.alias.isSome <;> rcases hc : c.alias.isSome
      all_goals simp_all

/-! ### Loops over the entries of a mapping -/

/-- What a mapping says about a name: the column it means, and whether it is marked. -/
def status (m : NameMappings) (k : QualifiedName) : Option ColumnId × Bool :=
  (m.lookup k, m.ambiguousNames.contains k)

lemma status_insert_self : (m.insert n id).status n =
    if (m.status n).2 then m.status n else (some ((m.status n).1.getD id), false) := by
  simp only [status, lookup_insert, ambiguousNames_insert]
  by_cases ha : n ∈ m.ambiguousNames
  · simp [ha]
  · simp [ha]

lemma status_insert_of_ne (h : k ≠ n) : (m.insert n id).status k = m.status k := by
  simp [status, lookup_insert, h]

/-- The alias reaches the columns that have an unqualified name; no other alias remains. -/
lemma lookup_setAlias (m : NameMappings) («alias» : String) (k : QualifiedName) :
    (m.setAlias «alias»).lookup k =
      match k.alias with
      | none => m.lookup k
      | some a =>
          if a = «alias» ∧ k ∉ m.ambiguousNames then m.lookup ⟨none, k.name⟩ else none := by
  set kept : NameMappings :=
    { m with mappings := removeIf (fun n => n.alias.isSome) m.mappings } with hkept
  have hlookup : ∀ n : QualifiedName,
      kept.lookup n = if n.alias.isSome then none else m.lookup n := fun n => lookup_removeIf ..
  have hunqualified : ∀ e ∈ kept.mappings.entries, e.1.alias = none := by
    intro e he
    have := hlookup e.1
    rw [lookup, mem_entries_iff.mp he] at this
    cases h : e.1.alias with
    | none => rfl
    | some a => simp [h] at this
  let target : (Σ _ : QualifiedName, ColumnId) → QualifiedName := fun e => ⟨some «alias», e.1.name⟩
  have hnodup : (kept.mappings.entries.map target).Nodup := by
    have hkeys := kept.mappings.keys_nodup
    rw [AList.keys, List.keys] at hkeys
    refine List.Nodup.map_on ?_ (List.Nodup.of_map _ hkeys)
    intro e he e' he' heq
    have hname : e.1.name = e'.1.name := by simpa [target] using heq
    have hkey : e.1 = e'.1 := by
      rcases hx : e.1 with ⟨x, y⟩
      rcases hx' : e'.1 with ⟨x', y'⟩
      have h1 := hunqualified e he
      have h2 := hunqualified e' he'
      rw [hx] at h1 hname
      rw [hx'] at h2 hname
      simp_all
    exact List.inj_on_of_nodup_map hkeys he he' hkey
  have hother := foldl_untouched (f := fun m e => m.insert (target e) e.2) (o := status)
    (t := target) fun s e k => status_insert_of_ne s (target e) k e.2
  have hself := foldl_touched (f := fun m e => m.insert (target e) e.2) (o := status)
    (t := target) (u := fun e b => if b.2 then b else (some (b.1.getD e.2), false))
    (fun s e k => status_insert_of_ne s (target e) k e.2)
    (fun s e => status_insert_self s (target e) e.2)
  show ((kept.mappings.entries.foldl (fun m e => m.insert (target e) e.2) kept).status k).1 = _
  by_cases htarget : k ∈ kept.mappings.entries.map target
  · obtain ⟨e, he, rfl⟩ := List.mem_map.mp htarget
    rw [hself _ _ hnodup e he]
    have hbase : m.lookup ⟨none, e.1.name⟩ = some e.2 := by
      have hk : (⟨none, e.1.name⟩ : QualifiedName) = e.1 := by
        rw [← hunqualified e he]
      rw [← mem_entries_iff.mp he, hk]
      exact ((hlookup e.1).trans (by simp [hunqualified e he])).symm
    have hnone : kept.lookup (target e) = none := by simp [hlookup, target]
    by_cases hm : target e ∈ m.ambiguousNames
    · simp_all [status, target]
    · simp_all [status, target]
  · rw [hother _ _ _ htarget]
    rcases k with ⟨_ | a, name⟩
    · simp [status, hlookup]
    · have hnone : kept.lookup ⟨some a, name⟩ = none := by simp [hlookup]
      simp only [status, hnone]
      split
      · next h =>
          obtain ⟨rfl, -⟩ := h
          cases hbase : m.lookup ⟨none, name⟩ with
          | none => rfl
          | some i =>
              have he : (⟨⟨none, name⟩, i⟩ : Σ _ : QualifiedName, ColumnId) ∈
                  kept.mappings.entries := mem_entries_iff.mpr ((hlookup _).trans (by simpa))
              exact absurd (List.mem_map_of_mem he) htarget
      · rfl

private lemma marks_foldl_insert {α : Type} (name : α → QualifiedName) (id : α → ColumnId) :
    ∀ (l : List α) (m : NameMappings),
      (l.foldl (fun m a => m.insert (name a) (id a)) m).ambiguousNames = m.ambiguousNames ∧
        (l.foldl (fun m a => m.insert (name a) (id a)) m).hiddenIds = m.hiddenIds
  | [], _ => ⟨rfl, rfl⟩
  | a :: l, m => by
      obtain ⟨ha, hh⟩ := marks_foldl_insert name id l (m.insert (name a) (id a))
      exact ⟨ha.trans (ambiguousNames_insert ..), hh.trans (hiddenIds_insert ..)⟩

@[simp] lemma ambiguousNames_setAlias (m : NameMappings) («alias» : String) :
    (m.setAlias «alias»).ambiguousNames = m.ambiguousNames :=
  (marks_foldl_insert (fun e : Σ _ : QualifiedName, ColumnId => ⟨some «alias», e.1.name⟩) (·.2)
    _ _).1

@[simp] lemma hiddenIds_setAlias (m : NameMappings) («alias» : String) :
    (m.setAlias «alias»).hiddenIds = m.hiddenIds :=
  (marks_foldl_insert (fun e : Σ _ : QualifiedName, ColumnId => ⟨some «alias», e.1.name⟩) (·.2)
    _ _).2

/-- What one name of the right side does to the status of the name in the merged mapping. -/
def mergedStatus (leftQualifiedNames : List String) (entry : Σ _ : QualifiedName, ColumnId) :
    Option ColumnId × Bool → Option ColumnId × Bool
  | (some _, _) => (none, true)
  | (none, marked) =>
      if entry.1.alias.isNone && leftQualifiedNames.contains entry.1.name then (none, marked)
      else if marked then (none, true)
      else (some entry.2, false)

lemma status_mergeEntry_self (names : List String) (m : NameMappings)
    (e : Σ _ : QualifiedName, ColumnId) :
    (mergeEntry names other m e).status e.1 = mergedStatus names e (m.status e.1) := by
  unfold mergeEntry
  rcases hl : m.lookup e.1 with _ | existing
  · by_cases hq : (e.1.alias.isNone && names.contains e.1.name) = true
    · simp only [hq, if_true, mergedStatus, status, lookup_preserveOtherUserName, hl]
      rfl
    · show (if _ then _ else m.insert e.1 e.2 : NameMappings).status e.1 = _
      rw [if_neg hq, status_insert_self]
      simp only [status, hl, mergedStatus, if_neg hq]
      by_cases hm : e.1 ∈ m.ambiguousNames
      · simp [hm]
      · simp [hm]
  · simp only [status, mergedStatus, hl, lookup_markAmbiguous, if_true]
    simp [markAmbiguous]

lemma status_mergeEntry_of_ne (names : List String) (m : NameMappings)
    (e : Σ _ : QualifiedName, ColumnId) (h : k ≠ e.1) :
    (mergeEntry names other m e).status k = m.status k := by
  unfold mergeEntry
  split
  · simp [status, h, markAmbiguous, preserveOtherUserName, lookup]
  · split
    · rfl
    · exact status_insert_of_ne m e.1 k e.2 h

lemma mem_qualifiedNames {m : NameMappings} {name : String} :
    name ∈ m.qualifiedNames ↔ ∃ a i, m.lookup ⟨some a, name⟩ = some i := by
  simp only [qualifiedNames, List.mem_map, List.mem_filter]
  constructor
  · rintro ⟨⟨⟨_ | a, x⟩, i⟩, ⟨he, hq⟩, rfl⟩
    · cases hq
    · exact ⟨a, i, mem_entries_iff.mp he⟩
  · rintro ⟨a, i, h⟩
    exact ⟨⟨⟨some a, name⟩, i⟩, ⟨mem_entries_iff.mpr h, rfl⟩, rfl⟩

/-- The status of a name after a merge. -/
lemma status_merge (m other : NameMappings) (k : QualifiedName) :
    (m.merge other).status k =
      match other.lookup k with
      | none => m.status k
      | some i => mergedStatus m.qualifiedNames ⟨k, i⟩ (m.status k) := by
  have hhidden : ∀ (l : List ColumnId) (m : NameMappings),
      (l.foldl markHidden m).status k = m.status k := by
    intro l
    induction l with
    | nil => intro m; rfl
    | cons i l ih => intro m; exact ih _
  have hmerge : (m.merge other).status k = (other.mappings.entries.foldl
      (mergeEntry m.qualifiedNames other) m).status k := hhidden _ _
  rw [hmerge]
  cases hk : other.lookup k with
  | none =>
      refine foldl_untouched (t := Sigma.fst)
        (fun s e k => status_mergeEntry_of_ne other k m.qualifiedNames s e) _ _ _ ?_
      intro hmem
      obtain ⟨e, he, rfl⟩ := List.mem_map.mp hmem
      have := mem_entries_iff.mp he
      rw [lookup, this] at hk
      cases hk
  | some i =>
      exact foldl_touched (t := Sigma.fst) (u := mergedStatus m.qualifiedNames)
        (fun s e k => status_mergeEntry_of_ne other k m.qualifiedNames s e)
        (status_mergeEntry_self other m.qualifiedNames) _ _ other.mappings.keys_nodup ⟨k, i⟩
        (mem_entries_iff.mpr hk)

/-- What a name means after a merge. -/
lemma lookup_merge (m other : NameMappings) (k : QualifiedName) :
    (m.merge other).lookup k =
      match m.lookup k, other.lookup k with
      | found, none => found
      | some _, some _ => none
      | none, some i =>
          if (k.alias = none ∧ k.name ∈ m.qualifiedNames) ∨ k ∈ m.ambiguousNames then none
          else some i := by
  have h := congrArg Prod.fst (status_merge m other k)
  change (m.merge other).lookup k = _ at h
  rw [h]
  rcases ho : other.lookup k with _ | i
  · rcases hm : m.lookup k with _ | j
    · exact hm
    · exact hm
  · rcases hm : m.lookup k with _ | j
    · simp only [status, hm, mergedStatus]
      by_cases hq : k.alias = none ∧ k.name ∈ m.qualifiedNames
      · simp [hq]
      · by_cases hk : k ∈ m.ambiguousNames
        · simp [hk]
        · have hc : ¬ ((k.alias.isNone && m.qualifiedNames.contains k.name) = true) := by
            simpa using hq
          rw [if_neg hc]
          simp [hk, hq]
    · simp only [status, hm, mergedStatus]

/-- A merge marks the names both sides have. -/
lemma mem_ambiguousNames_merge (m other : NameMappings) (k : QualifiedName) :
    k ∈ (m.merge other).ambiguousNames ↔
      k ∈ m.ambiguousNames ∨ ((m.lookup k).isSome ∧ (other.lookup k).isSome) := by
  have h := congrArg Prod.snd (status_merge m other k)
  change (m.merge other).ambiguousNames.contains k = _ at h
  rw [← List.contains_iff_mem, h]
  rcases ho : other.lookup k with _ | i
  · simp [status]
  · rcases hm : m.lookup k with _ | j
    · simp only [status, hm, mergedStatus]
      split
      · simp
      · split
        · next hk => simpa using hk
        · next hk => simpa using hk
    · simp [status, hm, mergedStatus]

lemma mem_hiddenIds_merge (m other : NameMappings) (i : ColumnId) :
    i ∈ (m.merge other).hiddenIds ↔ i ∈ m.hiddenIds ∨ i ∈ other.hiddenIds := by
  have hhidden : ∀ (l : List ColumnId) (m : NameMappings),
      i ∈ (l.foldl markHidden m).hiddenIds ↔ i ∈ m.hiddenIds ∨ i ∈ l := by
    intro l
    induction l with
    | nil => intro m; simp
    | cons j l ih =>
        intro m
        rw [List.foldl_cons, ih]
        simp only [markHidden, List.mem_cons]
        tauto
  have hentries : ∀ (l : List (Σ _ : QualifiedName, ColumnId)) (m₀ : NameMappings),
      (l.foldl (mergeEntry m.qualifiedNames other) m₀).hiddenIds = m₀.hiddenIds := by
    intro l
    induction l with
    | nil => intro m₀; rfl
    | cons e l ih =>
        intro m₀
        rw [List.foldl_cons, ih]
        unfold mergeEntry
        split
        · rfl
        · split
          · rfl
          · exact hiddenIds_insert ..
  show i ∈ (other.hiddenIds.foldl markHidden _).hiddenIds ↔ _
  rw [hhidden, hentries]

/-- A base name is counted once if one name with this base means a column. -/
lemma countOf_eq_one_iff (m : NameMappings) (name : String) :
    m.countOf name = 1 ↔ ∃! k : QualifiedName, k.name = name ∧ (m.lookup k).isSome := by
  have hmem : ∀ k, k ∈ (m.mappings.entries.filter fun e => e.1.name == name).map Sigma.fst ↔
      k.name = name ∧ (m.lookup k).isSome := by
    intro k
    rw [List.mem_map]
    constructor
    · rintro ⟨e, he, rfl⟩
      rw [List.mem_filter] at he
      exact ⟨by simpa using he.2, by simp [lookup, mem_entries_iff.mp he.1]⟩
    · rintro ⟨hk, hsome⟩
      obtain ⟨i, hi⟩ := Option.isSome_iff_exists.mp hsome
      exact ⟨⟨k, i⟩, List.mem_filter.mpr ⟨mem_entries_iff.mpr hi, by simpa using hk⟩, rfl⟩
  have hnodup : ((m.mappings.entries.filter fun e => e.1.name == name).map Sigma.fst).Nodup :=
    m.mappings.keys_nodup.sublist (List.filter_sublist.map _)
  have hcount : m.countOf name =
      ((m.mappings.entries.filter fun e => e.1.name == name).map Sigma.fst).length := by
    rw [List.length_map]
    exact List.countP_eq_length_filter
  rw [hcount, List.length_eq_one_iff]
  constructor
  · rintro ⟨k, hk⟩
    refine ⟨k, (hmem k).mp (by simp [hk]), fun k' hk' => ?_⟩
    have := (hmem k').mpr hk'
    rwa [hk, List.mem_singleton] at this
  · rintro ⟨k, hk, huniq⟩
    refine ⟨k, List.perm_singleton.mp
      ((List.perm_ext_iff_of_nodup hnodup (List.nodup_singleton k)).mpr fun k' => ?_)⟩
    rw [hmem, List.mem_singleton]
    exact ⟨huniq k', fun h => h ▸ hk⟩

/-- A column can be named without its alias once no other name has its base name. -/
lemma lookup_of_enableUnqualifiedAccess {m m' : NameMappings}
    (ha : ∀ k ∈ m.ambiguousNames, k.alias ≠ none) (h : m.enableUnqualifiedAccess = .ok m') :
    m'.ambiguousNames = m.ambiguousNames ∧ m'.hiddenIds = m.hiddenIds ∧
      ∀ k i, m'.lookup k = some i ↔ m.lookup k = some i ∨
        (k.alias = none ∧ m.countOf k.name = 1 ∧ ∃ a, m.lookup ⟨some a, k.name⟩ = some i) := by
  obtain ⟨ha', hh', hl, -, -⟩ :=
    lookup_of_foldlM_add (fun e : String × ColumnId => ⟨none, e.1⟩) Prod.snd _ m m'
      (fun _ _ hmem => ha _ hmem rfl) h
  refine ⟨ha', hh', fun k i => ?_⟩
  rw [hl]
  refine or_congr_right ?_
  simp only [unambiguousQualified, List.mem_map, List.mem_filter]
  constructor
  · rintro ⟨_, ⟨⟨⟨_ | a, x⟩, j⟩, ⟨he, hc⟩, rfl⟩, rfl, rfl⟩
    · simp at hc
    · exact ⟨rfl, by simpa using hc, a, mem_entries_iff.mp he⟩
  · rintro ⟨hk, hc, a, hj⟩
    rcases k with ⟨_ | b, x⟩
    · exact ⟨(x, i), ⟨⟨⟨some a, x⟩, i⟩, ⟨mem_entries_iff.mpr hj, by simp [hc]⟩, rfl⟩, rfl, rfl⟩
    · cases hk

/-- Unqualified access is enabled for distinct names that mean nothing. -/
lemma exists_enableUnqualifiedAccess (m : NameMappings) :
    ∃ m', m.enableUnqualifiedAccess = .ok m' := by
  have hone : ∀ e ∈ m.mappings.entries.filter fun e =>
      m.countOf e.1.name == 1 && e.1.alias.isSome, (m.lookup e.1).isSome ∧ e.1.alias ≠ none ∧
        ∃! k : QualifiedName, k.name = e.1.name ∧ (m.lookup k).isSome := by
    intro e he
    obtain ⟨hmem, hcase⟩ := List.mem_filter.mp he
    rw [Bool.and_eq_true, beq_iff_eq] at hcase
    refine ⟨?_, Option.isSome_iff_ne_none.mp hcase.2, (m.countOf_eq_one_iff _).mp hcase.1⟩
    rw [lookup, mem_entries_iff.mp hmem]
    rfl
  refine exists_foldlM_add (fun e : String × ColumnId => ⟨none, e.1⟩) Prod.snd _ m ?_ fun e he => ?_
  · rw [unambiguousQualified, List.map_map]
    refine List.Nodup.map_on (fun e he e' he' heq => ?_)
      ((List.Nodup.of_map _ m.mappings.keys_nodup).filter _)
    obtain ⟨hsome, -, hunique⟩ := hone e he
    obtain ⟨hsome', -, -⟩ := hone e' he'
    have hname : e'.1.name = e.1.name := (congrArg QualifiedName.name heq).symm
    exact List.inj_on_of_nodup_map m.mappings.keys_nodup (List.mem_of_mem_filter he)
      (List.mem_of_mem_filter he') (hunique.unique ⟨rfl, hsome⟩ ⟨hname, hsome'⟩)
  · obtain ⟨d, hd, rfl⟩ := List.mem_map.mp he
    obtain ⟨hsome, halias, hunique⟩ := hone d hd
    refine Option.not_isSome_iff_eq_none.mp fun hbare => halias ?_
    have hsame : d.1 = ⟨none, d.1.name⟩ := hunique.unique ⟨rfl, hsome⟩ ⟨rfl, hbare⟩
    exact congrArg QualifiedName.alias hsame

end NameMappings

end Verax.Names
