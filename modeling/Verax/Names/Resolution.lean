import Verax.Names.JoinScope

/-!
# When column names resolve as a query means them

A name should resolve if and only if one column in scope answers to it, and to that column. A merge
keeps no count of the columns a name has: it drops a name both sides have and marks it, but it does
not look at the marks of its right side, and a `USING` join starts a mapping without marks. So an
ambiguous name can come back as the name of one column. This module says exactly when.

* `Escapes`: the ways a merge lets an ambiguous name mean one of its columns.
* `Tidy`: a join at which no name escapes.
* `lookup_join`: what a name means after a merge of two mappings that resolve.
* `resolves_iff_tidy`: every part of a tree resolves its names if and only if every join is tidy.
-/

namespace Verax.Names

open Lib.Dictionary Lib.Outcome

set_option linter.unusedSectionVars false

variable {Ty : Type} [DecidableEq Ty] (coercer : Coercer Ty)

namespace JoinTree

/-! ### Ambiguity that a merge overlooks -/

/-- Some merge on the left spine of the tree, above any `USING` join, met the name as the name of one
column on each side. -/
def recordsAmbiguity : JoinTree Ty → QualifiedName → Prop
  | relation _, _ => False
  | join left right, q => left.recordsAmbiguity q ∨
      ((left.named coercer q).length = 1 ∧ (right.named coercer q).length = 1)
  | joinUsing .., _ => False

/-- The name is ambiguous in the tree, but nothing in the mapping tells a later merge: it has no mark
and, if it has no alias, no column of this name is reachable through an alias. -/
def Forgets (t : JoinTree Ty) (q : QualifiedName) : Prop :=
  2 ≤ (t.named coercer q).length ∧ ¬ t.recordsAmbiguity coercer q ∧
    (q.alias = none → ∀ a, (t.named coercer ⟨some a, q.name⟩).length ≠ 1)

/-- The name means a column of one side although the other side has several columns of this name. -/
def Escapes (left right : JoinTree Ty) (q : QualifiedName) (c : Column Ty) : Prop :=
  (left.named coercer q = [c] ∧ 2 ≤ (right.named coercer q).length) ∨
    (right.named coercer q = [c] ∧ left.Forgets coercer q)

/-- The columns of a name that a `USING` join over other names keeps. -/
def kept (left right : JoinTree Ty) (q : QualifiedName) : List (Column Ty) :=
  (left.named coercer q ++ right.named coercer q).filter fun c => !c.hidden

/-- A join that gives no ambiguous name to one of its columns, and takes none from the only column
that keeps it. -/
def Tidy : JoinTree Ty → Prop
  | relation _ => True
  | join left right => ∀ q c, ¬ left.Escapes coercer right q c
  | joinUsing left right names _ =>
      ∀ q, (∀ n ∈ names, n.name ≠ q.name) →
        2 ≤ (left.named coercer q ++ right.named coercer q).length →
        let escapes := ∃ c, left.Escapes coercer right q c ∧ c.hidden = false
        (q.alias.isSome → ((left.kept coercer right q).length = 1 ↔ escapes)) ∧
        (q.alias = none →
          ((left.kept coercer right q).length = 1 →
            escapes ∨ ∃ c ∈ left.kept coercer right q, c.alias.isSome) ∧
          (2 ≤ (left.kept coercer right q).length →
            ¬ escapes ∧ ¬ ∃! a, (left.kept coercer right ⟨some a, q.name⟩).length = 1))

/-- The names of a built tree resolve as a query means them. -/
def Resolves (t : JoinTree Ty) : Prop :=
  ∀ b, t.build coercer = .ok b → ∀ q, b.outputMapping.lookup q = t.sole coercer q

/-! ### Columns and names -/

variable {coercer}

lemma soleOf_eq_some {q : QualifiedName} {l : List (Column Ty)} {c : Column Ty} :
    soleOf q l = some c ↔ l.filter (·.answersTo q) = [c] := by
  unfold soleOf
  split
  · next d h => simp [h]
  · next h =>
      simp only [reduceCtorEq, false_iff]
      intro hc
      exact h c hc

lemma sole_eq_some {t : JoinTree Ty} {q : QualifiedName} {i : ColumnId} :
    t.sole coercer q = some i ↔ ∃ c, t.named coercer q = [c] ∧ c.id = i := by
  simp only [sole, Option.map_eq_some_iff, soleOf_eq_some, named]

lemma sole_eq_none {t : JoinTree Ty} {q : QualifiedName} :
    t.sole coercer q = none ↔ (t.named coercer q).length ≠ 1 := by
  rw [Option.eq_none_iff_forall_ne_some]
  simp only [ne_eq, sole_eq_some, List.length_eq_one_iff, not_exists, not_and]
  constructor
  · intro h c hc
    exact h c.id c hc rfl
  · intro h i c hc
    exact absurd hc (h c)

lemma mem_named {t : JoinTree Ty} {q : QualifiedName} {c : Column Ty} :
    c ∈ t.named coercer q ↔ c ∈ t.columns coercer ∧ c.answersTo q = true := List.mem_filter

lemma answersTo_iff {q : QualifiedName} {c : Column Ty} :
    c.answersTo q = true ↔
      c.name = some q.name ∧ (q.alias = none ∨ c.alias = q.alias) := by
  simp [Column.answersTo]

variable (coercer) in
/-- A column reachable by a qualified name answers to the unqualified one. -/
lemma named_qualified_sublist (t : JoinTree Ty) (a name : String) :
    (t.named coercer ⟨some a, name⟩).Sublist (t.named coercer ⟨none, name⟩) := by
  refine List.monotone_filter_right _ ?_
  intro c hc
  rw [answersTo_iff] at hc ⊢
  exact ⟨hc.1, Or.inl rfl⟩

@[simp] lemma named_join (left right : JoinTree Ty) (q : QualifiedName) :
    (join left right).named coercer q = left.named coercer q ++ right.named coercer q := by
  simp [named, columns]

/-- A recorded name is ambiguous. -/
lemma two_le_of_recordsAmbiguity {t : JoinTree Ty} {q : QualifiedName}
    (h : t.recordsAmbiguity coercer q) : 2 ≤ (t.named coercer q).length := by
  induction t with
  | relation r => cases h
  | join left right ihl _ =>
      rw [named_join, List.length_append]
      rcases h with h | ⟨hl, hr⟩
      · have := ihl h
        omega
      · omega
  | joinUsing => cases h

/-! ### Merges -/

/-- What a builder has recorded of a tree whose parts resolve. -/
structure Tracks (coercer : Coercer Ty) (t : JoinTree Ty) (b : PlanBuilder Ty) : Prop where
  output : b.outputType = (t.columns coercer).map fun c => (c.id, c.type)
  resolves : ∀ q, b.outputMapping.lookup q = t.sole coercer q
  marks : ∀ q, q ∈ b.outputMapping.ambiguousNames ↔ t.recordsAmbiguity coercer q
  hidden : ∀ i, i ∈ b.outputMapping.hiddenIds ↔ ∃ c ∈ t.columns coercer, c.id = i ∧ c.hidden
  known : ∀ c ∈ t.columns coercer, c.id ∈ t.ids
  nodup : ((t.columns coercer).map (·.id)).Nodup

variable {left right : JoinTree Ty} {l r : PlanBuilder Ty}

/-- A qualified name of the left side is in the snapshot a merge takes. -/
lemma mem_qualifiedNames_iff (hl : left.Tracks coercer l) (name : String) :
    name ∈ l.outputMapping.qualifiedNames ↔
      ∃ a, (left.named coercer ⟨some a, name⟩).length = 1 := by
  simp only [NameMappings.mem_qualifiedNames, hl.resolves, sole_eq_some, List.length_eq_one_iff]
  constructor
  · rintro ⟨a, i, c, hc, -⟩
    exact ⟨a, c, hc⟩
  · rintro ⟨a, c, hc⟩
    exact ⟨a, c.id, c, hc, rfl⟩

/-- A merge adds a name of the right side that the left side does not resolve just when the left side
has no column of this name or forgets that it has several. -/
lemma not_blocked_iff (hl : left.Tracks coercer l) {q : QualifiedName}
    (hq : (left.named coercer q).length ≠ 1) :
    ¬ ((q.alias = none ∧ q.name ∈ l.outputMapping.qualifiedNames) ∨
        q ∈ l.outputMapping.ambiguousNames) ↔
      left.named coercer q = [] ∨ left.Forgets coercer q := by
  rw [hl.marks, mem_qualifiedNames_iff hl, not_or, not_and, not_exists]
  constructor
  · rintro ⟨hqualified, hmarks⟩
    rcases Nat.lt_or_ge (left.named coercer q).length 2 with hlt | hge
    · exact Or.inl (List.length_eq_zero_iff.mp (by omega))
    · exact Or.inr ⟨hge, hmarks, hqualified⟩
  · rintro (hnil | ⟨-, hmarks, hqualified⟩)
    · refine ⟨fun hq a ha => ?_, fun hm => ?_⟩
      · have hsub := named_qualified_sublist (coercer) left a q.name
        have hq' : (⟨none, q.name⟩ : QualifiedName) = q := by rw [← hq]
        rw [hq', hnil, List.sublist_nil] at hsub
        simp [hsub] at ha
      · have := two_le_of_recordsAmbiguity hm
        simp [hnil] at this
    · exact ⟨hqualified, hmarks⟩

/-- After a merge a name means the only column that answers to it, or one that escapes. -/
lemma lookup_join (hl : left.Tracks coercer l)
    (hr : right.Tracks coercer r) (q : QualifiedName) (i : ColumnId) :
    (l.join r).outputMapping.lookup q = some i ↔
      ∃ c : Column Ty, c.id = i ∧
        ((left.named coercer q ++ right.named coercer q) = [c] ∨
          left.Escapes coercer right q c) := by
  show (l.outputMapping.merge r.outputMapping).lookup q = some i ↔ _
  rw [NameMappings.lookup_merge, hl.resolves, hr.resolves]
  have hlen : ∀ c, left.named coercer q ++ right.named coercer q = [c] →
      (left.named coercer q).length + (right.named coercer q).length = 1 := by
    intro c hc
    rw [← List.length_append, hc, List.length_singleton]
  rcases hL : left.sole coercer q with _ | j <;> rcases hR : right.sole coercer q with _ | k
  · -- Neither side resolves the name.
    rw [sole_eq_none] at hL hR
    simp only [reduceCtorEq, false_iff, not_exists, not_and, not_or]
    rintro c -
    refine ⟨fun hc => ?_, ?_⟩
    · have := hlen c hc
      omega
    · rintro (⟨h, -⟩ | ⟨h, -⟩)
      · simp [h] at hL
      · simp [h] at hR
  · -- The right side's column, if nothing blocks it.
    obtain ⟨c, hc, rfl⟩ := sole_eq_some.mp hR
    rw [sole_eq_none] at hL
    have hfree := not_blocked_iff hl hL
    by_cases hb : (q.alias = none ∧ q.name ∈ l.outputMapping.qualifiedNames) ∨
        q ∈ l.outputMapping.ambiguousNames
    · have hnot := (not_congr hfree).mp (not_not.mpr hb)
      rw [not_or] at hnot
      simp only [if_pos hb, reduceCtorEq, false_iff, not_exists, not_and, not_or]
      rintro d -
      refine ⟨fun hd => ?_, ?_⟩
      · have := hlen d hd
        rw [hc, List.length_singleton] at this
        exact hnot.1 (List.length_eq_zero_iff.mp (by omega))
      · rintro (⟨h, -⟩ | ⟨-, h⟩)
        · simp [h] at hL
        · exact hnot.2 h
    · simp only [if_neg hb, Option.some.injEq]
      constructor
      · rintro rfl
        refine ⟨c, rfl, ?_⟩
        rcases hfree.mp hb with hnil | hforgets
        · exact Or.inl (by rw [hnil, hc, List.nil_append])
        · exact Or.inr (Or.inr ⟨hc, hforgets⟩)
      · rintro ⟨d, rfl, hd | ⟨h, -⟩ | ⟨h, -⟩⟩
        · have := hlen d hd
          rw [hc, List.length_singleton] at this
          rw [List.length_eq_zero_iff.mp (by omega : (left.named coercer q).length = 0), hc] at hd
          injection hd with hd
          rw [hd]
        · simp [h] at hL
        · rw [hc] at h
          injection h with h
          rw [h]
  · -- The left side's column, whatever the right side has.
    obtain ⟨c, hc, rfl⟩ := sole_eq_some.mp hL
    rw [sole_eq_none] at hR
    rw [Option.some.injEq]
    constructor
    · rintro rfl
      refine ⟨c, rfl, ?_⟩
      rcases Nat.lt_or_ge (right.named coercer q).length 2 with hlt | hge
      · refine Or.inl ?_
        rw [List.length_eq_zero_iff.mp (by omega : (right.named coercer q).length = 0), hc,
          List.append_nil]
      · exact Or.inr (Or.inl ⟨hc, hge⟩)
    · rintro ⟨d, rfl, hd | ⟨h, -⟩ | ⟨h, -⟩⟩
      · have := hlen d hd
        rw [hc, List.length_singleton] at this
        rw [List.length_eq_zero_iff.mp (by omega : (right.named coercer q).length = 0), hc] at hd
        injection hd with hd
        rw [hd]
      · rw [hc] at h
        injection h with h
        rw [h]
      · simp [h] at hR
  · -- Both sides resolve the name: the merge drops it.
    obtain ⟨c, hc, -⟩ := sole_eq_some.mp hL
    obtain ⟨d, hd, -⟩ := sole_eq_some.mp hR
    simp only [reduceCtorEq, false_iff, not_exists, not_and, not_or]
    rintro e -
    refine ⟨fun he => ?_, ?_⟩
    · have := hlen e he
      simp [hc, hd] at this
    · rintro (⟨-, h⟩ | ⟨-, h, -⟩)
      · simp [hd] at h
      · simp [hc] at h

/-- The columns of two trees with separate ids are told apart by their ids. -/
lemma nodup_append (hl : left.Tracks coercer l) (hr : right.Tracks coercer r)
    (hids : (left.ids ++ right.ids).Nodup) :
    ((left.columns coercer ++ right.columns coercer).map (·.id)).Nodup := by
  rw [List.map_append, List.nodup_append']
  refine ⟨hl.nodup, hr.nodup, ?_⟩
  intro i hi hi'
  obtain ⟨c, hc, rfl⟩ := List.mem_map.mp hi
  obtain ⟨d, hd, hcd⟩ := List.mem_map.mp hi'
  refine (List.nodup_append'.mp hids).2.2 (hl.known c hc) ?_
  rw [← hcd]
  exact hr.known d hd

/-- A merge keeps track of a tree whose joins are tidy. -/
lemma tracks_join (hl : left.Tracks coercer l) (hr : right.Tracks coercer r)
    (hids : (join left right).ids.Nodup) (htidy : (join left right).Tidy coercer) :
    (join left right).Tracks coercer (l.join r) where
  output := by simp [PlanBuilder.join, columns, hl.output, hr.output]
  resolves q := by
    apply Option.ext
    intro i
    rw [lookup_join hl hr, sole_eq_some, named_join]
    simp only [htidy q, or_false, and_comm]
  marks q := by
    show q ∈ (l.outputMapping.merge r.outputMapping).ambiguousNames ↔ _
    rw [NameMappings.mem_ambiguousNames_merge, hl.marks, hl.resolves, hr.resolves,
      Option.isSome_iff_exists, Option.isSome_iff_exists]
    simp only [sole_eq_some, recordsAmbiguity, List.length_eq_one_iff]
    grind
  hidden i := by
    show i ∈ (l.outputMapping.merge r.outputMapping).hiddenIds ↔ _
    rw [NameMappings.mem_hiddenIds_merge, hl.hidden, hr.hidden]
    simp only [columns, List.mem_append]
    grind
  known c hc := by
    rw [columns, List.mem_append] at hc
    rw [ids, List.mem_append]
    exact hc.imp (hl.known c) (hr.known c)
  nodup := nodup_append hl hr hids

/-- A join that is not tidy resolves some name wrongly. -/
lemma tidy_of_resolves_join (hl : left.Tracks coercer l)
    (hr : right.Tracks coercer r)
    (h : ∀ q, (l.join r).outputMapping.lookup q = (join left right).sole coercer q) :
    (join left right).Tidy coercer := by
  intro q c hc
  have hsole := (h q).symm.trans ((lookup_join hl hr q c.id).mpr ⟨c, rfl, Or.inr hc⟩)
  obtain ⟨d, hd, -⟩ := sole_eq_some.mp hsole
  have hlen := congrArg List.length hd
  rw [named_join, List.length_append, List.length_singleton] at hlen
  rcases hc with ⟨h1, h2⟩ | ⟨h1, h2, -⟩
  · rw [h1, List.length_singleton] at hlen
    omega
  · rw [h1, List.length_singleton] at hlen
    omega

/-! ### Relations -/

/-- One column of a relation: its name is mapped unless other columns have it. -/
lemma lookup_of_addNamed {names : List String} {c : SourceColumn Ty} {m m₁ : NameMappings}
    (ha : m.ambiguousNames = []) (hstep : addNamed names m c = .ok m₁) :
    m₁.ambiguousNames = [] ∧ m₁.hiddenIds = m.hiddenIds ∧
      ∀ k i, m₁.lookup k = some i ↔ m.lookup k = some i ∨
        (k.alias = none ∧ names.count k.name < 2 ∧ c.name = some k.name ∧ c.id = i) := by
  unfold addNamed at hstep
  cases hname : c.name with
  | none =>
      rw [hname] at hstep
      injection hstep with hstep
      subst hstep
      exact ⟨ha, rfl, fun k i => by simp⟩
  | some name =>
      simp only [hname] at hstep
      split at hstep
      · next hcount =>
          obtain ⟨hm, ha₁, hh₁⟩ := NameMappings.of_addUserName hstep
          refine ⟨ha₁.trans ha, hh₁, fun k i => ?_⟩
          rw [NameMappings.lookup, hm, NameMappings.lookup]
          refine ⟨Or.inl, ?_⟩
          rintro (hk | ⟨-, hk, hkname, -⟩)
          · exact hk
          · cases hkname
            omega
      · next hcount =>
          rcases hadd : m.add ⟨none, name⟩ c.id with e | m₂
          · rw [hadd] at hstep
            cases hstep
          · rw [hadd] at hstep
            obtain ⟨hnone, hm₂, hl₂⟩ := NameMappings.lookup_of_add hadd (by simp [ha])
            have hlast : m₁.mappings = m₂.mappings ∧
                m₁.ambiguousNames = m₂.ambiguousNames ∧ m₁.hiddenIds = m₂.hiddenIds := by
              change (if c.id ≠ name then m₂.addUserName c.id name else pure m₂) = _ at hstep
              split at hstep
              · exact NameMappings.of_addUserName hstep
              · injection hstep with hstep
                subst hstep
                exact ⟨rfl, rfl, rfl⟩
            obtain ⟨hm₁, ha₁, hh₁⟩ := hlast
            refine ⟨by simp [ha₁, hm₂, ha], by simp [hh₁, hm₂], fun k i => ?_⟩
            have hlookup : m₁.lookup k = m₂.lookup k := by
              rw [NameMappings.lookup, hm₁, NameMappings.lookup]
            rw [hlookup, hl₂]
            rcases k with ⟨a, x⟩
            by_cases hk : (⟨a, x⟩ : QualifiedName) = ⟨none, name⟩
            · cases hk
              simp [hnone]
              omega
            · have : ¬ (a = none ∧ some name = some x) := by
                rintro ⟨rfl, hx⟩
                cases hx
                exact hk rfl
              simp only [if_neg hk]
              grind

/-- What the loop over a relation's columns maps: the names no other column of the relation has. -/
lemma lookup_of_foldlM_addNamed (names : List String) :
    ∀ (l : List (SourceColumn Ty)) (m m' : NameMappings), m.ambiguousNames = [] →
      l.foldlM (addNamed names) m = .ok m' →
      m'.ambiguousNames = [] ∧ m'.hiddenIds = m.hiddenIds ∧
        ∀ k i, m'.lookup k = some i ↔ m.lookup k = some i ∨
          (k.alias = none ∧ names.count k.name < 2 ∧
            ∃ c ∈ l, c.name = some k.name ∧ c.id = i)
  | [], m, m', ha, h => by
      cases h
      exact ⟨ha, rfl, fun k i => by simp⟩
  | c :: l, m, m', ha, h => by
      obtain ⟨m₁, hstep, h⟩ := foldlM_cons_eq_ok.mp h
      obtain ⟨ha₁, hh₁, hl₁⟩ := lookup_of_addNamed ha hstep
      obtain ⟨ha', hh', hl'⟩ := lookup_of_foldlM_addNamed names l m₁ m' ha₁ h
      refine ⟨ha', hh'.trans hh₁, fun k i => ?_⟩
      rw [hl', hl₁]
      simp only [List.mem_cons, exists_eq_or_imp]
      tauto

/-- How often a relation has a name. -/
lemma count_names (l : List (SourceColumn Ty)) (name : String) :
    (l.filterMap (·.name)).count name = (l.filter fun c => c.name == some name).length := by
  induction l with
  | nil => rfl
  | cons c l ih =>
      rcases hc : c.name with _ | x
      · simp [hc, ih]
      · by_cases hx : x = name
        · simp [hc, ih, hx]
        · simp [hc, ih, hx]

lemma hiddenIds_foldl_markHidden (i : ColumnId) :
    ∀ (l : List (SourceColumn Ty)) (m : NameMappings),
      (i ∈ (l.foldl (fun m c => m.markHidden c.id) m).hiddenIds ↔
        i ∈ m.hiddenIds ∨ ∃ c ∈ l, c.id = i) ∧
      (∀ k, (l.foldl (fun m c => m.markHidden c.id) m).lookup k = m.lookup k) ∧
      (l.foldl (fun m c => m.markHidden c.id) m).ambiguousNames = m.ambiguousNames
  | [], m => by simp
  | c :: l, m => by
      obtain ⟨hi, hl, ha⟩ := hiddenIds_foldl_markHidden i l (m.markHidden c.id)
      refine ⟨?_, hl, ha⟩
      rw [List.foldl_cons, hi]
      simp only [NameMappings.markHidden, List.mem_cons, exists_eq_or_imp]
      grind

/-- The column a name means in a relation. -/
lemma sole_relation (r : Relation Ty) (q : QualifiedName) (i : ColumnId) :
    (relation r).sole coercer q = some i ↔
      (q.alias = none ∨ r.alias = q.alias) ∧
        ∃ c, (r.columns.filter fun c => c.name == some q.name) = [c] ∧ c.id = i := by
  rw [sole_eq_some]
  have hnamed : (relation r).named coercer q = (r.columns.filter fun c =>
      c.name == some q.name && (q.alias.isNone || r.alias == q.alias)).map
        fun c => ⟨r.alias, c.name, c.id, c.type, c.hidden⟩ := by
    simp only [named, columns, List.filter_map]
    rfl
  rw [hnamed]
  by_cases hq : q.alias = none ∨ r.alias = q.alias
  · have hb : (q.alias.isNone || r.alias == q.alias) = true := by simpa using hq
    simp only [hb, Bool.and_true, hq, true_and]
    constructor
    · rintro ⟨c, hc, rfl⟩
      rw [List.map_eq_singleton_iff] at hc
      obtain ⟨d, hd, rfl⟩ := hc
      exact ⟨d, hd, rfl⟩
    · rintro ⟨c, hc, rfl⟩
      exact ⟨_, by rw [hc]; rfl, rfl⟩
  · have hb : (q.alias.isNone || r.alias == q.alias) = false := by
      rw [← Bool.not_eq_true]
      simpa using hq
    simp [hb, hq]

/-- The builder of a relation keeps track of it. -/
lemma tracks_relation {r : Relation Ty} {b : PlanBuilder Ty} (h : r.builder = .ok b)
    (hids : (relation r).ids.Nodup) : (relation r).Tracks coercer b := by
  unfold Relation.builder at h
  obtain ⟨m, hfold, h⟩ := bind_eq_ok.mp h
  obtain ⟨ha, hh, hl⟩ := lookup_of_foldlM_addNamed r.names r.columns {} m rfl hfold
  have hmark := fun i => hiddenIds_foldl_markHidden i (r.columns.filter (·.hidden)) m
  have hbase : ∀ (x : String) i, m.lookup ⟨none, x⟩ = some i ↔
      ∃ c, (r.columns.filter fun c => c.name == some x) = [c] ∧ c.id = i := by
    intro x i
    rw [hl]
    simp only [true_and, Relation.names, count_names]
    constructor
    · rintro (h | ⟨hcount, c, hc, hname, rfl⟩)
      · simp [NameMappings.lookup] at h
      · have hmem : c ∈ r.columns.filter fun c => c.name == some x := by
          simp [List.mem_filter, hc, hname]
        obtain ⟨d, hd⟩ := List.length_eq_one_iff.mp
          (le_antisymm (Nat.le_of_lt_succ hcount) (List.length_pos_of_mem hmem))
        rw [hd, List.mem_singleton] at hmem
        exact ⟨d, hd, by rw [hmem]⟩
    · rintro ⟨c, hc, rfl⟩
      have hmem : c ∈ r.columns.filter fun c => c.name == some x := by simp [hc]
      rw [List.mem_filter] at hmem
      exact Or.inr ⟨by simp [hc], c, hmem.1, by simpa using hmem.2, rfl⟩
  have hqualified : ∀ (a x : String), m.lookup ⟨some a, x⟩ = none := by
    intro a x
    rw [Option.eq_none_iff_forall_ne_some]
    intro i hi
    rcases (hl _ _).mp hi with h | ⟨h, -⟩
    · simp [NameMappings.lookup] at h
    · cases h
  have hhidden : ∀ i, i ∈ ((r.columns.filter (·.hidden)).foldl
      (fun m c => m.markHidden c.id) m).hiddenIds ↔
        ∃ c ∈ (relation r).columns coercer, c.id = i ∧ c.hidden := by
    intro i
    rw [(hmark i).1, hh]
    simp [columns, List.mem_filter]
    grind
  have hknown : ∀ c ∈ (relation r).columns coercer, c.id ∈ (relation r).ids := by
    intro c hc
    obtain ⟨d, hd, rfl⟩ := List.mem_map.mp hc
    exact List.mem_map_of_mem hd
  have hnodup : (((relation r).columns coercer).map (·.id)).Nodup := by
    rw [columns, List.map_map]
    exact hids
  injection h with h
  subst h
  cases halias : r.alias with
  | none =>
      refine ⟨by simp [columns], fun q => ?_, fun q => ?_, hhidden, hknown, hnodup⟩
      · apply Option.ext
        intro i
        simp only [(hmark i).2.1]
        rw [sole_relation, halias]
        rcases q with ⟨_ | a, x⟩
        · simp [hbase]
        · simp [hqualified]
      · simp [(hmark "").2.2, ha, recordsAmbiguity]
  | some a =>
      refine ⟨by simp [columns], fun q => ?_, fun q => ?_, fun i => ?_, hknown, hnodup⟩
      · apply Option.ext
        intro i
        simp only [NameMappings.lookup_setAlias, (hmark i).2.1, (hmark i).2.2, ha]
        rw [sole_relation, halias]
        rcases q with ⟨_ | b, x⟩
        · simp [hbase]
        · by_cases hab : b = a
          · subst hab
            simp [hbase]
          · have : ¬ a = b := fun h => hab h.symm
            simp [hab, this]
      · simp [(hmark "").2.2, ha, recordsAmbiguity]
      · simp only [NameMappings.hiddenIds_setAlias, hhidden]

/-! ### `USING` joins -/

/-- The names of one kept column. -/
lemma lookup_of_keepNames {source m m' : NameMappings} {id : ColumnId}
    (ha : m.ambiguousNames = []) (h : PlanBuilder.keepNames source m id = .ok m') :
    m'.ambiguousNames = [] ∧ m'.hiddenIds = m.hiddenIds ∧
      ∀ k i, m'.lookup k = some i ↔ m.lookup k = some i ∨ (id = i ∧ source.lookup k = some i) := by
  unfold PlanBuilder.keepNames at h
  obtain ⟨names, hnames, h⟩ := bind_eq_ok.mp h
  obtain ⟨m₁, hfold, h⟩ := bind_eq_ok.mp h
  obtain ⟨hm, ha', hh'⟩ := NameMappings.of_copyUserName h
  obtain ⟨ha₁, hh₁, hl₁, -, -⟩ :=
    NameMappings.lookup_of_foldlM_add (fun n => n) (fun _ => id) names m m₁ (by simp [ha]) hfold
  refine ⟨ha'.trans (ha₁.trans ha), hh'.trans hh₁, fun k i => ?_⟩
  rw [NameMappings.lookup, hm, ← NameMappings.lookup, hl₁]
  refine or_congr_right ?_
  simp only [NameMappings.mem_of_reverseLookup hnames]
  constructor
  · rintro ⟨n, hn, rfl, rfl⟩
    exact ⟨rfl, hn⟩
  · rintro ⟨rfl, hk⟩
    exact ⟨k, hk, rfl, rfl⟩

/-- The names of all kept columns. -/
lemma lookup_of_foldlM_keepNames (source : NameMappings) :
    ∀ (l : List ColumnId) (m m' : NameMappings), m.ambiguousNames = [] →
      l.foldlM (PlanBuilder.keepNames source) m = .ok m' →
      m'.ambiguousNames = [] ∧ m'.hiddenIds = m.hiddenIds ∧
        ∀ k i, m'.lookup k = some i ↔ m.lookup k = some i ∨ (i ∈ l ∧ source.lookup k = some i)
  | [], m, m', ha, h => by
      cases h
      exact ⟨ha, rfl, fun k i => by simp⟩
  | id :: l, m, m', ha, h => by
      obtain ⟨m₁, hstep, h⟩ := foldlM_cons_eq_ok.mp h
      obtain ⟨ha₁, hh₁, hl₁⟩ := lookup_of_keepNames ha hstep
      obtain ⟨ha', hh', hl'⟩ := lookup_of_foldlM_keepNames source l m₁ m' ha₁ h
      refine ⟨ha', hh'.trans hh₁, fun k i => ?_⟩
      rw [hl', hl₁, List.mem_cons]
      grind

/-- The type a builder finds for a column. -/
lemma findChild_eq {t : JoinTree Ty} {b : PlanBuilder Ty} (ht : t.Tracks coercer b) {c : Column Ty}
    (hc : c ∈ t.columns coercer) : PlanBuilder.findChild b.outputType c.id = .ok c.type := by
  have hfind : b.outputType.find? (·.1 == c.id) = some (c.id, c.type) := by
    have hnodup := ht.nodup
    rw [ht.output]
    generalize t.columns coercer = l at hc hnodup
    induction l with
    | nil => cases hc
    | cons d l ih =>
        rw [List.map_cons, List.nodup_cons] at hnodup
        rw [List.map_cons, List.find?_cons]
        rcases List.mem_cons.mp hc with rfl | hc
        · simp
        · have hne : (d.id == c.id) = false := by
            rw [beq_eq_false_iff_ne]
            intro heq
            exact hnodup.1 (heq ▸ List.mem_map_of_mem hc)
          simp only [hne]
          exact ih hc hnodup.2
  rw [PlanBuilder.findChild, hfind]

/-- A `USING` column is a new column or that of one side. -/
lemma usingOutput_id (joinType : JoinType) (u : UsingColumn) (leftType rightType : Ty)
    (common : Option Ty) :
    (PlanBuilder.usingOutput joinType u leftType rightType common).1 = u.newId ∨
      (PlanBuilder.usingOutput joinType u leftType rightType common).1 = u.leftId ∨
      (PlanBuilder.usingOutput joinType u leftType rightType common).1 = u.rightId := by
  unfold PlanBuilder.usingOutput
  cases joinType <;> cases common <;> simp <;> split <;> simp

/-- The output column of a `USING` column is the copy the query means. -/
lemma usingCopy_of_projectUsing (hl : left.Tracks coercer l) (hr : right.Tracks coercer r)
    {joinType : JoinType} {n : UsingName} {u : UsingColumn} {o : String × ColumnId × Ty}
    (hu : l.usingColumn r n = .ok u) (ho : l.projectUsing coercer r joinType u = .ok o) :
    ∃ c d, left.named coercer ⟨none, n.name⟩ = [c] ∧ right.named coercer ⟨none, n.name⟩ = [d] ∧
      u.leftId = c.id ∧ u.rightId = d.id ∧ o.1 = n.name ∧
      usingCopy coercer joinType (left.columns coercer) (right.columns coercer) n =
        some ⟨none, some o.1, o.2.1, o.2.2, false⟩ ∧
      (o.2.1 = n.newId ∨ o.2.1 = c.id ∨ o.2.1 = d.id) := by
  unfold PlanBuilder.usingColumn at hu
  rw [hl.resolves, hr.resolves] at hu
  rcases hL : left.sole coercer ⟨none, n.name⟩ with _ | i
  · rw [hL] at hu
    cases hu
  · rcases hR : right.sole coercer ⟨none, n.name⟩ with _ | j
    · rw [hL, hR] at hu
      cases hu
    · rw [hL, hR] at hu
      obtain ⟨c, hc, rfl⟩ := sole_eq_some.mp hL
      obtain ⟨d, hd, rfl⟩ := sole_eq_some.mp hR
      injection hu with hu
      subst hu
      have hcmem : c ∈ left.columns coercer := (mem_named.mp (by rw [hc]; simp)).1
      have hdmem : d ∈ right.columns coercer := (mem_named.mp (by rw [hd]; simp)).1
      refine ⟨c, d, hc, hd, rfl, rfl, ?_⟩
      obtain ⟨leftType, hleft, ho⟩ := bind_eq_ok.mp ho
      obtain ⟨rightType, hright, ho⟩ := bind_eq_ok.mp ho
      obtain ⟨common, hcommon, ho⟩ := bind_eq_ok.mp ho
      rw [findChild_eq hl hcmem] at hleft
      rw [findChild_eq hr hdmem] at hright
      cases hleft
      cases hright
      cases ho
      refine ⟨rfl, ?_, usingOutput_id ..⟩
      rw [usingCopy, soleOf_eq_some.mpr hc, soleOf_eq_some.mpr hd]
      simp only [hcommon]

/-- A column that keeps a name through the merge and is not hidden. -/
def Survives (coercer : Coercer Ty) (left right : JoinTree Ty) (q : QualifiedName)
    (c : Column Ty) : Prop :=
  c.hidden = false ∧
    (left.named coercer q ++ right.named coercer q = [c] ∨ left.Escapes coercer right q c)

/-- The columns of both sides that a `USING` join keeps beside its copies. -/
def others (coercer : Coercer Ty) (left right : JoinTree Ty) (names : List UsingName) :
    List (Column Ty) :=
  (left.columns coercer ++ right.columns coercer).filter fun c =>
    !c.hidden && !names.any fun n => c.name == some n.name

lemma mem_others {names : List UsingName} {c : Column Ty} :
    c ∈ others coercer left right names ↔
      c ∈ left.columns coercer ++ right.columns coercer ∧ c.hidden = false ∧
        ∀ n ∈ names, c.name ≠ some n.name := by
  simp only [others, List.mem_filter, Bool.and_eq_true, Bool.not_eq_true', List.any_eq_false,
    beq_iff_eq]

/-- A column named by both sides answers to the name. -/
lemma mem_both {q : QualifiedName} {c : Column Ty} :
    c ∈ left.named coercer q ++ right.named coercer q ↔
      c ∈ left.columns coercer ++ right.columns coercer ∧ c.answersTo q = true := by
  simp only [List.mem_append, mem_named, or_and_right]

lemma Survives.mem_kept {q : QualifiedName} {c : Column Ty}
    (h : Survives coercer left right q c) : c ∈ left.kept coercer right q := by
  refine List.mem_filter.mpr ⟨?_, by simp [h.1]⟩
  rcases h.2 with h | ⟨h, -⟩ | ⟨h, -⟩
  · simp [h]
  · simp [h]
  · simp [h]

/-- What a successful `USING` join has done: its copies, the names it collects, and the mapping. -/
structure Projects (coercer : Coercer Ty) (left right : JoinTree Ty) (names : List UsingName)
    (joinType : JoinType) (b : PlanBuilder Ty) (outputs : List (String × ColumnId × Ty))
    (collected : NameMappings) : Prop where
  copies : names.filterMap
      (usingCopy coercer joinType (left.columns coercer) (right.columns coercer)) =
    outputs.map fun o => ⟨none, some o.1, o.2.1, o.2.2, false⟩
  names_eq : outputs.map (·.1) = names.map (·.name)
  nodup : (names.map (·.name)).Nodup
  output : b.outputType = outputs.map Prod.snd ++
    (others coercer left right names).map fun c => (c.id, c.type)
  marks : b.outputMapping.ambiguousNames = []
  hidden : b.outputMapping.hiddenIds = []
  collected_iff : ∀ q i, collected.lookup q = some i ↔
    (∃ o ∈ outputs, (⟨none, o.1⟩ : QualifiedName) = q ∧ o.2.1 = i) ∨
      ((∀ n ∈ names, n.name ≠ q.name) ∧ ∃ c, c.id = i ∧ Survives coercer left right q c)
  lookup_iff : ∀ q i, b.outputMapping.lookup q = some i ↔ collected.lookup q = some i ∨
    (q.alias = none ∧ collected.countOf q.name = 1 ∧
      ∃ a, collected.lookup ⟨some a, q.name⟩ = some i)
  sources : List.Forall₂ (fun n o => o.2.1 = n.newId ∨
    ∃ c ∈ left.columns coercer ++ right.columns coercer, c.name = some n.name ∧ c.id = o.2.1)
      names outputs

/-- The outputs of a `USING` list are the copies a query means. -/
lemma copies_of_outputs (hl : left.Tracks coercer l) (hr : right.Tracks coercer r)
    {joinType : JoinType} {names : List UsingName} {us : List UsingColumn}
    {outputs : List (String × ColumnId × Ty)}
    (hus : List.Forall₂ (fun n u => l.usingColumn r n = .ok u) names us)
    (houts : List.Forall₂ (fun u o => l.projectUsing coercer r joinType u = .ok o) us outputs) :
    names.filterMap
        (usingCopy coercer joinType (left.columns coercer) (right.columns coercer)) =
      (outputs.map fun o => ⟨none, some o.1, o.2.1, o.2.2, false⟩) ∧
    outputs.map (·.1) = names.map (·.name) ∧
    List.Forall₂ (fun n o => o.2.1 = n.newId ∨
      ∃ c ∈ left.columns coercer ++ right.columns coercer,
        c.name = some n.name ∧ c.id = o.2.1) names outputs ∧
    ∀ i, PlanBuilder.containsId us i = true ↔
      ∃ c ∈ left.columns coercer ++ right.columns coercer, c.id = i ∧
        ∃ n ∈ names, c.name = some n.name := by
  induction hus generalizing outputs with
  | nil =>
      cases houts
      simp [PlanBuilder.containsId]
  | @cons n u names us hu hus ih =>
      rcases houts with _ | ⟨ho, houts⟩
      rename_i o outputs
      obtain ⟨hcopies, hnames, hids, hcontains⟩ := ih houts
      obtain ⟨c, d, hc, hd, hleft, hright, hname, hcopy, hid⟩ :=
        usingCopy_of_projectUsing hl hr hu ho
      have hcmem := mem_named.mp (by rw [hc]; exact List.mem_singleton_self c :
        c ∈ left.named coercer ⟨none, n.name⟩)
      have hdmem := mem_named.mp (by rw [hd]; exact List.mem_singleton_self d :
        d ∈ right.named coercer ⟨none, n.name⟩)
      have hcname := (answersTo_iff.mp hcmem.2).1
      have hdname := (answersTo_iff.mp hdmem.2).1
      refine ⟨?_, ?_, ?_, fun i => ?_⟩
      · rw [List.filterMap_cons_some hcopy, hcopies, List.map_cons]
      · rw [List.map_cons, List.map_cons, hname, hnames]
      · refine .cons (hid.imp_right ?_) hids
        rintro (h | h)
        · exact ⟨c, List.mem_append_left _ hcmem.1, hcname, h.symm⟩
        · exact ⟨d, List.mem_append_right _ hdmem.1, hdname, h.symm⟩
      · have hone : (i == u.leftId || i == u.rightId) = true ↔
            ∃ e ∈ left.columns coercer ++ right.columns coercer, e.id = i ∧
              e.name = some n.name := by
          rw [hleft, hright, Bool.or_eq_true, beq_iff_eq, beq_iff_eq]
          constructor
          · rintro (rfl | rfl)
            · exact ⟨c, List.mem_append_left _ hcmem.1, rfl, hcname⟩
            · exact ⟨d, List.mem_append_right _ hdmem.1, rfl, hdname⟩
          · rintro ⟨e, he, rfl, hen⟩
            have hans : e.answersTo ⟨none, n.name⟩ = true := answersTo_iff.mpr ⟨hen, Or.inl rfl⟩
            rcases List.mem_append.mp he with he | he
            · have := mem_named.mpr ⟨he, hans⟩
              rw [hc, List.mem_singleton] at this
              exact Or.inl (by rw [this])
            · have := mem_named.mpr ⟨he, hans⟩
              rw [hd, List.mem_singleton] at this
              exact Or.inr (by rw [this])
        show ((i == u.leftId || i == u.rightId) || PlanBuilder.containsId us i) = true ↔ _
        rw [Bool.or_eq_true, hone, hcontains]
        simp only [List.mem_cons, exists_eq_or_imp]
        grind

lemma projects_of_joinUsing (hl : left.Tracks coercer l) (hr : right.Tracks coercer r)
    {names : List UsingName} {joinType : JoinType} {b : PlanBuilder Ty}
    (hids : (left.ids ++ right.ids).Nodup)
    (h : l.joinUsing coercer r names joinType = .ok b) :
    ∃ outputs collected, Projects coercer left right names joinType b outputs collected := by
  unfold PlanBuilder.joinUsing at h
  by_cases hempty : names.isEmpty = true
  · rw [if_pos hempty] at h
    cases h
  rw [if_neg hempty] at h
  obtain ⟨us, hus, h⟩ := bind_eq_ok.mp h
  obtain ⟨outputs, houts, h⟩ := bind_eq_ok.mp h
  obtain ⟨hcopies, hnames, hsources, hcontains⟩ :=
    copies_of_outputs hl hr (forall₂_of_mapM hus) (forall₂_of_mapM houts)
  have hinj := List.inj_on_of_nodup_map (nodup_append hl hr hids)
  unfold PlanBuilder.addJoinUsingProjection at h
  have hkept : ((l.join r).outputType.filter fun c =>
      !PlanBuilder.containsId us c.1 && !(l.join r).outputMapping.isHidden c.1) =
        (others coercer left right names).map fun c => (c.id, c.type) := by
    have houtput : (l.join r).outputType =
        (left.columns coercer ++ right.columns coercer).map fun c => (c.id, c.type) := by
      rw [PlanBuilder.join, List.map_append, hl.output, hr.output]
    rw [houtput, List.filter_map]
    refine congrArg (List.map _) (List.filter_congr fun c hc => ?_)
    have husing : PlanBuilder.containsId us c.id = names.any fun n => c.name == some n.name := by
      rw [Bool.eq_iff_iff, hcontains, List.any_eq_true]
      constructor
      · rintro ⟨d, hd, hdc, n, hn, hname⟩
        exact ⟨n, hn, by simpa [hinj hd hc hdc] using hname⟩
      · rintro ⟨n, hn, hname⟩
        exact ⟨c, hc, rfl, n, hn, by simpa using hname⟩
    have hhidden : (l.join r).outputMapping.isHidden c.id = c.hidden := by
      rw [Bool.eq_iff_iff, NameMappings.isHidden, List.contains_iff_mem]
      show c.id ∈ (l.outputMapping.merge r.outputMapping).hiddenIds ↔ _
      rw [NameMappings.mem_hiddenIds_merge, hl.hidden, hr.hidden]
      constructor
      · rintro (⟨d, hd, hdc, hh⟩ | ⟨d, hd, hdc, hh⟩)
        · rwa [hinj (List.mem_append_left _ hd) hc hdc] at hh
        · rwa [hinj (List.mem_append_right _ hd) hc hdc] at hh
      · intro hh
        rcases List.mem_append.mp hc with hc | hc
        · exact Or.inl ⟨c, hc, rfl, hh⟩
        · exact Or.inr ⟨c, hc, rfl, hh⟩
    simp only [Function.comp_apply, husing, hhidden, Bool.and_comm]
  simp only [hkept] at h
  obtain ⟨m₁, hm₁, h⟩ := bind_eq_ok.mp h
  obtain ⟨m₂, hm₂, h⟩ := bind_eq_ok.mp h
  obtain ⟨m₃, hm₃, h⟩ := bind_eq_ok.mp h
  cases h
  obtain ⟨ha₁, hh₁, hl₁, hnd₁, -⟩ := NameMappings.lookup_of_foldlM_add
    (fun o : String × ColumnId × Ty => ⟨none, o.1⟩) (fun o => o.2.1) outputs {} m₁
    (fun _ _ => List.not_mem_nil) hm₁
  obtain ⟨ha₂, hh₂, hl₂⟩ := lookup_of_foldlM_keepNames _ _ m₁ m₂ ha₁ hm₂
  obtain ⟨ha₃, hh₃, hl₃⟩ := NameMappings.lookup_of_enableUnqualifiedAccess (by simp [ha₂]) hm₃
  refine ⟨outputs, m₂, hcopies, hnames, ?_, rfl, ha₃.trans ha₂, (hh₃.trans hh₂).trans hh₁, ?_,
    hl₃, hsources⟩
  · rw [← hnames]
    refine List.Nodup.of_map (fun x => (⟨none, x⟩ : QualifiedName)) ?_
    rw [List.map_map]
    exact hnd₁
  · intro q i
    rw [hl₂, hl₁]
    have hempty' : ({} : NameMappings).lookup q = none := rfl
    simp only [hempty', reduceCtorEq, false_or]
    refine or_congr_right ?_
    rw [lookup_join hl hr]
    simp only [List.map_map, List.mem_map, Function.comp_apply, mem_others]
    constructor
    · rintro ⟨⟨d, ⟨hd, hdh, hdn⟩, rfl⟩, c, hcd, hc⟩
      have hcmem : c ∈ left.named coercer q ++ right.named coercer q := by
        rcases hc with hc | ⟨hc, -⟩ | ⟨hc, -⟩ <;> simp [hc]
      have hcmem' := mem_both.mp hcmem
      obtain rfl := hinj hcmem'.1 hd hcd
      refine ⟨fun n hn hnq => ?_, c, rfl, hdh, hc⟩
      exact hdn n hn ((answersTo_iff.mp hcmem'.2).1.trans (by rw [hnq]))
    · rintro ⟨hnq, c, rfl, hch, hc⟩
      have hcmem : c ∈ left.named coercer q ++ right.named coercer q := by
        rcases hc with hc | ⟨hc, -⟩ | ⟨hc, -⟩ <;> simp [hc]
      have hcmem' := mem_both.mp hcmem
      refine ⟨⟨c, ⟨hcmem'.1, hch, fun n hn hname => ?_⟩, rfl⟩, c, rfl, hc⟩
      rw [(answersTo_iff.mp hcmem'.2).1] at hname
      injection hname with hname
      exact hnq n hn hname.symm

namespace Projects

variable {names : List UsingName} {joinType : JoinType} {b : PlanBuilder Ty}
  {outputs : List (String × ColumnId × Ty)} {collected : NameMappings}

lemma columns_eq (h : Projects coercer left right names joinType b outputs collected) :
    (joinUsing left right names joinType).columns coercer =
      (outputs.map fun o => ⟨none, some o.1, o.2.1, o.2.2, false⟩) ++
        others coercer left right names := by
  rw [columns, h.copies]
  rfl

/-- A name outside the `USING` list has the columns that the join keeps. -/
lemma named_of_not_using (h : Projects coercer left right names joinType b outputs collected)
    {q : QualifiedName} (hq : ∀ n ∈ names, n.name ≠ q.name) :
    (joinUsing left right names joinType).named coercer q = left.kept coercer right q := by
  have hcopies : (outputs.map fun o => (⟨none, some o.1, o.2.1, o.2.2, false⟩ : Column Ty)).filter
      (·.answersTo q) = [] := by
    rw [List.filter_eq_nil_iff]
    intro c hc hans
    obtain ⟨o, ho, rfl⟩ := List.mem_map.mp hc
    have hname := (answersTo_iff.mp hans).1
    injection hname with hname
    have : o.1 ∈ names.map (·.name) := h.names_eq ▸ List.mem_map_of_mem ho
    obtain ⟨n, hn, hno⟩ := List.mem_map.mp this
    exact hq n hn (hno.trans hname)
  rw [named, h.columns_eq, List.filter_append, hcopies, List.nil_append, others, kept, named, named,
    ← List.filter_append, List.filter_filter, List.filter_filter]
  refine List.filter_congr fun c _ => ?_
  by_cases hans : c.answersTo q = true
  · have hname := (answersTo_iff.mp hans).1
    have hother : (names.any fun n => c.name == some n.name) = false := by
      rw [List.any_eq_false]
      intro n hn hc
      have hc : c.name = some n.name := by simpa using hc
      rw [hname] at hc
      injection hc with hc
      exact hq n hn hc.symm
    simp [hans, hother]
  · simp [hans]

/-- A name of the `USING` list means its copy, and only without an alias. -/
lemma lookup_of_using (h : Projects coercer left right names joinType b outputs collected)
    {q : QualifiedName} (hq : ∃ n ∈ names, n.name = q.name) :
    b.outputMapping.lookup q = (joinUsing left right names joinType).sole coercer q := by
  obtain ⟨n, hn, hnq⟩ := hq
  have hcollected : ∀ i, collected.lookup q = some i ↔
      ∃ o ∈ outputs, (⟨none, o.1⟩ : QualifiedName) = q ∧ o.2.1 = i := by
    intro i
    rw [h.collected_iff]
    refine or_iff_left ?_
    rintro ⟨hne, -⟩
    exact hne n hn hnq
  have hothers : (others coercer left right names).filter (·.answersTo q) = [] := by
    rw [List.filter_eq_nil_iff]
    intro c hc hans
    exact (mem_others.mp hc).2.2 n hn ((answersTo_iff.mp hans).1.trans (by rw [hnq]))
  have hnamed : (joinUsing left right names joinType).named coercer q =
      (outputs.map fun o => (⟨none, some o.1, o.2.1, o.2.2, false⟩ : Column Ty)).filter
        (·.answersTo q) := by
    rw [named, h.columns_eq, List.filter_append, hothers, List.append_nil]
  apply Option.ext
  intro i
  rw [h.lookup_iff, hcollected, sole_eq_some, hnamed]
  obtain ⟨o, ho, hon⟩ := List.mem_map.mp
    (h.names_eq ▸ List.mem_map_of_mem hn : n.name ∈ outputs.map (·.1))
  rcases q with ⟨_ | a, x⟩
  · have hnd : (outputs.map (·.1)).Nodup := h.names_eq ▸ h.nodup
    have hsame : ∀ o' ∈ outputs, o'.1 = x → o' = o := fun o' ho' hx =>
      List.inj_on_of_nodup_map hnd ho' ho (hx.trans (hnq.symm.trans hon.symm))
    have hfilter : (outputs.filter fun o => o.1 == x) = [o] := by
      refine List.perm_singleton.mp ((List.perm_ext_iff_of_nodup
        ((List.Nodup.of_map _ hnd).filter _) (List.nodup_singleton o)).mpr fun o' => ?_)
      rw [List.mem_filter, List.mem_singleton, beq_iff_eq]
      constructor
      · rintro ⟨ho', hx⟩
        exact hsame o' ho' hx
      · rintro rfl
        exact ⟨ho, hon.trans hnq⟩
    have hone : (outputs.map fun o =>
        (⟨none, some o.1, o.2.1, o.2.2, false⟩ : Column Ty)).filter (·.answersTo ⟨none, x⟩) =
          [⟨none, some o.1, o.2.1, o.2.2, false⟩] := by
      rw [List.filter_map]
      have : ((·.answersTo ⟨none, x⟩) ∘ fun o : String × ColumnId × Ty =>
          (⟨none, some o.1, o.2.1, o.2.2, false⟩ : Column Ty)) = fun o => o.1 == x := by
        funext o
        simp [Column.answersTo]
      rw [this, hfilter, List.map_singleton]
    rw [hone]
    constructor
    · rintro (⟨o', ho', hx, rfl⟩ | ⟨-, -, a, ha⟩)
      · injection hx with _ hx
        obtain rfl := hsame o' ho' hx
        exact ⟨_, rfl, rfl⟩
      · rcases (h.collected_iff _ _).mp ha with ⟨o', -, hx, -⟩ | ⟨hne, -⟩
        · cases hx
        · exact absurd hnq (hne n hn)
    · rintro ⟨c, hc, rfl⟩
      cases hc
      exact Or.inl ⟨o, ho, by rw [hon, hnq], rfl⟩
  · have hnil : (outputs.map fun o =>
        (⟨none, some o.1, o.2.1, o.2.2, false⟩ : Column Ty)).filter (·.answersTo ⟨some a, x⟩) =
          [] := by
      rw [List.filter_eq_nil_iff]
      intro c hc hans
      obtain ⟨o', -, rfl⟩ := List.mem_map.mp hc
      simp [Column.answersTo] at hans
    rw [hnil]
    simp

/-- What a name outside the `USING` list means after the projection. -/
lemma lookup_of_not_using (h : Projects coercer left right names joinType b outputs collected)
    {q : QualifiedName} (hq : ∀ n ∈ names, n.name ≠ q.name) (i : ColumnId) :
    b.outputMapping.lookup q = some i ↔
      (∃ c, c.id = i ∧ Survives coercer left right q c) ∨
      (q.alias = none ∧ (∃! k : QualifiedName, k.name = q.name ∧
          ∃ c, Survives coercer left right k c) ∧
        ∃ a c, c.id = i ∧ Survives coercer left right ⟨some a, q.name⟩ c) := by
  have hcollected : ∀ k : QualifiedName, k.name = q.name → ∀ j, collected.lookup k = some j ↔
      ∃ c, c.id = j ∧ Survives coercer left right k c := by
    intro k hk j
    rw [h.collected_iff]
    constructor
    · rintro (⟨o, ho, rfl, -⟩ | ⟨-, hc⟩)
      · obtain ⟨n, hn, hno⟩ := List.mem_map.mp
          (h.names_eq ▸ List.mem_map_of_mem ho : o.1 ∈ names.map (·.name))
        exact absurd (hno.trans hk) (hq n hn)
      · exact hc
    · intro hc
      exact Or.inr ⟨fun n hn => hk ▸ hq n hn, hc⟩
  have hunique : collected.countOf q.name = 1 ↔ ∃! k : QualifiedName, k.name = q.name ∧
      ∃ c, Survives coercer left right k c := by
    rw [NameMappings.countOf_eq_one_iff]
    refine existsUnique_congr fun k => and_congr_right fun hk => ?_
    rw [Option.isSome_iff_exists]
    simp only [hcollected k hk]
    constructor
    · rintro ⟨j, c, -, hc⟩
      exact ⟨c, hc⟩
    · rintro ⟨c, hc⟩
      exact ⟨c.id, c, rfl, hc⟩
  rw [h.lookup_iff, hcollected q rfl, hunique]
  refine or_congr_right (and_congr_right fun _ => and_congr_right fun _ => ?_)
  exact exists_congr fun a => hcollected ⟨some a, q.name⟩ rfl i

/-- Where the id of a copy comes from. -/
lemma exists_source (h : Projects coercer left right names joinType b outputs collected)
    {o : String × ColumnId × Ty} (ho : o ∈ outputs) :
    ∃ n ∈ names, n.name = o.1 ∧ (o.2.1 = n.newId ∨
      ∃ c ∈ left.columns coercer ++ right.columns coercer, c.name = some o.1 ∧ c.id = o.2.1) := by
  have hnames := h.names_eq
  have hids := h.sources
  clear h
  induction hids with
  | nil => cases ho
  | @cons n o' names outputs hno hrest ih =>
      rw [List.map_cons, List.map_cons, List.cons.injEq] at hnames
      rcases List.mem_cons.mp ho with rfl | ho
      · refine ⟨n, List.mem_cons_self, hnames.1.symm, ?_⟩
        rw [hnames.1]
        exact hno
      · obtain ⟨n', hn', hrest⟩ := ih ho hnames.2
        exact ⟨n', List.mem_cons_of_mem _ hn', hrest⟩

/-- The copies and the kept columns have distinct ids, known to the tree. -/
lemma ids_nodup (h : Projects coercer left right names joinType b outputs collected)
    (hl : left.Tracks coercer l) (hr : right.Tracks coercer r)
    (hids : (joinUsing left right names joinType).ids.Nodup) :
    (∀ c ∈ (joinUsing left right names joinType).columns coercer,
      c.id ∈ (joinUsing left right names joinType).ids) ∧
    (((joinUsing left right names joinType).columns coercer).map (·.id)).Nodup := by
  rw [ids, List.nodup_append'] at hids
  obtain ⟨hsides, hnew, hdisjoint⟩ := hids
  have hboth := nodup_append hl hr hsides
  have hinj := List.inj_on_of_nodup_map hboth
  have hknown : ∀ c ∈ left.columns coercer ++ right.columns coercer,
      c.id ∈ left.ids ++ right.ids := by
    intro c hc
    rw [List.mem_append] at hc ⊢
    exact hc.imp (hl.known c) (hr.known c)
  have hfresh : ∀ n ∈ names, ∀ c ∈ left.columns coercer ++ right.columns coercer,
      n.newId ≠ c.id := by
    intro n hn c hc heq
    exact hdisjoint (hknown c hc) (heq ▸ List.mem_map_of_mem hn)
  rw [h.columns_eq]
  refine ⟨fun c hc => ?_, ?_⟩
  · rw [ids, List.mem_append]
    rcases List.mem_append.mp hc with hc | hc
    · obtain ⟨o, ho, rfl⟩ := List.mem_map.mp hc
      obtain ⟨n, hn, -, hid | ⟨c, hc, -, hid⟩⟩ := h.exists_source ho
      · exact Or.inr (hid ▸ List.mem_map_of_mem hn)
      · exact Or.inl (hid ▸ hknown c hc)
    · exact Or.inl (hknown c (mem_others.mp hc).1)
  · rw [List.map_append, List.map_map, List.nodup_append']
    refine ⟨?_, hboth.sublist (List.filter_sublist.map _), ?_⟩
    · have hnd : (outputs.map (·.1)).Nodup := h.names_eq ▸ h.nodup
      refine List.Nodup.map_on ?_ (List.Nodup.of_map _ hnd)
      intro o ho o' ho' (heq : o.2.1 = o'.2.1)
      have hsuffices : o.1 = o'.1 → o = o' := List.inj_on_of_nodup_map hnd ho ho'
      apply hsuffices
      obtain ⟨n, hn, hno, hid | ⟨c, hc, hcname, hid⟩⟩ := h.exists_source ho
      · obtain ⟨n', hn', hno', hid' | ⟨c', hc', -, hid'⟩⟩ := h.exists_source ho'
        · have : n.newId = n'.newId := hid.symm.trans (heq.trans hid')
          rw [← hno, ← hno', List.inj_on_of_nodup_map hnew hn hn' this]
        · exact absurd (hid.symm.trans (heq.trans hid'.symm)) (hfresh n hn c' hc')
      · obtain ⟨n', hn', hno', hid' | ⟨c', hc', hcname', hid'⟩⟩ := h.exists_source ho'
        · exact absurd (hid'.symm.trans (heq.symm.trans hid.symm)) (hfresh n' hn' c hc)
        · have := hinj hc hc' (hid.trans (heq.trans hid'.symm))
          rw [this, hcname'] at hcname
          injection hcname with hcname
          exact hcname.symm
    · intro i hi hi'
      obtain ⟨o, ho, rfl⟩ := List.mem_map.mp hi
      obtain ⟨d, hd, hdo⟩ := List.mem_map.mp hi'
      obtain ⟨hd, -, hdn⟩ := mem_others.mp hd
      obtain ⟨n, hn, hno, hid | ⟨c, hc, hcname, hid⟩⟩ := h.exists_source ho
      · exact hfresh n hn d hd (hid.symm.trans hdo.symm)
      · have := hinj hc hd (hid.trans hdo.symm)
        exact hdn n hn (by rw [← this, hcname, hno])

end Projects

/-! ### Which names survive a `USING` join -/

lemma mem_kept {q : QualifiedName} {c : Column Ty} :
    c ∈ left.kept coercer right q ↔
      c ∈ left.named coercer q ++ right.named coercer q ∧ c.hidden = false := by
  simp [kept, List.mem_filter, or_and_right]

/-- A name escapes only where it is ambiguous. -/
lemma Escapes.two_le {q : QualifiedName} {c : Column Ty} (h : left.Escapes coercer right q c) :
    2 ≤ (left.named coercer q ++ right.named coercer q).length := by
  rw [List.length_append]
  rcases h with ⟨-, h⟩ | ⟨-, h, -⟩
  · omega
  · omega

/-- A name that is not ambiguous survives as the only column it has. -/
lemma survives_iff_of_lt {q : QualifiedName}
    (hlt : (left.named coercer q ++ right.named coercer q).length < 2) (c : Column Ty) :
    Survives coercer left right q c ↔ left.kept coercer right q = [c] := by
  have hno : ¬ left.Escapes coercer right q c := fun h => by
    have := h.two_le
    omega
  rw [Survives, or_iff_left hno, kept]
  generalize left.named coercer q ++ right.named coercer q = l at hlt
  rcases l with _ | ⟨d, _ | ⟨e, l⟩⟩
  · simp
  · by_cases hd : d.hidden = true
    · simp only [List.filter_cons, hd, Bool.not_true, Bool.false_eq_true, if_false,
        List.filter_nil, List.cons.injEq, and_true]
      constructor
      · rintro ⟨hc, rfl⟩
        rw [hd] at hc
        cases hc
      · intro h
        cases h
    · have hd : d.hidden = false := by simpa using hd
      simp only [List.filter_cons, hd, Bool.not_false, if_true, List.filter_nil, List.cons.injEq,
        and_true]
      constructor
      · exact fun h => h.2
      · rintro rfl
        exact ⟨hd, rfl⟩
  · simp only [List.length_cons] at hlt
    omega

/-- An ambiguous name survives only by escaping. -/
lemma survives_iff_of_two_le {q : QualifiedName}
    (hle : 2 ≤ (left.named coercer q ++ right.named coercer q).length) (c : Column Ty) :
    Survives coercer left right q c ↔ left.Escapes coercer right q c ∧ c.hidden = false := by
  have hno : ¬ left.named coercer q ++ right.named coercer q = [c] := fun h => by
    rw [h, List.length_singleton] at hle
    omega
  rw [Survives, or_iff_right hno, and_comm]

/-- Through an alias, an ambiguous name survives as it should if it escapes to its only kept column
or not at all. -/
lemma survives_qualified_iff {q : QualifiedName}
    (hle : 2 ≤ (left.named coercer q ++ right.named coercer q).length) :
    (∀ c, Survives coercer left right q c ↔ left.kept coercer right q = [c]) ↔
      ((left.kept coercer right q).length = 1 ↔
        ∃ c, left.Escapes coercer right q c ∧ c.hidden = false) := by
  simp only [← survives_iff_of_two_le hle, List.length_eq_one_iff]
  constructor
  · intro h
    exact exists_congr fun c => (h c).symm
  · intro h c
    constructor
    · intro hc
      obtain ⟨d, hd⟩ := h.mpr ⟨c, hc⟩
      have := hc.mem_kept
      rw [hd, List.mem_singleton] at this
      rw [hd, this]
    · intro hc
      obtain ⟨d, hd⟩ := h.mp ⟨c, hc⟩
      have := hd.mem_kept
      rw [hc, List.mem_singleton] at this
      exact this ▸ hd

/-- The columns kept under an alias are among those kept under the bare name. -/
lemma kept_qualified_sublist (coercer : Coercer Ty) (left right : JoinTree Ty) (a name : String) :
    (left.kept coercer right ⟨some a, name⟩).Sublist (left.kept coercer right ⟨none, name⟩) :=
  ((named_qualified_sublist coercer left a name).append
    (named_qualified_sublist coercer right a name)).filter _

lemma mem_kept_qualified {c : Column Ty} {a name : String} :
    c ∈ left.kept coercer right ⟨some a, name⟩ ↔
      c ∈ left.kept coercer right ⟨none, name⟩ ∧ c.alias = some a := by
  simp only [mem_kept, mem_both, answersTo_iff]
  grind

/-- Without an alias, an ambiguous name means what it should after the projection if: its only kept
column has an alias or it escapes to it; or it does not escape and no single alias reaches it. -/
lemma survives_unqualified_iff {name : String}
    (hle : 2 ≤ (left.named coercer ⟨none, name⟩ ++ right.named coercer ⟨none, name⟩).length)
    (hqualified : ∀ a c, Survives coercer left right ⟨some a, name⟩ c ↔
      left.kept coercer right ⟨some a, name⟩ = [c]) :
    (∀ c, (Survives coercer left right ⟨none, name⟩ c ∨
        ((∃! k : QualifiedName, k.name = name ∧ ∃ c, Survives coercer left right k c) ∧
          ∃ a, Survives coercer left right ⟨some a, name⟩ c)) ↔
      left.kept coercer right ⟨none, name⟩ = [c]) ↔
    (((left.kept coercer right ⟨none, name⟩).length = 1 →
        (∃ c, left.Escapes coercer right ⟨none, name⟩ c ∧ c.hidden = false) ∨
          ∃ c ∈ left.kept coercer right ⟨none, name⟩, c.alias.isSome) ∧
      (2 ≤ (left.kept coercer right ⟨none, name⟩).length →
        ¬ (∃ c, left.Escapes coercer right ⟨none, name⟩ c ∧ c.hidden = false) ∧
          ¬ ∃! a, (left.kept coercer right ⟨some a, name⟩).length = 1)) := by
  simp only [← survives_iff_of_two_le hle]
  -- A name with no bare survivor is named once if one alias reaches it.
  have hunique : ¬ (∃ c, Survives coercer left right ⟨none, name⟩ c) →
      ((∃! k : QualifiedName, k.name = name ∧ ∃ c, Survives coercer left right k c) ↔
        ∃! a, (left.kept coercer right ⟨some a, name⟩).length = 1) := by
    intro hnone
    simp only [List.length_eq_one_iff, ← hqualified]
    constructor
    · rintro ⟨⟨_ | a, x⟩, ⟨rfl, hc⟩, huniq⟩
      · exact absurd hc hnone
      · refine ⟨a, hc, fun b hb => ?_⟩
        have := huniq ⟨some b, x⟩ ⟨rfl, hb⟩
        cases this
        rfl
    · rintro ⟨a, hc, huniq⟩
      refine ⟨⟨some a, name⟩, ⟨rfl, hc⟩, ?_⟩
      rintro ⟨_ | b, x⟩ ⟨rfl, hb⟩
      · exact absurd hb hnone
      · rw [huniq b hb]
  constructor
  · intro h
    refine ⟨fun hone => ?_, fun htwo => ⟨?_, fun halias => ?_⟩⟩
    · obtain ⟨c, hc⟩ := List.length_eq_one_iff.mp hone
      rcases (h c).mpr hc with hs | ⟨-, a, hs⟩
      · exact Or.inl ⟨c, hs⟩
      · have hmem := mem_kept_qualified.mp hs.mem_kept
        exact Or.inr ⟨c, hmem.1, by rw [hmem.2]; rfl⟩
    · rintro ⟨c, hc⟩
      rw [(h c).mp (Or.inl hc), List.length_singleton] at htwo
      omega
    · by_cases hnone : ∃ c, Survives coercer left right ⟨none, name⟩ c
      · obtain ⟨c, hc⟩ := hnone
        rw [(h c).mp (Or.inl hc), List.length_singleton] at htwo
        omega
      · have hk := (hunique hnone).mpr halias
        obtain ⟨a, ha, -⟩ := halias
        obtain ⟨c, hc⟩ := List.length_eq_one_iff.mp ha
        have hkept := (h c).mp (Or.inr ⟨hk, a, (hqualified a c).mpr hc⟩)
        rw [hkept, List.length_singleton] at htwo
        omega
  · rintro ⟨hone, htwo⟩ c
    have hsingle : c ∈ left.kept coercer right ⟨none, name⟩ →
        ¬ 2 ≤ (left.kept coercer right ⟨none, name⟩).length →
        left.kept coercer right ⟨none, name⟩ = [c] := by
      intro hmem hlt
      have hpos := List.length_pos_of_mem hmem
      obtain ⟨d, hd⟩ := List.length_eq_one_iff.mp
        (by omega : (left.kept coercer right ⟨none, name⟩).length = 1)
      rw [hd, List.mem_singleton] at hmem
      rw [hd, hmem]
    constructor
    · rintro (hs | ⟨hk, a, hs⟩)
      · exact hsingle hs.mem_kept fun hge => (htwo hge).1 ⟨c, hs⟩
      · refine hsingle (mem_kept_qualified.mp hs.mem_kept).1 fun hge => ?_
        exact (htwo hge).2 ((hunique (htwo hge).1).mp hk)
    · intro hkept
      by_cases hnone : ∃ d, Survives coercer left right ⟨none, name⟩ d
      · obtain ⟨d, hd⟩ := hnone
        have := hd.mem_kept
        rw [hkept, List.mem_singleton] at this
        exact Or.inl (this ▸ hd)
      · rcases hone (by rw [hkept, List.length_singleton]) with hs | ⟨d, hd, halias⟩
        · exact absurd hs hnone
        · rw [hkept, List.mem_singleton] at hd
          subst hd
          obtain ⟨a, ha⟩ := Option.isSome_iff_exists.mp halias
          have hmem : d ∈ left.kept coercer right ⟨some a, name⟩ :=
            mem_kept_qualified.mpr ⟨by simp [hkept], ha⟩
          have hsub := kept_qualified_sublist coercer left right a name
          rw [hkept] at hsub
          have hone' : left.kept coercer right ⟨some a, name⟩ = [d] := by
            rcases List.sublist_singleton.mp hsub with h | h
            · rw [h] at hmem
              cases hmem
            · exact h
          refine Or.inr ⟨(hunique hnone).mpr ⟨a, by simp [hone'], fun b hb => ?_⟩, a,
            (hqualified a d).mpr hone'⟩
          obtain ⟨e, he⟩ := List.length_eq_one_iff.mp hb
          have hmem' := mem_kept_qualified.mp (by rw [he]; exact List.mem_singleton_self e :
            e ∈ left.kept coercer right ⟨some b, name⟩)
          rw [hkept, List.mem_singleton] at hmem'
          rw [hmem'.1, ha] at hmem'
          injection hmem'.2 with hab
          exact hab.symm

namespace Projects

variable {names : List UsingName} {joinType : JoinType} {b : PlanBuilder Ty}
  {outputs : List (String × ColumnId × Ty)} {collected : NameMappings}

/-- Two ways of naming columns of both sides agree on ids if they agree on columns. -/
lemma ids_agree_iff (hl : left.Tracks coercer l) (hr : right.Tracks coercer r)
    (hids : (left.ids ++ right.ids).Nodup) {P Q : Column Ty → Prop}
    (hP : ∀ c, P c → c ∈ left.columns coercer ++ right.columns coercer)
    (hQ : ∀ c, Q c → c ∈ left.columns coercer ++ right.columns coercer) :
    (∀ i, (∃ c, c.id = i ∧ P c) ↔ ∃ c, c.id = i ∧ Q c) ↔ ∀ c, P c ↔ Q c := by
  have hinj := List.inj_on_of_nodup_map (nodup_append hl hr hids)
  constructor
  · intro h c
    constructor
    · intro hc
      obtain ⟨d, hd, hQd⟩ := (h c.id).mp ⟨c, rfl, hc⟩
      rwa [← hinj (hQ d hQd) (hP c hc) hd]
    · intro hc
      obtain ⟨d, hd, hPd⟩ := (h c.id).mpr ⟨c, rfl, hc⟩
      rwa [← hinj (hP d hPd) (hQ c hc) hd]
  · intro h i
    simp only [h]

/-- A `USING` join resolves its names if and only if it is tidy. -/
lemma resolves_iff (h : Projects coercer left right names joinType b outputs collected)
    (hl : left.Tracks coercer l) (hr : right.Tracks coercer r)
    (hids : (left.ids ++ right.ids).Nodup) :
    (∀ q, b.outputMapping.lookup q = (joinUsing left right names joinType).sole coercer q) ↔
      (joinUsing left right names joinType).Tidy coercer := by
  have hsurvives : ∀ k c, Survives coercer left right k c →
      c ∈ left.columns coercer ++ right.columns coercer := fun k c hc =>
    (mem_both.mp (mem_kept.mp hc.mem_kept).1).1
  have hkept : ∀ q c, left.kept coercer right q = [c] →
      c ∈ left.columns coercer ++ right.columns coercer := fun q c hc =>
    (mem_both.mp (mem_kept.mp (by rw [hc]; exact List.mem_singleton_self c)).1).1
  -- Through an alias.
  have hqualified : ∀ (a x : String), (∀ n ∈ names, n.name ≠ x) →
      (b.outputMapping.lookup ⟨some a, x⟩ =
          (joinUsing left right names joinType).sole coercer ⟨some a, x⟩ ↔
        ∀ c, Survives coercer left right ⟨some a, x⟩ c ↔
          left.kept coercer right ⟨some a, x⟩ = [c]) := by
    intro a x hx
    rw [← ids_agree_iff hl hr hids (hsurvives ⟨some a, x⟩) (hkept ⟨some a, x⟩), Option.ext_iff]
    refine forall_congr' fun i => ?_
    rw [h.lookup_of_not_using (q := ⟨some a, x⟩) hx, sole_eq_some,
      h.named_of_not_using (q := ⟨some a, x⟩) hx]
    simp [and_comm]
  -- Without an alias.
  have hbare : ∀ x : String, (∀ n ∈ names, n.name ≠ x) →
      (b.outputMapping.lookup ⟨none, x⟩ =
          (joinUsing left right names joinType).sole coercer ⟨none, x⟩ ↔
        ∀ c, (Survives coercer left right ⟨none, x⟩ c ∨
          ((∃! k : QualifiedName, k.name = x ∧ ∃ c, Survives coercer left right k c) ∧
            ∃ a, Survives coercer left right ⟨some a, x⟩ c)) ↔
          left.kept coercer right ⟨none, x⟩ = [c]) := by
    intro x hx
    rw [← ids_agree_iff hl hr hids (fun c hc => ?_) (hkept ⟨none, x⟩), Option.ext_iff]
    · refine forall_congr' fun i => ?_
      rw [h.lookup_of_not_using (q := ⟨none, x⟩) hx, sole_eq_some,
        h.named_of_not_using (q := ⟨none, x⟩) hx]
      grind
    · rcases hc with hc | ⟨-, a, hc⟩
      · exact hsurvives _ c hc
      · exact hsurvives _ c hc
  constructor
  · intro hres q hq hle
    rcases q with ⟨_ | a, x⟩
    · refine ⟨fun ha => (by cases ha), fun _ => ?_⟩
      exact (survives_unqualified_iff hle fun a => (hqualified a x hq).mp (hres _)).mp
        ((hbare x hq).mp (hres _))
    · refine ⟨fun _ => ?_, fun ha => (by cases ha)⟩
      exact (survives_qualified_iff hle).mp ((hqualified a x hq).mp (hres _))
  · intro htidy q
    by_cases hq : ∃ n ∈ names, n.name = q.name
    · exact h.lookup_of_using hq
    · have hq : ∀ n ∈ names, n.name ≠ q.name := fun n hn hnq => hq ⟨n, hn, hnq⟩
      have haliased : ∀ a c, Survives coercer left right ⟨some a, q.name⟩ c ↔
          left.kept coercer right ⟨some a, q.name⟩ = [c] := by
        intro a
        by_cases hle : 2 ≤ (left.named coercer ⟨some a, q.name⟩ ++
            right.named coercer ⟨some a, q.name⟩).length
        · exact (survives_qualified_iff hle).mpr ((htidy ⟨some a, q.name⟩ hq hle).1 rfl)
        · exact survives_iff_of_lt (Nat.lt_of_not_le hle)
      rcases q with ⟨_ | a, x⟩
      · refine (hbare x hq).mpr ?_
        by_cases hle : 2 ≤ (left.named coercer ⟨none, x⟩ ++
            right.named coercer ⟨none, x⟩).length
        · exact (survives_unqualified_iff hle haliased).mpr ((htidy ⟨none, x⟩ hq hle).2 rfl)
        · intro c
          rw [← survives_iff_of_lt (Nat.lt_of_not_le hle)]
          refine or_iff_left_of_imp ?_
          rintro ⟨-, a, hc⟩
          have hmem := mem_kept.mp (mem_kept_qualified.mp hc.mem_kept).1
          refine ⟨hmem.2, Or.inl ?_⟩
          have hpos := List.length_pos_of_mem hmem.1
          obtain ⟨d, hd⟩ := List.length_eq_one_iff.mp (by omega :
            (left.named coercer ⟨none, x⟩ ++ right.named coercer ⟨none, x⟩).length = 1)
          rw [hd, List.mem_singleton] at hmem
          rw [hd, hmem.1]
      · exact (hqualified a x hq).mpr (haliased a)

/-- A tidy `USING` join keeps track of its tree. -/
lemma tracks (h : Projects coercer left right names joinType b outputs collected)
    (hl : left.Tracks coercer l) (hr : right.Tracks coercer r)
    (hids : (joinUsing left right names joinType).ids.Nodup)
    (htidy : (joinUsing left right names joinType).Tidy coercer) :
    (joinUsing left right names joinType).Tracks coercer b := by
  have hsides : (left.ids ++ right.ids).Nodup := (List.nodup_append'.mp hids).1
  obtain ⟨hknown, hnodup⟩ := h.ids_nodup hl hr hids
  refine ⟨?_, (h.resolves_iff hl hr hsides).mpr htidy, ?_, ?_, hknown, hnodup⟩
  · rw [h.output, h.columns_eq, List.map_append, List.map_map]
    rfl
  · intro q
    simp [h.marks, recordsAmbiguity]
  · intro i
    rw [h.hidden, h.columns_eq]
    simp only [List.not_mem_nil, false_iff, not_exists, not_and]
    intro c hc _
    rcases List.mem_append.mp hc with hc | hc
    · obtain ⟨o, -, rfl⟩ := List.mem_map.mp hc
      simp
    · simp [(mem_others.mp hc).2.1]

end Projects

/-! ### Whole trees -/

/-- What is known of a tree of joins: all its parts resolve if and only if all are tidy, and then the
builder tracks it. -/
def Judged (coercer : Coercer Ty) (t : JoinTree Ty) (b : PlanBuilder Ty) : Prop :=
  ((∀ s ∈ t.parts, s.Resolves coercer) ↔ ∀ s ∈ t.parts, s.Tidy coercer) ∧
    ((∀ s ∈ t.parts, s.Tidy coercer) → t.Tracks coercer b)

/-- A join is judged once it is judged over tracked sides. -/
lemma judged_of_sides {t : JoinTree Ty} {b : PlanBuilder Ty}
    (hparts : t.parts = t :: (left.parts ++ right.parts))
    (hl : left.Judged coercer l) (hr : right.Judged coercer r)
    (hstep : left.Tracks coercer l → right.Tracks coercer r →
      (t.Resolves coercer ↔ t.Tidy coercer) ∧ (t.Tidy coercer → t.Tracks coercer b)) :
    t.Judged coercer b := by
  unfold Judged
  simp only [hparts, List.forall_mem_cons, List.forall_mem_append]
  refine ⟨?_, ?_⟩
  · constructor
    · rintro ⟨ht, hleft, hright⟩
      have hleft := hl.1.mp hleft
      have hright := hr.1.mp hright
      exact ⟨(hstep (hl.2 hleft) (hr.2 hright)).1.mp ht, hleft, hright⟩
    · rintro ⟨ht, hleft, hright⟩
      refine ⟨(hstep (hl.2 hleft) (hr.2 hright)).1.mpr ht, hl.1.mpr hleft, hr.1.mpr hright⟩
  · rintro ⟨ht, hleft, hright⟩
    exact (hstep (hl.2 hleft) (hr.2 hright)).2 ht

/-- A built tree resolves if its builder does. -/
lemma resolves_iff_of_build {t : JoinTree Ty} {b : PlanBuilder Ty} (hb : t.build coercer = .ok b) :
    t.Resolves coercer ↔ ∀ q, b.outputMapping.lookup q = t.sole coercer q := by
  constructor
  · intro h
    exact h b hb
  · intro h b' hb'
    rw [hb] at hb'
    cases hb'
    exact h

/-- Every built tree is judged. The induction is on the tree: a join is judged once both its sides
are tracked. -/
lemma judged_of_build : ∀ (t : JoinTree Ty) (b : PlanBuilder Ty), t.ids.Nodup →
    t.build coercer = .ok b → t.Judged coercer b
  | relation r, b, hids, hb => by
      have ht : (relation r).Tracks coercer b := tracks_relation hb hids
      refine ⟨?_, fun _ => ht⟩
      simp only [parts, List.mem_singleton, forall_eq, Tidy, iff_true]
      exact (resolves_iff_of_build hb).mpr ht.resolves
  | join left right, b, hids, hb => by
      obtain ⟨l, hbl, hb'⟩ := bind_eq_ok.mp hb
      obtain ⟨r, hbr, hb'⟩ := bind_eq_ok.mp hb'
      cases hb'
      have hsides := List.nodup_append'.mp hids
      refine judged_of_sides rfl (judged_of_build left l hsides.1 hbl)
        (judged_of_build right r hsides.2.1 hbr) fun hl hr => ?_
      refine ⟨?_, tracks_join hl hr hids⟩
      rw [resolves_iff_of_build hb]
      exact ⟨tidy_of_resolves_join hl hr, fun h => (tracks_join hl hr hids h).resolves⟩
  | joinUsing left right names joinType, b, hids, hb => by
      obtain ⟨l, hbl, hb'⟩ := bind_eq_ok.mp hb
      obtain ⟨r, hbr, hb'⟩ := bind_eq_ok.mp hb'
      have hsides := (List.nodup_append'.mp hids).1
      have hside := List.nodup_append'.mp hsides
      refine judged_of_sides rfl (judged_of_build left l hside.1 hbl)
        (judged_of_build right r hside.2.1 hbr) fun hl hr => ?_
      obtain ⟨outputs, collected, h⟩ := projects_of_joinUsing hl hr hsides hb'
      rw [resolves_iff_of_build hb]
      exact ⟨h.resolves_iff hl hr hsides, h.tracks hl hr hids⟩

/-- A name means the same in two trees over the same columns. -/
lemma sole_eq_of_perm {t t' : JoinTree Ty} (h : (t.columns coercer).Perm (t'.columns coercer))
    (q : QualifiedName) : t.sole coercer q = t'.sole coercer q := by
  have hnamed : (t.named coercer q).Perm (t'.named coercer q) := h.filter _
  apply Option.ext
  intro i
  rw [sole_eq_some, sole_eq_some]
  refine exists_congr fun c => and_congr_left fun _ => ?_
  constructor
  · intro hc
    exact List.perm_singleton.mp (hc ▸ hnamed.symm)
  · intro hc
    exact List.perm_singleton.mp (hc ▸ hnamed)

/-- Two tidy trees over the same columns resolve every name alike, however they are parenthesized. -/
theorem lookup_eq_of_perm (coercer : Coercer Ty) {t t' : JoinTree Ty} {b b' : PlanBuilder Ty}
    (hids : t.ids.Nodup) (hids' : t'.ids.Nodup) (hb : t.build coercer = .ok b)
    (hb' : t'.build coercer = .ok b') (ht : ∀ s ∈ t.parts, s.Tidy coercer)
    (ht' : ∀ s ∈ t'.parts, s.Tidy coercer)
    (hperm : (t.columns coercer).Perm (t'.columns coercer)) (q : QualifiedName) :
    b.outputMapping.lookup q = b'.outputMapping.lookup q := by
  rw [((judged_of_build t b hids hb).2 ht).resolves,
    ((judged_of_build t' b' hids' hb').2 ht').resolves, sole_eq_of_perm hperm]

/-! ### A join on the right side -/

namespace NestedRight

/-- A relation with one column `x`. -/
def relationOf («alias» : String) (id : ColumnId) : JoinTree Unit :=
  relation ⟨some «alias», [{ name := some "x", id := id, type := () }]⟩

/-- `a JOIN b`. -/
def pair : JoinTree Unit := join (relationOf "a" "x") (relationOf "b" "x_0")

/-- `c JOIN (a JOIN b)`. -/
def tree : JoinTree Unit := join (relationOf "c" "x_1") pair

/-- `(a JOIN b) JOIN c`. -/
def leftDeep : JoinTree Unit := join pair (relationOf "c" "x_1")

/-- What a name means to the builder of a tree. -/
def meaning (t : JoinTree Unit) (q : QualifiedName) : Except NameError (Option ColumnId) :=
  (t.build none).map fun b => b.outputMapping.lookup q

end NestedRight

end JoinTree

end Verax.Names
