import Verax.Lib.Dictionary
import Verax.Unnests.Filtering

/-!
# Rewritten projections

A projection that loses columns, and whose constants are replaced, gives rows that match those of the
projection as it was. The conjuncts that read its deterministic columns may be asked of its input.

* `matches_projectStep`: any values of the expressions.
* `rowsMatch_of_deterministic`: all of them, where the expressions are deterministic.
* `passes_substituted`: a conjunct over the input instead of over the output.
-/

namespace Verax.Unnests

open Lib Lib.PossibleBags Lib.Dictionary

variable {V : Type} {engine : Engine V} {names : FunctionNames}

/-! ### Lookups -/

lemma valueOf_of_mem {α : Type} {l : List (Column × α)} (hnodup : (l.map Prod.fst).Nodup)
    {a : Column × α} (ha : a ∈ l) : valueOf l a.1 = some a.2 := by
  rw [valueOf, find?_key hnodup ha]
  rfl

lemma valueOf_eq_none {α : Type} {l : List (Column × α)} {c : Column} :
    valueOf l c = none ↔ c ∉ l.map Prod.fst := by
  rw [valueOf, Option.map_eq_none_iff, List.find?_eq_none]
  constructor
  · rintro h hc
    obtain ⟨a, ha, rfl⟩ := List.mem_map.mp hc
    exact h a ha (by simp)
  · intro h a ha heq
    exact h (of_decide_eq_true heq ▸ List.mem_map_of_mem ha)

lemma exists_of_valueOf {α : Type} {l : List (Column × α)} {c : Column} {v : α}
    (h : valueOf l c = some v) : (c, v) ∈ l := by
  obtain ⟨a, ha, rfl⟩ := Option.map_eq_some_iff.mp h
  have hkey := List.find?_some ha
  rw [decide_eq_true_eq] at hkey
  exact hkey ▸ List.mem_of_find?_eq_some ha

lemma literal?_eq_none {e : Expr V} (h : ∀ value, e ≠ .literal value) : e.literal? = none := by
  cases e with
  | literal value => exact (h value rfl).elim
  | column c => rfl
  | call name args => rfl

lemma apply_eq_column {constants : Constants V} {e : Expr V} {c : Column}
    (h : constants.apply e = .column c) : e = .column c ∧ constants c = none := by
  cases e with
  | column c' =>
      rw [Constants.apply, Expr.subst] at h
      cases hconstant : constants c' with
      | some value =>
          rw [hconstant] at h
          cases h
      | none =>
          rw [hconstant] at h
          cases h
          exact ⟨rfl, hconstant⟩
  | literal value => cases h
  | call name args => cases h

/-! ### Projections -/

section Projection

variable {columns kept : Finset Column} {constants : Constants V} {row row' : Row V}
  {assignments : List (Column × Expr V)} {node : Tree V}

/-- The assignments that a consumer reads. -/
abbrev surviving (assignments : List (Column × Expr V)) (kept : Finset Column) :
    List (Column × Expr V) := assignments.filter (·.1 ∈ kept)

/-- The assignments of a simplified projection. -/
abbrev nonLiteral (constants : Constants V) (assignments : List (Column × Expr V)) :
    List (Column × Expr V) :=
  (assignments.map fun a => (a.1, constants.apply a.2)).filter (·.2.literal?.isNone)

/-- A column that a consumer reads has the value of its expression. -/
private lemma view_simplifyProject (hnodup : (assignments.map Prod.fst).Nodup)
    (hidentity : ∀ a ∈ assignments, constants a.1 ≠ none → ∀ c, a.2 = .column c → c = a.1)
    {out : Row V} {a : Column × Expr V} (ha : a ∈ assignments) (hkept : a.1 ∈ kept) :
    (simplifyProject ⟨node, constants⟩ (surviving assignments kept)).substitutions.view out a.1 =
      match constants.apply a.2 with
      | .literal value => value
      | _ => out a.1 := by
  have hfirsts : ((surviving assignments kept).map fun a => (a.1, constants.apply a.2)).map Prod.fst
      = (surviving assignments kept).map Prod.fst := by
    rw [List.map_map]
    rfl
  have hvalue : valueOf ((surviving assignments kept).map fun a => (a.1, constants.apply a.2)) a.1 =
      some (constants.apply a.2) := by
    refine valueOf_of_mem (a := (a.1, constants.apply a.2)) ?_ ?_
    · rw [hfirsts]
      exact hnodup.sublist (List.filter_sublist.map _)
    · exact List.mem_map.mpr ⟨a, List.mem_filter.mpr ⟨ha, by simpa using hkept⟩, rfl⟩
  simp only [Constants.view, simplifyProject, hvalue]
  cases happly : constants.apply a.2 with
  | literal value => rfl
  | call name args => rfl
  | column c =>
      have hnone : constants a.1 = none := by
        obtain ⟨hcolumn, hnone⟩ := apply_eq_column happly
        by_contra hsome
        rw [hidentity a ha hsome c hcolumn] at hnone
        exact hsome hnone
      simp [hnone]

private lemma mem_nonLiteral {a : Column × Expr V} (ha : a ∈ surviving assignments kept)
    (hliteral : ∀ value, constants.apply a.2 ≠ .literal value) :
    (a.1, constants.apply a.2) ∈ nonLiteral constants (surviving assignments kept) := by
  refine List.mem_filter.mpr ⟨List.mem_map.mpr ⟨a, ha, rfl⟩, ?_⟩
  rw [literal?_eq_none hliteral]
  rfl

private lemma exists_of_mem_nonLiteral {p : Column × Expr V}
    (hp : p ∈ nonLiteral constants (surviving assignments kept)) :
    ∃ a ∈ surviving assignments kept, p = (a.1, constants.apply a.2) := by
  obtain ⟨a, ha, rfl⟩ := List.mem_map.mp (List.mem_filter.mp hp).1
  exact ⟨a, ha, rfl⟩

/-- The values of a surviving expression are those it has after the rewriting. -/
private lemma values_surviving (hmatch : RowsMatch columns constants row row')
    (hreads : Expr.columnsAll ((surviving assignments kept).map Prod.snd) ⊆ columns)
    {a : Column × Expr V} (ha : a ∈ surviving assignments kept) :
    engine.values row' (constants.apply a.2) = engine.values row a.2 :=
  hmatch.values_apply
    ((Expr.columns_subset_columnsAll (List.mem_map_of_mem ha)).trans hreads)

/-- Outputs whose surviving columns have the same values, constants apart, match. -/
private lemma rowsMatch_outputs (hnodup : (assignments.map Prod.fst).Nodup)
    (hidentity : ∀ a ∈ assignments, constants a.1 ≠ none → ∀ c, a.2 = .column c → c = a.1)
    (hmatch : RowsMatch columns constants row row')
    (hreads : Expr.columnsAll ((surviving assignments kept).map Prod.snd) ⊆ columns)
    {out out' : Row V} (hout : ∀ a ∈ assignments, out a.1 ∈ engine.values row a.2)
    (hsame : ∀ a ∈ surviving assignments kept, (∀ value, constants.apply a.2 ≠ .literal value) →
      out a.1 = out' a.1) :
    RowsMatch (kept.filter (· ∈ assignments.map Prod.fst))
      (simplifyProject ⟨node, constants⟩ (surviving assignments kept)).substitutions out out' := by
  intro c hc
  obtain ⟨hkept, hc⟩ := Finset.mem_filter.mp hc
  obtain ⟨a, ha, rfl⟩ := List.mem_map.mp hc
  have hsurvives : a ∈ surviving assignments kept :=
    List.mem_filter.mpr ⟨ha, by simpa using hkept⟩
  rw [view_simplifyProject hnodup hidentity ha hkept]
  have hvalues : engine.values row' (constants.apply a.2) = engine.values row a.2 :=
    values_surviving hmatch hreads hsurvives
  cases happly : constants.apply a.2 with
  | literal value =>
      have hmem := hout a ha
      rw [← hvalues, happly] at hmem
      exact hmem
  | call name args => exact hsame a hsurvives (by simp [happly])
  | column c => exact hsame a hsurvives (by simp [happly])

/-- A projection and its rewriting. -/
lemma matches_projectStep (hlawful : engine.Lawful names)
    (hnodup : (assignments.map Prod.fst).Nodup)
    (hidentity : ∀ a ∈ assignments, constants a.1 ≠ none → ∀ c, a.2 = .column c → c = a.1)
    (hmatch : RowsMatch columns constants row row')
    (hreads : Expr.columnsAll ((surviving assignments kept).map Prod.snd) ⊆ columns) :
    Matches false (RowsMatch (kept.filter (· ∈ assignments.map Prod.fst))
        (simplifyProject ⟨node, constants⟩ (surviving assignments kept)).substitutions)
      (projectStep engine assignments row)
      (projectStep engine (nonLiteral constants (surviving assignments kept)) row') := by
  constructor
  · rintro _ ⟨out, hout, -, rfl⟩
    refine ⟨_, ⟨fun c => if c ∈ (nonLiteral constants (surviving assignments kept)).map Prod.fst
      then out c else engine.null, fun p hp => ?_, fun c hc => if_neg hc, rfl⟩, ?_⟩
    · dsimp only
      rw [if_pos (List.mem_map_of_mem hp)]
      obtain ⟨a, ha, rfl⟩ := exists_of_mem_nonLiteral hp
      rw [values_surviving hmatch hreads ha]
      exact hout a (List.mem_of_mem_filter ha)
    · refine Multiset.Rel.cons (rowsMatch_outputs hnodup hidentity hmatch hreads hout ?_)
        Multiset.Rel.zero
      intro a ha hliteral
      exact (if_pos (List.mem_map_of_mem (f := Prod.fst) (mem_nonLiteral ha hliteral))).symm
  · rintro _ ⟨out', hout', -, rfl⟩
    -- Columns that are lost take any value of their expression.
    choose value hvalue using fun e : Expr V => hlawful.values_nonempty row e
    set out : Row V := fun c =>
      match valueOf assignments c with
      | none => engine.null
      | some e =>
          if c ∈ kept ∧ (constants.apply e).literal? = none then out' c else value e with hout
    have hoverwritten : ∀ a ∈ assignments, out a.1 =
        if a.1 ∈ kept ∧ (constants.apply a.2).literal? = none then out' a.1 else value a.2 := by
      intro a ha
      rw [hout]
      simp only [valueOf_of_mem hnodup ha]
    have hvalues : ∀ a ∈ assignments, out a.1 ∈ engine.values row a.2 := by
      intro a ha
      rw [hoverwritten a ha]
      split
      · next hread =>
          have hsurvives : a ∈ surviving assignments kept :=
            List.mem_filter.mpr ⟨ha, by simpa using hread.1⟩
          rw [← values_surviving hmatch hreads hsurvives]
          refine hout' (a.1, constants.apply a.2) (mem_nonLiteral hsurvives fun v hv => ?_)
          rw [hv] at hread
          cases hread.2
      · exact hvalue a.2
    refine ⟨_, ⟨out, hvalues, fun c hc => ?_, rfl⟩, ?_⟩
    · rw [hout]
      simp only [valueOf_eq_none.mpr hc]
    · refine Multiset.Rel.cons (rowsMatch_outputs hnodup hidentity hmatch hreads hvalues ?_)
        Multiset.Rel.zero
      intro a ha hliteral
      have hkept : a.1 ∈ kept := by simpa using (List.mem_filter.mp ha).2
      rw [hoverwritten a (List.mem_of_mem_filter ha), if_pos ⟨hkept, literal?_eq_none hliteral⟩]

/-- All outcomes of deterministic expressions match. -/
lemma rowsMatch_of_deterministic (hlawful : engine.Lawful names)
    (hnodup : (assignments.map Prod.fst).Nodup)
    (hidentity : ∀ a ∈ assignments, constants a.1 ≠ none → ∀ c, a.2 = .column c → c = a.1)
    (hmatch : RowsMatch columns constants row row')
    (hreads : Expr.columnsAll ((surviving assignments kept).map Prod.snd) ⊆ columns)
    (hdet : Expr.anyNonDeterministic names ((surviving assignments kept).map Prod.snd) = false)
    {rows rows' : Multiset (Row V)} (h : projectStep engine assignments row rows)
    (h' : projectStep engine (nonLiteral constants (surviving assignments kept)) row' rows') :
    Alike true (RowsMatch (kept.filter (· ∈ assignments.map Prod.fst))
      (simplifyProject ⟨node, constants⟩ (surviving assignments kept)).substitutions) rows rows' := by
  obtain ⟨out, hout, -, rfl⟩ := h
  obtain ⟨out', hout', -, rfl⟩ := h'
  refine alike_of_rel (Multiset.Rel.cons ?_ Multiset.Rel.zero)
  refine rowsMatch_outputs hnodup hidentity hmatch hreads hout fun a ha hliteral => ?_
  have hvalue := hout' _ (mem_nonLiteral ha hliteral)
  rw [values_surviving hmatch hreads ha] at hvalue
  exact hlawful.values_unique
    (Expr.anyNonDeterministic_eq_false.mp hdet a.2 (List.mem_map_of_mem ha))
    (hout a (List.mem_of_mem_filter ha)) hvalue

lemma exists_projectStep (hlawful : engine.Lawful names)
    (hnodup : (assignments.map Prod.fst).Nodup) (row : Row V) :
    ∃ rows, projectStep engine assignments row rows := by
  choose value hvalue using fun e : Expr V => hlawful.values_nonempty row e
  refine ⟨_, fun c => ((valueOf assignments c).map value).getD engine.null, fun a ha => ?_,
    fun c hc => ?_, rfl⟩
  · simp only [valueOf_of_mem hnodup ha]
    exact hvalue a.2
  · simp only [valueOf_eq_none.mpr hc]
    rfl

end Projection

/-! ### Conjuncts -/

/-- A conjunct over deterministic columns of a projection says the same of the input. -/
lemma values_substituted (hlawful : engine.Lawful names) {assignments : List (Column × Expr V)}
    (hnodup : (assignments.map Prod.fst).Nodup) {row out : Row V}
    (hout : ∀ a ∈ assignments, out a.1 ∈ engine.values row a.2) {p : Expr V}
    (hp : ∀ c ∈ p.columns, c ∈ assignments.map Prod.fst)
    (hdet : ∀ a ∈ assignments, a.1 ∈ p.columns → a.2.containsNonDeterministic names = false) :
    engine.values row (p.subst fun c => (valueOf assignments c).getD (.column c)) =
      engine.values out p := by
  refine Engine.values_subst fun c hc => ?_
  obtain ⟨a, ha, rfl⟩ := List.mem_map.mp (hp c hc)
  rw [valueOf_of_mem hnodup ha, Option.getD_some]
  exact Set.eq_singleton_iff_unique_mem.mpr
    ⟨hout a ha, fun v hv => hlawful.values_unique (hdet a ha hc) hv (hout a ha)⟩

end Verax.Unnests
