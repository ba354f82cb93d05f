import Verax.Unnests.Unnesting

/-!
# The pass keeps the rows of a tree

By induction over the tree: the rewritten tree gives rows that match those of the tree under the
conjuncts of the context, one for one, or up to repetition where duplicates may be dropped.

* `Rewrites`: what holds of a rewritten tree.
* `rewrites_values`, `rewrites_filter`, `rewrites_sort`, `rewrites_project`, `rewrites_unnest`: the
  cases.
* `rewrites`: the pass.
-/

namespace Verax.Unnests

open Lib Lib.PossibleBags

variable {V : Type} {engine : Engine V} {names : FunctionNames} {leafRows : Multiset (Row V)}

/-- What holds of a tree that was rewritten in a context. -/
structure Rewrites (engine : Engine V) (leafRows : Multiset (Row V)) (node : Tree V)
    (context : PushdownContext V) (result : SimplifiedNode V) : Prop where
  rows : Matches context.mayDropDuplicates
    (RowsMatch (context.required.filter (· ∈ node.outputColumns)) result.substitutions)
    ((Tree.filter node context.pending).Runs engine leafRows) (result.node.Runs engine leafRows)
  constants : ∀ c, result.substitutions c ≠ none → c ∈ node.allColumns

/-! ### Trees -/

lemma allColumns_of_outputColumns : ∀ {node : Tree V}, node.WellFormed →
    ∀ c ∈ node.outputColumns, c ∈ node.allColumns
  | .leaf _, _, _, hc => hc
  | .values _, _, _, hc => hc
  | .filter _ _, h, c, hc => allColumns_of_outputColumns h.1 c hc
  | .project _ _, _, _, hc => List.mem_append_left _ hc
  | .sort _ _, h, c, hc => allColumns_of_outputColumns h.1 c hc
  | .unnest _ _, h, c, hc => by
      rcases h.2.outputs c hc with hreplicated | hproduced
      · exact List.mem_append_right _
          (allColumns_of_outputColumns h.1 c (h.2.replicated c hreplicated))
      · exact List.mem_append_left _ hproduced

/-- A row has no other columns than those of its node. -/
lemma eq_null_of_runs : ∀ {node : Tree V} {rows : Multiset (Row V)},
    node.Runs engine leafRows rows → ∀ row ∈ rows, ∀ c, c ∉ node.outputColumns →
      row c = engine.null
  | .leaf columns, rows, h, row, hrow, c, hc => by
      rw [h] at hrow
      obtain ⟨source, -, rfl⟩ := Multiset.mem_map.mp hrow
      exact if_neg hc
  | .values values, rows, h, row, hrow, c, hc => by
      rw [h] at hrow
      rw [Multiset.mem_singleton.mp hrow, literalRow, valueOf_eq_none.mpr hc]
      rfl
  | .filter child predicates, rows, ⟨input, hinput, heach⟩, row, hrow, c, hc => by
      obtain ⟨source, hsource, o, ho, hmem⟩ := exists_of_mem_each heach hrow
      rcases ho with ⟨-, rfl⟩ | ⟨-, rfl⟩
      · rw [Multiset.mem_singleton.mp hmem]
        exact eq_null_of_runs hinput source hsource c hc
      · cases Multiset.notMem_zero _ hmem
  | .project child assignments, rows, ⟨input, _, heach⟩, row, hrow, c, hc => by
      obtain ⟨source, -, o, ⟨out, -, hnull, rfl⟩, hmem⟩ := exists_of_mem_each heach hrow
      rw [Multiset.mem_singleton.mp hmem]
      exact hnull c hc
  | .sort child _, rows, h, row, hrow, c, hc => by
      have hchild : child.Runs engine leafRows rows := h
      exact eq_null_of_runs hchild row hrow c hc
  | .unnest child key, rows, ⟨input, _, heach⟩, row, hrow, c, hc => by
      obtain ⟨source, -, o, ⟨values, -, rfl⟩, hmem⟩ := exists_of_mem_each heach hrow
      unfold UnnestKey.rows at hmem
      dsimp only at hmem
      split at hmem
      · split at hmem
        · rw [Multiset.mem_singleton.mp hmem]
          exact if_neg hc
        · cases Multiset.notMem_zero _ hmem
      · obtain ⟨position, -, rfl⟩ := List.mem_map.mp (Multiset.mem_coe.mp hmem)
        exact if_neg hc

lemma matches_refl {repeats : Bool} {columns : Finset Column} (P : Multiset (Row V) → Prop) :
    Matches repeats (RowsMatch columns fun _ => none) P P :=
  ⟨fun M hM => ⟨M, hM, alike_of_rel (Multiset.rel_refl_of_refl_on fun _ _ _ _ => rfl)⟩,
    fun M hM => ⟨M, hM, alike_of_rel (Multiset.rel_refl_of_refl_on fun _ _ _ _ => rfl)⟩⟩

/-- Rows that match on more columns. -/
lemma Matches.mono_columns {repeats : Bool} {columns columns' : Finset Column}
    {constants : Constants V} {P Q : Multiset (Row V) → Prop}
    (h : Matches repeats (RowsMatch columns constants) P Q) (hsub : columns' ⊆ columns) :
    Matches repeats (RowsMatch columns' constants) P Q :=
  h.imp fun _ _ hmatch => hmatch.mono hsub

/-! ### Leaves, filters and sorts -/

lemma rewrites_leaf (columns : List Column) (context : PushdownContext V) :
    Rewrites engine leafRows (.leaf columns) context
      (rewrite engine.toVariants names (.leaf columns) context) where
  rows := (matches_refl _).congr (fun _ => Iff.rfl) fun _ => runs_maybeWrapFilter
  constants _ hc := (hc rfl).elim

lemma rewrites_values (row : List (Column × V)) (context : PushdownContext V)
    (hpending : ∀ c ∈ Expr.columnsAll context.pending, c ∈ row.map Prod.fst) :
    Rewrites engine leafRows (.values row) context
      (rewrite engine.toVariants names (.values row) context) := by
  set keep := context.required ∪ Expr.columnsAll context.pending with hkeep
  have hrow : Matches false (RowsMatch (keep.filter (· ∈ row.map Prod.fst))
      (simplifyValues (row.filter (·.1 ∈ keep))).substitutions)
      ((Tree.values row).Runs engine leafRows)
      ((simplifyValues (row.filter (·.1 ∈ keep))).node.Runs engine leafRows) := by
    have halike : Multiset.Rel (RowsMatch (keep.filter (· ∈ row.map Prod.fst))
        (simplifyValues (row.filter (·.1 ∈ keep))).substitutions)
        {literalRow engine.null row} {literalRow engine.null []} := by
      refine Multiset.Rel.cons (fun c hc => ?_) Multiset.Rel.zero
      have hvalue : valueOf (row.filter (·.1 ∈ keep)) c = valueOf row c := by
        rw [valueOf, valueOf, List.find?_filter]
        refine congrArg _ (congrArg (List.find? · row) (funext fun a => ?_))
        by_cases hac : a.1 = c
        · simp [hac, (Finset.mem_filter.mp hc).1]
        · simp [hac]
      simp only [Constants.view, simplifyValues, hvalue]
      rfl
    exact ⟨fun M hM => ⟨_, rfl, hM ▸ halike⟩, fun N hN => ⟨_, rfl, hN ▸ halike⟩⟩
  refine ⟨?_, fun c hc => ?_⟩
  · refine Matches.of_false (Matches.mono_columns (matches_finish hrow ?_ (.inl rfl)) ?_)
    · exact fun c hc => Finset.mem_filter.mpr ⟨Finset.mem_union_right _ hc, hpending c hc⟩
    · exact Finset.filter_subset_filter _ Finset.subset_union_left
  · obtain ⟨value, hvalue⟩ := Option.ne_none_iff_exists'.mp hc
    have hmem := List.mem_of_mem_filter (exists_of_valueOf hvalue)
    exact List.mem_map_of_mem (f := Prod.fst) hmem

lemma rewrites_filter (hlawful : engine.Lawful names) {child : Tree V} {predicates : List (Expr V)}
    {context : PushdownContext V} {result : SimplifiedNode V}
    (h : Rewrites engine leafRows child
      { context with pending := context.pending ++ predicates } result) :
    Rewrites engine leafRows (.filter child predicates) context result where
  rows := by
    refine h.rows.congr (fun rows => ?_) fun _ => Iff.rfl
    have hrow : ∀ row : Row V, ∀ r, (∃ o, filterStep engine predicates row o ∧
        Each (filterStep engine context.pending) o r) ↔
        filterStep engine (context.pending ++ predicates) row r := by
      intro row r
      rw [filterStep_append hlawful]
      exact filterStep_congr fun p => by simp [or_comm]
    constructor
    · rintro ⟨N, ⟨M, hM, hN⟩, hrows⟩
      exact ⟨M, hM, (each_congr fun row _ => hrow row).mp (each_each.mp ⟨N, hN, hrows⟩)⟩
    · rintro ⟨M, hM, hrows⟩
      obtain ⟨N, hN, hrows⟩ := each_each.mpr ((each_congr fun row _ => hrow row).mpr hrows)
      exact ⟨N, ⟨M, hM, hN⟩, hrows⟩
  constants := h.constants

/-- Only a consumer's columns are dropped. -/
lemma matches_narrowed {repeats : Bool} {columns : Finset Column} {P : Multiset (Row V) → Prop}
    {simplified : SimplifiedNode V} {context : PushdownContext V}
    (h : Matches repeats (RowsMatch columns simplified.substitutions) P
      (simplified.node.Runs engine leafRows)) (hcolumns : columns ⊆ context.required) :
    Matches repeats (RowsMatch columns (narrowed simplified context).substitutions) P
      ((narrowed simplified context).node.Runs engine leafRows) := by
  unfold narrowed
  split
  · next child orderKeys hnode =>
      dsimp only
      split
      · exact h
      · set keep := child.outputColumns.filter (· ∈ context.required) with hkeep
        have hstep : ∀ (row : Row V) (o : Multiset (Row V)),
            projectStep engine (keep.map fun c => (c, .column c)) row o ↔
              o = {keepColumns engine.null keep row} := by
          intro row o
          constructor
          · rintro ⟨out, hout, hnull, rfl⟩
            refine congrArg _ (funext fun c => ?_)
            by_cases hc : c ∈ keep
            · rw [keepColumns, if_pos hc]
              exact hout (c, .column c) (List.mem_map_of_mem hc)
            · rw [keepColumns, if_neg hc]
              exact hnull c (by simpa using hc)
          · rintro rfl
            refine ⟨_, fun a ha => ?_, fun c hc => if_neg (by simpa using hc), rfl⟩
            obtain ⟨c, hc, rfl⟩ := List.mem_map.mp ha
            exact if_pos hc
        have hruns : ∀ rows, (Tree.project (.sort child orderKeys)
            (keep.map fun c => (c, .column c))).Runs engine leafRows rows ↔
            ∃ N, simplified.node.Runs engine leafRows N ∧
              rows = N.map (keepColumns engine.null keep) := by
          intro rows
          rw [hnode]
          refine exists_congr fun N => and_congr_right fun _ => ?_
          rw [each_congr fun row _ => hstep row, each_eq, Multiset.bind_singleton]
        have hrow : ∀ N, simplified.node.Runs engine leafRows N → ∀ a, ∀ b ∈ N,
            RowsMatch columns simplified.substitutions a b →
            RowsMatch columns simplified.substitutions a (keepColumns engine.null keep b) := by
          intro N hN a b hb hmatch c hc
          rw [hmatch c hc]
          simp only [Constants.view]
          cases simplified.substitutions c with
          | some value => rfl
          | none =>
              simp only [Option.getD_none, keepColumns]
              split
              · rfl
              · next hout =>
                  refine eq_null_of_runs hN b hb c fun hmem => hout ?_
                  rw [hnode] at hmem
                  exact List.mem_filter.mpr ⟨hmem, by simpa using hcolumns hc⟩
        constructor
        · intro M hM
          obtain ⟨N, hN, halike⟩ := h.1 M hM
          exact ⟨_, (hruns _).mpr ⟨N, hN, rfl⟩, halike.map_right (hrow N hN)⟩
        · intro rows hrows
          obtain ⟨N, hN, rfl⟩ := (hruns rows).mp hrows
          obtain ⟨M, hM, halike⟩ := h.2 N hN
          exact ⟨M, hM, halike.map_right (hrow N hN)⟩
  · exact h

lemma substitutions_narrowed (simplified : SimplifiedNode V) (context : PushdownContext V) :
    (narrowed simplified context).substitutions = simplified.substitutions := by
  unfold narrowed
  split
  · dsimp only
    split <;> rfl
  · rfl

lemma rewrites_sort {child : Tree V} {orderKeys : List (Expr V)} {context : PushdownContext V}
    (h : ∀ context' : PushdownContext V, context'.pending = context.pending →
      Rewrites engine leafRows child context' (rewrite engine.toVariants names child context')) :
    Rewrites engine leafRows (.sort child orderKeys) context
      (rewrite engine.toVariants names (.sort child orderKeys) context) := by
  rw [rewrite]
  split
  · exact ⟨(h context rfl).rows, (h context rfl).constants⟩
  · set context' : PushdownContext V := { context with
      required := context.required ∪ Expr.columnsAll orderKeys
      requiredAbove := context.requiredAbove ∪ Expr.columnsAll orderKeys } with hcontext
    have hinput := h context' rfl
    have hsorted : ∀ input : SimplifiedNode V,
        (simplifySort input orderKeys).substitutions = input.substitutions ∧
        (simplifySort input orderKeys).node.Runs engine leafRows =
          input.node.Runs engine leafRows := by
      intro input
      unfold simplifySort
      dsimp only
      split
      · exact ⟨rfl, rfl⟩
      · exact ⟨rfl, funext fun _ => rfl⟩
    obtain ⟨hsubstitutions, hruns⟩ := hsorted (rewrite engine.toVariants names child context')
    refine ⟨?_, fun c hc => hinput.constants c ?_⟩
    · have hsorted := hinput.rows
      rw [← hsubstitutions, ← hruns] at hsorted
      exact Matches.mono_columns (matches_narrowed hsorted (Finset.filter_subset _ _))
        (Finset.filter_subset_filter _ Finset.subset_union_left)
    · rwa [substitutions_narrowed, hsubstitutions] at hc

/-! ### Conjuncts below a node -/

/-- Conjuncts that may be asked below a node or above it. -/
lemma runs_push {P : Multiset (Row V) → Prop} {step : Row V → Multiset (Row V) → Prop}
    {pending pushable blocked : List (Expr V)}
    (hrow : ∀ row r, (∃ o, filterStep engine pushable row o ∧
        Each (fun row r => ∃ o, step row o ∧ Each (filterStep engine blocked) o r) o r) ↔
      ∃ o, step row o ∧ Each (filterStep engine pending) o r) (rows : Multiset (Row V)) :
    (∃ N, (∃ M, P M ∧ Each step M N) ∧ Each (filterStep engine pending) N rows) ↔
      ∃ N, (∃ M', (∃ M, P M ∧ Each (filterStep engine pushable) M M') ∧ Each step M' N) ∧
        Each (filterStep engine blocked) N rows := by
  constructor
  · rintro ⟨N, ⟨M, hM, hN⟩, hrows⟩
    obtain ⟨M', hM', hrows⟩ := each_each.mpr
      ((each_congr fun row _ r => (hrow row r).symm).mp (each_each.mp ⟨N, hN, hrows⟩))
    obtain ⟨N', hN', hrows⟩ := each_each.mpr hrows
    exact ⟨N', ⟨M', ⟨M, hM, hM'⟩, hN'⟩, hrows⟩
  · rintro ⟨N, ⟨M', ⟨M, hM, hM'⟩, hN⟩, hrows⟩
    obtain ⟨N', hN', hrows⟩ := each_each.mpr
      ((each_congr fun row _ => hrow row).mp
        (each_each.mp ⟨M', hM', each_each.mp ⟨N, hN, hrows⟩⟩))
    exact ⟨N', ⟨M, hM, hN'⟩, hrows⟩

lemma passes_of_values {predicates : List (Expr V)} {row row' : Row V} {b : Bool}
    (h : ∀ p ∈ predicates, engine.values row p = engine.values row' p) :
    Passes engine predicates row b ↔ Passes engine predicates row' b := by
  cases b with
  | true => exact forall₂_congr fun p hp => by rw [h p hp]
  | false => exact exists_congr fun p => and_congr_right fun hp => by rw [h p hp]

lemma mem_partition {expressions : List (Expr V)} {columns : Finset Column} {e : Expr V} :
    (e ∈ (partition expressions columns).1 ↔ e ∈ expressions ∧ Disjoint e.columns columns) ∧
      (e ∈ (partition expressions columns).2 ↔ e ∈ expressions ∧ ¬ Disjoint e.columns columns) := by
  simp [partition, List.partition_eq_filter_filter]

/-! ### Projections -/

section Project

variable {child : Tree V} {assignments : List (Column × Expr V)} {context : PushdownContext V}

/-- The columns of a projection whose expressions are nondeterministic. -/
private abbrev blockedOutputs (names : FunctionNames) (assignments : List (Column × Expr V)) :
    Finset Column :=
  ((assignments.filter fun a => a.2.containsNonDeterministic names).map Prod.fst).toFinset

private abbrev projectBlocked (names : FunctionNames) (assignments : List (Column × Expr V))
    (context : PushdownContext V) : List (Expr V) :=
  (partition context.pending (blockedOutputs names assignments)).2

private abbrev projectPushable (names : FunctionNames) (assignments : List (Column × Expr V))
    (context : PushdownContext V) : List (Expr V) :=
  (partition context.pending (blockedOutputs names assignments)).1.map
    (Expr.subst fun c => (valueOf assignments c).getD (.column c))

private abbrev projectKept (names : FunctionNames) (assignments : List (Column × Expr V))
    (context : PushdownContext V) : Finset Column :=
  context.required ∪ Expr.columnsAll (projectBlocked names assignments context)

/-- The context of the input of a projection. -/
private abbrev projectContext (names : FunctionNames) (assignments : List (Column × Expr V))
    (context : PushdownContext V) : PushdownContext V :=
  let kept := surviving assignments (projectKept names assignments context)
  { mayDropDuplicates := context.mayDropDuplicates &&
      !Expr.anyNonDeterministic names (kept.map Prod.snd)
    pending := projectPushable names assignments context
    required := Expr.columnsAll (kept.map Prod.snd) ∪
      Expr.columnsAll (projectPushable names assignments context)
    requiredAbove := Expr.columnsAll (kept.map Prod.snd) }

private lemma rewrite_project : rewrite engine.toVariants names (.project child assignments)
    context = finishSimplifiedNode (simplifyProject (rewrite engine.toVariants names child
      (projectContext names assignments context))
      (surviving assignments (projectKept names assignments context)))
      (projectBlocked names assignments context) := rfl

/-- The columns of a conjunct that is pushed are deterministic. -/
private lemma deterministic_of_pushed {p : Expr V}
    (hp : p ∈ (partition context.pending (blockedOutputs names assignments)).1) :
    ∀ a ∈ assignments, a.1 ∈ p.columns → a.2.containsNonDeterministic names = false := by
  intro a ha hc
  by_contra hnondet
  refine Finset.disjoint_left.mp (mem_partition.1.mp hp).2 hc ?_
  rw [List.mem_toFinset]
  exact List.mem_map_of_mem (f := Prod.fst)
    (List.mem_filter.mpr ⟨ha, by simpa using hnondet⟩)

/-- Where duplicates may be dropped below, no conjunct stays above. -/
private lemma projectBlocked_eq_nil
    (hdet : Expr.anyNonDeterministic names
      ((surviving assignments (projectKept names assignments context)).map Prod.snd) = false) :
    projectBlocked names assignments context = [] := by
  rw [List.eq_nil_iff_forall_not_mem]
  intro p hp
  obtain ⟨c, hc, hblocked⟩ := Finset.not_disjoint_iff.mp (mem_partition.2.mp hp).2
  rw [List.mem_toFinset] at hblocked
  obtain ⟨a, ha, rfl⟩ := List.mem_map.mp hblocked
  obtain ⟨ha, hnondet⟩ := List.mem_filter.mp ha
  have hsurvives : a ∈ surviving assignments (projectKept names assignments context) :=
    List.mem_filter.mpr ⟨ha, decide_eq_true (Finset.mem_union_right _
      (Expr.columns_subset_columnsAll hp hc))⟩
  rw [Expr.anyNonDeterministic_eq_false.mp hdet a.2 (List.mem_map_of_mem hsurvives)] at hnondet
  cases hnondet

/-- The conjuncts of the context, partly over the input. -/
private lemma projectStep_push (hlawful : engine.Lawful names)
    (hnodup : (assignments.map Prod.fst).Nodup)
    (hpending : ∀ p ∈ context.pending, ∀ c ∈ p.columns, c ∈ assignments.map Prod.fst)
    (row : Row V) (rows : Multiset (Row V)) :
    (∃ o, filterStep engine (projectPushable names assignments context) row o ∧
      Each (fun row r => ∃ o, projectStep engine assignments row o ∧
        Each (filterStep engine (projectBlocked names assignments context)) o r) o rows) ↔
      ∃ o, projectStep engine assignments row o ∧
        Each (filterStep engine context.pending) o rows := by
  have hone : ∀ o, projectStep engine assignments row o → ∃ out, o = {out} ∧ ∀ b,
      Passes engine (partition context.pending (blockedOutputs names assignments)).1 out b ↔
        Passes engine (projectPushable names assignments context) row b := by
    rintro _ ⟨out, hout, -, rfl⟩
    refine ⟨out, rfl, fun b => ?_⟩
    have hvalues : ∀ p ∈ (partition context.pending (blockedOutputs names assignments)).1,
        engine.values row (p.subst fun c => (valueOf assignments c).getD (.column c)) =
          engine.values out p := fun p hp =>
      values_substituted hlawful hnodup hout (hpending p (mem_partition.1.mp hp).1)
        (deterministic_of_pushed hp)
    cases b with
    | true =>
        simp only [Passes, projectPushable, List.forall_mem_map]
        exact forall₂_congr fun p hp => by rw [hvalues p hp]
    | false =>
        simp only [Passes, projectPushable, List.mem_map, exists_exists_and_eq_and]
        exact exists_congr fun p => and_congr_right fun hp => by rw [hvalues p hp]
  rw [filterStep_below_one hlawful (exists_projectStep hlawful hnodup row) hone]
  refine exists_congr fun o => and_congr_right fun _ => each_congr fun row _ r => ?_
  refine filterStep_congr fun p => ?_
  rw [List.mem_append, mem_partition.1, mem_partition.2]
  tauto

/-- The pushed conjuncts read columns of the input. -/
private lemma columns_projectPushable (hnodup : (assignments.map Prod.fst).Nodup)
    (hreads : ∀ c ∈ Expr.columnsAll (assignments.map Prod.snd), c ∈ child.outputColumns)
    (hpending : ∀ p ∈ context.pending, ∀ c ∈ p.columns, c ∈ assignments.map Prod.fst) :
    ∀ c ∈ Expr.columnsAll (projectPushable names assignments context),
      c ∈ child.outputColumns := by
  intro c hc
  obtain ⟨e, he, hmem⟩ := Expr.mem_columnsAll.mp hc
  obtain ⟨p, hp, rfl⟩ := List.mem_map.mp he
  obtain ⟨c', hc', hmem⟩ := Expr.exists_of_mem_columns_subst hmem
  obtain ⟨a, ha, rfl⟩ := List.mem_map.mp (hpending p (mem_partition.1.mp hp).1 c' hc')
  rw [valueOf_of_mem hnodup ha] at hmem
  exact hreads c (Expr.mem_columnsAll.mpr ⟨a.2, List.mem_map_of_mem ha, hmem⟩)

/-- A projection that is simplified has constants of its own columns and of its input. -/
private lemma constants_simplifyProject {input : SimplifiedNode V}
    (hconstants : ∀ c, input.substitutions c ≠ none → c ∈ child.allColumns)
    (kept : Finset Column) :
    ∀ c, (simplifyProject input (surviving assignments kept)).substitutions c ≠ none →
      c ∈ (Tree.project child assignments).allColumns := by
  intro c hc
  by_cases hvalue : valueOf ((surviving assignments kept).map fun a =>
      (a.1, input.substitutions.apply a.2)) c = none
  · refine List.mem_append_right _ (hconstants c fun hnone => hc ?_)
    simp only [simplifyProject, hvalue, hnone]
  · obtain ⟨e, he⟩ := Option.ne_none_iff_exists'.mp hvalue
    obtain ⟨a, ha, heq⟩ := List.mem_map.mp (exists_of_valueOf he)
    cases heq
    exact List.mem_append_left _ (List.mem_map_of_mem (f := Prod.fst) (List.mem_of_mem_filter ha))

lemma rewrites_project (hlawful : engine.Lawful names)
    (hnodup : (assignments.map Prod.fst).Nodup)
    (hreads : ∀ c ∈ Expr.columnsAll (assignments.map Prod.snd), c ∈ child.outputColumns)
    (hidentity : ∀ a ∈ assignments, a.1 ∈ child.allColumns → ∀ c, a.2 = .column c → c = a.1)
    (hpending : ∀ p ∈ context.pending, ∀ c ∈ p.columns, c ∈ assignments.map Prod.fst)
    (h : ∀ context' : PushdownContext V,
      (∀ c ∈ Expr.columnsAll context'.pending, c ∈ child.outputColumns) →
      Rewrites engine leafRows child context' (rewrite engine.toVariants names child context')) :
    Rewrites engine leafRows (.project child assignments) context
      (rewrite engine.toVariants names (.project child assignments) context) := by
  rw [rewrite_project]
  have hinput := h (projectContext names assignments context)
    (columns_projectPushable hnodup hreads hpending)
  set input := rewrite engine.toVariants names child (projectContext names assignments context)
  set kept := projectKept names assignments context with hkept
  have hidentity' : ∀ a ∈ assignments, input.substitutions a.1 ≠ none →
      ∀ c, a.2 = .column c → c = a.1 := fun a ha hsome =>
    hidentity a ha (hinput.constants a.1 hsome)
  have hread : Expr.columnsAll ((surviving assignments kept).map Prod.snd) ⊆
      (projectContext names assignments context).required.filter (· ∈ child.outputColumns) := by
    intro c hc
    obtain ⟨e, he, hmem⟩ := Expr.mem_columnsAll.mp hc
    obtain ⟨a, ha, rfl⟩ := List.mem_map.mp he
    exact Finset.mem_filter.mpr ⟨Finset.mem_union_left _ hc, hreads c (Expr.mem_columnsAll.mpr
      ⟨a.2, List.mem_map_of_mem (List.mem_of_mem_filter ha), hmem⟩)⟩
  have hblocked : Expr.columnsAll (projectBlocked names assignments context) ⊆
      kept.filter (· ∈ assignments.map Prod.fst) := by
    intro c hc
    obtain ⟨p, hp, hmem⟩ := Expr.mem_columnsAll.mp hc
    exact Finset.mem_filter.mpr
      ⟨Finset.mem_union_right _ hc, hpending p (mem_partition.2.mp hp).1 c hmem⟩
  have hrows : Matches context.mayDropDuplicates
      (RowsMatch (kept.filter (· ∈ assignments.map Prod.fst))
        (simplifyProject input (surviving assignments kept)).substitutions)
      (fun rows => ∃ N, (∃ M', (Tree.filter child (projectPushable names assignments context)).Runs
          engine leafRows M' ∧ Each (projectStep engine assignments) M' N) ∧
        Each (filterStep engine (projectBlocked names assignments context)) N rows)
      ((finishSimplifiedNode (simplifyProject input (surviving assignments kept))
        (projectBlocked names assignments context)).node.Runs engine leafRows) := by
    have hbelow := hinput.rows
    cases hdrop : (projectContext names assignments context).mayDropDuplicates with
    | false =>
        rw [hdrop] at hbelow
        exact Matches.of_false (matches_finish (Matches.each hbelow fun row row' hmatch =>
          matches_projectStep hlawful hnodup hidentity' hmatch hread) hblocked (.inl rfl))
    | true =>
        rw [hdrop] at hbelow
        obtain ⟨hmay, hdet⟩ := Bool.and_eq_true_iff.mp hdrop
        rw [Bool.not_eq_true'] at hdet
        rw [hmay]
        have hkeptNodup : ((nonLiteral input.substitutions (surviving assignments kept)).map
            Prod.fst).Nodup := by
          have hfirsts : ((surviving assignments kept).map fun a =>
              (a.1, input.substitutions.apply a.2)).map Prod.fst =
              (surviving assignments kept).map Prod.fst := by
            rw [List.map_map]
            rfl
          refine List.Nodup.sublist (List.filter_sublist.map _) ?_
          rw [hfirsts]
          exact hnodup.sublist (List.filter_sublist.map _)
        exact matches_finish (Matches.each_of_all hbelow (fun row row' hmatch o o' ho ho' =>
          rowsMatch_of_deterministic hlawful hnodup hidentity' hmatch hread hdet ho ho')
          (exists_projectStep hlawful hnodup) (exists_projectStep hlawful hkeptNodup)) hblocked
          (.inr (projectBlocked_eq_nil hdet))
  refine ⟨?_, constants_simplifyProject hinput.constants kept⟩
  exact (Matches.mono_columns hrows (Finset.filter_subset_filter _ Finset.subset_union_left)).congr
    (runs_push (projectStep_push hlawful hnodup hpending)) fun _ => Iff.rfl

end Project

/-! ### Unnests -/

section Unnest

variable {child : Tree V} {key : UnnestKey V} {context : PushdownContext V}

private abbrev unnestPushable (names : FunctionNames) (key : UnnestKey V)
    (context : PushdownContext V) : List (Expr V) :=
  (blockNondeterministic names (partition context.pending key.producedColumns.toFinset).1
    (partition context.pending key.producedColumns.toFinset).2).1

private abbrev unnestBlocked (names : FunctionNames) (key : UnnestKey V)
    (context : PushdownContext V) : List (Expr V) :=
  (blockNondeterministic names (partition context.pending key.producedColumns.toFinset).1
    (partition context.pending key.producedColumns.toFinset).2).2

private abbrev unnestKept (names : FunctionNames) (key : UnnestKey V)
    (context : PushdownContext V) : Finset Column :=
  context.required ∪ Expr.columnsAll (unnestBlocked names key context) ∪
    key.markerColumn.toList.toFinset

/-- The context of the input of an unnest. -/
private abbrev unnestContext (names : FunctionNames) (key : UnnestKey V)
    (context : PushdownContext V) (collapse : Bool) : PushdownContext V :=
  key.childContext names context (unnestPushable names key context)
    (unnestBlocked names key context) collapse
    (key.pruned (unnestKept names key context)).replicatedColumns

private lemma rewrite_unnest : rewrite engine.toVariants names (.unnest child key) context =
    match (if context.mayDropDuplicates && key.markerColumn.isNone &&
        (unnestBlocked names key context).isEmpty &&
        decide (Disjoint (unnestKept names key context) key.producedColumns.toFinset) then
      names.lte.bind fun lte => names.cardinality.map fun cardinality => (lte, cardinality)
    else none) with
    | some (lte, cardinality) =>
        let input := rewrite engine.toVariants names child (unnestContext names key context true)
        ⟨.filter input.node (nonEmpty engine.toVariants lte cardinality
          (key.unnestExpressions.map input.substitutions.apply)).toList, input.substitutions⟩
    | none =>
        finishSimplifiedNode (simplifyUnnest engine.toVariants
          (rewrite engine.toVariants names child (unnestContext names key context false))
          (key.pruned (unnestKept names key context))) (unnestBlocked names key context) := rfl

private lemma mem_unnestPushable {p : Expr V} : p ∈ unnestPushable names key context ↔
    p ∈ context.pending ∧ Disjoint p.columns key.producedColumns.toFinset ∧
      p.containsNonDeterministic names = false := by
  simp [unnestPushable, blockNondeterministic, mem_partition, and_assoc]

private lemma mem_unnestBlocked {p : Expr V} : p ∈ unnestBlocked names key context ↔
    p ∈ context.pending ∧ ¬ (Disjoint p.columns key.producedColumns.toFinset ∧
      p.containsNonDeterministic names = false) := by
  simp only [unnestBlocked, blockNondeterministic, List.mem_append, List.mem_filter,
    mem_partition.1, mem_partition.2]
  cases p.containsNonDeterministic names <;> simp
  tauto

/-- A conjunct that is pushed reads what the unnest passes on. -/
private lemma replicated_of_pushed (hkey : key.WellFormed child)
    (hpending : ∀ p ∈ context.pending, ∀ c ∈ p.columns, c ∈ key.outputColumns) :
    ∀ p ∈ unnestPushable names key context, ∀ c ∈ p.columns, c ∈ key.replicatedColumns := by
  intro p hp c hc
  obtain ⟨hp, hdisjoint, -⟩ := mem_unnestPushable.mp hp
  refine (hkey.outputs c (hpending p hp c hc)).resolve_right fun hproduced => ?_
  exact Finset.disjoint_left.mp hdisjoint hc (List.mem_toFinset.mpr hproduced)

/-- The conjuncts of the context, partly over the input. -/
private lemma unnestStep_push (hlawful : engine.Lawful names) (hkey : key.WellFormed child)
    (hpending : ∀ p ∈ context.pending, ∀ c ∈ p.columns, c ∈ key.outputColumns)
    (row : Row V) (rows : Multiset (Row V)) :
    (∃ o, filterStep engine (unnestPushable names key context) row o ∧
      Each (fun row r => ∃ o, unnestStep engine key row o ∧
        Each (filterStep engine (unnestBlocked names key context)) o r) o rows) ↔
      ∃ o, unnestStep engine key row o ∧ Each (filterStep engine context.pending) o rows := by
  have hsome : ∃ o, unnestStep engine key row o := by
    obtain ⟨values, hvalues⟩ := hlawful.valuesAll_nonempty row key.unnestExpressions
    exact ⟨_, values, hvalues, rfl⟩
  have hsame : ∀ o, unnestStep engine key row o → ∀ out ∈ o, ∀ b,
      Passes engine (unnestPushable names key context) out b ↔
        Passes engine (unnestPushable names key context) row b := by
    rintro _ ⟨values, -, rfl⟩ out hout b
    refine passes_of_values fun p hp => Engine.values_congr fun c hc => ?_
    exact apply_of_mem_rows hout (replicated_of_pushed hkey hpending p hp c hc)
      (hpending p (mem_unnestPushable.mp hp).1 c hc)
  rw [filterStep_below hlawful hsome (fun p hp => (mem_unnestPushable.mp hp).2.2) hsame]
  refine exists_congr fun o => and_congr_right fun _ => each_congr fun row _ r => ?_
  refine filterStep_congr fun p => ?_
  rw [List.mem_append, mem_unnestPushable, mem_unnestBlocked]
  tauto

lemma rewrites_unnest (hlawful : engine.Lawful names) (hkey : key.WellFormed child)
    (hchild : ∀ c ∈ child.outputColumns, c ∈ child.allColumns)
    (hpending : ∀ p ∈ context.pending, ∀ c ∈ p.columns, c ∈ key.outputColumns)
    (h : ∀ context' : PushdownContext V,
      (∀ p ∈ context'.pending, ∀ c ∈ p.columns, c ∈ child.outputColumns) →
      Rewrites engine leafRows child context' (rewrite engine.toVariants names child context')) :
    Rewrites engine leafRows (.unnest child key) context
      (rewrite engine.toVariants names (.unnest child key) context) := by
  have hpushed : ∀ p ∈ unnestPushable names key context, ∀ c ∈ p.columns,
      c ∈ child.outputColumns := fun p hp c hc =>
    hkey.replicated c (replicated_of_pushed hkey hpending p hp c hc)
  have hinput := fun collapse => h (unnestContext names key context collapse) hpushed
  set kept := unnestKept names key context with hkept
  have hrequired : ∀ collapse, ∀ c ∈ key.replicatedColumns, c ∈ kept →
      c ∈ (unnestContext names key context collapse).required.filter (· ∈ child.outputColumns) := by
    intro collapse c hc hmem
    refine Finset.mem_filter.mpr ⟨?_, hkey.replicated c hc⟩
    simp only [UnnestKey.childContext, Finset.mem_union]
    refine .inl (.inr (List.mem_toFinset.mpr (List.mem_filter.mpr ⟨hc, decide_eq_true hmem⟩)))
  have hreads : ∀ collapse, Expr.columnsAll key.unnestExpressions ⊆
      (unnestContext names key context collapse).required.filter (· ∈ child.outputColumns) := by
    intro collapse c hc
    refine Finset.mem_filter.mpr ⟨?_, hkey.reads c hc⟩
    simp only [UnnestKey.childContext, Finset.mem_union]
    exact .inl (.inl (.inr hc))
  rw [rewrite_unnest]
  split
  · next lte cardinality hcollapse =>
      split at hcollapse
      · next hcondition =>
          simp only [Bool.and_eq_true, decide_eq_true_eq, Option.isNone_iff_eq_none,
            List.isEmpty_iff] at hcondition
          obtain ⟨⟨⟨hdrop, hmarker⟩, hblocked⟩, hdisjoint⟩ := hcondition
          obtain ⟨_, hlte, hcardinality⟩ := Option.bind_eq_some_iff.mp hcollapse
          obtain ⟨_, hcardinality, heq⟩ := Option.map_eq_some_iff.mp hcardinality
          cases heq
          have hreplicated : ∀ c ∈ context.required, c ∈ key.outputColumns →
              c ∈ key.replicatedColumns ∧ c ∈ (unnestContext names key context true).required.filter
                (· ∈ child.outputColumns) := by
            intro c hc hout
            have hmem : c ∈ kept := Finset.mem_union_left _ (Finset.mem_union_left _ hc)
            have hpassed := (hkey.outputs c hout).resolve_right fun hproduced =>
              Finset.disjoint_left.mp hdisjoint hmem (List.mem_toFinset.mpr hproduced)
            exact ⟨hpassed, hrequired true c hpassed hmem⟩
          refine ⟨?_, fun c hc => List.mem_append_right _ ((hinput true).constants c hc)⟩
          rw [hdrop]
          refine (matches_collapsed hlawful hlte hcardinality hkey.expressions hmarker hreplicated
            (hreads true) (hinput true).rows).congr (fun rows => ?_) fun _ => Iff.rfl
          refine (runs_push (unnestStep_push hlawful hkey hpending) rows).trans ?_
          rw [hblocked]
          simp only [each_filterStep_nil]
          exact ⟨fun ⟨N, hN, heq⟩ => heq ▸ hN, fun hN => ⟨rows, hN, rfl⟩⟩
      · cases hcollapse
  · have hblocked : Expr.columnsAll (unnestBlocked names key context) ⊆
        kept.filter (· ∈ key.outputColumns) := by
      intro c hc
      obtain ⟨p, hp, hmem⟩ := Expr.mem_columnsAll.mp hc
      exact Finset.mem_filter.mpr ⟨Finset.mem_union_left _ (Finset.mem_union_right _ hc),
        hpending p (mem_unnestBlocked.mp hp).1 c hmem⟩
    have hrows := matches_finish (matches_simplifyUnnest hlawful hkey hchild
      (hinput false).constants (hreads false) (hrequired false) (hinput false).rows) hblocked
      (.inl rfl)
    refine ⟨?_, constants_simplifyUnnest engine hkey (hinput false).constants⟩
    refine (Matches.of_false (Matches.mono_columns hrows ?_)).congr
      (runs_push (unnestStep_push hlawful hkey hpending)) fun _ => Iff.rfl
    exact Finset.filter_subset_filter _
      (Finset.subset_union_left.trans Finset.subset_union_left)

end Unnest

/-! ### The pass -/

/-- The pass keeps the rows of a tree, one for one or up to repetition. -/
theorem rewrites (hlawful : engine.Lawful names) : ∀ {node : Tree V}, node.WellFormed →
    ∀ context : PushdownContext V,
      (∀ p ∈ context.pending, ∀ c ∈ p.columns, c ∈ node.outputColumns) →
      Rewrites engine leafRows node context (rewrite engine.toVariants names node context)
  | .leaf columns, _, context, _ => rewrites_leaf columns context
  | .values row, _, context, hpending => rewrites_values row context fun c hc => by
      obtain ⟨p, hp, hmem⟩ := Expr.mem_columnsAll.mp hc
      exact hpending p hp c hmem
  | .filter child predicates, h, context, hpending => by
      refine rewrites_filter hlawful (rewrites hlawful h.1 _ fun p hp c hc => ?_)
      rcases List.mem_append.mp hp with hp | hp
      · exact hpending p hp c hc
      · exact h.2 c (Expr.mem_columnsAll.mpr ⟨p, hp, hc⟩)
  | .sort child orderKeys, h, context, hpending =>
      rewrites_sort fun context' heq => rewrites hlawful h.1 context' (heq ▸ hpending)
  | .project child assignments, h, context, hpending =>
      rewrites_project hlawful h.2.1 h.2.2.1 h.2.2.2 hpending fun context' hpending' =>
        rewrites hlawful h.1 context' fun p hp c hc =>
          hpending' c (Expr.mem_columnsAll.mpr ⟨p, hp, hc⟩)
  | .unnest child key, h, context, hpending =>
      rewrites_unnest hlawful h.2 (allColumns_of_outputColumns h.1) hpending
        fun context' hpending' => rewrites hlawful h.1 context' hpending'

end Verax.Unnests
