import Verax.Unnests.Projecting

/-!
# Rewritten unnests

An unnest that is pruned, replaced by its only row, or replaced by a filter on the lengths of its
collections.

* `rows_match`: a pruned unnest gives a row for each row of the unnest.
* `matches_simplifyUnnest`: a pruned and simplified unnest.
* `passes_nonEmpty`: what the filter on the lengths says.
* `matches_collapsed`: a filter instead of an unnest whose columns nobody reads.
-/

namespace Verax.Unnests

open Lib Lib.PossibleBags

variable {V : Type} {engine : Engine V} {names : FunctionNames}

/-! ### Pruned unnests -/

section Pruned

variable {key : UnnestKey V} {child : Tree V} {columns kept : Finset Column}
  {constants : Constants V} {row row' : Row V}

/-- A column that the unnest makes has no constant below. -/
lemma UnnestKey.WellFormed.constants_eq_none (hkey : key.WellFormed child)
    (hconstants : ∀ c, constants c ≠ none → c ∈ child.allColumns) {c : Column}
    (hout : c ∈ key.outputColumns) (hmade : c ∉ key.replicatedColumns) : constants c = none := by
  by_contra hsome
  rcases hkey.outputs c hout with hreplicated | hproduced
  · exact hmade hreplicated
  · exact hkey.fresh c hproduced (hconstants c hsome)

/-- Rows of an unnest and of its rewriting that agree on the columns that are made. -/
private lemma rowsMatch_made (hkey : key.WellFormed child)
    (hconstants : ∀ c, constants c ≠ none → c ∈ child.allColumns)
    (hmatch : RowsMatch columns constants row row')
    (hreplicated : ∀ c ∈ key.replicatedColumns, c ∈ kept → c ∈ columns) {null : V}
    {made made' : Row V} (hmade : ∀ c ∈ kept, made c = made' c) :
    RowsMatch (kept.filter (· ∈ key.outputColumns)) constants
      (keepColumns null key.outputColumns fun c =>
        if c ∈ key.replicatedColumns then row c else made c)
      (keepColumns null ((key.pruned kept).simplified constants).outputColumns fun c =>
        if c ∈ ((key.pruned kept).simplified constants).replicatedColumns then row' c
        else made' c) := by
  intro c hc
  obtain ⟨hkept, hout⟩ := Finset.mem_filter.mp hc
  simp only [keepColumns, Constants.view, UnnestKey.simplified, UnnestKey.pruned, if_pos hout]
  by_cases hrep : c ∈ key.replicatedColumns
  · rw [if_pos hrep, hmatch c (hreplicated c hrep hkept), Constants.view]
    cases hconstant : constants c with
    | some value => rfl
    | none => simp [hout, hkept, hrep, hconstant]
  · rw [if_neg hrep, hkey.constants_eq_none hconstants hout hrep, hmade c hkept]
    simp [hout, hkept, hrep]

/-- A pruned unnest gives a row for each row of the unnest. -/
lemma rows_match (hkey : key.WellFormed child)
    (hconstants : ∀ c, constants c ≠ none → c ∈ child.allColumns)
    (hmatch : RowsMatch columns constants row row')
    (hreplicated : ∀ c ∈ key.replicatedColumns, c ∈ kept → c ∈ columns) (values : List V) :
    Multiset.Rel (RowsMatch (kept.filter (· ∈ key.outputColumns)) constants)
      (key.rows engine row values)
      (((key.pruned kept).simplified constants).rows engine row' values) := by
  have hordinality : ∀ c ∈ kept, (key.ordinalityColumn = some c ↔
      ((key.pruned kept).simplified constants).ordinalityColumn = some c) := by
    intro c hc
    simp only [UnnestKey.simplified, UnnestKey.pruned, Option.filter_eq_some_iff,
      decide_eq_true_eq]
    exact ⟨fun h => ⟨h, hc⟩, And.left⟩
  have hpositions : ∀ collections position,
      RowsMatch (kept.filter (· ∈ key.outputColumns)) constants
        (key.rowAt engine row collections position)
        (((key.pruned kept).simplified constants).rowAt engine row' collections position) := by
    intro collections position
    refine rowsMatch_made hkey hconstants hmatch hreplicated fun c hc => ?_
    simp only [hordinality c hc]
    rfl
  have hempty : RowsMatch (kept.filter (· ∈ key.outputColumns)) constants
      (key.emptyRow engine row)
      (((key.pruned kept).simplified constants).emptyRow engine row') := by
    refine rowsMatch_made hkey hconstants hmatch hreplicated fun c hc => ?_
    simp only [hordinality c hc]
    rfl
  unfold UnnestKey.rows
  dsimp only
  split
  · change Multiset.Rel _ _ (if key.markerColumn.isSome then _ else 0)
    split
    · exact Multiset.Rel.cons hempty Multiset.Rel.zero
    · exact Multiset.Rel.zero
  · rw [← Multiset.map_coe, ← Multiset.map_coe]
    exact Multiset.rel_map.mpr (Multiset.rel_refl_of_refl_on fun position _ =>
      hpositions _ position)

end Pruned

lemma valueOf_append {α : Type} (l l' : List (Column × α)) (c : Column) :
    valueOf (l ++ l') c = (valueOf l c).or (valueOf l' c) := by
  rw [valueOf, List.find?_append, valueOf, valueOf]
  cases List.find? (fun p => decide (p.1 = c)) l <;> rfl

/-! ### Unnests of one row -/

section Single

/-- Literal arrays of one element have one value each. -/
private lemma exists_of_singletonArrays (engine : Engine V) (row : Row V) :
    ∀ {expressions : List (Expr V)} {unnestColumns : List (List Column)} {elements : List (Column × V)},
    unnestColumns.length = expressions.length →
    singletonArrays engine.toVariants expressions unnestColumns = some elements →
    unnestColumns = elements.map (fun p => [p.1]) ∧
      ∀ values ∈ engine.valuesAll row expressions,
        values.map (fun v => (engine.collection v).getD []) = elements.map fun p => [[p.2]]
  | [], [], elements, _, h => by
      cases h
      exact ⟨rfl, fun values hvalues => by rw [hvalues]; rfl⟩
  | e :: expressions, made :: unnestColumns, elements, hlength, h => by
      rw [singletonArrays, List.zip_cons_cons, List.mapM_cons] at h
      simp only [Option.bind_eq_bind, Option.bind_eq_some_iff] at h
      obtain ⟨first, hfirst, rest, hrest, h⟩ := h
      cases h
      obtain ⟨hcolumns, hcollections⟩ :=
        exists_of_singletonArrays engine row (by simpa using hlength) hrest
      split at hfirst
      · next value c hpair =>
          cases hpair
          split at hfirst
          · next element helement =>
              cases hfirst
              refine ⟨by rw [List.map_cons, hcolumns], ?_⟩
              rintro _ ⟨v, rfl, values, hvalues, rfl⟩
              rw [List.map_cons, List.map_cons, hcollections values hvalues, helement]
              rfl
          · cases hfirst
      · cases hfirst

private lemma elementAt_single (null : V) (c : Column) : ∀ elements : List (Column × V),
    ((elements.map fun p => [p.1]).zip (elements.map fun p => [[p.2]])).findSome? (fun p =>
      if c ∈ p.1 then
        some ((p.2[0]?.bind fun element => element[p.1.idxOf c]?).getD null)
      else none) = valueOf elements c
  | [] => rfl
  | p :: elements => by
      rw [List.map_cons, List.map_cons, List.zip_cons_cons, List.findSome?_cons,
        elementAt_single null c elements]
      by_cases hc : p.1 = c
      · subst hc
        simp [valueOf]
      · have hne : c ≠ p.1 := fun heq => hc heq.symm
        simp [hc, hne, valueOf]

private lemma rowCount_single {elements : List (Column × V)} (h : elements ≠ []) :
    UnnestKey.rowCount (elements.map fun p => [[p.2]]) = 1 := by
  unfold UnnestKey.rowCount
  induction elements with
  | nil => exact (h rfl).elim
  | cons p elements ih =>
      cases elements with
      | nil => rfl
      | cons q elements =>
          rw [List.map_cons, List.map_cons, List.foldr_cons, ih (by simp)]
          rfl

variable {key : UnnestKey V} {child : Tree V} {columns kept : Finset Column}
  {constants : Constants V} {row row' : Row V} {elements : List (Column × V)}

private lemma valueOf_singleRow (c : Column) :
    valueOf (key.singleRow engine.toVariants elements) c =
      ((valueOf elements c).or
        (if key.ordinalityColumn = some c then some (engine.integer 1) else none)).or
        (if key.markerColumn = some c then some (engine.boolean true) else none) := by
  have hoption : ∀ (o : Option Column) (v : V), valueOf (o.toList.map (·, v)) c =
      if o = some c then some v else none := by
    intro o v
    cases o with
    | none => rfl
    | some c' => by_cases hc : c' = c <;> simp [valueOf, hc]
  rw [UnnestKey.singleRow, valueOf_append, valueOf_append, hoption, hoption]

/-- The only row of the unnest, as its input row with constants. -/
private lemma rowsMatch_single (hkey : key.WellFormed child)
    (hchild : ∀ c ∈ child.outputColumns, c ∈ child.allColumns)
    (hmatch : RowsMatch columns constants row row')
    (hreplicated : ∀ c ∈ key.replicatedColumns, c ∈ kept → c ∈ columns)
    (hcolumns : key.unnestColumns = elements.map (fun p => [p.1])) :
    RowsMatch (kept.filter (· ∈ key.outputColumns)) (fun c =>
        (valueOf ((key.pruned kept).singleRow engine.toVariants elements) c).or (constants c))
      (key.rowAt engine row (elements.map fun p => [[p.2]]) 0) row' := by
  intro c hc
  obtain ⟨hkept, hout⟩ := Finset.mem_filter.mp hc
  have hordinality : (key.pruned kept).ordinalityColumn = some c ↔
      key.ordinalityColumn = some c := by
    simp only [UnnestKey.pruned, Option.filter_eq_some_iff, decide_eq_true_eq]
    exact ⟨And.left, fun h => ⟨h, hkept⟩⟩
  have hmade : c ∈ key.producedColumns ↔ valueOf elements c ≠ none ∨
      key.ordinalityColumn = some c ∨ key.markerColumn = some c := by
    rw [Ne, valueOf_eq_none, not_not]
    simp [UnnestKey.producedColumns, hcolumns]
  simp only [UnnestKey.rowAt, keepColumns, Constants.view, if_pos hout, valueOf_singleRow,
    hordinality]
  change (if _ then _ else _) = ((((_ : Option V).or _).or
    (if key.markerColumn = some c then _ else none)).or _).getD _
  by_cases hrep : c ∈ key.replicatedColumns
  · have hnot : ¬ (valueOf elements c ≠ none ∨ key.ordinalityColumn = some c ∨
        key.markerColumn = some c) := fun h =>
      hkey.fresh c (hmade.mpr h) (hchild c (hkey.replicated c hrep))
    rw [not_or, not_or, not_not] at hnot
    rw [if_pos hrep, hnot.1, if_neg hnot.2.1, if_neg hnot.2.2,
      hmatch c (hreplicated c hrep hkept)]
    rfl
  · have hproduced := hmade.mp ((hkey.outputs c hout).resolve_left hrep)
    have helement : key.elementAt engine.null (elements.map fun p => [[p.2]]) 0 c =
        valueOf elements c := by
      rw [UnnestKey.elementAt, hcolumns]
      exact elementAt_single engine.null c elements
    rw [if_neg hrep, helement]
    cases hvalue : valueOf elements c with
    | some value => simp
    | none =>
        rw [hvalue] at hproduced
        by_cases hordinal : key.ordinalityColumn = some c
        · simp [hordinal]
        · have hmarker : key.markerColumn = some c := by
            rcases hproduced with h | h | h
            · exact (h rfl).elim
            · exact (hordinal h).elim
            · exact h
          simp [hordinal, hmarker]

/-- An unnest of literal arrays of one element gives one row. -/
private lemma rows_single (hkey : key.WellFormed child)
    (hcolumns : key.unnestColumns = elements.map (fun p => [p.1])) {values : List V}
    (hvalues : values.map (fun v => (engine.collection v).getD []) =
      elements.map fun p => [[p.2]]) :
    key.rows engine row values = {key.rowAt engine row (elements.map fun p => [[p.2]]) 0} := by
  have helements : elements ≠ [] := by
    rintro rfl
    have hlength := hkey.aligned
    rw [hcolumns] at hlength
    exact hkey.expressions (List.length_eq_zero_iff.mp hlength.symm)
  unfold UnnestKey.rows
  dsimp only
  rw [hvalues, rowCount_single helements]
  rfl

end Single

section Simplified

variable {key : UnnestKey V} {child : Tree V} {columns kept : Finset Column}
  {leafRows : Multiset (Row V)} {P : Multiset (Row V) → Prop} {input : SimplifiedNode V}

/-- A pruned and simplified unnest. -/
lemma matches_simplifyUnnest (hlawful : engine.Lawful names) (hkey : key.WellFormed child)
    (hchild : ∀ c ∈ child.outputColumns, c ∈ child.allColumns)
    (hconstants : ∀ c, input.substitutions c ≠ none → c ∈ child.allColumns)
    (hreads : Expr.columnsAll key.unnestExpressions ⊆ columns)
    (hreplicated : ∀ c ∈ key.replicatedColumns, c ∈ kept → c ∈ columns)
    (h : Matches false (RowsMatch columns input.substitutions) P
      (input.node.Runs engine leafRows)) :
    Matches false (RowsMatch (kept.filter (· ∈ key.outputColumns))
        (simplifyUnnest engine.toVariants input (key.pruned kept)).substitutions)
      (fun rows => ∃ M, P M ∧ Each (unnestStep engine key) M rows)
      ((simplifyUnnest engine.toVariants input (key.pruned kept)).node.Runs engine leafRows) := by
  have hvalues : ∀ {row row' : Row V}, RowsMatch columns input.substitutions row row' →
      engine.valuesAll row' ((key.pruned kept).simplified input.substitutions).unnestExpressions =
        engine.valuesAll row key.unnestExpressions := fun hmatch => hmatch.valuesAll_apply hreads
  unfold simplifyUnnest
  dsimp only
  split
  · next elements hsingle =>
      have hsingle : singletonArrays engine.toVariants
          ((key.pruned kept).simplified input.substitutions).unnestExpressions
          (key.pruned kept).unnestColumns = some elements := by
        split at hsingle
        · exact hsingle
        · cases hsingle
      have hlength : (key.pruned kept).unnestColumns.length =
          ((key.pruned kept).simplified input.substitutions).unnestExpressions.length :=
        hkey.aligned.trans (List.length_map _).symm
      have hstep : ∀ row row', RowsMatch columns input.substitutions row row' →
          Matches false (RowsMatch (kept.filter (· ∈ key.outputColumns)) fun c =>
              (valueOf ((key.pruned kept).singleRow engine.toVariants elements) c).or
                (input.substitutions c))
            (unnestStep engine key row) (fun o => o = {row'}) := by
        intro row row' hmatch
        obtain ⟨hcolumns, hcollections⟩ :=
          exists_of_singletonArrays engine row' hlength hsingle
        rw [hvalues hmatch] at hcollections
        have hrow : Alike false (RowsMatch (kept.filter (· ∈ key.outputColumns)) fun c =>
              (valueOf ((key.pruned kept).singleRow engine.toVariants elements) c).or
                (input.substitutions c))
            {key.rowAt engine row (elements.map fun p => [[p.2]]) 0} {row'} :=
          Multiset.Rel.cons (rowsMatch_single hkey hchild hmatch hreplicated hcolumns)
            Multiset.Rel.zero
        constructor
        · rintro _ ⟨values, hmem, rfl⟩
          rw [rows_single hkey hcolumns (hcollections values hmem)]
          exact ⟨_, rfl, hrow⟩
        · rintro _ rfl
          obtain ⟨values, hmem⟩ := hlawful.valuesAll_nonempty row key.unnestExpressions
          exact ⟨_, ⟨values, hmem, rfl⟩,
            by rw [rows_single hkey hcolumns (hcollections values hmem)]; exact hrow⟩
      refine (Matches.each h hstep).congr (fun _ => Iff.rfl) fun rows => ?_
      have heach : ∀ M, Each (fun row' o => o = ({row'} : Multiset (Row V))) M rows ↔ rows = M := by
        intro M
        rw [each_eq, Multiset.bind_singleton, Multiset.map_id']
      simp [heach]
  · refine Matches.each h fun row row' hmatch => ⟨?_, ?_⟩
    · rintro _ ⟨values, hmem, rfl⟩
      exact ⟨_, ⟨values, (hvalues hmatch).symm ▸ hmem, rfl⟩,
        rows_match hkey hconstants hmatch hreplicated values⟩
    · rintro _ ⟨values, hmem, rfl⟩
      exact ⟨_, ⟨values, hvalues hmatch ▸ hmem, rfl⟩,
        rows_match hkey hconstants hmatch hreplicated values⟩

/-- An unnest that is simplified has constants of its own columns and of its input. -/
lemma constants_simplifyUnnest (engine : Engine V) (hkey : key.WellFormed child)
    (hconstants : ∀ c, input.substitutions c ≠ none → c ∈ child.allColumns) :
    ∀ c, (simplifyUnnest engine.toVariants input (key.pruned kept)).substitutions c ≠ none →
      c ∈ (Tree.unnest child key).allColumns := by
  intro c hc
  unfold simplifyUnnest at hc
  dsimp only at hc
  split at hc
  · next elements hsingle =>
      dsimp only at hc
      split at hsingle
      · obtain ⟨hcolumns, -⟩ := exists_of_singletonArrays engine (fun _ => engine.null)
          (hkey.aligned.trans (List.length_map _).symm) hsingle
        by_cases hvalue : valueOf ((key.pruned kept).singleRow engine.toVariants elements) c = none
        · rw [hvalue, Option.none_or] at hc
          exact List.mem_append_right _ (hconstants c hc)
        · refine List.mem_append_left _ ?_
          have hmade : c ∈ ((key.pruned kept).singleRow engine.toVariants elements).map
              Prod.fst := by
            by_contra hnone
            exact hvalue (valueOf_eq_none.mpr hnone)
          have hflatten : key.unnestColumns.flatten = elements.map Prod.fst := by
            rw [show key.unnestColumns = elements.map (fun p => [p.1]) from hcolumns,
              ← List.flatMap_def, ← List.map_eq_flatMap]
          rw [UnnestKey.producedColumns, hflatten]
          simp only [UnnestKey.singleRow, UnnestKey.pruned, List.map_append, List.map_map,
            List.mem_append] at hmade ⊢
          rcases hmade with (helement | hordinality) | hmarker
          · exact .inl (.inl helement)
          · refine .inl (.inr ?_)
            obtain ⟨c', hc', rfl⟩ := List.mem_map.mp hordinality
            exact Option.mem_toList.mpr
              (Option.filter_eq_some_iff.mp (Option.mem_toList.mp hc')).1
          · obtain ⟨c', hc', rfl⟩ := List.mem_map.mp hmarker
            exact .inr hc'
      · cases hsingle
  · exact List.mem_append_right _ (hconstants c hc)

end Simplified

/-! ### Unnests that only repeat rows -/

/-- The collections of some values. -/
abbrev collectionsOf (engine : Engine V) (values : List V) : List (List (List V)) :=
  values.map fun v => (engine.collection v).getD []

lemma rowCount_pos_cons (u : V) (us : List V) :
    decide (0 < UnnestKey.rowCount (collectionsOf engine (u :: us))) =
      (decide (0 < ((engine.collection u).getD []).length) ||
        decide (0 < UnnestKey.rowCount (collectionsOf engine us))) := by
  rw [← Bool.decide_or]
  exact decide_eq_decide.mpr lt_max_iff

section Conditions

variable {lte cardinality : String} {row : Row V} {b : Bool}

/-- A collection is not empty. -/
private abbrev lengthCondition (engine : Engine V) (lte cardinality : String) (e : Expr V) :
    Expr V := .call lte [.literal (engine.integer 1), .call cardinality [e]]

private lemma holds_lengthCondition (hlawful : engine.Lawful names) (hlte : names.lte = some lte)
    (hcardinality : names.cardinality = some cardinality) (e : Expr V) :
    (∃ v ∈ engine.values row (lengthCondition engine lte cardinality e), engine.holds v = b) ↔
      ∃ u ∈ engine.values row e, b = decide (0 < ((engine.collection u).getD []).length) := by
  have hcall : ∀ u, ∃ w, engine.call lte [engine.integer 1, engine.cardinalityOf u] = {w} ∧
      engine.holds w = decide (0 < ((engine.collection u).getD []).length) := by
    intro u
    unfold Engine.cardinalityOf
    cases engine.collection u with
    | some elements =>
        exact ⟨_, hlawful.lte lte 1 elements.length hlte, hlawful.holds_boolean _⟩
    | none => exact ⟨_, hlawful.lte_null lte 1 hlte, hlawful.holds_null⟩
  have hvalues : ∀ v, v ∈ engine.values row (lengthCondition engine lte cardinality e) ↔
      ∃ u ∈ engine.values row e,
        v ∈ engine.call lte [engine.integer 1, engine.cardinalityOf u] := by
    intro v
    simp [Engine.values, Engine.valuesAll, hlawful.cardinality _ _ hcardinality]
  constructor
  · rintro ⟨v, hv, rfl⟩
    obtain ⟨u, hu, hv⟩ := (hvalues v).mp hv
    obtain ⟨w, hw, hholds⟩ := hcall u
    rw [hw] at hv
    exact ⟨u, hu, hv ▸ hholds⟩
  · rintro ⟨u, hu, rfl⟩
    obtain ⟨w, hw, hholds⟩ := hcall u
    exact ⟨w, (hvalues w).mpr ⟨u, hu, hw ▸ rfl⟩, hholds⟩

private lemma holds_or (hlawful : engine.Lawful names) (e e' : Expr V) :
    (∃ v ∈ engine.values row (.call "__or" [e, e']), engine.holds v = b) ↔
      ∃ x y, (∃ v ∈ engine.values row e, engine.holds v = x) ∧
        (∃ v ∈ engine.values row e', engine.holds v = y) ∧ b = (x || y) := by
  constructor
  · rintro ⟨u, ⟨_, ⟨v, hv, _, ⟨w, hw, _, rfl, rfl⟩, rfl⟩, hu⟩, rfl⟩
    exact ⟨_, _, ⟨v, hv, rfl⟩, ⟨w, hw, rfl⟩, hlawful.or v w u hu⟩
  · rintro ⟨_, _, ⟨v, hv, rfl⟩, ⟨w, hw, rfl⟩, rfl⟩
    obtain ⟨u, hu⟩ := hlawful.nonempty "__or" [v, w]
    exact ⟨u, ⟨_, ⟨v, hv, _, ⟨w, hw, _, rfl, rfl⟩, rfl⟩, hu⟩, hlawful.or v w u hu⟩

/-- One of some collections is not empty, or something else holds. -/
private lemma holds_foldl (hlawful : engine.Lawful names) (hlte : names.lte = some lte)
    (hcardinality : names.cardinality = some cardinality) : ∀ (es : List (Expr V)) (e : Expr V),
    (∃ v ∈ engine.values row ((es.map (lengthCondition engine lte cardinality)).foldl
        (fun result e => .call "__or" [result, e]) e), engine.holds v = b) ↔
      ∃ x, (∃ v ∈ engine.values row e, engine.holds v = x) ∧ ∃ us ∈ engine.valuesAll row es,
        b = (x || decide (0 < UnnestKey.rowCount (collectionsOf engine us)))
  | [], e => by simp [Engine.valuesAll, UnnestKey.rowCount, eq_comm]
  | e' :: es, e => by
      rw [List.map_cons, List.foldl_cons, holds_foldl hlawful hlte hcardinality es]
      simp only [holds_or hlawful, holds_lengthCondition hlawful hlte hcardinality]
      constructor
      · rintro ⟨_, ⟨x, _, hx, ⟨u, hu, rfl⟩, rfl⟩, us, hus, rfl⟩
        exact ⟨x, hx, u :: us, ⟨u, hu, us, hus, rfl⟩, by rw [rowCount_pos_cons, Bool.or_assoc]⟩
      · rintro ⟨x, hx, _, ⟨u, hu, us, hus, rfl⟩, rfl⟩
        exact ⟨_, ⟨x, _, hx, ⟨u, hu, rfl⟩, rfl⟩, us, hus, by rw [rowCount_pos_cons, Bool.or_assoc]⟩

/-- The filter on the lengths keeps a row if some collection has an element. -/
lemma passes_nonEmpty (hlawful : engine.Lawful names) (hlte : names.lte = some lte)
    (hcardinality : names.cardinality = some cardinality) {es : List (Expr V)} (hes : es ≠ []) :
    Passes engine (nonEmpty engine.toVariants lte cardinality es).toList row b ↔
      ∃ us ∈ engine.valuesAll row es,
        b = decide (0 < UnnestKey.rowCount (collectionsOf engine us)) := by
  cases es with
  | nil => exact (hes rfl).elim
  | cons e es =>
      have hpasses : ∀ p : Expr V, Passes engine (some p).toList row b ↔
          ∃ v ∈ engine.values row p, engine.holds v = b := by
        intro p
        cases b <;> simp [Passes]
      rw [nonEmpty, List.map_cons, orAll, hpasses]
      refine (holds_foldl hlawful hlte hcardinality es _).trans ?_
      simp only [holds_lengthCondition hlawful hlte hcardinality]
      constructor
      · rintro ⟨_, ⟨u, hu, rfl⟩, us, hus, rfl⟩
        exact ⟨u :: us, ⟨u, hu, us, hus, rfl⟩, (rowCount_pos_cons u us).symm⟩
      · rintro ⟨_, ⟨u, hu, us, hus, rfl⟩, rfl⟩
        exact ⟨_, ⟨u, hu, rfl⟩, us, hus, rowCount_pos_cons u us⟩

end Conditions

section Collapsed

variable {key : UnnestKey V} {columns required : Finset Column} {constants : Constants V}
  {row row' : Row V}

/-- The rows of an unnest have what it passes on. -/
lemma apply_of_mem_rows {values : List V} {out : Row V} (hout : out ∈ key.rows engine row values)
    {c : Column} (hc : c ∈ key.replicatedColumns) (houtput : c ∈ key.outputColumns) :
    out c = row c := by
  have hkeep : ∀ f : Column → V, keepColumns engine.null key.outputColumns
      (fun c => if c ∈ key.replicatedColumns then row c else f c) c = row c := by
    intro f
    rw [keepColumns, if_pos houtput, if_pos hc]
  unfold UnnestKey.rows at hout
  dsimp only at hout
  split at hout
  · split at hout
    · rw [Multiset.mem_singleton.mp hout]
      exact hkeep _
    · cases Multiset.notMem_zero _ hout
  · obtain ⟨position, -, rfl⟩ := List.mem_map.mp (Multiset.mem_coe.mp hout)
    exact hkeep _

/-- The rows of an unnest whose columns nobody reads repeat its input row. -/
private lemma alike_rows (hmarker : key.markerColumn = none)
    (hreads : ∀ c ∈ required, c ∈ key.outputColumns → c ∈ key.replicatedColumns ∧ c ∈ columns)
    (hmatch : RowsMatch columns constants row row') (values : List V) :
    Alike true (RowsMatch (required.filter (· ∈ key.outputColumns)) constants)
      (key.rows engine row values)
      (if decide (0 < UnnestKey.rowCount (collectionsOf engine values)) then {row'} else 0) := by
  have hrows : ∀ out ∈ key.rows engine row values,
      RowsMatch (required.filter (· ∈ key.outputColumns)) constants out row' := by
    intro out hout c hc
    obtain ⟨hrequired, houtput⟩ := Finset.mem_filter.mp hc
    obtain ⟨hreplicated, hcolumn⟩ := hreads c hrequired houtput
    rw [apply_of_mem_rows hout hreplicated houtput]
    exact hmatch c hcolumn
  by_cases hcount : 0 < UnnestKey.rowCount (collectionsOf engine values)
  · rw [if_pos (by simpa using hcount)]
    refine ⟨fun out hout => ⟨row', Multiset.mem_singleton_self _, hrows out hout⟩, ?_⟩
    intro a ha
    rw [Multiset.mem_singleton.mp ha]
    have hfirst : key.rowAt engine row (collectionsOf engine values) 0 ∈
        key.rows engine row values := by
      unfold UnnestKey.rows
      dsimp only
      rw [if_neg hcount.ne']
      exact Multiset.mem_coe.mpr (List.mem_map_of_mem (List.mem_range.mpr hcount))
    exact ⟨_, hfirst, hrows _ hfirst⟩
  · have hnone : key.rows engine row values = 0 := by
      unfold UnnestKey.rows
      dsimp only
      rw [if_pos (Nat.eq_zero_of_not_pos hcount), hmarker]
      rfl
    rw [hnone, if_neg (by simpa using hcount)]
    exact alike_zero

/-- A filter on the lengths instead of an unnest whose columns nobody reads. -/
lemma matches_collapsed (hlawful : engine.Lawful names) {lte cardinality : String}
    (hlte : names.lte = some lte) (hcardinality : names.cardinality = some cardinality)
    (hexpressions : key.unnestExpressions ≠ []) (hmarker : key.markerColumn = none)
    (hreads : ∀ c ∈ required, c ∈ key.outputColumns → c ∈ key.replicatedColumns ∧ c ∈ columns)
    (hcolumns : Expr.columnsAll key.unnestExpressions ⊆ columns)
    {leafRows : Multiset (Row V)} {P : Multiset (Row V) → Prop} {input : SimplifiedNode V}
    (h : Matches (!Expr.anyNonDeterministic names key.unnestExpressions)
      (RowsMatch columns input.substitutions) P (input.node.Runs engine leafRows)) :
    Matches true (RowsMatch (required.filter (· ∈ key.outputColumns)) input.substitutions)
      (fun rows => ∃ M, P M ∧ Each (unnestStep engine key) M rows)
      ((Tree.filter input.node (nonEmpty engine.toVariants lte cardinality
        (key.unnestExpressions.map input.substitutions.apply)).toList).Runs engine leafRows) := by
  have hnonempty : key.unnestExpressions.map input.substitutions.apply ≠ [] := by
    simpa using hexpressions
  have hfilter : ∀ {row row' : Row V}, RowsMatch columns input.substitutions row row' →
      ∀ o, filterStep engine (nonEmpty engine.toVariants lte cardinality
        (key.unnestExpressions.map input.substitutions.apply)).toList row' o ↔
      ∃ us ∈ engine.valuesAll row key.unnestExpressions,
        o = if decide (0 < UnnestKey.rowCount (collectionsOf engine us)) then {row'} else 0 := by
    intro row row' hmatch o
    rw [filterStep_iff]
    simp only [passes_nonEmpty hlawful hlte hcardinality hnonempty,
      hmatch.valuesAll_apply hcolumns]
    constructor
    · rintro ⟨_, ⟨us, hus, rfl⟩, ho⟩
      exact ⟨us, hus, ho⟩
    · rintro ⟨us, hus, ho⟩
      exact ⟨_, ⟨us, hus, rfl⟩, ho⟩
  cases hdet : Expr.anyNonDeterministic names key.unnestExpressions with
  | true =>
      rw [hdet] at h
      refine Matches.each h fun row row' hmatch => ⟨?_, ?_⟩
      · rintro _ ⟨us, hus, rfl⟩
        exact ⟨_, (hfilter hmatch _).mpr ⟨us, hus, rfl⟩, alike_rows hmarker hreads hmatch us⟩
      · intro o ho
        obtain ⟨us, hus, rfl⟩ := (hfilter hmatch o).mp ho
        exact ⟨_, ⟨us, hus, rfl⟩, alike_rows hmarker hreads hmatch us⟩
  | false =>
      rw [hdet] at h
      refine Matches.each_of_all h (fun row row' hmatch o o' ho ho' => ?_) (fun row => ?_)
        fun row' => exists_filterStep hlawful _ row'
      · obtain ⟨us, hus, rfl⟩ := ho
        obtain ⟨us', hus', rfl⟩ := (hfilter hmatch o').mp ho'
        rw [hlawful.valuesAll_unique hdet hus' hus]
        exact alike_rows hmarker hreads hmatch us
      · obtain ⟨us, hus⟩ := hlawful.valuesAll_nonempty row key.unnestExpressions
        exact ⟨_, us, hus, rfl⟩

end Collapsed

end Verax.Unnests
