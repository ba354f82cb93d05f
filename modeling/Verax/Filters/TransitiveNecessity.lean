import Mathlib.Algebra.Order.BigOperators.Group.List
import Mathlib.Algebra.Order.Group.Nat
import Verax.Filters.TransitiveEquivalence

/-!
# Where transitive filters lose rows

The two conditions transitive filters need are needed: a BETWEEN over a type that does not order its
values as integers turns into an empty join, and a condition that tells apart two rows that are not
distinct, put on one side of a join that equates the columns it reads with copies of them, leaves a
filter on the copies that says something else.

* `copiesJoin`: a join of some columns with copies of them.
* `derivesTransitive_iff`: transitive filters are an equivalence exactly under the two conditions.
-/

set_option linter.unusedSectionVars false

namespace Verax.Filters

open Lib

/-! ### A join of columns with copies of them -/

/-- A column with another number. -/
def copyColumn (k : ℕ) (c : Column) : Column := ⟨c.id + k, c.type⟩

/-- A join that equates some columns with copies of them, NULL matching NULL. -/
def copiesJoin (columns : List Column) (k : ℕ) (h : ∀ c ∈ columns, c.id < k) : Join where
  keys := columns.map fun c => (.column c, .column (copyColumn k c))
  filter := []
  nullAsValue := true
  leftColumns := columns
  rightColumns := columns.map (copyColumn k)
  key_types := List.forall_mem_map.mpr fun _ _ => rfl
  keys_within := List.forall_mem_map.mpr fun _ hc =>
    ⟨within_column.mpr hc, within_column.mpr (List.mem_map_of_mem hc)⟩
  filter_conditions := nofun
  disjoint := by
    intro c hc hcopy
    obtain ⟨d, -, rfl⟩ := List.mem_map.mp hcopy
    exact absurd (h _ hc) (by simp [copyColumn])

/-- A row that has one row in some columns and another row in their copies. -/
def joinedRow (k : ℕ) (row row' : Row) : Row :=
  fun c => if c.id < k then row c else row' ⟨c.id - k, c.type⟩

section

variable {engine : Engine} {registry : Registry} {volatile : FunctionName → Bool}
  {primitive : String → Bool}

lemma fits_joinedRow {k : ℕ} {row row' : Row} (h : Fits row) (h' : Fits row') :
    Fits (joinedRow k row row') := by
  intro c limits hlimits
  unfold joinedRow
  split
  · exact h c limits hlimits
  · exact h' ⟨c.id - k, c.type⟩ limits hlimits

lemma eval_joinedRow_column {k : ℕ} (row row' : Row) {c : Column} (hc : c.id < k) :
    engine.eval (joinedRow k row row') (.column c) = engine.eval row (.column c) := by
  rw [Engine.eval, Engine.eval, joinedRow, if_pos hc]

lemma eval_joinedRow_copy {k : ℕ} (row row' : Row) (c : Column) :
    engine.eval (joinedRow k row row') (.column (copyColumn k c)) =
      engine.eval row' (.column c) := by
  have hcopy : ¬ (copyColumn k c).id < k := by simp [copyColumn]
  rw [Engine.eval, Engine.eval, joinedRow, if_neg hcopy]
  simp [copyColumn]

section

variable {columns : List Column} {k : ℕ} {h : ∀ c ∈ columns, c.id < k}

/-- Rows that are not distinct meet the join. -/
lemma meets_copiesJoin {row row' : Row} (hrows : engine.NotDistinct columns row row') :
    (copiesJoin columns k h).Meets engine (joinedRow k row row') where
  keys := by
    refine List.forall_mem_map.mpr fun c hc => ?_
    rw [eval_joinedRow_column row row' (h c hc), eval_joinedRow_copy]
    exact hrows c hc
  filter := nofun

lemma mem_equiColumnPairs_copiesJoin {p : Column × Column} :
    p ∈ (copiesJoin columns k h).equiColumnPairs ↔ ∃ c ∈ columns, p = (c, copyColumn k c) := by
  rw [Join.equiColumnPairs, List.mem_eraseDups]
  simp only [copiesJoin, List.filterMap_nil, List.append_nil, List.filterMap_map]
  simp [List.mem_filterMap, Join.keyPair, eq_comm]

end

/-! ### What is derived from one conjunct -/

/-- The first mapping has every source. -/
lemma exists_makeSubstitutions {pairs : List (Column × Column)} (hne : pairs ≠ []) :
    ∃ mapping ∈ makeSubstitutions pairs, ∀ p ∈ pairs, p.1 ∈ mapping.map Prod.fst := by
  have hfold : ∀ {pairs : List (Column × Column)} {mapping : ExprSubstitution}
      {rest : List ExprSubstitution},
      ∃ mapping' ∈ pairs.foldl addSubstitution (mapping :: rest),
        (∀ s ∈ mapping.map Prod.fst, s ∈ mapping'.map Prod.fst) ∧
          ∀ p ∈ pairs, p.1 ∈ mapping'.map Prod.fst := by
    intro pairs
    induction pairs with
    | nil => exact fun {mapping} _ => ⟨mapping, List.mem_cons_self, fun _ h => h, nofun⟩
    | cons pair pairs ih =>
        intro mapping rest
        obtain ⟨first, others, hstep, hfirst, hpair⟩ : ∃ first others,
            addSubstitution (mapping :: rest) pair = first :: others ∧
              (∀ s ∈ mapping.map Prod.fst, s ∈ first.map Prod.fst) ∧
                pair.1 ∈ first.map Prod.fst := by
          rw [addSubstitution]
          split
          case isTrue hmem => exact ⟨_, _, rfl, fun _ h => h, hmem⟩
          case isFalse => exact ⟨_, _, rfl, fun s hs => by simp_all, by simp⟩
        obtain ⟨mapping', hmem, hsources, hpairs⟩ := @ih first others
        refine ⟨mapping', by rw [List.foldl_cons, hstep]; exact hmem,
          fun s hs => hsources s (hfirst s hs), ?_⟩
        exact List.forall_mem_cons.mpr ⟨hsources _ hpair, hpairs⟩
  obtain ⟨pair, rest, rfl⟩ := List.exists_cons_of_ne_nil hne
  obtain ⟨mapping, hmem, hsources, hpairs⟩ := @hfold rest [pair] []
  exact ⟨mapping, hmem, List.forall_mem_cons.mpr ⟨hsources _ (by simp), hpairs⟩⟩

/-- A join with copies rewrites a filter through a mapping that sends every column to its copy. -/
lemma exists_mapping_copiesJoin {columns : List Column} {k : ℕ} {h : ∀ c ∈ columns, c.id < k}
    (hne : columns ≠ []) :
    ∃ mapping, (mapping, []) ∈ (copiesJoin columns k h).mappings ∧
      ∀ c ∈ columns, mapping.lookup c = some (copyColumn k c) := by
  obtain ⟨c, hc⟩ := List.exists_mem_of_ne_nil _ hne
  have hpairs : (copiesJoin columns k h).equiColumnPairs ≠ [] :=
    List.ne_nil_of_mem (mem_equiColumnPairs_copiesJoin.mpr ⟨c, hc, rfl⟩)
  obtain ⟨mapping, hmapping, hsources⟩ := exists_makeSubstitutions hpairs
  refine ⟨mapping, List.mem_append_right _ (List.mem_map.mpr ⟨mapping, hmapping, rfl⟩),
    fun c hc => ?_⟩
  have hsource := hsources _ (mem_equiColumnPairs_copiesJoin.mpr ⟨c, hc, rfl⟩)
  cases hlookup : mapping.lookup c with
  | none =>
      obtain ⟨p, hp, heq⟩ := List.mem_map.mp hsource
      have hdiffers := List.lookup_eq_none_iff.mp hlookup p hp
      simp [heq] at hdiffers
  | some target =>
      obtain ⟨before, after, heq, -⟩ := List.lookup_eq_some_iff.mp hlookup
      have hpair := mem_of_mem_makeSubstitutions hmapping (p := (c, target)) (by rw [heq]; simp)
      obtain ⟨d, -, hd⟩ := mem_equiColumnPairs_copiesJoin.mp hpair
      cases hd
      rfl

variable {fuel : ℕ} {join : Join}

lemma deriveFilter_of_copiesOf {conjunct : Expr} :
    {mappings : List (ExprSubstitution × List Column)} → {copies : List (List Expr)} →
      copiesOf registry volatile primitive fuel conjunct mappings = .ok (some copies) →
        ∀ m ∈ mappings, ∃ rewrite ∈ copies,
          deriveFilter registry volatile primitive fuel m.2 m.1 conjunct = .ok (some rewrite)
  | [], _, _, m, hm => nomatch hm
  | (mapping, nonNullTargets) :: rest, copies, hrun, m, hm => by
      rw [copiesOf] at hrun
      obtain ⟨first, hfirst, hrun⟩ := Outcome.bind_eq_ok.mp hrun
      cases first with
      | none => cases hrun
      | some first =>
          obtain ⟨others, hothers, hrun⟩ := Outcome.bind_eq_ok.mp hrun
          cases others with
          | none => cases hrun
          | some others =>
              cases hrun
              rcases List.mem_cons.mp hm with rfl | hm
              · exact ⟨first, List.mem_cons_self, hfirst⟩
              · obtain ⟨rewrite, hrewrite, hderive⟩ := deriveFilter_of_copiesOf hothers m hm
                exact ⟨rewrite, List.mem_cons_of_mem _ hrewrite, hderive⟩

/-- What a mapping derives from a conjunct is left where it reads one side. -/
lemma derived_of_deriveTransitive {conjunct : Expr} {filters : List Expr}
    (hrun : deriveTransitive registry volatile primitive fuel join [conjunct] = .ok (some filters))
    {m : ExprSubstitution × List Column} (hm : m ∈ join.mappings) :
    ∃ rewrite, deriveFilter registry volatile primitive fuel m.2 m.1 conjunct = .ok (some rewrite) ∧
      ∀ e ∈ rewrite, join.readsOneInput e = true → e ∈ filters := by
  unfold deriveTransitive at hrun
  split at hrun
  case isTrue hnil =>
    rw [Join.mappings, hnil] at hm
    cases hm
  case isFalse =>
    obtain ⟨result, hresult, hrun⟩ := Outcome.map_eq_ok.mp hrun
    obtain ⟨⟨kept, derived⟩, rfl, rfl⟩ := Option.map_eq_some_iff.mp hrun
    rw [derivePending] at hresult
    obtain ⟨copies, hcopies, hresult⟩ := Outcome.bind_eq_ok.mp hresult
    cases copies with
    | none => cases hresult
    | some copies =>
        cases hresult
        obtain ⟨rewrite, hrewrite, hderive⟩ := deriveFilter_of_copiesOf hcopies m hm
        refine ⟨rewrite, hderive, fun e he hreads => mem_appendDistinct.mpr ?_⟩
        refine List.mem_append_right _ (List.mem_append_left _ (List.mem_filter.mpr ⟨?_, hreads⟩))
        exact List.mem_flatten.mpr ⟨rewrite, hrewrite, he⟩

/-! ### A range of a BIGINT-backed type -/

variable {n : String} {x y : Integral}

/-- A column of a type is between two integers. -/
def backedBetween (n : String) (id : ℕ) (low high : Integral) : Expr :=
  .apply .between [.column ⟨id, .bigintBacked n⟩, .literal (.integral low) (.bigintBacked n),
    .literal (.integral high) (.bigintBacked n)] .boolean

lemma condition_backedBetween {id : ℕ} : Condition (backedBetween n id y x) :=
  ⟨typed_apply.mpr ⟨⟨rfl, .bigintBacked n, rfl⟩, by simp [Expr.Typed]⟩, rfl⟩

lemma backed_backedBetween {id : ℕ} : ∀ m ∈ (backedBetween n id y x).backed, m = n := by
  intro m hm
  simpa [backedBetween, Expr.apply, Exprs.ofList, Expr.backed, Exprs.backed, SqlType.backed]
    using hm

/-- No value of the domain is between an integer and a lower one. -/
lemma simplifyFilter_backedBetween (fuel id : ℕ) (hlt : x < y) :
    simplifyFilter registry fuel (backedBetween n id y x) = .ok none := by
  obtain ⟨valid, hvalid⟩ : ∃ d, integralTypeDomain (.bigintBacked n) = some d := ⟨_, rfl⟩
  have hnonNull : nonNullDomain ⟨id, .bigintBacked n⟩ = valid := by
    rw [nonNullDomain, hvalid, Option.getD_some]
  have hsimplify : simplify registry fuel (backedBetween n id y x) = backedBetween n id y x := by
    cases fuel with
    | zero => rfl
    | succ fuel =>
        simp [backedBetween, Expr.apply, Exprs.ofList, Exprs.toList, simplify, simplifyArgs,
          simplify_column, simplify_literal, tryFoldRowField, tryExpandRowEquality,
          tryFoldConstant, tryFoldConjunct, Expr.columns, Exprs.columns, Expr.isConstantNull]
  have hcandidates : candidatesOf registry fuel (flattenAnd (backedBetween n id y x)) =
      .ok (some [backedBetween n id y x]) := by
    show candidatesOf registry fuel [backedBetween n id y x] = _
    rw [candidatesOf, hsimplify]
    rfl
  have hdomain : candidateDomain (backedBetween n id y x) =
      some (⟨id, .bigintBacked n⟩, ((Domain.greaterThanOrEqual y).intersect valid).intersect
        ((Domain.lessThanOrEqual x).intersect valid)) := by
    have hcolumns : (backedBetween n id y x).columns = [⟨id, .bigintBacked n⟩] := rfl
    have hcall : exprToDomainOf ⟨id, .bigintBacked n⟩ (backedBetween n id y x) .isTrue =
        some (((Domain.greaterThanOrEqual y).intersect valid).intersect
          ((Domain.lessThanOrEqual x).intersect valid)) := by
      rw [← hnonNull]
      exact if_pos rfl
    unfold candidateDomain
    rw [hcolumns]
    dsimp only
    rw [exprToDomain, hcolumns]
    dsimp only
    rw [hcall, hvalid]
    rfl
  have hempty : (((Domain.greaterThanOrEqual y).intersect valid).intersect
      ((Domain.lessThanOrEqual x).intersect valid)).isNone = true := by
    refine isNone_of_not_holds rfl fun U hU => ?_
    simp only [Domain.holds_intersect] at hU
    exact not_holds_atMost_atLeast hlt hU.2.1 hU.1.1
  unfold simplifyFilter
  rw [hcandidates]
  dsimp only [Bind.bind, Except.bind]
  have hplacement : ([backedBetween n id y x].foldl placeCandidate ⟨[], []⟩).domains =
      [(⟨id, .bigintBacked n⟩, ((Domain.greaterThanOrEqual y).intersect valid).intersect
        ((Domain.lessThanOrEqual x).intersect valid))] := by
    rw [List.foldl_cons, List.foldl_nil]
    simp [placeCandidate, hdomain, mergeDomain]
  rw [hplacement, renderDomains, if_pos hempty]
  rfl

/-- Every column of the type has one integer. -/
def integralRow (n : String) (value : Integral) : Row :=
  fun c => if c.type = .bigintBacked n then .integral value else .null

lemma fits_integralRow (n : String) (value : Integral) : Fits (integralRow n value) := by
  intro c limits hlimits
  unfold integralRow
  split
  case isFalse => trivial
  case isTrue hc =>
    rw [hc] at hlimits
    cases hlimits
    exact ⟨value.property.1, value.property.2⟩

lemma accepts_backedBetween {id : ℕ} (h : engine.key n y ≤ engine.key n x) :
    engine.accepts (integralRow n x) (backedBetween n id y x) := by
  have hcolumn : engine.eval (integralRow n x) (.column ⟨id, .bigintBacked n⟩) = .integral x := by
    rw [Engine.eval, integralRow, if_pos rfl]
    rfl
  have hliteral : ∀ value, engine.eval (integralRow n x)
      (.literal (.integral value) (.bigintBacked n)) = .integral value := by
    intro value
    rw [Engine.eval]
    rfl
  unfold Engine.accepts
  rw [backedBetween, Engine.eval_apply, Value.truth_conform]
  simp only [List.map_cons, List.map_nil, hcolumn, hliteral, Engine.apply, Value.truth_ofTruth,
    List.headD_cons, compareValues_integral, Expr.type]
  simp [relation, Engine.order, h]

/-- A BETWEEN rewritten to read a copy of its column is met by no row. -/
lemma deriveFilter_backedBetween (hvolatile : ∀ f, volatile f = true → ∃ name, f = .named name)
    {mapping : ExprSubstitution}
    (hlookup : mapping.lookup ⟨0, .bigintBacked n⟩ = some ⟨1, .bigintBacked n⟩) (hlt : x < y) :
    deriveFilter registry volatile primitive fuel [] mapping (backedBetween n 0 y x) =
      .ok none := by
  have hbetween : volatile .between = false := by
    by_contra hv
    obtain ⟨name, hname⟩ := hvolatile .between (by simpa using hv)
    cases hname
  have hdeterministic :
      containsNonDeterministic volatile (backedBetween n 0 y x) = false := by
    simp [backedBetween, Expr.apply, Exprs.ofList, containsNonDeterministic,
      anyNonDeterministic, hbetween]
  have hreplace : replace registry mapping (backedBetween n 0 y x) = backedBetween n 1 y x := by
    simp [backedBetween, Expr.apply, Exprs.ofList, replace, replaceArgs, Exprs.toList, hlookup,
      makeCall, canonicalizeCall]
  have hsimplify : simplifyNonNull registry volatile primitive [] (backedBetween n 1 y x) =
      backedBetween n 1 y x := by
    simp [backedBetween, Expr.apply, Exprs.ofList, simplifyNonNull, simplifyNonNullArgs,
      Exprs.toList, simplifyCall]
  have hdiffers : backedBetween n 1 y x ≠ backedBetween n 0 y x := by
    simp [backedBetween, Expr.apply, Exprs.ofList]
  have hself : isSelfEquality (backedBetween n 1 y x) = false := rfl
  unfold deriveFilter
  rw [hdeterministic, hreplace]
  simp [hdiffers, hself, hsimplify, simplifyFilter_backedBetween fuel 1 hlt]

/-- A type that does not order its values as integers turns a BETWEEN into an empty join. -/
lemma strictMono_of_derivesTransitive (hequality : engine.Equality primitive)
    (hvolatile : ∀ f, volatile f = true → ∃ name, f = .named name) {names : Set String}
    (h : DerivesTransitive registry engine volatile primitive fuel names) :
    ∀ n ∈ names, StrictMono (engine.key n) := by
  intro n hn x y hlt
  by_contra hle
  have hone : ∀ c ∈ [(⟨0, .bigintBacked n⟩ : Column)], c.id < 1 := by simp
  have hpending : (copiesJoin [⟨0, .bigintBacked n⟩] 1 hone).Pending names
      [backedBetween n 0 y x] := by
    refine ⟨?_, ?_, ?_⟩
    · exact List.forall_mem_singleton.mpr condition_backedBetween
    · exact List.forall_mem_singleton.mpr fun m hm => backed_backedBetween m hm ▸ hn
    · refine List.forall_mem_singleton.mpr (within_apply.mpr ?_)
      simp [within_column, within_literal, copiesJoin]
  obtain ⟨result, hresult, hkeeps⟩ := h _ _ hpending
  have hmeets : (copiesJoin _ 1 hone).Meets engine
      (joinedRow 1 (integralRow n x) (integralRow n x)) :=
    meets_copiesJoin fun c _ => hequality.same _ _
  have hfits := fits_joinedRow (k := 1) (fits_integralRow n x) (fits_integralRow n x)
  have hsame : engine.eval (joinedRow 1 (integralRow n x) (integralRow n x))
      (backedBetween n 0 y x) = engine.eval (integralRow n x) (backedBetween n 0 y x) := by
    refine eval_congr _ fun c hc => eval_joinedRow_column _ _ ?_
    obtain rfl : c = ⟨0, .bigintBacked n⟩ := List.mem_singleton.mp hc
    exact Nat.one_pos
  have haccepts : engine.accepts (joinedRow 1 (integralRow n x) (integralRow n x))
      (backedBetween n 0 y x) := by
    have hrow : engine.accepts (integralRow n x) (backedBetween n 0 y x) :=
      accepts_backedBetween (not_lt.mp hle)
    unfold Engine.accepts at hrow ⊢
    rwa [hsame]
  have hrow := hkeeps _ hfits hmeets
  cases result with
  | none => exact hrow (List.forall_mem_singleton.mpr haccepts)
  | some filters =>
      obtain ⟨mapping, hmapping, hlookup⟩ := exists_mapping_copiesJoin (h := hone) (by simp)
      obtain ⟨rewrite, hrewrite, -⟩ := derived_of_deriveTransitive hresult hmapping
      rw [deriveFilter_backedBetween hvolatile (hlookup _ List.mem_cons_self) hlt] at hrewrite
      cases hrewrite

/-! ### A condition that tells equal values apart -/

/-- A condition said three times, which no rule takes for an equality. -/
def thrice (e : Expr) : Expr := .apply .or [e, e, e] .boolean

lemma condition_thrice {e : Expr} (h : Condition e) : Condition (thrice e) :=
  ⟨typed_apply.mpr ⟨⟨rfl, by simp [h.type]⟩, by simp [h.typed]⟩, rfl⟩

lemma accepts_thrice {e : Expr} {row : Row} :
    engine.accepts row (thrice e) ↔ engine.accepts row e := by
  rw [thrice, Expr.apply, accepts_or, Exprs.toList_ofList]
  simp

lemma within_thrice {C : Set Column} {e : Expr} : (thrice e).Within C ↔ e.Within C := by
  rw [thrice, within_apply]
  simp

lemma replace_thrice (mapping : ExprSubstitution) (e : Expr) :
    replace registry mapping (thrice e) = thrice (replace registry mapping e) := by
  rw [thrice, Expr.apply, replace]
  split
  case isTrue hsame =>
    have he : replace registry mapping e = e := by
      simpa [Exprs.ofList, replaceArgs, Exprs.toList] using hsame
    rw [he]
    rfl
  case isFalse => simp [thrice, Exprs.ofList, replaceArgs, makeCall, canonicalizeCall]

lemma containsNonDeterministic_thrice
    (hvolatile : ∀ f, volatile f = true → ∃ name, f = .named name) {e : Expr}
    (h : containsNonDeterministic volatile e = false) :
    containsNonDeterministic volatile (thrice e) = false := by
  have hor : volatile .or = false := by
    by_contra hv
    obtain ⟨name, hname⟩ := hvolatile .or (by simpa using hv)
    cases hname
  simp [thrice, Expr.apply, Exprs.ofList, containsNonDeterministic, anyNonDeterministic, hor, h]

/-- A number above those of some columns. -/
def freshNumber (columns : List Column) : ℕ := (columns.map Column.id).sum + 1

lemma id_lt_freshNumber {columns : List Column} : ∀ c ∈ columns, c.id < freshNumber columns :=
  fun _ hc => Nat.lt_succ_of_le
    (List.single_le_sum (fun _ _ => Nat.zero_le _) _ (List.mem_map_of_mem hc))

mutual

/-- A rewritten expression reads the copies of the columns. -/
lemma within_replace {mapping : ExprSubstitution} {columns : List Column} {k : ℕ}
    (hlookup : ∀ c ∈ columns, mapping.lookup c = some (copyColumn k c)) :
    (e : Expr) → e.Within {c | c ∈ columns} →
      (replace registry mapping e).Within {c | c ∈ columns.map (copyColumn k)}
  | .column c, h => by
      have hc : c ∈ columns := within_column.mp h
      rw [replace, hlookup c hc]
      exact within_column.mpr (List.mem_map_of_mem hc)
  | .literal value type, _ => within_literal
  | .field base name type, h => within_replace hlookup base h
  | .call name args type, h => by
      have hargs := within_replaceArgs hlookup args (within_call.mp h)
      rw [replace]
      split
      case isTrue hsame =>
        rw [hsame] at hargs
        exact within_call.mpr hargs
      case isFalse => exact within_makeCall.mpr hargs

lemma within_replaceArgs {mapping : ExprSubstitution} {columns : List Column} {k : ℕ}
    (hlookup : ∀ c ∈ columns, mapping.lookup c = some (copyColumn k c)) :
    (args : Exprs) → (∀ a ∈ args.toList, a.Within {c | c ∈ columns}) →
      ∀ a ∈ replaceArgs registry mapping args, a.Within {c | c ∈ columns.map (copyColumn k)}
  | .nil, _ => nofun
  | .cons head tail, h => by
      obtain ⟨hhead, htail⟩ := List.forall_mem_cons.mp h
      exact List.forall_mem_cons.mpr
        ⟨within_replace hlookup head hhead, within_replaceArgs hlookup tail htail⟩

end

lemma within_simplifyCall {C : Set Column} {nonNullColumns : List Column} {name : FunctionName}
    {args simplifiedArgs : List Expr} {type : SqlType} (hargs : ∀ a ∈ args, a.Within C)
    (h : ∀ a ∈ simplifiedArgs, a.Within C) :
    (simplifyCall registry volatile primitive nonNullColumns name args type
      simplifiedArgs).Within C := by
  have hrebuilt : ∀ kept : List Expr, (∀ a ∈ kept, a.Within C) →
      (if kept = args then .apply name args type
        else makeCall registry name kept type : Expr).Within C := by
    intro kept hkept
    split
    · exact within_apply.mpr hargs
    · exact within_makeCall.mpr hkept
  unfold simplifyCall
  split
  case isTrue =>
    split
    case h_2 => exact within_apply.mpr hargs
    case h_1 first rest =>
      have hmem : ∀ a ∈ coalesceArgs nonNullColumns (first :: rest), a.Within C :=
        fun a ha => h a (mem_of_mem_coalesceArgs ha)
      split
      · exact h first List.mem_cons_self
      · split
        case h_1 => exact within_literal
        case h_2 arg heq =>
          split
          · exact within_apply.mpr hargs
          · exact hmem arg (heq ▸ List.mem_cons_self)
        case h_3 => exact hrebuilt _ hmem
  case isFalse =>
    dsimp only
    split
    · split
      · exact within_literal
      · exact hrebuilt _ h
    · split
      · exact within_literal
      · exact hrebuilt _ h
    · exact hrebuilt _ h

mutual

lemma within_simplifyNonNull {C : Set Column} {nonNullColumns : List Column} :
    (e : Expr) → e.Within C →
      (simplifyNonNull registry volatile primitive nonNullColumns e).Within C
  | .column _, h => h
  | .literal _ _, h => h
  | .field base _ _, h => within_simplifyNonNull base h
  | .call _ args _, h =>
      within_simplifyCall (within_call.mp h) (within_simplifyNonNullArgs args (within_call.mp h))

lemma within_simplifyNonNullArgs {C : Set Column} {nonNullColumns : List Column} :
    (args : Exprs) → (∀ a ∈ args.toList, a.Within C) →
      ∀ a ∈ simplifyNonNullArgs registry volatile primitive nonNullColumns args, a.Within C
  | .nil, _ => nofun
  | .cons head tail, h => by
      obtain ⟨hhead, htail⟩ := List.forall_mem_cons.mp h
      exact List.forall_mem_cons.mpr
        ⟨within_simplifyNonNull head hhead, within_simplifyNonNullArgs tail htail⟩

end

/-- The mapping makes of a joined row a row that has the other row in the columns. -/
lemma accepts_rebind_joinedRow {mapping : ExprSubstitution} (hmapping : mapping.KeepsTypes) {k : ℕ}
    {e : Expr} (hlookup : ∀ c ∈ e.columns, mapping.lookup c = some (copyColumn k c))
    (row row' : Row) :
    engine.accepts (rebind mapping (joinedRow k row row')) e ↔ engine.accepts row' e := by
  unfold Engine.accepts
  rw [eval_congr e fun c hc => ?_]
  rw [eval_rebind_column hmapping, hlookup c hc, Option.getD_some, eval_joinedRow_copy]

lemma accepts_joinedRow {k : ℕ} {e : Expr} (h : ∀ c ∈ e.columns, c.id < k) (row row' : Row) :
    engine.accepts (joinedRow k row row') e ↔ engine.accepts row e := by
  unfold Engine.accepts
  rw [eval_congr e fun c hc => eval_joinedRow_column row row' (h c hc)]

/-- A condition put on one side of a join with copies tells no row from one that is not distinct. -/
lemma accepts_of_derivesTransitive (hsound : registry.Sound engine) (hcasts : engine.Casts)
    (hequality : engine.Equality primitive)
    (hvolatile : ∀ f, volatile f = true → ∃ name, f = .named name) {names : Set String}
    (h : DerivesTransitive registry engine volatile primitive fuel names) {e : Expr}
    (he : Condition e) (hdeterministic : containsNonDeterministic volatile e = false)
    (hnames : ∀ n ∈ e.backed, n ∈ names) {row row' : Row} (hfits : Fits row) (hfits' : Fits row')
    (hrows : engine.NotDistinct e.columns row row') (haccepts : engine.accepts row e) :
    engine.accepts row' e := by
  by_contra hrejects
  have hids : ∀ c ∈ e.columns, c.id < freshNumber e.columns := id_lt_freshNumber
  have hcolumns : e.columns ≠ [] := by
    intro hnil
    refine hrejects ?_
    unfold Engine.accepts at haccepts ⊢
    rwa [eval_congr e (by simp [hnil])]
  have hpending : (copiesJoin e.columns _ hids).Pending names [thrice e] := by
    refine ⟨List.forall_mem_singleton.mpr (condition_thrice he),
      List.forall_mem_singleton.mpr fun n hn => ?_,
      List.forall_mem_singleton.mpr (within_thrice.mpr fun c hc => .inl hc)⟩
    rcases mem_backed_apply.mp hn with hboolean | ⟨a, ha, hbacked⟩
    · cases hboolean
    · obtain rfl : a = e := by simpa using ha
      exact hnames n hbacked
  obtain ⟨result, hresult, hkeeps⟩ := h _ _ hpending
  have hjoined : engine.accepts (joinedRow (freshNumber e.columns) row row') (thrice e) :=
    accepts_thrice.mpr ((accepts_joinedRow hids row row').mpr haccepts)
  have hrow := hkeeps _ (fits_joinedRow hfits hfits') (meets_copiesJoin hrows)
  cases result with
  | none => exact hrow (List.forall_mem_singleton.mpr hjoined)
  | some filters =>
      obtain ⟨mapping, hmapping, hlookup⟩ := exists_mapping_copiesJoin (h := hids) hcolumns
      obtain ⟨rewrite, hrewrite, hleft⟩ := derived_of_deriveTransitive hresult hmapping
      have htypes := (Join.applies_of_mem_mappings hequality hmapping).1
      -- What the copies stand for on a row that joins two rows is the condition on the second.
      obtain ⟨hcondition, hbacked, hsubstituted⟩ := substituted_spec hsound hequality htypes
        (condition_thrice he) (rfl : simplifyNonNull registry volatile primitive []
          (replace registry mapping (thrice e)) = _)
      have hsecond : ∀ first second, engine.accepts
          (joinedRow (freshNumber e.columns) first second)
            (simplifyNonNull registry volatile primitive [] (replace registry mapping (thrice e))) ↔
          engine.accepts second e := by
        intro first second
        rw [hsubstituted _ nofun, accepts_thrice, accepts_rebind_joinedRow htypes hlookup]
      have hrun : simplifyFilter registry fuel (simplifyNonNull registry volatile primitive []
          (replace registry mapping (thrice e))) = .ok (some rewrite) := by
        have hdiffers : replace registry mapping (thrice e) ≠ thrice e := by
          intro hsame
          have hreplaced := carries_replace hsound htypes
            (joinedRow (freshNumber e.columns) row row') _ (condition_thrice he).typed
          rw [hsame] at hreplaced
          have hboth := hreplaced.accepts_iff.mp hjoined
          exact hrejects ((accepts_rebind_joinedRow htypes hlookup row row').mp
            (accepts_thrice.mp hboth))
        have hself : isSelfEquality (replace registry mapping (thrice e)) = false := by
          rw [replace_thrice]
          rfl
        have hnamed : containsNonDeterministic volatile (thrice e) = false :=
          containsNonDeterministic_thrice hvolatile hdeterministic
        simpa [deriveFilter, hnamed, hdiffers, hself] using hrewrite
      obtain ⟨simplified, hsimplified, hagrees⟩ := simplifiesFilters_of_strictMono hsound hcasts
        fuel (strictMono_of_derivesTransitive hequality hvolatile h) _ hcondition
        fun n hn => hpending.backed _ List.mem_cons_self n (hbacked hn)
      rw [hrun] at hsimplified
      cases hsimplified
      have hmet : ∀ first second, Fits first → Fits second → (engine.accepts second e ↔
          ∀ g ∈ rewrite, engine.accepts (joinedRow (freshNumber e.columns) first second) g) :=
        fun first second hfirst hsecondFits =>
          (hsecond first second).symm.trans (hagrees _ (fits_joinedRow hfirst hsecondFits))
      obtain ⟨g, hg, hgrejects⟩ : ∃ g ∈ rewrite,
          ¬ engine.accepts (joinedRow (freshNumber e.columns) row row') g := by
        by_contra hall
        push Not at hall
        exact hrejects ((hmet row row' hfits hfits').mpr hall)
      have hwithin : g.Within {c | c ∈ e.columns.map (copyColumn (freshNumber e.columns))} :=
        within_simplifyFilter (within_simplifyNonNull _
          (within_replace hlookup _ (within_thrice.mpr fun _ hc => hc))) hrun g hg
      have hgcolumns : g.columns ≠ [] := by
        intro hnil
        have hgmet := (hmet row row hfits hfits).mp haccepts g hg
        unfold Engine.accepts at hgmet hgrejects
        rw [eval_congr g (by simp [hnil])] at hgmet
        exact hgrejects hgmet
      have hreads : (copiesJoin e.columns _ hids).readsOneInput g = true := by
        unfold Join.readsOneInput
        rw [Bool.and_eq_true, Bool.or_eq_true]
        exact ⟨by simpa using hgcolumns, .inr (List.all_eq_true.mpr fun c hc =>
          decide_eq_true (hwithin c hc))⟩
      exact hgrejects (hrow.1.mp (List.forall_mem_singleton.mpr hjoined) g (hleft g hg hreads))

end

/-! ### Timestamps with a time zone -/

namespace TimestampWithTimeZone

/-- The hour of the offset of a zone: zone 0 is UTC, and the others go up from -14:00 by the
minute. -/
def zoneHour (value : Integral) : Integral :=
  ⟨if value.val % 2 ^ 12 = 0 then 0 else (value.val % 2 ^ 12 - 841) / 60, by
    split <;> constructor <;> omega⟩

/-- A timestamp is compared by the instant, and the hour of its zone can be asked for. Texts and
Booleans are distinct where they differ; arrays and rows are not told apart. -/
def zoneEngine : Engine where
  key _ value := value.val / 2 ^ 12
  compare name _ v w :=
    if name = .distinctFrom then
      match v, w with
      | .list _, .list _ => some false
      | v, w => some (decide (v ≠ w))
    else some (decide (v = w))
  cast _ _ _ value := value
  like _ _ := none
  field _ _ := .null
  call
    | "timezone_hour", [.integral value] => .integral (zoneHour value)
    | _, _ => .null

lemma zoneEngine_compare {f : FunctionName} (hf : f ≠ .distinctFrom) (type : SqlType)
    (v w : Value) : zoneEngine.compare f type v w = some (decide (v = w)) :=
  if_neg hf

lemma zoneEngine_sound : registry.Sound zoneEngine :=
  sound_of_compare fun f g _ _ hf hg type a b => by
    rw [zoneEngine_compare hf, zoneEngine_compare hg]
    simp [eq_comm]

lemma zoneEngine_casts : zoneEngine.Casts where
  same _ _ _ _ := rfl
  integers _ _ _ _ _ _ _ _ _ _ := rfl

/-- Equality and IS DISTINCT FROM go together. -/
lemma zoneEngine_equality (primitive : String → Bool) : zoneEngine.Equality primitive where
  reflexive type htype v hv := by
    have hcompare := zoneEngine_compare (f := .equality) (by simp) type v v
    cases v with
    | null => exact absurd rfl hv
    | integral v => simp [compareValues_integral, relation]
    | list elements =>
        cases type with
        | row fields => cases htype
        | _ => simp [Engine.compareValues, hcompare]
    | boolean b => simp [Engine.compareValues, hcompare]
    | text t => simp [Engine.compareValues, hcompare]
  same type v := by cases v <;> simp [Engine.distinctValues, zoneEngine]
  symmetric type v w := by
    cases v <;> cases w <;> simp [Engine.distinctValues, zoneEngine, eq_comm]
  equal type v w h := by
    cases v with
    | null => simp [Engine.compareValues] at h
    | integral v =>
        cases w with
        | integral w => simpa [compareValues_integral, relation, Engine.distinctValues] using h
        | null => simp [Engine.compareValues] at h
        | _ => simp [Engine.compareValues, zoneEngine] at h
    | list elements =>
        cases w with
        | list elements' => rfl
        | null => simp [Engine.compareValues] at h
        | _ => simp [Engine.compareValues, zoneEngine] at h
    | boolean b =>
        cases w with
        | boolean b' => simpa [Engine.compareValues, Engine.distinctValues, zoneEngine] using h
        | null => simp [Engine.compareValues] at h
        | _ => simp [Engine.compareValues, zoneEngine] at h
    | text t =>
        cases w with
        | text t' => simpa [Engine.compareValues, Engine.distinctValues, zoneEngine] using h
        | null => simp [Engine.compareValues] at h
        | _ => simp [Engine.compareValues, zoneEngine] at h

/-- No function of these gives a new value each time, and no other type is primitive. -/
abbrev neverVolatile : FunctionName → Bool := fun _ => false

abbrev noPrimitive : String → Bool := fun _ => false

/-- Two columns of timestamps. -/
def left : Column := ⟨0, .bigintBacked typeName⟩

def right : Column := ⟨1, .bigintBacked typeName⟩

/-- A join on two columns of timestamps. -/
def instantJoin : Join where
  keys := [(.column left, .column right)]
  filter := []
  nullAsValue := false
  leftColumns := [left]
  rightColumns := [right]
  key_types := List.forall_mem_singleton.mpr rfl
  keys_within := List.forall_mem_singleton.mpr
    ⟨within_column.mpr List.mem_cons_self, within_column.mpr List.mem_cons_self⟩
  filter_conditions := nofun
  disjoint := by decide

/-- A timestamp is in a zone of no offset. -/
def inUtc (c : Column) : Expr :=
  .apply .equality [.apply (.named "timezone_hour") [.column c] .bigint,
    .literal (.integral ⟨0, fits_zero⟩) .bigint] .boolean

/-- One instant in two zones. -/
def twoZones : Row :=
  joinedRow 1 (integralRow typeName ⟨0, fits_zero⟩) (integralRow typeName ⟨1, fits_one⟩)

lemma fits_twoZones : Fits twoZones :=
  fits_joinedRow (fits_integralRow _ _) (fits_integralRow _ _)

/-- A filter on the zone of the left timestamp is derived for the right one, and turns away a pair
of timestamps that meets the join and the filter. -/
theorem twoZones_lost :
    instantJoin.Pending {typeName} [inUtc left] ∧
      deriveTransitive registry neverVolatile noPrimitive 4 instantJoin [inUtc left] =
        .ok (some [inUtc left, inUtc right]) ∧
      Fits twoZones ∧ instantJoin.Meets zoneEngine twoZones ∧
      zoneEngine.accepts twoZones (inUtc left) ∧ ¬ zoneEngine.accepts twoZones (inUtc right) := by
  refine ⟨⟨?_, ?_, ?_⟩, by decide +kernel, fits_twoZones, ⟨?_, nofun⟩, ?_, ?_⟩
  · exact List.forall_mem_singleton.mpr
      ⟨typed_apply.mpr ⟨⟨rfl, .bigint, rfl⟩, by simp [Expr.Typed, typed_apply,
        FunctionName.Typed]⟩, rfl⟩
  · exact List.forall_mem_singleton.mpr (by decide)
  · refine List.forall_mem_singleton.mpr (within_apply.mpr ?_)
    simp [within_apply, within_column, within_literal, instantJoin]
  · exact List.forall_mem_singleton.mpr rfl
  · rfl
  · intro h
    cases h

end TimestampWithTimeZone

end Verax.Filters
