import Verax.Filters.ImpliedFilters

/-!
# The columns simplified filters read

Simplification reads no column the filter does not read: every rule keeps a part of the expression,
puts parts together in another way, or adds constants.

* `Expr.Within`: an expression reads only some columns.
* `within_simplify`, `within_simplifyFilter`: simplification keeps to them.
-/

set_option linter.unusedSectionVars false

namespace Verax.Filters

open Lib

variable {registry : Registry} {C : Set Column}

/-- An expression reads only some columns. -/
def Expr.Within (C : Set Column) (e : Expr) : Prop := ∀ c ∈ e.columns, c ∈ C

/-! ### Constructors -/

lemma within_literal {value : Value} {type : SqlType} : (Expr.literal value type).Within C :=
  fun _ hc => nomatch hc

lemma within_column {c : Column} : (Expr.column c).Within C ↔ c ∈ C := by
  simp [Expr.Within, Expr.columns]

lemma within_apply {name : FunctionName} {args : List Expr} {type : SqlType} :
    (Expr.apply name args type).Within C ↔ ∀ a ∈ args, a.Within C := by
  unfold Expr.Within
  simp only [mem_columns_apply]
  exact ⟨fun h a ha c hc => h c ⟨a, ha, hc⟩, fun h c ⟨a, ha, hc⟩ => h a ha c hc⟩

lemma within_call {name : FunctionName} {args : Exprs} {type : SqlType} :
    (Expr.call name args type).Within C ↔ ∀ a ∈ args.toList, a.Within C := by
  rw [← @within_apply C name _ type, Expr.apply, Exprs.ofList_toList]

lemma within_makeCall {name : FunctionName} {args : List Expr} {type : SqlType} :
    (makeCall registry name args type).Within C ↔ ∀ a ∈ args, a.Within C := by
  unfold Expr.Within
  simp only [mem_columns_makeCall]
  exact ⟨fun h a ha c hc => h c ⟨a, ha, hc⟩, fun h c ⟨a, ha, hc⟩ => h a ha c hc⟩

lemma within_makeBinary {name : FunctionName} {a b : Expr} {type : SqlType} (ha : a.Within C)
    (hb : b.Within C) : (makeCall registry name [a, b] type).Within C :=
  within_makeCall.mpr (by simp [ha, hb])

lemma within_makeUnary {name : FunctionName} {a : Expr} {type : SqlType} (ha : a.Within C) :
    (makeCall registry name [a] type).Within C :=
  within_makeCall.mpr (by simpa using ha)

lemma within_makeAnd {a b : Expr} (ha : a.Within C) (hb : b.Within C) :
    (makeAnd registry a b).Within C := by
  unfold makeAnd
  split
  · exact ha
  · exact within_makeBinary ha hb

lemma within_andAll {first : Expr} {rest : List Expr} (h : ∀ e ∈ first :: rest, e.Within C) :
    (andAll registry first rest).Within C := by
  induction rest generalizing first with
  | nil => exact h first List.mem_cons_self
  | cons next rest ih =>
      obtain ⟨hfirst, hnext, hrest⟩ : first.Within C ∧ next.Within C ∧ ∀ e ∈ rest, e.Within C := by
        simpa using h
      exact ih (List.forall_mem_cons.mpr ⟨within_makeAnd hfirst hnext, hrest⟩)

lemma within_orAll {first : Expr} {rest : List Expr} (h : ∀ e ∈ first :: rest, e.Within C) :
    (orAll registry first rest).Within C := by
  induction rest generalizing first with
  | nil => exact h first List.mem_cons_self
  | cons next rest ih =>
      obtain ⟨hfirst, hnext, hrest⟩ : first.Within C ∧ next.Within C ∧ ∀ e ∈ rest, e.Within C := by
        simpa using h
      exact ih (List.forall_mem_cons.mpr ⟨within_makeBinary hfirst hnext, hrest⟩)

lemma within_makeIn {value : Expr} {values : List Value} (h : value.Within C) :
    (makeIn registry value values).Within C :=
  fun c hc => h c (mem_columns_makeIn hc)

mutual

/-- The parts of an expression read what it reads. -/
lemma within_flatten {name : FunctionName} : (e : Expr) → e.Within C →
    ∀ d ∈ flatten name e, d.Within C
  | .column _, h, d, hd => List.mem_singleton.mp hd ▸ h
  | .literal _ _, h, d, hd => List.mem_singleton.mp hd ▸ h
  | .field _ _ _, h, d, hd => List.mem_singleton.mp hd ▸ h
  | .call f args type, h, d, hd => by
      rw [flatten] at hd
      split at hd
      · exact within_flattenArgs args (within_call.mp h) d hd
      · exact List.mem_singleton.mp hd ▸ h

lemma within_flattenArgs {name : FunctionName} : (args : Exprs) →
    (∀ a ∈ args.toList, a.Within C) → ∀ d ∈ flattenArgs name args, d.Within C
  | .nil, _, d, hd => nomatch hd
  | .cons head tail, h, d, hd => by
      rcases List.mem_append.mp hd with hd | hd
      · exact within_flatten head (h head List.mem_cons_self) d hd
      · exact within_flattenArgs tail (fun a ha => h a (List.mem_cons_of_mem _ ha)) d hd

end

/-! ### Simplifying an expression -/

lemma within_tryFoldConjunct {e : Expr} (h : e.Within C) :
    (tryFoldConjunct registry e).Within C := by
  unfold tryFoldConjunct
  split
  case h_2 => exact h
  case h_1 name args type =>
    have hargs := within_call.mp h
    split
    case isFalse => exact h
    case isTrue =>
      split
      case h_1 deciding hfind => exact hargs _ (List.mem_of_find?_eq_some hfind)
      case h_2 =>
        have hkept : ∀ a ∈ args.toList.filter (fun arg => (constantBoolean arg).isNone),
            a.Within C := fun a ha => hargs a (List.mem_of_mem_filter ha)
        dsimp only
        split
        · exact h
        · revert hkept
          split
          case h_1 => exact fun _ => within_literal
          case h_2 arg heq => exact fun hkept => hkept arg (heq ▸ List.mem_cons_self)
          case h_3 => exact fun hkept => within_makeCall.mpr hkept

lemma within_tryFoldConstant {e : Expr} (h : e.Within C) :
    (tryFoldConstant registry e).Within C := by
  unfold tryFoldConstant
  split
  · exact h
  · split
    · exact within_literal
    · split
      · split
        · exact within_literal
        · exact h
      · exact h
  · split
    · split
      · exact within_literal
      · exact h
    · exact h

lemma within_tryFoldRowField {e field : Expr} (h : e.Within C)
    (hfold : tryFoldRowField e = some field) : field.Within C := by
  unfold tryFoldRowField at hfold
  split at hfold
  case h_2 => cases hfold
  case h_1 index args rowType type =>
    exact within_call.mp (within_call.mp h _ List.mem_cons_self) field
      (List.mem_of_getElem? hfold)

lemma within_fieldEqualities : {fields : List Expr} → {values : Values} → {types : SqlTypes} →
    (∀ field ∈ fields, field.Within C) →
    ∀ e ∈ fieldEqualities registry fields values types, e.Within C
  | [], _, _, _, e, he => by simp [fieldEqualities] at he
  | _ :: _, .nil, _, _, e, he => by simp [fieldEqualities] at he
  | _ :: _, .cons _ _, .nil, _, e, he => by simp [fieldEqualities] at he
  | field :: fields, .cons value values, .cons type types, h, e, he => by
      rw [fieldEqualities, List.mem_cons] at he
      rcases he with rfl | he
      · exact within_makeBinary (h field List.mem_cons_self) within_literal
      · exact within_fieldEqualities (fun f hf => h f (List.mem_cons_of_mem _ hf)) e he

lemma within_tryExpandRowEquality {e equalities : Expr} (h : e.Within C)
    (hexpand : tryExpandRowEquality registry e = some equalities) : equalities.Within C := by
  unfold tryExpandRowEquality at hexpand
  split at hexpand
  case h_2 => cases hexpand
  case h_1 fields rowType values types type =>
    split at hexpand
    case isFalse => cases hexpand
    case isTrue =>
      have hfields := within_call.mp (within_call.mp h _ List.mem_cons_self)
      have hall := @within_fieldEqualities registry C _ values types hfields
      revert hall hexpand
      generalize fieldEqualities registry fields.toList values types = l
      intro hexpand hall
      split at hexpand
      · cases hexpand
      · cases hexpand
        exact within_andAll hall

section

variable {simplify : Expr → Expr}

lemma within_liveBranches (hs : ∀ a : Expr, a.Within C → (simplify a).Within C) :
    {args : List Expr} → (∀ a ∈ args, a.Within C) →
      (∀ a ∈ (liveBranches simplify args).1, a.Within C) ∧
        ∀ a ∈ (liveBranches simplify args).2, a.Within C
  | [], _ => by simp [liveBranches]
  | [last], h => by
      have hlast := hs last (h last List.mem_cons_self)
      simpa [liveBranches] using hlast
  | condition :: result :: rest, h => by
      obtain ⟨hcondition, hresult, hrest⟩ :
          condition.Within C ∧ result.Within C ∧ ∀ a ∈ rest, a.Within C := by simpa using h
      have ih := within_liveBranches hs hrest
      rw [liveBranches]
      split
      · split
        · simpa using hs result hresult
        · exact ih
      · refine ⟨?_, ih.2⟩
        rw [List.forall_mem_cons, List.forall_mem_cons]
        exact ⟨hs _ hcondition, hs _ hresult, ih.1⟩

lemma within_simplifyConditional (hs : ∀ a : Expr, a.Within C → (simplify a).Within C)
    {name : FunctionName} {args : List Expr} {type : SqlType} (h : ∀ a ∈ args, a.Within C) :
    (simplifyConditional registry simplify name args type).Within C := by
  obtain ⟨hbranches, hlast⟩ := within_liveBranches hs h
  have hdefault : ((liveBranches simplify args).2.getD (makeNull type)).Within C := by
    cases hdefault : (liveBranches simplify args).2 with
    | none => exact within_literal
    | some last => exact hlast last hdefault
  unfold simplifyConditional
  split
  · exact hdefault
  · refine within_makeCall.mpr fun a ha => ?_
    rcases List.mem_append.mp ha with ha | ha
    · exact hbranches a ha
    · exact List.mem_singleton.mp ha ▸ hdefault

lemma literalInValues_eq_some {args : List Expr} {value : Expr} {values : List Value}
    (h : literalInValues args = some (value, values)) : value ∈ args := by
  unfold literalInValues at h
  split at h
  case h_2 => cases h
  case h_1 first second rest =>
    obtain ⟨literals, -, heq⟩ := Option.map_eq_some_iff.mp h
    cases heq
    exact List.mem_cons_self

lemma within_simplifyArgs (hs : ∀ a : Expr, a.Within C → (simplify a).Within C)
    {name : FunctionName} {args : List Expr} {type : SqlType} (h : ∀ a ∈ args, a.Within C) :
    (simplifyArgs registry simplify name args type).Within C := by
  have hargs : ∀ a ∈ args.map simplify, a.Within C :=
    List.forall_mem_map.mpr fun a ha => hs a (h a ha)
  unfold simplifyArgs
  split
  · have hkept : ∀ a ∈ (args.map simplify).filter (fun arg => !arg.isConstantNull),
        a.Within C := fun a ha => hargs a (List.mem_of_mem_filter ha)
    split
    case h_1 => exact within_literal
    case h_2 arg heq => exact hkept arg (heq ▸ List.mem_cons_self)
    case h_3 =>
      split
      · exact within_apply.mpr h
      · exact within_makeCall.mpr hkept
  · split
    case h_1 value values hvalues =>
      split at hvalues
      · exact within_makeIn (hargs value (literalInValues_eq_some hvalues))
      · cases hvalues
    case h_2 =>
      split
      · exact within_apply.mpr h
      · exact within_makeCall.mpr hargs

end

/-- A simplified expression reads what the expression reads. -/
theorem within_simplify (fuel : ℕ) : ∀ e : Expr, e.Within C →
    (simplify registry fuel e).Within C := by
  induction fuel with
  | zero => exact fun _ h => h
  | succ fuel ih =>
      intro e h
      have hfold : ∀ {e e' : Expr}, e.Within C →
          (∀ field, tryFoldRowField e = some field → e' = field) →
          (tryFoldRowField e = none → ∀ equalities,
            tryExpandRowEquality registry e = some equalities →
              e' = simplify registry fuel equalities) →
          (tryFoldRowField e = none → tryExpandRowEquality registry e = none →
            e' = tryFoldConjunct registry (tryFoldConstant registry e)) → e'.Within C := by
        intro e e' h hrow hexpanded hother
        cases hfield : tryFoldRowField e with
        | some field => exact hrow field hfield ▸ within_tryFoldRowField h hfield
        | none =>
            cases hequalities : tryExpandRowEquality registry e with
            | some equalities =>
                exact hexpanded hfield equalities hequalities ▸
                  ih _ (within_tryExpandRowEquality h hequalities)
            | none =>
                exact hother hfield hequalities ▸
                  within_tryFoldConjunct (within_tryFoldConstant h)
      cases e with
      | column c =>
          exact hfold h (fun _ hfield => by simp only [simplify, hfield])
            (fun hfield _ heq => by simp only [simplify, hfield, heq])
            fun hfield heq => by simp only [simplify, hfield, heq]
      | literal value type =>
          exact hfold h (fun _ hfield => by simp only [simplify, hfield])
            (fun hfield _ heq => by simp only [simplify, hfield, heq])
            fun hfield heq => by simp only [simplify, hfield, heq]
      | field base name type =>
          exact hfold h (fun _ hfield => by simp only [simplify, hfield])
            (fun hfield _ heq => by simp only [simplify, hfield, heq])
            fun hfield heq => by simp only [simplify, hfield, heq]
      | call name args type =>
          have hargs := within_call.mp h
          rw [simplify]
          dsimp only
          split
          · exact within_tryFoldConjunct (within_tryFoldConstant
              (within_simplifyConditional ih hargs))
          · exact hfold (within_simplifyArgs ih hargs) (fun _ hfield => by rw [hfield])
              (fun hfield _ heq => by rw [hfield, heq]) fun hfield heq => by rw [hfield, heq]

/-! ### Rendering a domain -/

section

variable {column : Column}

lemma within_rangeBoundToFilter {bound : Bound Integral} {isLower : Bool} {typeLimit : Integral}
    {e : Expr} (hc : column ∈ C)
    (h : rangeBoundToFilter registry column bound isLower typeLimit = some e) : e.Within C := by
  unfold rangeBoundToFilter at h
  split at h
  · cases h
  · cases h
    exact within_makeBinary (within_column.mpr hc) within_literal

lemma within_rangeToFilter {minimum maximum : Integral} {range : Range Integral} {e : Expr}
    (hc : column ∈ C) (h : rangeToFilter registry column minimum maximum range = .ok e) :
    e.Within C := by
  have hbounds : ∀ b ∈
      (range.low.bind fun low => rangeBoundToFilter registry column low true minimum).toList ++
        (range.high.bind fun high =>
          rangeBoundToFilter registry column high false maximum).toList, b.Within C := by
    intro b hb
    rcases List.mem_append.mp hb with hb | hb
    · obtain ⟨low, -, hb⟩ := Option.bind_eq_some_iff.mp (Option.mem_toList.mp hb)
      exact within_rangeBoundToFilter hc hb
    · obtain ⟨high, -, hb⟩ := Option.bind_eq_some_iff.mp (Option.mem_toList.mp hb)
      exact within_rangeBoundToFilter hc hb
  revert hbounds h
  unfold rangeToFilter
  dsimp only
  generalize
    (range.low.bind fun low => rangeBoundToFilter registry column low true minimum).toList ++
      (range.high.bind fun high => rangeBoundToFilter registry column high false maximum).toList =
      bounds
  intro h hbounds
  cases bounds with
  | nil =>
      split at h
      · split at h
        · cases h
          refine within_makeCall.mpr ?_
          simp [within_column.mpr hc, makeIntegralLiteral, within_literal]
        · cases h
      · cases h
  | cons first rest =>
      split at h
      · split at h
        · cases h
          refine within_makeCall.mpr ?_
          simp [within_column.mpr hc, makeIntegralLiteral, within_literal]
        · cases h
          exact within_andAll hbounds
      · cases h
        exact within_andAll hbounds

lemma within_nonNullDomainToFilter {domain nonNullValues : Domain Integral} {e : Expr}
    (hc : column ∈ C) (h : nonNullDomainToFilter registry column domain nonNullValues = .ok e) :
    e.Within C := by
  unfold nonNullDomainToFilter at h
  split at h
  · split at h
    · cases h
    · cases h
      exact within_makeIn (within_column.mpr hc)
  · obtain ⟨limits, -, h⟩ := Outcome.bind_eq_ok.mp h
    obtain ⟨filters, hfilters, h⟩ := Outcome.bind_eq_ok.mp h
    have hwithin : ∀ e ∈ filters, e.Within C := by
      intro e he
      obtain ⟨range, -, he⟩ := Outcome.exists_of_forall₂
        (List.Forall₂.flip (Outcome.forall₂_of_mapM hfilters)) he
      exact within_rangeToFilter hc he
    cases filters with
    | nil => cases h
    | cons first rest =>
        cases h
        exact within_orAll hwithin

lemma within_nonNullFilter {nonNullResult nonNullValues : Domain Integral} {filter : Option Expr}
    (hc : column ∈ C)
    (h : nonNullFilter registry column nonNullResult nonNullValues = .ok filter) :
    ∀ e ∈ filter, e.Within C := by
  have hisNull : (makeIsNull registry (.column column)).Within C :=
    within_makeUnary (within_column.mpr hc)
  unfold nonNullFilter at h
  split at h
  · cases h
    rintro e ⟨⟩
    exact within_makeUnary hisNull
  · split at h
    · cases h
      exact nofun
    · dsimp only at h
      split at h
      · obtain ⟨e, he, rfl⟩ := Outcome.map_eq_ok.mp h
        rintro e ⟨⟩
        exact within_makeUnary (within_nonNullDomainToFilter hc he)
      · obtain ⟨e, he, rfl⟩ := Outcome.map_eq_ok.mp h
        rintro e ⟨⟩
        exact within_nonNullDomainToFilter hc he

/-- The condition a domain of a column stands for reads that column. -/
lemma within_domainToFilter {domain : Domain Integral} {filter : Option Expr} (hc : column ∈ C)
    (h : domainToFilter registry column domain = .ok filter) : ∀ e ∈ filter, e.Within C := by
  have hisNull : (makeIsNull registry (.column column)).Within C :=
    within_makeUnary (within_column.mpr hc)
  unfold domainToFilter at h
  split at h
  · cases h
  · dsimp only at h
    split at h
    · cases h
      exact nofun
    · obtain ⟨nonNull, hnonNull, rfl⟩ := Outcome.map_eq_ok.mp h
      have hwithin := within_nonNullFilter hc hnonNull
      split
      · split
        · rintro e ⟨⟩
          exact hisNull
        · rintro e ⟨⟩
          exact within_makeBinary hisNull (hwithin _ rfl)
      · exact hwithin

end

/-! ### Simplifying a filter -/

lemma mem_of_mem_commonConjuncts {c : Expr} {first : List Expr} {rest : List (List Expr)}
    (h : c ∈ commonConjuncts (first :: rest)) : c ∈ first :=
  mem_commonConjuncts.mp h first List.mem_cons_self

lemma within_residualDisjunct {common conjuncts : List Expr} {e : Expr}
    (h : ∀ c ∈ conjuncts, c.Within C) (he : residualDisjunct registry common conjuncts = some e) :
    e.Within C := by
  have hkept : ∀ c ∈ conjuncts.filter (fun c => decide (c ∉ common)), c.Within C :=
    fun c hc => h c (List.mem_of_mem_filter hc)
  unfold residualDisjunct at he
  split at he
  case h_1 => cases he
  case h_2 first rest heq =>
    cases he
    exact within_andAll (heq ▸ hkept)

lemma exists_of_mapM_eq_some {α β : Type} {f : α → Option β} : {l : List α} → {l' : List β} →
    l.mapM f = some l' → ∀ b ∈ l', ∃ a ∈ l, f a = some b
  | [], l', h, b, hb => by
      rw [List.mapM_nil] at h
      cases h
      cases hb
  | a :: l, l', h, b, hb => by
      rw [List.mapM_cons] at h
      obtain ⟨b', hb', h⟩ := Option.bind_eq_some_iff.mp h
      obtain ⟨bs, hbs, h⟩ := Option.bind_eq_some_iff.mp h
      cases h
      rcases List.mem_cons.mp hb with rfl | hb
      · exact ⟨a, List.mem_cons_self, hb'⟩
      · obtain ⟨a', ha', hfa'⟩ := exists_of_mapM_eq_some hbs b hb
        exact ⟨a', List.mem_cons_of_mem _ ha', hfa'⟩

/-- The common conjuncts and the residual of an OR read what it reads. -/
lemma within_tryFactorOr {e : Expr} {common : List Expr} {residual : Option Expr} (h : e.Within C)
    (hfactor : tryFactorOr registry e = some (common, residual)) :
    ∀ d ∈ common ++ residual.toList, d.Within C := by
  unfold tryFactorOr at hfactor
  split at hfactor
  case h_2 => cases hfactor
  case h_1 args type =>
    dsimp only at hfactor
    have hconjuncts : ∀ l ∈ ((flattenOr (.call .or args type)).eraseDups).map flattenAnd,
        ∀ d ∈ l, d.Within C := by
      refine List.forall_mem_map.mpr fun disjunct hdisjunct => ?_
      exact within_flatten disjunct (within_flatten _ h disjunct (List.mem_eraseDups.mp hdisjunct))
    revert hfactor hconjuncts
    generalize ((flattenOr (.call .or args type)).eraseDups).map flattenAnd = perDisjunct
    intro hfactor hconjuncts
    have hcommon : ∀ d ∈ commonConjuncts perDisjunct, d.Within C := by
      intro d hd
      cases perDisjunct with
      | nil => cases hd
      | cons first rest =>
          exact hconjuncts first List.mem_cons_self d (mem_of_mem_commonConjuncts hd)
    split at hfactor
    · cases hfactor
    · split at hfactor
      · cases hfactor
      · split at hfactor
        case h_1 first rest hresiduals =>
          cases hfactor
          refine List.forall_mem_append.mpr ⟨hcommon, List.forall_mem_singleton.mpr ?_⟩
          refine within_orAll fun e he => ?_
          obtain ⟨l, hl, he⟩ := exists_of_mapM_eq_some hresiduals e he
          exact within_residualDisjunct (hconjuncts l hl) he
        case h_2 =>
          cases hfactor
          simpa using hcommon

lemma within_candidatesOf (fuel : ℕ) : {conjuncts : List Expr} → {candidates : List Expr} →
    (∀ c ∈ conjuncts, c.Within C) →
      candidatesOf registry fuel conjuncts = .ok (some candidates) →
        ∀ c ∈ candidates, c.Within C
  | [], _, _, hrun => by
      cases hrun
      exact nofun
  | conjunct :: rest, candidates, h, hrun => by
      obtain ⟨hconjunct, hrest⟩ := List.forall_mem_cons.mp h
      have hsimplified : (simplify registry fuel conjunct).Within C :=
        within_simplify fuel conjunct hconjunct
      rw [candidatesOf] at hrun
      split at hrun
      · split at hrun
        · cases hrun
        · split at hrun
          · exact within_candidatesOf fuel hrest hrun
          · cases hrun
      · obtain ⟨result, hresult, hrun⟩ := Outcome.map_eq_ok.mp hrun
        obtain ⟨others, rfl, rfl⟩ := Option.map_eq_some_iff.mp hrun
        have hothers := within_candidatesOf fuel hrest hresult
        split
        case h_1 common residual hfactor =>
          exact List.forall_mem_append.mpr ⟨within_tryFactorOr hsimplified hfactor, hothers⟩
        case h_2 => exact List.forall_mem_cons.mpr ⟨hsimplified, hothers⟩

/-- The columns and the conjuncts of a placement are among some columns. -/
structure Placement.Within (C : Set Column) (placement : Placement) : Prop where
  domains : ∀ p ∈ placement.domains, p.1 ∈ C
  surviving : ∀ e, Survivor.conjunct e ∈ placement.surviving → e.Within C

lemma mem_mergeDomain {column : Column} {domain : Domain Integral} :
    {domains domains' : List (Column × Domain Integral)} →
      mergeDomain column domain domains = some domains' →
        domains'.map Prod.fst = domains.map Prod.fst
  | [], _, h => nomatch h
  | (c, d) :: domains, domains', h => by
      rw [mergeDomain] at h
      split at h
      · cases h
        rfl
      · obtain ⟨rest, hrest, rfl⟩ := Option.map_eq_some_iff.mp h
        rw [List.map_cons, List.map_cons, mem_mergeDomain hrest]

lemma Placement.Within.place {placement : Placement} {candidate : Expr}
    (h : placement.Within C) (hcandidate : candidate.Within C) :
    (placeCandidate placement candidate).Within C := by
  unfold placeCandidate
  split
  case h_1 =>
    refine ⟨h.domains, fun e he => ?_⟩
    rcases List.mem_append.mp he with he | he
    · exact h.surviving e he
    · cases List.mem_singleton.mp he
      exact hcandidate
  case h_2 column domain hdomain =>
    have hcolumn : column ∈ C := by
      unfold candidateDomain at hdomain
      split at hdomain
      case h_2 => cases hdomain
      case h_1 c hcolumns =>
        split at hdomain
        · obtain ⟨d, -, heq⟩ := Option.map_eq_some_iff.mp hdomain
          cases heq
          exact hcandidate _ (hcolumns ▸ List.mem_singleton_self _)
        · cases hdomain
    split
    case h_1 domains hmerge =>
      refine ⟨fun p hp => ?_, h.surviving⟩
      have hp : p.1 ∈ domains.map Prod.fst := List.mem_map_of_mem hp
      rw [mem_mergeDomain hmerge] at hp
      obtain ⟨q, hq, heq⟩ := List.mem_map.mp hp
      exact heq ▸ h.domains q hq
    case h_2 =>
      refine ⟨fun p hp => ?_, fun e he => ?_⟩
      · rcases List.mem_append.mp hp with hp | hp
        · exact h.domains p hp
        · cases List.mem_singleton.mp hp
          exact hcolumn
      · rcases List.mem_append.mp he with he | he
        · exact h.surviving e he
        · cases List.mem_singleton.mp he

lemma Placement.Within.foldl {placement : Placement} (h : placement.Within C)
    {candidates : List Expr} (hcandidates : ∀ c ∈ candidates, c.Within C) :
    (candidates.foldl placeCandidate placement).Within C := by
  induction candidates generalizing placement with
  | nil => exact h
  | cons candidate candidates ih =>
      obtain ⟨hcandidate, hcandidates⟩ := List.forall_mem_cons.mp hcandidates
      exact ih (h.place hcandidate) hcandidates

lemma within_renderDomains : {domains : List (Column × Domain Integral)} →
    {filters : List (Column × Option Expr)} → (∀ p ∈ domains, p.1 ∈ C) →
      renderDomains registry domains = .ok (some filters) →
        ∀ p ∈ filters, ∀ e ∈ p.2, e.Within C
  | [], _, _, h => by
      cases h
      exact nofun
  | (column, domain) :: domains, filters, hC, h => by
      obtain ⟨hcolumn, hdomains⟩ := List.forall_mem_cons.mp hC
      rw [renderDomains] at h
      split at h
      · cases h
      · obtain ⟨filter, hfilter, h⟩ := Outcome.bind_eq_ok.mp h
        obtain ⟨result, hresult, h⟩ := Outcome.bind_eq_ok.mp h
        cases result with
        | none => cases h
        | some rest =>
            cases h
            exact List.forall_mem_cons.mpr
              ⟨within_domainToFilter hcolumn hfilter, within_renderDomains hdomains hresult⟩

/-- The conjuncts a filter simplifies to read what the filter reads. -/
theorem within_simplifyFilter {fuel : ℕ} {predicate : Expr} {conjuncts : List Expr}
    (h : predicate.Within C)
    (hrun : simplifyFilter registry fuel predicate = .ok (some conjuncts)) :
    ∀ e ∈ conjuncts, e.Within C := by
  unfold simplifyFilter at hrun
  obtain ⟨candidates, hcandidates, hrun⟩ := Outcome.bind_eq_ok.mp hrun
  cases candidates with
  | none => cases hrun
  | some candidates =>
      dsimp only at hrun
      obtain ⟨filters, hfilters, hrun⟩ := Outcome.bind_eq_ok.mp hrun
      cases filters with
      | none => cases hrun
      | some filters =>
          cases hrun
          have hwithin := within_candidatesOf fuel (within_flatten predicate h) hcandidates
          have hempty : Placement.Within C ⟨[], []⟩ := ⟨nofun, nofun⟩
          have hplaced := hempty.foldl hwithin
          have hrendered := within_renderDomains hplaced.domains hfilters
          intro e he
          obtain ⟨survivor, hsurvivor, he⟩ := List.mem_filterMap.mp he
          cases survivor with
          | conjunct e' =>
              cases he
              exact hplaced.surviving e hsurvivor
          | filterOn column =>
              have hlookup : filters.lookup column = some (some e) := Option.join_eq_some_iff.mp he
              obtain ⟨before, after, heq, -⟩ := List.lookup_eq_some_iff.mp hlookup
              exact hrendered (column, some e) (by rw [heq]; simp) e rfl

end Verax.Filters
