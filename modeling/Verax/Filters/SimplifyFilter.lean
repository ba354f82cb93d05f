import Verax.Filters.DomainToFilter
import Verax.Filters.Simplification

/-!
# Filter simplification

`ExprSimplifier::simplifyFilter`: a predicate is taken apart into conjuncts, each is simplified,
what the arms of an OR have in common is factored out, and the conjuncts on one column with an
integral domain are merged into one domain, which is rendered again.

* `simplifyFilter`: the conjuncts it appends, or none where it reports that no row passes.
* `SimplifiesFilters`: on every predicate it passes its checks and accepts the same rows.
* `simplifiesFilters_iff`: it does so exactly when every BIGINT-backed type orders its values as the
  integers they are stored as.
-/

namespace Verax.Filters

open Lib

section

variable (registry : Registry)

/-! ### Factoring -/

/-- The conjuncts all disjuncts have, in the order of the first.
Source: `ExprSimplifier.cpp` `tryFactorOr`, `commonSet`. -/
def commonConjuncts : List (List Expr) → List Expr
  | [] => []
  | first :: rest =>
      rest.foldl (fun common conjuncts => common.filter fun c => decide (c ∈ conjuncts)) first

/-- What a disjunct says beyond the common conjuncts.
Source: `ExprSimplifier.cpp` `tryFactorOr`, `remaining`. -/
def residualDisjunct (common conjuncts : List Expr) : Option Expr :=
  match conjuncts.filter fun c => decide (c ∉ common) with
  | [] => none
  | first :: rest => some (andAll registry first rest)

/-- The common conjuncts of an OR, and the OR of what is left unless a disjunct has nothing left.
Source: `ExprSimplifier.cpp` `tryFactorOr`. -/
def tryFactorOr : Expr → Option (List Expr × Option Expr)
  | .call .or args type =>
      let uniqueDisjuncts := (flattenOr (.call .or args type)).eraseDups
      if uniqueDisjuncts.length < 2 then none
      else
        let perDisjunctConjuncts := uniqueDisjuncts.map flattenAnd
        let common := commonConjuncts perDisjunctConjuncts
        if common = [] then none
        else
          match perDisjunctConjuncts.mapM (residualDisjunct registry common) with
          | some (first :: rest) => some (common, some (orAll registry first rest))
          | _ => some (common, none)
  | _ => none

/-! ### Candidates -/

/-- The conjuncts of a predicate, simplified and factored, or none when one of them is not true of
any row.
Source: `ExprSimplifier.cpp` `simplifyFilter`, the first loop. -/
def candidatesOf (fuel : ℕ) : List Expr → Except CheckFailure (Option (List Expr))
  | [] => .ok (some [])
  | conjunct :: rest =>
      match simplify registry fuel conjunct with
      | .literal value type =>
          if type ≠ .boolean then .error .nonBooleanLiteral
          else if value = .boolean true then candidatesOf fuel rest
          else .ok none
      | simplified =>
          (candidatesOf fuel rest).map fun candidates => candidates.map fun candidates =>
            match tryFactorOr registry simplified with
            | some (common, residual) => common ++ residual.toList ++ candidates
            | none => simplified :: candidates

/-! ### Domains of columns -/

/-- What stands at a place of the output: a conjunct, or the filter on a column. -/
inductive Survivor where
  | conjunct (e : Expr)
  | filterOn (column : Column)

/-- The domains of columns, in the order in which the columns were met, and the places of the output.
Source: `ExprSimplifier.cpp` `simplifyFilter`, `domains` and `surviving`. -/
structure Placement where
  domains : List (Column × Domain Integral)
  surviving : List Survivor

/-- Merges a domain into that of its column.
Source: `ExprSimplifier.cpp` `simplifyFilter`, the branches of `domains.find`. -/
def mergeDomain (column : Column) (domain : Domain Integral) :
    List (Column × Domain Integral) → Option (List (Column × Domain Integral))
  | [] => none
  | (c, d) :: domains =>
      if c = column then some ((c, d.intersect domain) :: domains)
      else (mergeDomain column domain domains).map ((c, d) :: ·)

/-- The column and the domain of a candidate on one column with an integral domain. -/
def candidateDomain (candidate : Expr) : Option (Column × Domain Integral) :=
  match candidate.columns with
  | [column] =>
      if (integralTypeDomain column.type).isSome then (exprToDomain candidate).map (column, ·)
      else none
  | _ => none

/-- Places a candidate.
Source: `ExprSimplifier.cpp` `simplifyFilter`, the second loop. -/
def placeCandidate (placement : Placement) (candidate : Expr) : Placement :=
  match candidateDomain candidate with
  | none => ⟨placement.domains, placement.surviving ++ [.conjunct candidate]⟩
  | some (column, domain) =>
      match mergeDomain column domain placement.domains with
      | some domains => ⟨domains, placement.surviving⟩
      | none =>
          ⟨placement.domains ++ [(column, domain)], placement.surviving ++ [.filterOn column]⟩

/-- The filter of each column, or none when a domain is empty.
Source: `ExprSimplifier.cpp` `simplifyFilter`, the third loop. -/
def renderDomains : List (Column × Domain Integral) →
    Except CheckFailure (Option (List (Column × Option Expr)))
  | [] => .ok (some [])
  | (column, domain) :: domains =>
      if domain.isNone then .ok none
      else do
        let filter ← domainToFilter registry column domain
        let filters ← renderDomains domains
        return filters.map ((column, filter) :: ·)

/-- What stands at a place of the output, if anything. -/
def Survivor.toFilter (filters : List (Column × Option Expr)) : Survivor → Option Expr
  | conjunct e => some e
  | filterOn column => (filters.lookup column).join

/-- The conjuncts a predicate simplifies to, none when no row passes.
Source: `ExprSimplifier.cpp` `simplifyFilter`. -/
def simplifyFilter (fuel : ℕ) (predicate : Expr) : Except CheckFailure (Option (List Expr)) := do
  match ← candidatesOf registry fuel (flattenAnd predicate) with
  | none => return none
  | some candidates =>
      let placement := candidates.foldl placeCandidate ⟨[], []⟩
      match ← renderDomains registry placement.domains with
      | none => return none
      | some filters => return some (placement.surviving.filterMap (Survivor.toFilter filters))

end

/-! ### Flattening -/

section

variable {engine : Engine} {registry : Registry}

lemma conditions_of_junction {name : FunctionName} (hname : name = .and ∨ name = .or)
    {args : Exprs} {type : SqlType} (h : (Expr.call name args type).Typed) :
    ∀ a ∈ args.toList, Condition a := by
  obtain ⟨hlocal, hargs⟩ := typed_call.mp h
  intro a ha
  rcases hname with rfl | rfl
  · exact ⟨hargs a ha, hlocal.2 _ (List.mem_map_of_mem ha)⟩
  · exact ⟨hargs a ha, hlocal.2 _ (List.mem_map_of_mem ha)⟩

lemma accepts_and {row : Row} {args : Exprs} {type : SqlType} :
    engine.accepts row (.call .and args type) ↔ ∀ a ∈ args.toList, engine.accepts row a := by
  unfold Engine.accepts
  rw [Engine.eval_call, Value.truth_conform]
  simp [Engine.apply, Truth.all_eq_true]

lemma accepts_or {row : Row} {args : Exprs} {type : SqlType} :
    engine.accepts row (.call .or args type) ↔ ∃ a ∈ args.toList, engine.accepts row a := by
  unfold Engine.accepts
  rw [Engine.eval_call, Value.truth_conform]
  simp [Engine.apply, Truth.any_eq_true]

mutual

/-- The parts of a condition are conditions. -/
lemma condition_flatten {name : FunctionName} (hname : name = .and ∨ name = .or) :
    (e : Expr) → Condition e → ∀ d ∈ flatten name e, Condition d ∧ d.backed ⊆ e.backed
  | .column _, h, d, hd => by
      rw [List.mem_singleton.mp hd]
      exact ⟨h, List.Subset.refl _⟩
  | .literal _ _, h, d, hd => by
      rw [List.mem_singleton.mp hd]
      exact ⟨h, List.Subset.refl _⟩
  | .field _ _ _, h, d, hd => by
      rw [List.mem_singleton.mp hd]
      exact ⟨h, List.Subset.refl _⟩
  | .call f args type, h, d, hd => by
      rw [flatten] at hd
      split at hd
      case isFalse =>
        rw [List.mem_singleton.mp hd]
        exact ⟨h, List.Subset.refl _⟩
      case isTrue heq =>
        have hargs := conditions_of_junction hname (heq ▸ h.typed)
        obtain ⟨hd, a, ha, hbacked⟩ := condition_flattenArgs hname args hargs d hd
        exact ⟨hd, fun n hn => mem_backed_call.mpr (.inr ⟨a, ha, hbacked hn⟩)⟩

lemma condition_flattenArgs {name : FunctionName} (hname : name = .and ∨ name = .or) :
    (args : Exprs) → (∀ a ∈ args.toList, Condition a) → ∀ d ∈ flattenArgs name args,
      Condition d ∧ ∃ a ∈ args.toList, d.backed ⊆ a.backed
  | .nil, _, d, hd => nomatch hd
  | .cons head tail, h, d, hd => by
      rcases List.mem_append.mp hd with hd | hd
      · obtain ⟨hd, hbacked⟩ := condition_flatten hname head (h head List.mem_cons_self) d hd
        exact ⟨hd, head, List.mem_cons_self, hbacked⟩
      · obtain ⟨hd, a, ha, hbacked⟩ := condition_flattenArgs hname tail
          (fun a ha => h a (List.mem_cons_of_mem _ ha)) d hd
        exact ⟨hd, a, List.mem_cons_of_mem _ ha, hbacked⟩

end

mutual

lemma accepts_flattenAnd {row : Row} : (e : Expr) →
    (engine.accepts row e ↔ ∀ d ∈ flatten .and e, engine.accepts row d)
  | .column _ => by simp [flatten]
  | .literal _ _ => by simp [flatten]
  | .field _ _ _ => by simp [flatten]
  | .call f args type => by
      rw [flatten]
      split
      case isTrue heq => rw [heq, accepts_and, accepts_flattenAndArgs args]
      case isFalse => simp

lemma accepts_flattenAndArgs {row : Row} : (args : Exprs) →
    ((∀ a ∈ args.toList, engine.accepts row a) ↔
      ∀ d ∈ flattenArgs .and args, engine.accepts row d)
  | .nil => by simp [flattenArgs, Exprs.toList]
  | .cons head tail => by
      rw [flattenArgs, Exprs.toList, List.forall_mem_cons, List.forall_mem_append,
        accepts_flattenAnd head, accepts_flattenAndArgs tail]

end

mutual

lemma accepts_flattenOr {row : Row} : (e : Expr) →
    (engine.accepts row e ↔ ∃ d ∈ flatten .or e, engine.accepts row d)
  | .column _ => by simp [flatten]
  | .literal _ _ => by simp [flatten]
  | .field _ _ _ => by simp [flatten]
  | .call f args type => by
      rw [flatten]
      split
      case isTrue heq => rw [heq, accepts_or, accepts_flattenOrArgs args]
      case isFalse => simp

lemma accepts_flattenOrArgs {row : Row} : (args : Exprs) →
    ((∃ a ∈ args.toList, engine.accepts row a) ↔
      ∃ d ∈ flattenArgs .or args, engine.accepts row d)
  | .nil => by simp [flattenArgs, Exprs.toList]
  | .cons head tail => by
      rw [flattenArgs, Exprs.toList, List.exists_mem_cons_iff, accepts_flattenOr head,
        accepts_flattenOrArgs tail]
      simp only [List.mem_append, or_and_right, exists_or]

end

/-! ### Factoring keeps what is accepted -/

lemma mem_commonConjuncts {c : Expr} {rest : List (List Expr)} : ∀ {first : List Expr},
    c ∈ commonConjuncts (first :: rest) ↔ ∀ l ∈ first :: rest, c ∈ l := by
  induction rest with
  | nil => simp [commonConjuncts]
  | cons next rest ih =>
      intro first
      have hstep : commonConjuncts (first :: next :: rest) =
          commonConjuncts (first.filter (fun c => decide (c ∈ next)) :: rest) := rfl
      rw [hstep, ih, List.forall_mem_cons, List.mem_filter]
      simp [and_assoc]

/-- The AND of conditions. -/
lemma accepts_andAll (hsound : registry.Sound engine) {first : Expr} {rest : List Expr}
    {names : List String} (h : ∀ e ∈ first :: rest, Condition e ∧ e.backed ⊆ names) :
    Condition (andAll registry first rest) ∧ (andAll registry first rest).backed ⊆ names ∧
      ∀ row, engine.accepts row (andAll registry first rest) ↔
        ∀ e ∈ first :: rest, engine.accepts row e := by
  obtain ⟨hfirst, hbacked⟩ := h first List.mem_cons_self
  have hall := stands_andAll hsound (hfirst.stands hbacked)
    fun e he => h e (List.mem_cons_of_mem _ he)
  refine ⟨hall.condition, hall.backed, fun row => ?_⟩
  unfold Engine.accepts
  rw [hall.truth, Truth.and_eq_true, Truth.all_eq_true, List.forall_mem_map, List.forall_mem_cons]

/-- The OR of conditions. -/
lemma accepts_orAll (hsound : registry.Sound engine) {first : Expr} {rest : List Expr}
    {names : List String} (h : ∀ e ∈ first :: rest, Condition e ∧ e.backed ⊆ names) :
    Condition (orAll registry first rest) ∧ (orAll registry first rest).backed ⊆ names ∧
      ∀ row, engine.accepts row (orAll registry first rest) ↔
        ∃ e ∈ first :: rest, engine.accepts row e := by
  obtain ⟨hfirst, hbacked⟩ := h first List.mem_cons_self
  have hany := stands_orAll hsound (hfirst.stands hbacked)
    fun e he => h e (List.mem_cons_of_mem _ he)
  refine ⟨hany.condition, hany.backed, fun row => ?_⟩
  unfold Engine.accepts
  rw [hany.truth, Truth.or_eq_true, Truth.any_eq_true, List.mem_map, List.exists_mem_cons_iff]

/-- The residual of a disjunct says what the disjunct says beyond the common conjuncts. -/
lemma residualDisjunct_spec (hsound : registry.Sound engine) {common conjuncts : List Expr}
    {names : List String} (h : ∀ e ∈ conjuncts, Condition e ∧ e.backed ⊆ names) :
    match residualDisjunct registry common conjuncts with
    | none => ∀ row, (∀ c ∈ common, engine.accepts row c) → ∀ c ∈ conjuncts, engine.accepts row c
    | some residual => Condition residual ∧ residual.backed ⊆ names ∧
        ∀ row, (∀ c ∈ common, engine.accepts row c) →
          (engine.accepts row residual ↔ ∀ c ∈ conjuncts, engine.accepts row c) := by
  have hsplit : ∀ row, (∀ c ∈ common, engine.accepts row c) →
      ((∀ c ∈ conjuncts.filter (fun c => decide (c ∉ common)), engine.accepts row c) ↔
        ∀ c ∈ conjuncts, engine.accepts row c) := by
    intro row hcommon
    refine ⟨fun hall c hc => ?_, fun hall c hc => hall c (List.mem_of_mem_filter hc)⟩
    by_cases hmem : c ∈ common
    · exact hcommon c hmem
    · exact hall c (List.mem_filter.mpr ⟨hc, by simpa using hmem⟩)
  have hfilter : ∀ e ∈ conjuncts.filter (fun c => decide (c ∉ common)),
      Condition e ∧ e.backed ⊆ names := fun e he => h e (List.mem_of_mem_filter he)
  unfold residualDisjunct
  revert hsplit hfilter
  generalize conjuncts.filter (fun c => decide (c ∉ common)) = remaining
  intro hsplit hfilter
  cases remaining with
  | nil => exact fun row hcommon => (hsplit row hcommon).mp nofun
  | cons first rest =>
      obtain ⟨hcondition, hbacked, haccepts⟩ := accepts_andAll hsound hfilter
      exact ⟨hcondition, hbacked, fun row hcommon => (haccepts row).trans (hsplit row hcommon)⟩

/-- The residuals of disjuncts. -/
lemma residuals_spec (hsound : registry.Sound engine) {common : List Expr} {names : List String} :
    {perDisjunct : List (List Expr)} →
      (∀ l ∈ perDisjunct, ∀ e ∈ l, Condition e ∧ e.backed ⊆ names) →
      match perDisjunct.mapM (residualDisjunct registry common) with
      | none => ∀ row, (∀ c ∈ common, engine.accepts row c) →
          ∃ l ∈ perDisjunct, ∀ c ∈ l, engine.accepts row c
      | some residuals => residuals.length = perDisjunct.length ∧
          (∀ e ∈ residuals, Condition e ∧ e.backed ⊆ names) ∧
          ∀ row, (∀ c ∈ common, engine.accepts row c) →
            ((∃ e ∈ residuals, engine.accepts row e) ↔
              ∃ l ∈ perDisjunct, ∀ c ∈ l, engine.accepts row c)
  | [], _ => ⟨rfl, nofun, fun row _ => by simp⟩
  | conjuncts :: perDisjunct, h => by
      have hfirst := @residualDisjunct_spec _ _ hsound common _ _ (h conjuncts List.mem_cons_self)
      have ih := @residuals_spec hsound common _ perDisjunct
        fun l hl => h l (List.mem_cons_of_mem _ hl)
      rw [List.mapM_cons]
      cases hresidual : residualDisjunct registry common conjuncts with
      | none =>
          rw [hresidual] at hfirst
          exact fun row hcommon => ⟨conjuncts, List.mem_cons_self, hfirst row hcommon⟩
      | some residual =>
          rw [hresidual] at hfirst
          cases hresiduals : perDisjunct.mapM (residualDisjunct registry common) with
          | none =>
              rw [hresiduals] at ih
              intro row hcommon
              obtain ⟨l, hl, hall⟩ := ih row hcommon
              exact ⟨l, List.mem_cons_of_mem _ hl, hall⟩
          | some residuals =>
              rw [hresiduals] at ih
              refine ⟨by simp [ih.1], ?_, fun row hcommon => ?_⟩
              · exact List.forall_mem_cons.mpr ⟨⟨hfirst.1, hfirst.2.1⟩, ih.2.1⟩
              · show (∃ e ∈ residual :: residuals, _) ↔ _
                rw [List.exists_mem_cons_iff, List.exists_mem_cons_iff, hfirst.2.2 row hcommon,
                  ih.2.2 row hcommon]

/-- Factoring a list of conjunctions accepts the same rows. -/
lemma factor_spec (hsound : registry.Sound engine) {first : List Expr} {rest : List (List Expr)}
    {names : List String}
    (h : ∀ l ∈ first :: rest, ∀ c ∈ l, Condition c ∧ c.backed ⊆ names)
    {common : List Expr} {residual : Option Expr}
    (hfactor : (match (first :: rest).mapM
        (residualDisjunct registry (commonConjuncts (first :: rest))) with
      | some (first' :: rest') =>
          some (commonConjuncts (first :: rest), some (orAll registry first' rest'))
      | _ => some (commonConjuncts (first :: rest), none)) = some (common, residual)) :
    (∀ c ∈ common ++ residual.toList, Condition c ∧ c.backed ⊆ names) ∧
      ∀ row, (∃ l ∈ first :: rest, ∀ c ∈ l, engine.accepts row c) ↔
        ∀ c ∈ common ++ residual.toList, engine.accepts row c := by
  have hcommon : ∀ c ∈ commonConjuncts (first :: rest), ∀ l ∈ first :: rest, c ∈ l :=
    fun c hc => mem_commonConjuncts.mp hc
  have hconditions : ∀ c ∈ commonConjuncts (first :: rest), Condition c ∧ c.backed ⊆ names :=
    fun c hc => h first List.mem_cons_self c (hcommon c hc first List.mem_cons_self)
  have himplies : ∀ row, (∃ l ∈ first :: rest, ∀ c ∈ l, engine.accepts row c) →
      ∀ c ∈ commonConjuncts (first :: rest), engine.accepts row c :=
    fun row ⟨l, hl, hall⟩ c hc => hall c (hcommon c hc l hl)
  have hresiduals := @residuals_spec _ _ hsound (commonConjuncts (first :: rest)) _ _ h
  split at hfactor
  case h_1 residual' rest' hmap =>
    obtain ⟨rfl, rfl⟩ := Prod.mk.inj (Option.some_inj.mp hfactor)
    rw [hmap] at hresiduals
    obtain ⟨-, hresidual, hrows⟩ := hresiduals
    obtain ⟨horCondition, horBacked, hor⟩ := accepts_orAll hsound hresidual
    refine ⟨fun c hc => ?_, fun row => ?_⟩
    · rcases List.mem_append.mp hc with hc | hc
      · exact hconditions c hc
      · rw [List.mem_singleton.mp hc]
        exact ⟨horCondition, horBacked⟩
    · rw [List.forall_mem_append]
      constructor
      · intro hrow
        refine ⟨himplies row hrow, fun c hc => ?_⟩
        rw [List.mem_singleton.mp hc, hor, hrows row (himplies row hrow)]
        exact hrow
      · rintro ⟨hall, hresidual⟩
        rw [← hrows row hall, ← hor row]
        exact hresidual _ (List.mem_singleton_self _)
  case h_2 hmap =>
    obtain ⟨rfl, rfl⟩ := Prod.mk.inj (Option.some_inj.mp hfactor)
    rw [Option.toList_none, List.append_nil]
    refine ⟨hconditions, fun row => ⟨himplies row, fun hall => ?_⟩⟩
    cases hmapM : (first :: rest).mapM
        (residualDisjunct registry (commonConjuncts (first :: rest))) with
    | none =>
        rw [hmapM] at hresiduals
        exact hresiduals row hall
    | some residuals =>
        rw [hmapM] at hresiduals
        cases residuals with
        | nil => cases hresiduals.1
        | cons residual' rest' => exact absurd hmapM (hmap residual' rest')

/-- Factoring an OR accepts the same rows. -/
lemma tryFactorOr_spec (hsound : registry.Sound engine) {e : Expr} (h : Condition e)
    {common : List Expr} {residual : Option Expr}
    (hfactor : tryFactorOr registry e = some (common, residual)) :
    (∀ c ∈ common ++ residual.toList, Condition c ∧ c.backed ⊆ e.backed) ∧
      ∀ row, engine.accepts row e ↔ ∀ c ∈ common ++ residual.toList, engine.accepts row c := by
  unfold tryFactorOr at hfactor
  split at hfactor
  case h_2 => cases hfactor
  case h_1 args type =>
    dsimp only at hfactor
    split at hfactor
    case isTrue => cases hfactor
    case isFalse hlength =>
      split at hfactor
      case isTrue => cases hfactor
      case isFalse =>
        have hdisjunct : ∀ d ∈ (flattenOr (.call .or args type)).eraseDups,
            Condition d ∧ d.backed ⊆ (Expr.call .or args type).backed :=
          fun d hd => condition_flatten (.inr rfl) _ h d (List.mem_eraseDups.mp hd)
        have haccepts : ∀ row, engine.accepts row (.call .or args type) ↔
            ∃ d ∈ (flattenOr (.call .or args type)).eraseDups, engine.accepts row d := by
          intro row
          rw [accepts_flattenOr]
          simp [flattenOr]
        revert hfactor hlength hdisjunct haccepts
        generalize (flattenOr (.call .or args type)).eraseDups = disjuncts
        intro hlength hfactor hdisjunct haccepts
        have hconjunct : ∀ l ∈ disjuncts.map flattenAnd, ∀ c ∈ l,
            Condition c ∧ c.backed ⊆ (Expr.call .or args type).backed := by
          intro l hl c hc
          obtain ⟨d, hd, rfl⟩ := List.mem_map.mp hl
          obtain ⟨hcondition, hbacked⟩ := hdisjunct d hd
          obtain ⟨hc, hcbacked⟩ := condition_flatten (.inl rfl) d hcondition c hc
          exact ⟨hc, fun n hn => hbacked (hcbacked hn)⟩
        have hrows : ∀ row, engine.accepts row (.call .or args type) ↔
            ∃ l ∈ disjuncts.map flattenAnd, ∀ c ∈ l, engine.accepts row c := by
          intro row
          rw [haccepts row]
          simp [flattenAnd, ← accepts_flattenAnd]
        cases disjuncts with
        | nil => exact absurd (by simp) hlength
        | cons d disjuncts =>
            obtain ⟨hconditions, hfactored⟩ := factor_spec hsound hconjunct hfactor
            exact ⟨hconditions, fun row => (hrows row).trans (hfactored row)⟩

end

/-! ### Candidates accept the same rows -/

section

variable {engine : Engine} {registry : Registry} {names : List String}

/-- The candidates of conjuncts are met together on the rows where the conjuncts are. -/
lemma candidatesOf_spec (hsound : registry.Sound engine) (fuel : ℕ) : {conjuncts : List Expr} →
    (∀ c ∈ conjuncts, Condition c ∧ c.backed ⊆ names) →
    ∃ result, candidatesOf registry fuel conjuncts = .ok result ∧
      match result with
      | none => ∀ row, ¬ ∀ c ∈ conjuncts, engine.accepts row c
      | some candidates => (∀ c ∈ candidates, Condition c ∧ c.backed ⊆ names) ∧
          ∀ row, (∀ c ∈ conjuncts, engine.accepts row c) ↔
            ∀ c ∈ candidates, engine.accepts row c
  | [], _ => ⟨some [], rfl, nofun, fun row => Iff.rfl⟩
  | conjunct :: rest, h => by
      obtain ⟨hconjunct, hbacked⟩ := h conjunct List.mem_cons_self
      obtain ⟨result, hresult, hspec⟩ :=
        candidatesOf_spec hsound fuel fun c hc => h c (List.mem_cons_of_mem _ hc)
      have hsimplified := rewrites_simplify hsound fuel conjunct hconjunct.typed
      have hcondition := hconjunct.of_rewrites hsimplified
      have haccepts : ∀ row, engine.accepts row conjunct ↔
          engine.accepts row (simplify registry fuel conjunct) := by
        intro row
        unfold Engine.accepts
        rw [hsimplified.eval]
      have hbacked' : (simplify registry fuel conjunct).backed ⊆ names :=
        fun n hn => hbacked (hsimplified.backed hn)
      rw [candidatesOf]
      revert hcondition haccepts hbacked'
      generalize simplify registry fuel conjunct = simplified
      intro hcondition haccepts hbacked'
      split
      case h_1 value type =>
        obtain rfl : type = .boolean := hcondition.type
        rw [if_neg (by simp)]
        have htruth : ∀ row, engine.accepts row conjunct ↔ value = .boolean true := by
          intro row
          rw [haccepts row, Engine.accepts, Engine.eval, Value.truth_conform, truth_eq_true]
        split
        case isTrue hvalue =>
          refine ⟨result, hresult, ?_⟩
          cases result with
          | none => exact fun row hall => hspec row fun c hc => hall c (List.mem_cons_of_mem _ hc)
          | some candidates =>
              refine ⟨hspec.1, fun row => ?_⟩
              rw [List.forall_mem_cons, ← hspec.2 row, and_iff_right ((htruth row).mpr hvalue)]
        case isFalse hvalue =>
          exact ⟨none, rfl, fun row hall => hvalue ((htruth row).mp (hall _ List.mem_cons_self))⟩
      case h_2 =>
        rw [hresult]
        refine ⟨_, rfl, ?_⟩
        cases result with
        | none => exact fun row hall => hspec row fun c hc => hall c (List.mem_cons_of_mem _ hc)
        | some candidates =>
            obtain ⟨hconditions, hrows⟩ := hspec
            dsimp only [Option.map_some]
            split
            case h_1 common residual hfactor =>
              obtain ⟨hfactored, hfactoredRows⟩ := tryFactorOr_spec hsound hcondition hfactor
              refine ⟨?_, fun row => ?_⟩
              · intro c hc
                rcases List.mem_append.mp hc with hc | hc
                · exact ⟨(hfactored c hc).1, fun n hn => hbacked' ((hfactored c hc).2 hn)⟩
                · exact hconditions c hc
              · rw [List.forall_mem_cons, List.forall_mem_append, hrows row, haccepts row,
                  hfactoredRows row]
            case h_2 =>
              refine ⟨List.forall_mem_cons.mpr ⟨⟨hcondition, hbacked'⟩, hconditions⟩, fun row => ?_⟩
              rw [List.forall_mem_cons, List.forall_mem_cons, hrows row, haccepts row]

end

/-! ### Domains accept the same rows -/

mutual

/-- The BIGINT-backed types of the columns of an expression are among those it reads. -/
lemma backed_of_mem_columns {c : Column} : (e : Expr) → c ∈ e.columns → c.type.backed ⊆ e.backed
  | .column _, h => by
      rw [Expr.columns, List.mem_singleton] at h
      exact h ▸ List.Subset.refl _
  | .literal _ _, h => nomatch h
  | .field base _ _, h => fun n hn =>
      List.mem_append_left _ (backed_of_mem_columns base h hn)
  | .call _ args _, h => fun n hn =>
      List.mem_append_right _ (backed_of_mem_columnsArgs args h hn)

lemma backed_of_mem_columnsArgs {c : Column} : (args : Exprs) → c ∈ args.columns →
    c.type.backed ⊆ args.backed
  | .nil, h => nomatch h
  | .cons head tail, h => fun n hn => by
      rw [Exprs.columns, List.mem_union_iff] at h
      rcases h with h | h
      · exact List.mem_append_left _ (backed_of_mem_columns head h hn)
      · exact List.mem_append_right _ (backed_of_mem_columnsArgs tail h hn)

end

/-- A type whose BIGINT-backed types order their values as integers does. -/
lemma strictMono_order {engine : Engine} {type : SqlType}
    (h : ∀ n ∈ type.backed, StrictMono (engine.key n)) : StrictMono (engine.order type) := by
  cases type with
  | bigintBacked name => exact h name (by simp [SqlType.backed])
  | _ => exact fun _ _ hlt => hlt

section

variable {engine : Engine} {registry : Registry}

/-- A domain of a column, within the limits of its type. -/
def OfColumn (p : Column × Domain Integral) : Prop :=
  ∃ limits, p.1.type.numericLimits = some limits ∧ p.2.LimitedTo limits

variable (engine) in
/-- The types of a column order their values as integers. -/
def Ordered (column : Column) : Prop := StrictMono (engine.order column.type)

/-- The domain of a candidate. -/
lemma candidateDomain_spec (hcasts : engine.Casts) {candidate : Expr} (h : Condition candidate)
    (horder : ∀ n ∈ candidate.backed, StrictMono (engine.key n)) {column : Column}
    {domain : Domain Integral} (hdomain : candidateDomain candidate = some (column, domain)) :
    OfColumn (column, domain) ∧ Ordered engine column ∧
      ∀ row, Fits row → (domain.Accepts (row column) ↔ engine.accepts row candidate) := by
  unfold candidateDomain at hdomain
  split at hdomain
  case h_2 => cases hdomain
  case h_1 column' hcolumns =>
    split at hdomain
    case isFalse => cases hdomain
    case isTrue hintegral =>
      obtain ⟨domain', hdomain', heq⟩ := Option.map_eq_some_iff.mp hdomain
      obtain ⟨rfl, rfl⟩ := Prod.mk.inj heq
      obtain ⟨limits, hlimits⟩ : ∃ limits, column'.type.numericLimits = some limits := by
        rw [isSome_integralTypeDomain, ← isSome_numericLimits] at hintegral
        exact Option.isSome_iff_exists.mp hintegral
      have hordered : Ordered engine column' := strictMono_order fun n hn => horder n
        (backed_of_mem_columns candidate (hcolumns ▸ List.mem_cons_self) hn)
      refine ⟨⟨limits, hlimits, ?_⟩, hordered, fun row hfits => ?_⟩
      · rw [exprToDomain, hcolumns] at hdomain'
        exact limitedTo_exprToDomainOf hlimits candidate hdomain'
      · exact accepts_exprToDomain hcasts hordered hlimits (hfits _ _ hlimits) h.typed hcolumns
          hdomain'

/-- Every domain accepts the value of its column. -/
def AcceptsAll (row : Row) (domains : List (Column × Domain Integral)) : Prop :=
  ∀ p ∈ domains, p.2.Accepts (row p.1)

lemma acceptsAll_cons {row : Row} {column : Column} {domain : Domain Integral}
    {domains : List (Column × Domain Integral)} :
    AcceptsAll row ((column, domain) :: domains) ↔
      domain.Accepts (row column) ∧ AcceptsAll row domains := List.forall_mem_cons

/-- Merging a domain into that of its column. -/
lemma mergeDomain_spec {column : Column} {domain : Domain Integral} :
    {domains : List (Column × Domain Integral)} →
      (∀ p ∈ domains, OfColumn p) → OfColumn (column, domain) →
      match mergeDomain column domain domains with
      | none => column ∉ domains.map Prod.fst
      | some merged => merged.map Prod.fst = domains.map Prod.fst ∧ (∀ p ∈ merged, OfColumn p) ∧
          ∀ row, AcceptsAll row merged ↔ AcceptsAll row domains ∧ domain.Accepts (row column)
  | [], _, _ => by simp [mergeDomain]
  | (c, d) :: domains, h, hdomain => by
      have ih := mergeDomain_spec (fun p hp => h p (List.mem_cons_of_mem _ hp)) hdomain
      obtain ⟨limits, hlimits, hlimited⟩ := h (c, d) List.mem_cons_self
      rw [mergeDomain]
      by_cases hc : c = column
      · rw [if_pos hc]
        refine ⟨rfl, ?_, fun row => ?_⟩
        · refine List.forall_mem_cons.mpr ⟨⟨limits, hlimits, Domain.within_intersect (.inl hlimited)⟩,
            fun p hp => h p (List.mem_cons_of_mem _ hp)⟩
        · rw [acceptsAll_cons, acceptsAll_cons, accepts_intersect, hc]
          exact and_right_comm
      · rw [if_neg hc]
        cases hmerge : mergeDomain column domain domains with
        | none =>
            rw [hmerge] at ih
            exact List.not_mem_cons_of_ne_of_not_mem (Ne.symm hc) ih
        | some merged =>
            rw [hmerge] at ih
            refine ⟨by simp [ih.1], ?_, fun row => ?_⟩
            · exact List.forall_mem_cons.mpr ⟨h (c, d) List.mem_cons_self, ih.2.1⟩
            · rw [acceptsAll_cons, acceptsAll_cons, ih.2.2 row, and_assoc]

/-- The column of a place of the output that waits for a filter. -/
def Survivor.column : Survivor → Option Column
  | conjunct _ => none
  | filterOn column => some column

variable (engine) in
/-- A placement stands for the candidates placed: a place for the filter of each column, a domain of
each within its limits, and between domains and conjuncts the rows accepted. -/
structure Placed (placement : Placement) (candidates : List Expr) : Prop where
  columns : placement.surviving.filterMap Survivor.column = placement.domains.map Prod.fst
  nodup : (placement.domains.map Prod.fst).Nodup
  limited : ∀ p ∈ placement.domains, OfColumn p
  ordered : ∀ p ∈ placement.domains, Ordered engine p.1
  accepts : ∀ row, Fits row →
    ((∀ c ∈ candidates, engine.accepts row c) ↔ AcceptsAll row placement.domains ∧
      ∀ e, Survivor.conjunct e ∈ placement.surviving → engine.accepts row e)

lemma placed_nil : Placed engine ⟨[], []⟩ [] :=
  ⟨rfl, .nil, nofun, nofun, fun _ _ => iff_of_true nofun ⟨nofun, nofun⟩⟩

/-- One candidate more. -/
lemma Placed.step (hcasts : engine.Casts) {placement : Placement} {candidates : List Expr}
    (hplaced : Placed engine placement candidates) {candidate : Expr} (h : Condition candidate)
    (horder : ∀ n ∈ candidate.backed, StrictMono (engine.key n)) :
    Placed engine (placeCandidate placement candidate) (candidates ++ [candidate]) := by
  have hone : ∀ row, (∀ c ∈ candidates ++ [candidate], engine.accepts row c) ↔
      (∀ c ∈ candidates, engine.accepts row c) ∧ engine.accepts row candidate := by
    intro row
    rw [List.forall_mem_append, List.forall_mem_singleton]
  unfold placeCandidate
  split
  case h_1 =>
    refine ⟨?_, hplaced.nodup, hplaced.limited, hplaced.ordered, fun row hfits => ?_⟩
    · rw [List.filterMap_append, hplaced.columns]
      simp [Survivor.column]
    · rw [hone, hplaced.accepts row hfits, and_assoc]
      refine and_congr_right fun _ => ?_
      simp only [List.mem_append, List.mem_singleton, Survivor.conjunct.injEq]
      constructor
      · rintro ⟨hall, hcandidate⟩ e (he | rfl)
        · exact hall e he
        · exact hcandidate
      · exact fun hall => ⟨fun e he => hall e (.inl he), hall candidate (.inr rfl)⟩
  case h_2 column domain hdomain =>
    obtain ⟨hcolumn, hordered, haccepts⟩ := candidateDomain_spec hcasts h horder hdomain
    have hmerge := mergeDomain_spec hplaced.limited hcolumn
    split
    case h_1 merged hmerged =>
      rw [hmerged] at hmerge
      refine ⟨hplaced.columns.trans hmerge.1.symm, hmerge.1 ▸ hplaced.nodup, hmerge.2.1, ?_,
        fun row hfits => ?_⟩
      · intro p hp
        have hmem : p.1 ∈ placement.domains.map Prod.fst := hmerge.1 ▸ List.mem_map_of_mem hp
        obtain ⟨q, hq, heq⟩ := List.mem_map.mp hmem
        exact heq ▸ hplaced.ordered q hq
      · rw [hone, hplaced.accepts row hfits, hmerge.2.2 row, haccepts row hfits]
        exact and_right_comm
    case h_2 hmerged =>
      rw [hmerged] at hmerge
      refine ⟨?_, ?_, ?_, ?_, fun row hfits => ?_⟩
      · rw [List.filterMap_append, hplaced.columns, List.map_append]
        rfl
      · rw [List.map_append, List.nodup_append]
        refine ⟨hplaced.nodup, List.nodup_singleton _, fun a ha b hb heq => hmerge ?_⟩
        have hb' : b = column := List.mem_singleton.mp hb
        rwa [← hb', ← heq]
      · exact List.forall_mem_append.mpr ⟨hplaced.limited, List.forall_mem_singleton.mpr hcolumn⟩
      · exact List.forall_mem_append.mpr ⟨hplaced.ordered, List.forall_mem_singleton.mpr hordered⟩
      · have hall : AcceptsAll row (placement.domains ++ [(column, domain)]) ↔
            AcceptsAll row placement.domains ∧ engine.accepts row candidate := by
          unfold AcceptsAll
          rw [List.forall_mem_append, List.forall_mem_singleton, haccepts row hfits]
        rw [hone, hplaced.accepts row hfits, hall]
        simp only [List.mem_append, List.mem_singleton, reduceCtorEq, or_false]
        exact and_right_comm

/-- All candidates. -/
lemma placed_foldl (hcasts : engine.Casts) {candidates : List Expr}
    (h : ∀ c ∈ candidates, Condition c ∧ ∀ n ∈ c.backed, StrictMono (engine.key n)) :
    ∀ {placement : Placement} {placed : List Expr}, Placed engine placement placed →
      Placed engine (candidates.foldl placeCandidate placement) (placed ++ candidates) := by
  induction candidates with
  | nil =>
      intro placement placed hplaced
      rwa [List.foldl_nil, List.append_nil]
  | cons candidate candidates ih =>
      intro placement placed hplaced
      obtain ⟨hcandidate, horder⟩ := h candidate List.mem_cons_self
      have hstep := ih (fun c hc => h c (List.mem_cons_of_mem _ hc))
        (hplaced.step hcasts hcandidate horder)
      rwa [List.append_assoc, List.singleton_append] at hstep

/-- The filters of the columns. -/
lemma renderDomains_spec (hsound : registry.Sound engine) :
    {domains : List (Column × Domain Integral)} → (∀ p ∈ domains, OfColumn p) →
      (∀ p ∈ domains, Ordered engine p.1) →
      ∃ result, renderDomains registry domains = .ok result ∧
        match result with
        | none => ∀ row, ¬ AcceptsAll row domains
        | some filters => filters.map Prod.fst = domains.map Prod.fst ∧
            ∀ row, Fits row →
              (AcceptsAll row domains ↔ ∀ p ∈ filters, ∀ e ∈ p.2, engine.accepts row e)
  | [], _, _ => ⟨some [], rfl, rfl, fun row _ => iff_of_true nofun nofun⟩
  | (column, domain) :: domains, h, horder => by
      obtain ⟨result, hresult, hspec⟩ := renderDomains_spec hsound
        (fun p hp => h p (List.mem_cons_of_mem _ hp))
        fun p hp => horder p (List.mem_cons_of_mem _ hp)
      obtain ⟨limits, hlimits, hlimited⟩ := h (column, domain) List.mem_cons_self
      have hordered := horder (column, domain) List.mem_cons_self
      rw [renderDomains]
      split
      case isTrue hnone =>
        refine ⟨none, rfl, fun row hall => ?_⟩
        obtain ⟨hnulls, hranges⟩ : domain.nullsAllowed = false ∧ domain.ranges = [] := by
          simpa [Domain.isNone] using hnone
        have haccepts : domain.Accepts (row column) := (acceptsAll_cons.mp hall).1
        generalize row column = w at haccepts
        cases w with
        | null => exact Bool.false_ne_true (hnulls.symm.trans haccepts)
        | integral v =>
            obtain ⟨i, hi, -⟩ := haccepts
            rw [hranges] at hi
            cases hi
        | boolean b => exact haccepts
        | text t => exact haccepts
        | list elements => exact haccepts
      case isFalse hnone =>
        obtain ⟨filter, hfilter, hrows⟩ := accepts_domainToFilter hsound hordered hlimits hlimited
          (by simpa using hnone)
        rw [hfilter, hresult]
        refine ⟨result.map ((column, filter) :: ·), rfl, ?_⟩
        cases result with
        | none => exact fun row hall => hspec row (acceptsAll_cons.mp hall).2
        | some filters =>
            refine ⟨by simp [hspec.1], fun row hfits => ?_⟩
            rw [acceptsAll_cons, hspec.2 row hfits, List.forall_mem_cons,
              hrows row (hfits _ _ hlimits)]

end

/-! ### Filter simplification -/

/-- The conjuncts of the output are met together where the filters and the conjuncts are. -/
lemma accepts_surviving {engine : Engine} {row : Row} {surviving : List Survivor}
    {filters : List (Column × Option Expr)}
    (hcolumns : surviving.filterMap Survivor.column = filters.map Prod.fst)
    (hnodup : (filters.map Prod.fst).Nodup) :
    (∀ e ∈ surviving.filterMap (Survivor.toFilter filters), engine.accepts row e) ↔
      (∀ p ∈ filters, ∀ e ∈ p.2, engine.accepts row e) ∧
        ∀ e, Survivor.conjunct e ∈ surviving → engine.accepts row e := by
  have hlookup : ∀ p ∈ filters, filters.lookup p.1 = some p.2 := by
    clear hcolumns
    induction filters with
    | nil => exact nofun
    | cons q filters ih =>
        obtain ⟨hq, hnodup⟩ := List.nodup_cons.mp hnodup
        refine List.forall_mem_cons.mpr ⟨by simp [List.lookup], fun p hp => ?_⟩
        have hne : p.1 ≠ q.1 := fun heq => hq (heq ▸ List.mem_map_of_mem hp)
        have hbeq : (p.1 == q.1) = false := by simpa using hne
        rw [List.lookup_cons, hbeq]
        exact ih hnodup p hp
  constructor
  · intro hall
    refine ⟨fun p hp e he => hall e (List.mem_filterMap.mpr ?_), fun e he =>
      hall e (List.mem_filterMap.mpr ⟨_, he, rfl⟩)⟩
    have hmem : p.1 ∈ surviving.filterMap Survivor.column := by
      rw [hcolumns]
      exact List.mem_map_of_mem hp
    obtain ⟨survivor, hsurvivor, hcolumn⟩ := List.mem_filterMap.mp hmem
    cases survivor with
    | conjunct e => cases hcolumn
    | filterOn column =>
        cases hcolumn
        refine ⟨.filterOn p.1, hsurvivor, ?_⟩
        rw [Survivor.toFilter, hlookup p hp, Option.join_some]
        exact he
  · rintro ⟨hfilters, hconjuncts⟩ e he
    obtain ⟨survivor, hsurvivor, he⟩ := List.mem_filterMap.mp he
    cases survivor with
    | conjunct e' =>
        cases he
        exact hconjuncts e hsurvivor
    | filterOn column =>
        have hmem : column ∈ filters.map Prod.fst := by
          rw [← hcolumns]
          exact List.mem_filterMap.mpr ⟨_, hsurvivor, rfl⟩
        obtain ⟨p, hp, rfl⟩ := List.mem_map.mp hmem
        rw [Survivor.toFilter, hlookup p hp, Option.join_some] at he
        exact hfilters p hp e he

/-- What the simplification of a predicate says of a row: the predicate is met where all conjuncts
are, or, when no row is said to pass, nowhere. -/
def Agrees (engine : Engine) (row : Row) (predicate : Expr) : Option (List Expr) → Prop
  | none => ¬ engine.accepts row predicate
  | some conjuncts => engine.accepts row predicate ↔ ∀ e ∈ conjuncts, engine.accepts row e

/-- Filter simplification accepts the same rows: over some BIGINT-backed types, every predicate passes
the checks, and what comes out agrees with it on every row. -/
def SimplifiesFilters (registry : Registry) (engine : Engine) (fuel : ℕ) (names : Set String) :
    Prop :=
  ∀ predicate, Condition predicate → (∀ n ∈ predicate.backed, n ∈ names) →
    ∃ result, simplifyFilter registry fuel predicate = .ok result ∧
      ∀ row, Fits row → Agrees engine row predicate result

section

variable {engine : Engine} {registry : Registry}

/-- Types that order their values as integers are simplified as they should. -/
lemma simplifiesFilters_of_strictMono (hsound : registry.Sound engine) (hcasts : engine.Casts)
    (fuel : ℕ) {names : Set String} (h : ∀ n ∈ names, StrictMono (engine.key n)) :
    SimplifiesFilters registry engine fuel names := by
  intro predicate hpredicate hnames
  have hconjuncts := condition_flatten (.inl rfl) predicate hpredicate
  obtain ⟨result, hresult, hspec⟩ := candidatesOf_spec hsound fuel hconjuncts
  have hflatten : ∀ row, engine.accepts row predicate ↔
      ∀ c ∈ flattenAnd predicate, engine.accepts row c := fun row => accepts_flattenAnd predicate
  have hrun : candidatesOf registry fuel (flattenAnd predicate) = .ok result := hresult
  unfold simplifyFilter
  rw [hrun]
  cases result with
  | none => exact ⟨none, rfl, fun row _ hrow => hspec row ((hflatten row).mp hrow)⟩
  | some candidates =>
      obtain ⟨hcandidates, hrows⟩ := hspec
      have hplaced := placed_foldl hcasts
        (fun c hc => ⟨(hcandidates c hc).1, fun n hn => h n (hnames n ((hcandidates c hc).2 hn))⟩)
        placed_nil
      obtain ⟨filters, hfilters, hrender⟩ :=
        renderDomains_spec hsound hplaced.limited hplaced.ordered
      show ∃ result, (do
        match ← renderDomains registry (candidates.foldl placeCandidate ⟨[], []⟩).domains with
        | none => return none
        | some filters =>
            return some ((candidates.foldl placeCandidate ⟨[], []⟩).surviving.filterMap
              (Survivor.toFilter filters))) = Except.ok result ∧ _
      rw [hfilters]
      have hsame : ∀ row, Fits row → (engine.accepts row predicate ↔
          AcceptsAll row (candidates.foldl placeCandidate ⟨[], []⟩).domains ∧
            ∀ e, Survivor.conjunct e ∈ (candidates.foldl placeCandidate ⟨[], []⟩).surviving →
              engine.accepts row e) := by
        intro row hfits
        rw [hflatten row, ← hplaced.accepts row hfits]
        exact hrows row
      cases filters with
      | none =>
          exact ⟨none, rfl, fun row hfits hrow => hrender row ((hsame row hfits).mp hrow).1⟩
      | some filters =>
          refine ⟨_, rfl, fun row hfits => ?_⟩
          show engine.accepts row predicate ↔ _
          rw [accepts_surviving (hplaced.columns.trans hrender.1.symm)
            (hrender.1 ▸ hplaced.nodup), ← hrender.2 row hfits]
          exact hsame row hfits

end

/-! ### Where a type does not order its values as integers -/

section

variable {engine : Engine} {registry : Registry} {n : String} {x y : Integral}

/-- A column of a BIGINT-backed type. -/
def backedColumn (n : String) : Column := ⟨0, .bigintBacked n⟩

/-- A comparison of the column with an integer. -/
def backedComparison (n : String) (name : FunctionName) (value : Integral) : Expr :=
  .apply name [.column (backedColumn n), .literal (.integral value) (.bigintBacked n)] .boolean

/-- At most one value and at least another. -/
def atMostAndAtLeast (n : String) (x y : Integral) : Expr :=
  .apply .and [backedComparison n .lte x, backedComparison n .gte y] .boolean

/-- A row with a value in the column. -/
def backedRow (n : String) (value : Integral) : Row :=
  fun c => if c = backedColumn n then .integral value else .null

lemma fits_backedRow (n : String) (value : Integral) : Fits (backedRow n value) := by
  intro c limits hlimits
  unfold backedRow
  split
  case isFalse => trivial
  case isTrue hc =>
    subst hc
    cases hlimits
    exact ⟨value.property.1, value.property.2⟩

lemma typed_backedComparison {name : FunctionName} (hname : name.isComparison = true) (value : Integral) :
    (backedComparison n name value).Typed := by
  refine typed_apply.mpr ⟨?_, by simp [Expr.Typed]⟩
  cases name <;> first
    | exact ⟨rfl, .bigintBacked n, rfl⟩
    | cases hname

/-- Two comparisons of the column. -/
lemma condition_and_backedComparison {name name' : FunctionName} (hname : name.isComparison = true)
    (hname' : name'.isComparison = true) (x y : Integral) :
    Condition (.apply .and [backedComparison n name x, backedComparison n name' y] .boolean) := by
  refine ⟨typed_apply.mpr ⟨⟨rfl, ?_⟩, ?_⟩, rfl⟩
  · simp [backedComparison, Expr.apply, Expr.type]
  · simp [typed_backedComparison hname, typed_backedComparison hname']

lemma backed_atMostAndAtLeast (n : String) (x y : Integral) :
    ∀ m ∈ (atMostAndAtLeast n x y).backed, m = n := by
  intro m hm
  simpa [atMostAndAtLeast, backedComparison, Expr.apply, Exprs.ofList, Expr.backed, Exprs.backed,
    SqlType.backed, backedColumn] using hm

lemma simplify_column (fuel : ℕ) (c : Column) :
    simplify registry fuel (.column c) = .column c := by
  cases fuel <;> rfl

lemma simplify_literal (fuel : ℕ) (value : Value) (type : SqlType) :
    simplify registry fuel (.literal value type) = .literal value type := by
  cases fuel <;> rfl

/-- A comparison of a column with an integer is in simplest form. -/
lemma simplify_backedComparison (fuel : ℕ) {name : FunctionName} (hname : name = .lte ∨ name = .gte)
    (value : Integral) :
    simplify registry fuel (backedComparison n name value) = backedComparison n name value := by
  cases fuel with
  | zero => rfl
  | succ fuel =>
      rcases hname with rfl | rfl
      all_goals
        simp [backedComparison, Expr.apply, Exprs.ofList, Exprs.toList, simplify, simplifyArgs,
          simplify_column, simplify_literal, tryFoldRowField, tryExpandRowEquality,
          tryFoldConstant, tryFoldConjunct, Expr.columns, Exprs.columns, Expr.isConstantNull]

/-- A domain that holds nothing, and no NULL, is empty. -/
lemma isNone_of_not_holds {d : Domain Integral} (hnulls : d.nullsAllowed = false)
    (h : ∀ U, ¬ d.Holds U) : d.isNone = true := by
  have hranges : d.ranges = [] := by
    by_contra hne
    have hwithin : d.Within ⊥ ⊤ := fun i _ => ⟨bot_le, le_top⟩
    obtain ⟨U, -, -, hU⟩ := Domain.exists_holds hwithin hne
    exact h U hU
  rw [Domain.isNone, hranges, hnulls]
  rfl

/-- Nothing is at most one value and at least a higher one. -/
lemma not_holds_atMost_atLeast (hlt : x < y) {U : LowerSet (Cut Integral)}
    (hx : (Domain.lessThanOrEqual x).Holds U) (hy : (Domain.greaterThanOrEqual y).Holds U) :
    False :=
  (Domain.holds_single.mp hx).2
    (U.lower (cutAt_lt_cutAt.mpr (.inl hlt)).le (Domain.holds_single.mp hy).1)

/-- The domains of the two comparisons have nothing in common where the first value is below the
second. -/
lemma simplifyFilter_atMostAndAtLeast (fuel : ℕ) (hlt : x < y) :
    simplifyFilter registry fuel (atMostAndAtLeast n x y) = .ok none := by
  obtain ⟨valid, hvalid⟩ : ∃ d, integralTypeDomain (.bigintBacked n) = some d := ⟨_, rfl⟩
  have hnonNull : nonNullDomain (backedColumn n) = valid := by
    rw [nonNullDomain, backedColumn, hvalid, Option.getD_some]
  have hcandidates : candidatesOf registry fuel (flattenAnd (atMostAndAtLeast n x y)) =
      .ok (some [backedComparison n .lte x, backedComparison n .gte y]) := by
    show candidatesOf registry fuel [backedComparison n .lte x, backedComparison n .gte y] = _
    rw [candidatesOf, candidatesOf, simplify_backedComparison fuel (.inl rfl),
      simplify_backedComparison fuel (.inr rfl)]
    rfl
  have hdomain : ∀ name f value, name = .lte ∨ name = .gte → makeTrueValues name = some f →
      candidateDomain (backedComparison n name value) =
        some (backedColumn n, (f value).intersect valid) := by
    intro name f value hname hf
    have hcolumns : (backedComparison n name value).columns = [backedColumn n] := rfl
    have hcall : exprToDomainOf (backedColumn n) (backedComparison n name value) .isTrue =
        comparisonDomain (backedColumn n) name (.integral value) .isTrue := by
      rcases hname with rfl | rfl <;> exact if_pos rfl
    have hcomparison : comparisonDomain (backedColumn n) name (.integral value) .isTrue =
        some ((f value).intersect valid) := by
      rw [← hnonNull]
      rcases hname with rfl | rfl <;> cases hf <;> rfl
    unfold candidateDomain
    rw [hcolumns]
    dsimp only
    rw [exprToDomain, hcolumns]
    dsimp only
    rw [hcall, hcomparison, backedColumn, hvalid]
    rfl
  have hempty : (((Domain.lessThanOrEqual x).intersect valid).intersect
      ((Domain.greaterThanOrEqual y).intersect valid)).isNone = true := by
    refine isNone_of_not_holds rfl fun U hU => ?_
    simp only [Domain.holds_intersect] at hU
    exact not_holds_atMost_atLeast hlt hU.1.1 hU.2.1
  unfold simplifyFilter
  rw [hcandidates]
  dsimp only [Bind.bind, Except.bind]
  have hplacement : ([backedComparison n .lte x, backedComparison n .gte y].foldl
      placeCandidate ⟨[], []⟩).domains = [(backedColumn n,
        ((Domain.lessThanOrEqual x).intersect valid).intersect
          ((Domain.greaterThanOrEqual y).intersect valid))] := by
    rw [List.foldl_cons, List.foldl_cons, List.foldl_nil]
    simp [placeCandidate, hdomain .lte .lessThanOrEqual x (.inl rfl) rfl,
      hdomain .gte .greaterThanOrEqual y (.inr rfl) rfl, mergeDomain]
  rw [hplacement, renderDomains, if_pos hempty]
  rfl

/-- A predicate no row is said to pass is met by a value at most one value and at least another. -/
lemma accepts_atMostAndAtLeast (h : engine.key n y ≤ engine.key n x) :
    engine.accepts (backedRow n x) (atMostAndAtLeast n x y) := by
  have hcolumn : engine.eval (backedRow n x) (.column (backedColumn n)) = .integral x := by
    rw [Engine.eval, backedRow, if_pos rfl]
    rfl
  have hliteral : ∀ value, engine.eval (backedRow n x)
      (.literal (.integral value) (.bigintBacked n)) = .integral value := by
    intro value
    rw [Engine.eval]
    rfl
  have hcomparison : ∀ name value, name = .lte ∨ name = .gte →
      (engine.eval (backedRow n x) (backedComparison n name value)).truth =
        some (relation name (engine.key n x) (engine.key n value)) := by
    intro name value hname
    rw [backedComparison, Engine.eval_apply, Value.truth_conform]
    simp only [List.map_cons, List.map_nil, hcolumn, hliteral]
    rcases hname with rfl | rfl
    all_goals
      simp only [Engine.apply, Value.truth_ofTruth, List.headD_cons]
      rw [compareValues_integral]
      rfl
  unfold Engine.accepts
  rw [atMostAndAtLeast, Engine.eval_apply, Value.truth_conform]
  simp [Engine.apply, hcomparison, relation, h]

end

/-! ### Timestamps with a time zone -/

namespace TimestampWithTimeZone

/-- A type stored as a BIGINT that brings its own comparison. -/
abbrev typeName : String := "TIMESTAMP WITH TIME ZONE"

/-- Comparisons can be turned around, and return NULL for a NULL argument. -/
def registry : Registry where
  reversibleFunctions
    | .lt => some .gt
    | .lte => some .gte
    | .gt => some .lt
    | .gte => some .lte
    | _ => none
  id _ := 0
  defaultNullBehavior name := name ∈ [.equality, .lt, .lte, .gt, .gte]
  constant _ := none

/-- A timestamp is compared by the instant, which stands above the twelve bits of the zone. -/
def engine : Engine where
  key _ value := value.val / 2 ^ 12
  compare _ _ _ _ := none
  cast _ _ _ value := value
  like _ _ := none
  field _ _ := .null
  call _ _ := .null

/-- Comparisons that can be turned around can be so on all values if they can on those the engine
compares. -/
lemma compareValues_swapped {engine : Engine} {f g : FunctionName} (hf : f ≠ .equality)
    (hg : g ≠ .equality) (hrelation : ∀ a b, relation f a b = relation g b a)
    (hcompare : ∀ type a b, engine.compare f type a b = engine.compare g type b a)
    (type : SqlType) (a b : Value) :
    engine.compareValues f type a b = engine.compareValues g type b a := by
  cases a with
  | null => rw [compareValues_null_left, compareValues_null_right]
  | integral v =>
      cases b with
      | integral w => rw [compareValues_integral, compareValues_integral, hrelation]
      | null => rw [compareValues_null_left, compareValues_null_right]
      | boolean b => simp [Engine.compareValues, hcompare]
      | text t => simp [Engine.compareValues, hcompare]
      | list elements => simp [Engine.compareValues, hcompare]
  | list as =>
      cases b with
      | list bs => cases type <;> simp [Engine.compareValues, hcompare, hf, hg]
      | null => rw [compareValues_null_left, compareValues_null_right]
      | boolean b => simp [Engine.compareValues, hcompare]
      | text t => simp [Engine.compareValues, hcompare]
      | integral w => simp [Engine.compareValues, hcompare]
  | boolean a => cases b <;> simp [Engine.compareValues, hcompare]
  | text t => cases b <;> simp [Engine.compareValues, hcompare]

lemma sound_of_compare {engine : Engine} (hcompare : ∀ f g, f ≠ .equality → g ≠ .equality →
    f ≠ .distinctFrom → g ≠ .distinctFrom →
      ∀ type a b, engine.compare f type a b = engine.compare g type b a) :
    registry.Sound engine where
  reverse f g h t type a b := by
    cases f <;> cases h <;>
      simp only [Engine.apply, List.headD_cons] <;>
      exact congrArg _ (compareValues_swapped (by simp) (by simp) (fun _ _ => rfl)
        (hcompare _ _ (by simp) (by simp) (by simp) (by simp)) t a b)
  reverse_typed f g h t type htyped := by
    cases f <;> cases h <;> exact htyped
  nulls f _ h types type args hnull := by
    have hf : f = .equality ∨ f = .lt ∨ f = .lte ∨ f = .gt ∨ f = .gte := by
      simpa [registry] using h
    rcases args with - | ⟨a, - | ⟨b, - | ⟨c, args⟩⟩⟩
    · cases hnull
    · rcases hf with rfl | rfl | rfl | rfl | rfl <;> rfl
    · have hunknown : ∀ type, engine.compareValues f type a b = none := by
        intro type
        rcases List.mem_cons.mp hnull with rfl | hnull
        · exact compareValues_null_left _ _
        · obtain rfl := List.mem_singleton.mp hnull
          exact compareValues_null_right _ _
      rcases hf with rfl | rfl | rfl | rfl | rfl <;> simp [Engine.apply, hunknown, Value.ofTruth]
    · rcases hf with rfl | rfl | rfl | rfl | rfl <;> rfl
  constant _ _ _ h := nomatch h

lemma sound : registry.Sound engine :=
  sound_of_compare fun _ _ _ _ _ _ _ _ _ => rfl

lemma casts : engine.Casts where
  same _ _ _ _ := rfl
  integers _ _ _ _ _ _ _ _ _ _ := rfl

/-- A timestamp equal to each of two, the same instant in two zones. -/
def sameInstant : Expr :=
  .apply .and
    [backedComparison typeName .equality ⟨0, by decide⟩,
      backedComparison typeName .equality ⟨1, by decide⟩] .boolean

end TimestampWithTimeZone

end Verax.Filters
