import Verax.Filters.ExprToDomain
import Verax.Lib.Outcome

/-!
# From a domain to a condition

`domainToFilter` renders a domain as a condition: comparisons, BETWEEN, IN or IS NULL, of the ranges
or of what they leave out, with no bound where the type ends. Over the limits of the type the checks
it makes all pass, and the condition is met by the values the domain accepts.

* `rangeBoundToFilter`, `nonNullDomainToFilter`, `domainToFilter`: the functions.
* `Tests`: a truth value that tests an integer and is unknown of NULL.
* `tests_nonNullDomainToFilter`, `accepts_domainToFilter`: what is rendered.
-/

namespace Verax.Filters

open Lib Lib.Intervals

/-- A check that does not pass.
Source: the `VELOX_CHECK`s of `ExprSimplifier.cpp` and `ExprFactory`. -/
inductive CheckFailure where
  | noValues
  | noBounds
  | noDisjuncts
  | noIntegralDomain
  | nonBooleanLiteral
  deriving DecidableEq

variable (registry : Registry)

/-! ### Rendering -/

/-- An integer cut down to the width of a type.
Source: `ExprSimplifier.cpp` `typedIntegralValue`. -/
def typedIntegralValue (type : SqlType) (value : Integral) : Integral :=
  ⟨Int.bmod value.val (2 ^ (8 * type.cppSizeInBytes)), by
    have hlow := @Int.le_bmod value.val (2 ^ (8 * type.cppSizeInBytes)) (Nat.two_pow_pos _)
    have hhigh := @Int.bmod_lt value.val (2 ^ (8 * type.cppSizeInBytes)) (Nat.two_pow_pos _)
    cases type <;> simp only [SqlType.cppSizeInBytes] at hlow hhigh ⊢ <;> constructor <;> omega⟩

/-- Source: `ExprSimplifier.cpp` `makeIntegralLiteral`. -/
def makeIntegralLiteral (column : Column) (value : Integral) : Expr :=
  .literal (.integral (typedIntegralValue column.type value)) column.type

/-- Source: `ExprSimplifier.cpp` `rangeBoundToFilter`. -/
def rangeBoundToFilter (column : Column) (bound : Bound Integral) (isLower : Bool)
    (typeLimit : Integral) : Option Expr :=
  if bound.inclusive && decide (bound.value = typeLimit) then none
  else
    let name : FunctionName :=
      if isLower then if bound.inclusive then .gte else .gt
      else if bound.inclusive then .lte else .lt
    some (makeComparison registry name (.column column) (makeIntegralLiteral column bound.value))

/-- Source: `ExprSimplifier.cpp` `nonNullDomainToFilter`, the loop. -/
def rangeToFilter (column : Column) (minimum maximum : Integral) (range : Range Integral) :
    Except CheckFailure Expr :=
  let bounds :=
    (range.low.bind fun low => rangeBoundToFilter registry column low true minimum).toList ++
      (range.high.bind fun high => rangeBoundToFilter registry column high false maximum).toList
  let conjunction := match bounds with
    | [] => .error .noBounds
    | first :: rest => .ok (andAll registry first rest)
  match range.low, range.high with
  | some low, some high =>
      if low.inclusive && high.inclusive && decide (low.value ≠ minimum) &&
          decide (high.value ≠ maximum) then
        .ok (makeBetween registry (.column column) (makeIntegralLiteral column low.value)
          (makeIntegralLiteral column high.value))
      else conjunction
  | _, _ => conjunction

/-- The lowest and the highest value of the first range.
Source: `ExprSimplifier.cpp` `nonNullDomainToFilter`, `minimum` and `maximum`. -/
def Domain.firstLimits (d : Domain Integral) : Except CheckFailure (Integral × Integral) :=
  match d.ranges with
  | ⟨some low, some high⟩ :: _ => .ok (low.value, high.value)
  | _ => .error .noIntegralDomain

/-- The values of ranges that each hold one.
Source: `ExprSimplifier.cpp` `nonNullDomainToFilter`, `values`. -/
def singleValues (column : Column) (ranges : List (Range Integral)) : List Value :=
  ranges.filterMap fun range =>
    range.low.map fun low => .integral (typedIntegralValue column.type low.value)

/-- Source: `ExprSimplifier.cpp` `nonNullDomainToFilter`. -/
def nonNullDomainToFilter (column : Column) (domain nonNullValues : Domain Integral) :
    Except CheckFailure Expr :=
  if domain.ranges.all Range.isSingleValue then
    match singleValues column domain.ranges with
    | [] => .error .noValues
    | values => .ok (makeIn registry (.column column) values)
  else do
    let limits ← nonNullValues.firstLimits
    match ← domain.ranges.mapM (rangeToFilter registry column limits.1 limits.2) with
    | [] => .error .noDisjuncts
    | first :: rest => .ok (orAll registry first rest)

/-- The condition on the values that are not NULL.
Source: `ExprSimplifier.cpp` `domainToFilter`, `nonNullFilter`. -/
def nonNullFilter (column : Column) (nonNullResult nonNullValues : Domain Integral) :
    Except CheckFailure (Option Expr) :=
  if nonNullResult.same nonNullValues then
    .ok (some (makeNot registry (makeIsNull registry (.column column))))
  else if nonNullResult.isNone then .ok none
  else
    let excluded := nonNullValues.subtract nonNullResult
    if excluded.ranges.length < nonNullResult.ranges.length then
      (nonNullDomainToFilter registry column excluded nonNullValues).map fun filter =>
        some (makeNot registry filter)
    else (nonNullDomainToFilter registry column nonNullResult nonNullValues).map some

/-- The condition a domain stands for, none where everything is accepted.
Source: `ExprSimplifier.cpp` `domainToFilter`. -/
def domainToFilter (column : Column) (domain : Domain Integral) :
    Except CheckFailure (Option Expr) :=
  match integralTypeDomain column.type with
  | none => .error .noIntegralDomain
  | some nonNullValues =>
      let allValues := nonNullValues.unite .onlyNull
      let domain := domain.intersect allValues
      if domain.same allValues then .ok none
      else
        (nonNullFilter registry column (domain.intersect .notNull) nonNullValues).map
          fun nonNullFilter =>
            if domain.nullsAllowed then
              match nonNullFilter with
              | none => some (makeIsNull registry (.column column))
              | some filter =>
                  some (makeOr registry (makeIsNull registry (.column column)) filter)
            else nonNullFilter

/-! ### Truth values that test a value -/

/-- A truth value that says whether an integer has a property, and is unknown of NULL. -/
def Tests (value : Value) (P : Integral → Prop) (truth : Truth) : Prop :=
  match value with
  | .integral v => (truth = some true ↔ P v) ∧ (truth = some false ↔ ¬ P v)
  | _ => truth = none

section

variable {w : Value} {P Q : Integral → Prop} {s t : Truth}

lemma Tests.congr (h : Tests w P t) (hPQ : ∀ v, w = .integral v → (P v ↔ Q v)) : Tests w Q t := by
  cases w with
  | integral v => exact ⟨h.1.trans (hPQ v rfl), h.2.trans (not_congr (hPQ v rfl))⟩
  | _ => exact h

lemma Tests.and (hs : Tests w P s) (ht : Tests w Q t) : Tests w (fun v => P v ∧ Q v) (s.and t) := by
  cases w with
  | integral v =>
      refine ⟨?_, ?_⟩
      · rw [Truth.and_eq_true, hs.1, ht.1]
      · rw [Truth.and_eq_false, hs.2, ht.2, not_and_or]
  | _ =>
      rw [show s = none from hs, show t = none from ht]
      rfl

lemma Tests.or (hs : Tests w P s) (ht : Tests w Q t) : Tests w (fun v => P v ∨ Q v) (s.or t) := by
  cases w with
  | integral v =>
      refine ⟨?_, ?_⟩
      · rw [Truth.or_eq_true, hs.1, ht.1]
      · rw [Truth.or_eq_false, hs.2, ht.2, not_or]
  | _ =>
      rw [show s = none from hs, show t = none from ht]
      rfl

lemma Tests.not (ht : Tests w P t) : Tests w (fun v => ¬ P v) t.not := by
  cases w with
  | integral v =>
      refine ⟨?_, ?_⟩
      · rw [Truth.not_eq_true, ht.2]
      · rw [Truth.not_eq_false, ht.1, not_not]
  | _ =>
      rw [show t = none from ht]
      rfl

lemma Tests.eq_true (ht : Tests w P t) : t = some true ↔ ∃ v, w = .integral v ∧ P v := by
  cases w with
  | integral v => simpa using ht.1
  | _ =>
      rw [show t = none from ht]
      simp

end

/-! ### Conditions that test a column -/

section

variable {engine : Engine} {registry : Registry} {column : Column} {limits : Integral × Integral}

variable (engine column limits) in
/-- A condition that tests a column within its limits. -/
structure FilterOf (P : Integral → Prop) (e : Expr) : Prop where
  condition : Condition e
  backed : e.backed ⊆ column.type.backed
  tests : ∀ row, (row column).InLimits limits → Tests (row column) P (engine.eval row e).truth

namespace FilterOf

variable {P Q : Integral → Prop} {a b : Expr}

lemma stands (h : FilterOf engine column limits P a) :
    Stands engine column.type.backed (fun row => (engine.eval row a).truth) a :=
  h.condition.stands h.backed

lemma of_stands {truth : Row → Truth} (h : Stands engine column.type.backed truth a)
    (htests : ∀ row, (row column).InLimits limits → Tests (row column) P (truth row)) :
    FilterOf engine column limits P a :=
  ⟨h.condition, h.backed, fun row hrow => h.truth row ▸ htests row hrow⟩

lemma congr (h : FilterOf engine column limits P a)
    (hPQ : ∀ v, limits.1 ≤ v → v ≤ limits.2 → (P v ↔ Q v)) :
    FilterOf engine column limits Q a := by
  refine ⟨h.condition, h.backed, fun row hrow => (h.tests row hrow).congr fun v hv => ?_⟩
  have hlimits : Value.InLimits limits (.integral v) := hv ▸ hrow
  exact hPQ v hlimits.1 hlimits.2

lemma and (hsound : registry.Sound engine) (ha : FilterOf engine column limits P a)
    (hb : FilterOf engine column limits Q b) :
    FilterOf engine column limits (fun v => P v ∧ Q v) (makeAnd registry a b) :=
  of_stands (stands_makeAnd hsound ha.stands hb.stands) fun row hrow =>
    (ha.tests row hrow).and (hb.tests row hrow)

lemma or (hsound : registry.Sound engine) (ha : FilterOf engine column limits P a)
    (hb : FilterOf engine column limits Q b) :
    FilterOf engine column limits (fun v => P v ∨ Q v) (makeOr registry a b) :=
  of_stands (stands_makeOr hsound ha.stands hb.stands) fun row hrow =>
    (ha.tests row hrow).or (hb.tests row hrow)

lemma not (hsound : registry.Sound engine) (ha : FilterOf engine column limits P a) :
    FilterOf engine column limits (fun v => ¬ P v) (makeNot registry a) :=
  of_stands (stands_makeNot hsound ha.stands) fun row hrow => (ha.tests row hrow).not

/-- A disjunction, left to right. -/
lemma orAll {α : Type} {R : α → Integral → Prop} (hsound : registry.Sound engine) {l : List α}
    {rest : List Expr} (hrest : List.Forall₂ (fun r e => FilterOf engine column limits (R r) e) l rest) :
    ∀ {P : Integral → Prop} {first : Expr}, FilterOf engine column limits P first →
      FilterOf engine column limits (fun v => P v ∨ ∃ r ∈ l, R r v)
        (orAll registry first rest) := by
  induction hrest with
  | nil => exact fun hfirst => hfirst.congr fun v _ _ => by simp
  | cons hr _ ih =>
      exact fun hfirst => (ih (hfirst.or hsound hr)).congr fun v _ _ => by simp [or_assoc]

end FilterOf

lemma typedIntegralValue_eq (hlimits : column.type.numericLimits = some limits) {value : Integral}
    (hlow : limits.1 ≤ value) (hhigh : value ≤ limits.2) :
    typedIntegralValue column.type value = value := by
  apply Subtype.ext
  unfold typedIntegralValue
  have hlow' : limits.1.val ≤ value.val := hlow
  have hhigh' : value.val ≤ limits.2.val := hhigh
  generalize column.type = type at hlimits ⊢
  apply Int.bmod_eq_of_le
  all_goals
    cases type <;> cases hlimits <;> simp only [SqlType.cppSizeInBytes] at hlow' hhigh' ⊢ <;> omega

lemma relation_order {type : SqlType} (horder : StrictMono (engine.order type))
    (name : FunctionName) (a b : Integral) :
    relation name (engine.order type a) (engine.order type b) = relation name a.val b.val := by
  cases name <;>
    simp [relation, horder.lt_iff_lt, horder.le_iff_le, horder.injective.eq_iff, Subtype.ext_iff]

lemma eval_column (hlimits : column.type.numericLimits = some limits) (row : Row) :
    engine.eval row (.column column) = row column := by
  rw [Engine.eval, conform_of_isIntegral]
  rw [← isSome_numericLimits, hlimits]
  rfl

lemma eval_integralLiteral (hlimits : column.type.numericLimits = some limits) (row : Row)
    {value : Integral} (hlow : limits.1 ≤ value) (hhigh : value ≤ limits.2) :
    engine.eval row (makeIntegralLiteral column value) = .integral value := by
  rw [makeIntegralLiteral, Engine.eval, conform_of_isIntegral, typedIntegralValue_eq hlimits hlow hhigh]
  rw [← isSome_numericLimits, hlimits]
  rfl

/-- A comparison of the column with an integer. -/
lemma tests_compareValues (horder : StrictMono (engine.order column.type)) (name : FunctionName)
    {w : Value} (hw : w.InLimits limits) (b : Integral) :
    Tests w (fun v => relation name v.val b.val = true)
      (engine.compareValues name column.type w (.integral b)) := by
  cases w with
  | null => exact compareValues_null_left _ _
  | integral v => simp [Tests, compareValues_integral, relation_order horder]
  | boolean b => cases hw
  | text t => cases hw
  | list elements => cases hw

lemma filterOf_makeComparison (hsound : registry.Sound engine)
    (horder : StrictMono (engine.order column.type))
    (hlimits : column.type.numericLimits = some limits) {name : FunctionName}
    (hname : name = .equality ∨ name = .lt ∨ name = .lte ∨ name = .gt ∨ name = .gte)
    {b : Integral} (hlow : limits.1 ≤ b) (hhigh : b ≤ limits.2) :
    FilterOf engine column limits (fun v => relation name v.val b.val = true)
      (makeComparison registry name (.column column) (makeIntegralLiteral column b)) := by
  have hcolumn : (Expr.column column).Typed := trivial
  have hliteral : (makeIntegralLiteral column b).Typed := trivial
  refine .of_stands (stands_makeComparison hsound hname hcolumn hliteral rfl
    (List.Subset.refl _) (List.Subset.refl _)) fun row hrow => ?_
  rw [eval_column hlimits, eval_integralLiteral hlimits row hlow hhigh]
  exact tests_compareValues horder name hrow b

lemma filterOf_makeBetween (hsound : registry.Sound engine)
    (horder : StrictMono (engine.order column.type))
    (hlimits : column.type.numericLimits = some limits) {low high : Integral}
    (hlow : limits.1 ≤ low) (hlow' : low ≤ limits.2) (hhigh : limits.1 ≤ high)
    (hhigh' : high ≤ limits.2) :
    FilterOf engine column limits (fun v => low ≤ v ∧ v ≤ high)
      (makeBetween registry (.column column) (makeIntegralLiteral column low)
        (makeIntegralLiteral column high)) := by
  have hcolumn : (Expr.column column).Typed := trivial
  have hliteral : ∀ b, (makeIntegralLiteral column b).Typed := fun _ => trivial
  refine .of_stands (stands_makeBetween hsound hcolumn (hliteral low) (hliteral high) rfl rfl
    (List.Subset.refl _) (List.Subset.refl _) (List.Subset.refl _)) fun row hrow => ?_
  rw [eval_column hlimits, eval_integralLiteral hlimits row hlow hlow',
    eval_integralLiteral hlimits row hhigh hhigh']
  refine ((tests_compareValues horder _ hrow low).and
    (tests_compareValues horder _ hrow high)).congr fun v _ => ?_
  simp [relation]

lemma filterOf_makeIn (hsound : registry.Sound engine)
    (horder : StrictMono (engine.order column.type))
    (hlimits : column.type.numericLimits = some limits) (values : List Integral) :
    FilterOf engine column limits (· ∈ values)
      (makeIn registry (.column column) (values.map Value.integral)) := by
  have hcolumn : (Expr.column column).Typed := trivial
  have hintegral : column.type.isIntegral = true := by
    rw [← isSome_numericLimits, hlimits]
    rfl
  refine .of_stands (stands_makeIn hsound (values.map Value.integral) hcolumn
    (List.Subset.refl _)) fun row hrow => ?_
  have hconform : (values.map Value.integral).map (Value.conform (Expr.column column).type) =
      values.map Value.integral := by
    show (values.map Value.integral).map (Value.conform column.type) = values.map Value.integral
    rw [List.map_congr_left fun v _ => conform_of_isIntegral hintegral v, List.map_id']
  rw [eval_column hlimits, hconform, Engine.isIn]
  generalize row column = w at hrow
  cases w with
  | null => exact if_pos rfl
  | integral v =>
      have hequal : ∀ b, engine.compareValues .equality column.type (.integral v) (.integral b) =
          some (decide (v = b)) := by
        intro b
        rw [compareValues_integral, relation_order horder]
        simp [relation, Subtype.ext_iff]
      have helements : (values.map Value.integral).map
          (engine.compareValues .equality (Expr.column column).type (.integral v)) =
          values.map fun b => some (decide (v = b)) := by
        rw [List.map_map]
        exact List.map_congr_left fun b _ => hequal b
      rw [if_neg (by simp), helements]
      refine ⟨?_, ?_⟩
      · simp [Truth.any_eq_true]
      · rw [Truth.any_eq_false]
        refine ⟨fun h hv => ?_, ?_⟩
        · simpa using h _ (List.mem_map_of_mem hv)
        · rintro hv t ht
          obtain ⟨b, hb, rfl⟩ := List.mem_map.mp ht
          have hne : v ≠ b := fun heq => hv (heq ▸ hb)
          simp [hne]
  | boolean b => cases hrow
  | text t => cases hrow
  | list elements => cases hrow

end

/-! ### Ranges -/

lemma toInterval_injective : Function.Injective (Range.toInterval (α := Integral)) := by
  have hlow : ∀ a b : Option (Bound Integral), lowCut a = lowCut b → a = b := by
    rintro (- | ⟨x, i⟩) (- | ⟨y, j⟩) h
    · rfl
    · exact absurd h (bot_lt_cutAt _ _).ne
    · exact absurd h (bot_lt_cutAt _ _).ne'
    · have hxy : x = y ∧ i = j := by simpa [lowCut, cutAt_inj] using h
      rw [hxy.1, hxy.2]
  have hhigh : ∀ a b : Option (Bound Integral), highCut a = highCut b → a = b := by
    rintro (- | ⟨x, i⟩) (- | ⟨y, j⟩) h
    · rfl
    · exact absurd h (cutAt_lt_top _ _).ne'
    · exact absurd h (cutAt_lt_top _ _).ne
    · have hxy : x = y ∧ i = j := by simpa [highCut, cutAt_inj] using h
      rw [hxy.1, hxy.2]
  rintro ⟨low, high⟩ ⟨low', high'⟩ h
  injection h with h h'
  have hlowEq : low = low' := hlow _ _ h
  have hhighEq : high = high' := hhigh _ _ h'
  rw [hlowEq, hhighEq]

/-- The whole range of a type. -/
def fullRange (limits : Integral × Integral) : Range Integral :=
  ⟨some ⟨limits.1, true⟩, some ⟨limits.2, true⟩⟩

/-- A range within limits has two bounds, and they are within the limits. -/
lemma bounds_of_limited {limits : Integral × Integral} {r : Range Integral}
    (hlow : cutAt limits.1 false ≤ r.toInterval.low)
    (hhigh : r.toInterval.high ≤ cutAt limits.2 true)
    (hne : r.toInterval.low < r.toInterval.high) :
    ∃ low high, r = ⟨some low, some high⟩ ∧
      (limits.1 ≤ low.value ∧ low.value ≤ limits.2) ∧
      (limits.1 ≤ high.value ∧ high.value ≤ limits.2) := by
  have hvalue : ∀ x above, cutAt limits.1 false < cutAt x above → limits.1 ≤ x := by
    intro x above h
    rcases cutAt_lt_cutAt.mp h with h | ⟨rfl, -⟩
    · exact h.le
    · exact le_rfl
  have hvalue' : ∀ x above, cutAt x above < cutAt limits.2 true → x ≤ limits.2 := by
    intro x above h
    rcases cutAt_lt_cutAt.mp h with h | ⟨rfl, -⟩
    · exact h.le
    · exact le_rfl
  rcases r with ⟨- | low, high⟩
  · exact absurd hlow (bot_lt_cutAt _ _).not_ge
  rcases high with - | high
  · exact absurd hhigh (cutAt_lt_top _ _).not_ge
  refine ⟨low, high, rfl, ⟨?_, hvalue' _ _ (hne.trans_le hhigh)⟩, hvalue _ _ (hlow.trans_lt hne), ?_⟩
  · rcases hlow.eq_or_lt with h | h
    · exact (cutAt_inj.mp h).1.le
    · exact hvalue _ _ h
  · rcases hhigh.eq_or_lt with h | h
    · exact (cutAt_inj.mp h).1.le
    · exact hvalue' _ _ h

/-- A value is in a range. -/
def Range.Contains (r : Range Integral) (v : Integral) : Prop := r.toInterval.Holds (Domain.position v)

/-- The bounds of a range. -/
lemma contains_iff {low high : Bound Integral} {v : Integral} :
    Range.Contains ⟨some low, some high⟩ v ↔
      (if low.inclusive then low.value ≤ v else low.value < v) ∧
        (if high.inclusive then v ≤ high.value else v < high.value) := by
  rcases low with ⟨x, i⟩
  rcases high with ⟨y, j⟩
  cases i <;> cases j <;>
    simp [Range.Contains, Range.toInterval, Segment.Holds, lowCut, highCut]

section

variable {engine : Engine} {registry : Registry} {column : Column} {limits : Integral × Integral}

/-- A low bound. -/
lemma filterOf_lowBound (hsound : registry.Sound engine)
    (horder : StrictMono (engine.order column.type))
    (hlimits : column.type.numericLimits = some limits) {low : Bound Integral}
    (hlow : limits.1 ≤ low.value ∧ low.value ≤ limits.2) :
    (low = ⟨limits.1, true⟩ ∧ rangeBoundToFilter registry column low true limits.1 = none) ∨
      ∃ e, rangeBoundToFilter registry column low true limits.1 = some e ∧
        FilterOf engine column limits
          (fun v => if low.inclusive then low.value ≤ v else low.value < v) e := by
  rcases low with ⟨x, - | -⟩
  · refine .inr ⟨_, rfl, ?_⟩
    refine (filterOf_makeComparison hsound horder hlimits (by simp) hlow.1 hlow.2).congr
      fun v _ _ => ?_
    simp [relation]
  · unfold rangeBoundToFilter
    by_cases hlimit : x = limits.1
    · exact .inl ⟨by rw [hlimit], by simp [hlimit]⟩
    · refine .inr ⟨_, if_neg (by simp [hlimit]), ?_⟩
      refine (filterOf_makeComparison hsound horder hlimits (by simp) hlow.1 hlow.2).congr
        fun v _ _ => ?_
      simp [relation]

/-- A high bound. -/
lemma filterOf_highBound (hsound : registry.Sound engine)
    (horder : StrictMono (engine.order column.type))
    (hlimits : column.type.numericLimits = some limits) {high : Bound Integral}
    (hhigh : limits.1 ≤ high.value ∧ high.value ≤ limits.2) :
    (high = ⟨limits.2, true⟩ ∧ rangeBoundToFilter registry column high false limits.2 = none) ∨
      ∃ e, rangeBoundToFilter registry column high false limits.2 = some e ∧
        FilterOf engine column limits
          (fun v => if high.inclusive then v ≤ high.value else v < high.value) e := by
  rcases high with ⟨x, - | -⟩
  · refine .inr ⟨_, rfl, ?_⟩
    refine (filterOf_makeComparison hsound horder hlimits (by simp) hhigh.1 hhigh.2).congr
      fun v _ _ => ?_
    simp [relation]
  · unfold rangeBoundToFilter
    by_cases hlimit : x = limits.2
    · exact .inl ⟨by rw [hlimit], by simp [hlimit]⟩
    · refine .inr ⟨_, if_neg (by simp [hlimit]), ?_⟩
      refine (filterOf_makeComparison hsound horder hlimits (by simp) hhigh.1 hhigh.2).congr
        fun v _ _ => ?_
      simp [relation]

/-- The condition of a range that is not the whole range of the type. -/
lemma filterOf_rangeToFilter (hsound : registry.Sound engine)
    (horder : StrictMono (engine.order column.type))
    (hlimits : column.type.numericLimits = some limits) {r : Range Integral}
    (hlow : cutAt limits.1 false ≤ r.toInterval.low)
    (hhigh : r.toInterval.high ≤ cutAt limits.2 true)
    (hne : r.toInterval.low < r.toInterval.high) (hfull : r ≠ fullRange limits) :
    ∃ e, rangeToFilter registry column limits.1 limits.2 r = .ok e ∧
      FilterOf engine column limits r.Contains e := by
  obtain ⟨low, high, rfl, hlow, hhigh⟩ := bounds_of_limited hlow hhigh hne
  unfold rangeToFilter
  dsimp only [Option.bind_some]
  split
  case isTrue hbetween =>
    simp only [Bool.and_eq_true, decide_eq_true_eq] at hbetween
    refine ⟨_, rfl, (filterOf_makeBetween hsound horder hlimits hlow.1 hlow.2 hhigh.1
      hhigh.2).congr fun v _ _ => ?_⟩
    rw [contains_iff, if_pos hbetween.1.1.1, if_pos hbetween.1.1.2]
  case isFalse =>
    rcases filterOf_lowBound hsound horder hlimits hlow with ⟨hlowEq, hlowNone⟩ | ⟨e, he, hlowFilter⟩
    · rcases filterOf_highBound hsound horder hlimits hhigh with
        ⟨hhighEq, -⟩ | ⟨f, hf, hhighFilter⟩
      · exact absurd (by rw [hlowEq, hhighEq]; rfl) hfull
      · rw [hlowNone, hf]
        refine ⟨f, rfl, hhighFilter.congr fun v hv _ => ?_⟩
        rw [contains_iff, hlowEq, if_pos rfl, and_iff_right hv]
    · rcases filterOf_highBound hsound horder hlimits hhigh with
        ⟨hhighEq, hhighNone⟩ | ⟨f, hf, hhighFilter⟩
      · rw [he, hhighNone]
        refine ⟨e, rfl, hlowFilter.congr fun v _ hv => ?_⟩
        rw [contains_iff, hhighEq]
        exact (and_iff_left hv).symm
      · rw [he, hf]
        refine ⟨makeAnd registry e f, rfl, (hlowFilter.and hsound hhighFilter).congr fun v _ _ => ?_⟩
        exact contains_iff.symm

end

/-! ### Domains -/

lemma exists_of_all_isSingleValue : {ranges : List (Range Integral)} →
    ranges.all Range.isSingleValue = true → ∃ values : List Integral,
      ranges = values.map Range.singleValue
  | [], _ => ⟨[], rfl⟩
  | r :: ranges, h => by
      rw [List.all_cons, Bool.and_eq_true] at h
      obtain ⟨values, rfl⟩ := exists_of_all_isSingleValue h.2
      obtain ⟨x, rfl⟩ : ∃ x, r = .singleValue x := by
        rcases r with ⟨- | ⟨x, i⟩, - | ⟨y, j⟩⟩ <;> simp [Range.isSingleValue] at h
        obtain ⟨⟨⟨rfl, rfl⟩, rfl⟩, -⟩ := h
        exact ⟨x, rfl⟩
      exact ⟨x :: values, rfl⟩

section

variable {engine : Engine} {registry : Registry} {column : Column} {limits : Integral × Integral}

/-- A domain within the limits of the type, neither empty nor everything, is rendered. -/
lemma filterOf_nonNullDomainToFilter (hsound : registry.Sound engine)
    (horder : StrictMono (engine.order column.type))
    (hlimits : column.type.numericLimits = some limits) {domain nonNullValues : Domain Integral}
    (hranges : nonNullValues.ranges = [fullRange limits]) (hlimited : domain.LimitedTo limits)
    (hne : domain.ranges ≠ []) (hfull : fullRange limits ∉ domain.ranges) :
    ∃ e, nonNullDomainToFilter registry column domain nonNullValues = .ok e ∧
      FilterOf engine column limits (fun v => domain.Holds (Domain.position v)) e := by
  have hrange : ∀ r ∈ domain.ranges, cutAt limits.1 false ≤ r.toInterval.low ∧
      r.toInterval.high ≤ cutAt limits.2 true ∧ r.toInterval.low < r.toInterval.high := by
    intro r hr
    have hmem : r.toInterval ∈ intervals domain.ranges := List.mem_map_of_mem hr
    exact ⟨(hlimited _ hmem).1, (hlimited _ hmem).2, domain.separated.nonempty _ hmem⟩
  unfold nonNullDomainToFilter
  split
  case isTrue hsingle =>
    obtain ⟨values, hvalues⟩ := exists_of_all_isSingleValue hsingle
    have htyped : singleValues column domain.ranges = values.map Value.integral := by
      have hvalue : ∀ v ∈ values, typedIntegralValue column.type v = v := by
        intro v hv
        obtain ⟨h, h', hlt⟩ := hrange (.singleValue v) (hvalues ▸ List.mem_map_of_mem hv)
        obtain ⟨low, high, heq, hlow, -⟩ := bounds_of_limited h h' hlt
        have hv : v = low.value := by
          injection heq with heq
          rw [← Option.some_inj.mp heq]
        rw [hv]
        exact typedIntegralValue_eq hlimits hlow.1 hlow.2
      rw [singleValues, hvalues, List.filterMap_map, ← List.filterMap_eq_map]
      exact List.filterMap_congr fun v hv => by simp [Range.singleValue, hvalue v hv]
    rw [htyped]
    have hcover : ∀ v, v ∈ values ↔ domain.Holds (Domain.position v) := by
      intro v
      unfold Domain.Holds
      rw [hvalues, Domain.covers_singleValues_position]
    cases values with
    | nil => exact absurd hvalues hne
    | cons v values =>
        exact ⟨_, rfl, (filterOf_makeIn hsound horder hlimits (v :: values)).congr
          fun v _ _ => hcover v⟩
  case isFalse =>
    have hlimitsOf : nonNullValues.firstLimits = .ok limits := by
      rw [Domain.firstLimits, hranges]
      rfl
    obtain ⟨filters, hfilters, hforall⟩ := Outcome.exists_mapM fun r hr =>
      filterOf_rangeToFilter hsound horder hlimits (hrange r hr).1 (hrange r hr).2.1
        (hrange r hr).2.2 fun heq => hfull (heq ▸ hr)
    rw [hlimitsOf]
    show ∃ e, (do
      match ← domain.ranges.mapM (rangeToFilter registry column limits.1 limits.2) with
      | [] => .error .noDisjuncts
      | first :: rest => .ok (orAll registry first rest)) = Except.ok e ∧ _
    rw [hfilters]
    have hcover : ∀ v, domain.Holds (Domain.position v) ↔ ∃ r ∈ domain.ranges, r.Contains v := by
      intro v
      exact ⟨fun ⟨i, hi, hholds⟩ => by
        obtain ⟨r, hr, rfl⟩ := List.mem_map.mp hi
        exact ⟨r, hr, hholds⟩, fun ⟨r, hr, hholds⟩ => ⟨_, List.mem_map_of_mem hr, hholds⟩⟩
    revert hforall hne hcover
    generalize domain.Holds = holds
    generalize domain.ranges = ranges
    intro hne hforall hcover
    cases hforall with
    | nil => exact absurd rfl hne
    | @cons r first ranges rest hfirst hrest =>
        refine ⟨orAll registry first rest, rfl, (hfirst.orAll hsound hrest).congr fun v _ _ => ?_⟩
        rw [hcover, List.exists_mem_cons_iff]

/-- A domain within the limits of the type. -/
lemma ranges_eq_of_covers {domain nonNullValues : Domain Integral}
    (hlimited : domain.LimitedTo limits) (hlt : limits.1 ≤ limits.2)
    (hranges : nonNullValues.ranges = [fullRange limits])
    (hall : ∀ U, Domain.Proper U → nonNullValues.Holds U → domain.Holds U) :
    domain.ranges = nonNullValues.ranges := by
  have hcut : cutAt limits.1 false < cutAt limits.2 true := by
    rcases hlt.eq_or_lt with h | h
    · exact cutAt_lt_cutAt.mpr (.inr ⟨h, rfl⟩)
    · exact cutAt_lt_cutAt.mpr (.inl h)
  have hfull : intervals domain.ranges = [(fullRange limits).toInterval] := by
    refine eq_singleton_of_covers hcut domain.separated hlimited fun U hlow hhigh => ?_
    refine hall U ⟨U.lower bot_le hlow, fun htop => hhigh (U.lower le_top htop)⟩ ?_
    refine ⟨(fullRange limits).toInterval, ?_, hlow, hhigh⟩
    rw [hranges]
    exact List.mem_cons_self
  rw [hranges]
  exact List.map_injective_iff.mpr toInterval_injective hfull

lemma limits_le (hlimits : column.type.numericLimits = some limits) : limits.1 ≤ limits.2 := by
  generalize column.type = type at hlimits
  cases type <;> cases hlimits <;> decide

/-- The condition on the values that are not NULL. -/
lemma accepts_nonNullFilter (hsound : registry.Sound engine)
    (horder : StrictMono (engine.order column.type))
    (hlimits : column.type.numericLimits = some limits)
    {nonNullResult nonNullValues : Domain Integral} (hnulls : nonNullValues.nullsAllowed = false)
    (hranges : nonNullValues.ranges = [fullRange limits])
    (hlimited : nonNullResult.LimitedTo limits) (hnulls' : nonNullResult.nullsAllowed = false) :
    ∃ filter, nonNullFilter registry column nonNullResult nonNullValues = .ok filter ∧
      (filter = none → nonNullResult.ranges = []) ∧
      ∀ e ∈ filter, Condition e ∧ e.backed ⊆ column.type.backed ∧
        ∀ row, (row column).InLimits limits →
          (engine.accepts row e ↔
            ∃ v, row column = .integral v ∧ nonNullResult.Holds (Domain.position v)) := by
  have hvalues : nonNullValues.LimitedTo limits := by
    intro i hi
    rw [hranges, intervals, List.map_singleton, List.mem_singleton] at hi
    rw [hi]
    exact ⟨le_rfl, le_rfl⟩
  have hholds : ∀ v, limits.1 ≤ v → v ≤ limits.2 → nonNullValues.Holds (Domain.position v) := by
    intro v hlow hhigh
    refine ⟨(fullRange limits).toInterval, ?_, ?_⟩
    · rw [hranges]
      exact List.mem_cons_self
    · exact contains_iff.mpr ⟨hlow, hhigh⟩
  have hfilter : ∀ {e}, FilterOf engine column limits
      (fun v => nonNullResult.Holds (Domain.position v)) e → Condition e ∧
        e.backed ⊆ column.type.backed ∧ ∀ row, (row column).InLimits limits →
          (engine.accepts row e ↔
            ∃ v, row column = .integral v ∧ nonNullResult.Holds (Domain.position v)) :=
    fun h => ⟨h.condition, h.backed, fun row hrow => (h.tests row hrow).eq_true⟩
  unfold nonNullFilter
  split
  case isTrue hsame =>
    refine ⟨_, rfl, (fun hfalse => by cases hfalse), ?_⟩
    rintro e ⟨⟩
    have hcolumn : (Expr.column column).Typed := trivial
    have hisNull := stands_makeIsNull hsound hcolumn (List.Subset.refl _)
    have hnot := stands_makeNot hsound hisNull
    refine ⟨hnot.condition, hnot.backed, fun row hrow => ?_⟩
    have hsame' : nonNullResult.ranges = nonNullValues.ranges := by
      simpa [Domain.same, hnulls, hnulls'] using hsame
    have hall : ∀ v, limits.1 ≤ v → v ≤ limits.2 → nonNullResult.Holds (Domain.position v) := by
      intro v hlow hhigh
      unfold Domain.Holds
      rw [hsame']
      exact hholds v hlow hhigh
    unfold Engine.accepts
    rw [hnot.truth, eval_column hlimits]
    generalize row column = w at hrow
    cases w with
    | null => simp
    | integral v => simp [hall v hrow.1 hrow.2]
    | boolean b => cases hrow
    | text t => cases hrow
    | list elements => cases hrow
  case isFalse hsame =>
    have hdiffer : nonNullResult.ranges ≠ nonNullValues.ranges := by
      simpa [Domain.same, hnulls, hnulls'] using hsame
    split
    case isTrue hnone =>
      refine ⟨none, rfl, fun _ => ?_, fun _ he => by cases he⟩
      simpa [Domain.isNone, hnulls'] using hnone
    case isFalse hnone =>
      have hne : nonNullResult.ranges ≠ [] := by simpa [Domain.isNone, hnulls'] using hnone
      dsimp only
      split
      case isFalse =>
        have hfull : fullRange limits ∉ nonNullResult.ranges := by
          intro hmem
          refine hdiffer (ranges_eq_of_covers hlimited (limits_le hlimits) hranges ?_)
          rintro U - ⟨i, hi, hi'⟩
          rw [hranges, intervals, List.map_singleton, List.mem_singleton] at hi
          exact ⟨i, hi ▸ List.mem_map_of_mem hmem, hi'⟩
        obtain ⟨e, he, hfilterOf⟩ := filterOf_nonNullDomainToFilter hsound horder hlimits hranges
          hlimited hne hfull
        rw [he]
        refine ⟨some e, rfl, (fun hfalse => by cases hfalse), ?_⟩
        rintro e ⟨⟩
        exact hfilter hfilterOf
      case isTrue =>
        have hexcluded : ∀ U, Domain.Proper U →
            ((nonNullValues.subtract nonNullResult).Holds U ↔
              nonNullValues.Holds U ∧ ¬ nonNullResult.Holds U) :=
          fun U hU => Domain.holds_subtract hU
        have hlimited' : (nonNullValues.subtract nonNullResult).LimitedTo limits :=
          Domain.within_subtract hvalues
        have hne' : (nonNullValues.subtract nonNullResult).ranges ≠ [] := by
          intro hnil
          refine hdiffer (ranges_eq_of_covers hlimited (limits_le hlimits) hranges ?_)
          intro U hU hvaluesU
          by_contra hresult
          obtain ⟨i, hi, -⟩ := (hexcluded U hU).mpr ⟨hvaluesU, hresult⟩
          rw [hnil] at hi
          cases hi
        have hfull : fullRange limits ∉ (nonNullValues.subtract nonNullResult).ranges := by
          intro hmem
          obtain ⟨U, hlow, hhigh, hresult⟩ := Domain.exists_holds hlimited hne
          have hU : Domain.Proper U :=
            ⟨U.lower bot_le hlow, fun htop => hhigh (U.lower le_top htop)⟩
          have hholdsU : (nonNullValues.subtract nonNullResult).Holds U :=
            ⟨_, List.mem_map_of_mem hmem, hlow, hhigh⟩
          exact ((hexcluded U hU).mp hholdsU).2 hresult
        obtain ⟨e, he, hfilterOf⟩ := filterOf_nonNullDomainToFilter hsound horder hlimits hranges
          hlimited' hne' hfull
        rw [he]
        refine ⟨some (makeNot registry e), rfl, (fun hfalse => by cases hfalse), ?_⟩
        rintro e' ⟨⟩
        refine hfilter ((hfilterOf.not hsound).congr fun v hlow hhigh => ?_)
        rw [hexcluded _ (Domain.proper_position v), and_iff_right (hholds v hlow hhigh), not_not]

/-- A domain within the limits of the type is rendered as a condition met by the values it accepts. -/
theorem accepts_domainToFilter (hsound : registry.Sound engine)
    (horder : StrictMono (engine.order column.type))
    (hlimits : column.type.numericLimits = some limits) {domain : Domain Integral}
    (hlimited : domain.LimitedTo limits) (hnone : domain.isNone = false) :
    ∃ filter, domainToFilter registry column domain = .ok filter ∧
      ∀ row, (row column).InLimits limits →
        ((∀ e ∈ filter, engine.accepts row e) ↔ domain.Accepts (row column)) := by
  obtain ⟨nonNullValues, hvalues⟩ : ∃ d, integralTypeDomain column.type = some d :=
    ⟨_, by rw [integralTypeDomain, hlimits, Option.map_some]⟩
  obtain ⟨hnulls, hranges⟩ := ranges_integralTypeDomain hlimits hvalues
  have hvalid : nonNullDomain column = nonNullValues := by
    rw [nonNullDomain, hvalues, Option.getD_some]
  have hall : ∀ {w : Value}, w.InLimits limits → (nonNullValues.unite .onlyNull).Accepts w := by
    intro w hw
    rw [accepts_unite, accepts_onlyNull, ← hvalid, accepts_nonNullDomain hlimits hw]
    exact (em _).symm
  have hsame : ∀ {w : Value}, w.InLimits limits →
      ((domain.intersect (nonNullValues.unite .onlyNull)).Accepts w ↔ domain.Accepts w) := by
    intro w hw
    rw [accepts_intersect, and_iff_left (hall hw)]
  have hnullsAllowed : (domain.intersect (nonNullValues.unite .onlyNull)).nullsAllowed =
      domain.nullsAllowed := by
    simp [Domain.intersect, Domain.unite, Domain.onlyNull]
  unfold domainToFilter
  rw [hvalues]
  dsimp only
  split
  case isTrue heq =>
    refine ⟨none, rfl, fun row hrow => iff_of_true (fun _ he => by cases he) ((hsame hrow).mp ?_)⟩
    have heq' := hall hrow
    simp only [Domain.same, Bool.and_eq_true, beq_iff_eq, decide_eq_true_eq] at heq
    generalize row column = w at heq' ⊢
    cases w with
    | null => exact heq.1.trans heq'
    | integral v =>
        show Covers (intervals (domain.intersect _).ranges) _
        rw [heq.2]
        exact heq'
    | boolean b => exact heq'
    | text t => exact heq'
    | list elements => exact heq'
  case isFalse =>
    have hlimited' : ((domain.intersect (nonNullValues.unite .onlyNull)).intersect
        .notNull).LimitedTo limits :=
      Domain.within_intersect (.inl (Domain.within_intersect (.inl hlimited)))
    have hnulls' : ((domain.intersect (nonNullValues.unite .onlyNull)).intersect
        .notNull).nullsAllowed = false := by
      simp [Domain.intersect, Domain.notNull]
    obtain ⟨filter, hfilter, hempty, hcondition⟩ := accepts_nonNullFilter hsound horder hlimits
      hnulls hranges hlimited' hnulls'
    rw [hfilter]
    have hholds : ∀ v, limits.1 ≤ v → v ≤ limits.2 →
        (((domain.intersect (nonNullValues.unite .onlyNull)).intersect .notNull).Holds
          (Domain.position v) ↔ domain.Holds (Domain.position v)) := by
      intro v hlow hhigh
      have hlimits' : Value.InLimits limits (.integral v) := ⟨hlow, hhigh⟩
      rw [Domain.holds_intersect, and_iff_left (Domain.holds_notNull (Domain.proper_position v))]
      exact hsame hlimits'
    have hcolumn : (Expr.column column).Typed := trivial
    have hisNull := stands_makeIsNull hsound hcolumn (List.Subset.refl _)
    have hisNull' : ∀ row, engine.accepts row (makeIsNull registry (.column column)) ↔
        row column = .null := by
      intro row
      unfold Engine.accepts
      rw [hisNull.truth, eval_column hlimits]
      simp
    refine ⟨_, rfl, fun row hrow => ?_⟩
    rw [hnullsAllowed]
    dsimp only
    cases hallowed : domain.nullsAllowed with
    | true =>
        rw [if_pos rfl]
        cases filter with
        | none =>
            simp only [Option.mem_some_iff, forall_eq', hisNull']
            generalize row column = w at hrow ⊢
            cases w with
            | null => exact iff_of_true rfl hallowed
            | integral v =>
                refine iff_of_false (by simp) fun hv => ?_
                obtain ⟨i, hi, -⟩ := (hholds v hrow.1 hrow.2).mpr hv
                rw [hempty rfl] at hi
                cases hi
            | boolean b => cases hrow
            | text t => cases hrow
            | list elements => cases hrow
        | some e =>
            obtain ⟨he, hbacked, haccepts⟩ := hcondition e rfl
            have hor := stands_makeOr hsound hisNull (he.stands hbacked)
            simp only [Option.mem_some_iff, forall_eq']
            have haccepts' : engine.accepts row
                (makeOr registry (makeIsNull registry (.column column)) e) ↔
                row column = .null ∨ engine.accepts row e := by
              unfold Engine.accepts
              rw [hor.truth, Truth.or_eq_true, eval_column hlimits]
              simp
            rw [haccepts', haccepts row hrow]
            generalize row column = w at hrow ⊢
            cases w with
            | null => exact iff_of_true (.inl rfl) hallowed
            | integral v => simpa [Domain.Accepts] using hholds v hrow.1 hrow.2
            | boolean b => cases hrow
            | text t => cases hrow
            | list elements => cases hrow
    | false =>
        rw [if_neg Bool.false_ne_true]
        cases filter with
        | none =>
            have hne : domain.ranges ≠ [] := by simpa [Domain.isNone, hallowed] using hnone
            obtain ⟨U, hlow, hhigh, hU⟩ := Domain.exists_holds hlimited hne
            have hproper : Domain.Proper U :=
              ⟨U.lower bot_le hlow, fun htop => hhigh (U.lower le_top htop)⟩
            have hvaluesU : nonNullValues.Holds U := by
              refine ⟨(fullRange limits).toInterval, ?_, hlow, hhigh⟩
              rw [hranges]
              exact List.mem_cons_self
            have hresult : ((domain.intersect (nonNullValues.unite .onlyNull)).intersect
                .notNull).Holds U := by
              rw [Domain.holds_intersect, Domain.holds_intersect, Domain.holds_unite]
              exact ⟨⟨hU, .inl hvaluesU⟩, Domain.holds_notNull hproper⟩
            obtain ⟨i, hi, -⟩ := hresult
            rw [hempty rfl] at hi
            cases hi
        | some e =>
            obtain ⟨-, -, haccepts⟩ := hcondition e rfl
            simp only [Option.mem_some_iff, forall_eq', haccepts row hrow]
            generalize row column = w at hrow ⊢
            cases w with
            | null => simp [Domain.Accepts, hallowed]
            | integral v => simpa [Domain.Accepts] using hholds v hrow.1 hrow.2
            | boolean b => cases hrow
            | text t => cases hrow
            | list elements => cases hrow

end

end Verax.Filters
