import Mathlib.Data.List.ReduceOption
import Verax.Filters.Domain
import Verax.Filters.Rewriting

/-!
# From a condition to a domain

`exprToDomain` reads what a condition on one column says of it: the values that make the condition
true, or false. The domain of a condition accepts a value exactly when the condition has that truth
value on it, provided the type of the column orders its values as the integers they are stored as.

* `integralTypeDomain`, `domainColumn`, `comparisonDomain`, `exprToDomain`: the functions.
* `eval_of_domainColumn`: a column under widening casts has the value of the column.
* `accepts_exprToDomain`: the domain of a condition; `limitedTo_exprToDomainOf`: it stays within the
  limits of the type of the column.
-/

namespace Verax.Filters

open Lib Lib.Intervals

/-! ### Types with an integral domain -/

namespace SqlType

/-- The least and the greatest value of a type with an integral domain.
Source: `Domain.cpp` `integralTypeDomain`. -/
def numericLimits : SqlType → Option (Integral × Integral)
  | tinyint => some (⟨-2 ^ 7, by decide⟩, ⟨2 ^ 7 - 1, by decide⟩)
  | smallint => some (⟨-2 ^ 15, by decide⟩, ⟨2 ^ 15 - 1, by decide⟩)
  | integer => some (⟨-2 ^ 31, by decide⟩, ⟨2 ^ 31 - 1, by decide⟩)
  | bigint | bigintBacked _ => some (⟨-2 ^ 63, by decide⟩, ⟨2 ^ 63 - 1, by decide⟩)
  | _ => none

/-- The size of a value of a type with an integral domain.
Source: `Type.h` `cppSizeInBytes`. -/
def cppSizeInBytes : SqlType → ℕ
  | tinyint => 1
  | smallint => 2
  | integer => 4
  | _ => 8

end SqlType

/-- Source: `Domain.cpp` `integralTypeDomain`. -/
def integralTypeDomain (type : SqlType) : Option (Domain Integral) :=
  type.numericLimits.map fun limits =>
    (Domain.greaterThanOrEqual limits.1).intersect (.lessThanOrEqual limits.2)

/-! ### Conditions on a column -/

/-- Source: `Domain.cpp` `PredicateResult`. -/
inductive PredicateResult where
  | isTrue
  | isFalse
  deriving DecidableEq

/-- Source: `Domain.cpp` `opposite`. -/
def PredicateResult.opposite : PredicateResult → PredicateResult
  | isTrue => isFalse
  | isFalse => isTrue

/-- The column under casts that widen it.
Source: `Domain.cpp` `domainColumn`. -/
def domainColumn : Expr → Option Column
  | .column c => some c
  | .call name (.cons arg .nil) type =>
      if name = .cast ∨ name = .tryCast then
        (domainColumn arg).filter fun c =>
          (integralTypeDomain c.type).isSome && (integralTypeDomain type).isSome &&
            decide (c.type.cppSizeInBytes ≤ type.cppSizeInBytes)
      else none
  | _ => none

/-- Source: `Domain.cpp` `nonNullDomain`. -/
def nonNullDomain (column : Column) : Domain Integral :=
  (integralTypeDomain column.type).getD .notNull

/-- The integer of a literal, or NULL, where the column has an integral domain.
Source: `Domain.cpp` `normalizeLiteral`. -/
def normalizeLiteral : Value → Option (Option Integral)
  | .null => some none
  | .integral v => some (some v)
  | _ => none

/-- The values that compare with another as a function says.
Source: `Domain.cpp` `comparisonDomain`, `makeTrueValues`. -/
def makeTrueValues : FunctionName → Option (Integral → Domain Integral)
  | .equality => some .singleValue
  | .lt => some .lessThan
  | .lte => some .lessThanOrEqual
  | .gt => some .greaterThan
  | .gte => some .greaterThanOrEqual
  | _ => none

/-- Source: `Domain.cpp` `comparisonDomain`. -/
def comparisonDomain (column : Column) (name : FunctionName) (literal : Value)
    (result : PredicateResult) : Option (Domain Integral) :=
  if name = .distinctFrom then
    (normalizeLiteral literal).map fun value =>
      let nonNullValues := nonNullDomain column
      let equalValues := match value with
        | none => .onlyNull
        | some value => (Domain.singleValue value).intersect nonNullValues
      match result with
      | .isTrue => (nonNullValues.unite .onlyNull).subtract equalValues
      | .isFalse => equalValues
  else
    (makeTrueValues name).bind fun trueValues =>
      (normalizeLiteral literal).map fun value =>
        match value with
        | none => .none
        | some value =>
            let validValues := nonNullDomain column
            match result with
            | .isTrue => (trueValues value).intersect validValues
            | .isFalse => validValues.subtract ((trueValues value).intersect validValues)

/-- Source: `Domain.cpp` `exprToDomain`, the branch of IN. -/
def inDomain (column : Column) (elements : List Value) (result : PredicateResult) :
    Option (Domain Integral) :=
  (elements.mapM normalizeLiteral).map fun values =>
    let trueValues := (Domain.in values.reduceOption).intersect (nonNullDomain column)
    match result with
    | .isTrue => trueValues
    | .isFalse => if none ∈ values then .none else (nonNullDomain column).subtract trueValues

/-- Source: `Domain.cpp` `exprToDomain`, `reversed`. -/
def FunctionName.reversed : FunctionName → FunctionName
  | lt => gt
  | lte => gte
  | gt => lt
  | gte => lte
  | name => name

/-- What a call says of a column without looking into its arguments. LIKE is over text, and never
over a column with an integral domain.
Source: `Domain.cpp` `exprToDomain`, from the branch of IS NULL on. -/
def callDomain (column : Column) (name : FunctionName) (args : List Expr)
    (result : PredicateResult) : Option (Domain Integral) :=
  match name, args with
  | .isNull, [arg] =>
      if domainColumn arg = some column then
        some (match result with
          | .isTrue => .onlyNull
          | .isFalse => nonNullDomain column)
      else none
  | .in, [arg, .literal (.list elements) (.array elementType)] =>
      if elementType = arg.type ∧ domainColumn arg = some column then
        inDomain column elements.toList result
      else none
  | .between, [arg, .literal lower _, .literal upper _] =>
      if domainColumn arg = some column then
        (comparisonDomain column .gte lower result).bind fun lowerDomain =>
          (comparisonDomain column .lte upper result).map fun upperDomain =>
            match result with
            | .isTrue => lowerDomain.intersect upperDomain
            | .isFalse => lowerDomain.unite upperDomain
      else none
  | name, [left, .literal value _] =>
      if domainColumn left = some column then comparisonDomain column name value result else none
  | name, [.literal value _, right] =>
      if domainColumn right = some column then
        comparisonDomain column name.reversed value result
      else none
  | _, _ => none

/-- How AND and OR combine domains.
Source: `Domain.cpp` `exprToDomain`, `intersect`. -/
def combineDomains (name : FunctionName) (result : PredicateResult) :
    Domain Integral → Domain Integral → Domain Integral :=
  if name = .and ↔ result = .isTrue then .intersect else .unite

mutual

/-- The values of a column that give a condition a truth value.
Source: `Domain.cpp` `exprToDomain`, with the column and the result. -/
def exprToDomainOf (column : Column) : Expr → PredicateResult → Option (Domain Integral)
  | .call name args _, result =>
      match name, args with
      | .negation, .cons arg .nil => exprToDomainOf column arg result.opposite
      | .and, .cons first rest =>
          (exprToDomainOf column first result).bind fun domain =>
            restToDomain column .and domain rest result
      | .or, .cons first rest =>
          (exprToDomainOf column first result).bind fun domain =>
            restToDomain column .or domain rest result
      | name, args => callDomain column name args.toList result
  | _, _ => none

/-- The arguments of an AND or OR after the first.
Source: `Domain.cpp` `exprToDomain`, the loop of AND and OR. -/
def restToDomain (column : Column) (name : FunctionName) (domain : Domain Integral) :
    Exprs → PredicateResult → Option (Domain Integral)
  | .nil, _ => some domain
  | .cons next rest, result =>
      (exprToDomainOf column next result).bind fun nextDomain =>
        restToDomain column name (combineDomains name result domain nextDomain) rest result

end

/-- Source: `Domain.cpp` `exprToDomain`. -/
def exprToDomain (e : Expr) : Option (Domain Integral) :=
  match e.columns with
  | [column] => exprToDomainOf column e .isTrue
  | _ => none

/-! ### Values within limits -/

/-- A value is NULL or within limits. -/
def Value.InLimits (limits : Integral × Integral) : Value → Prop
  | .null => True
  | .integral v => limits.1 ≤ v ∧ v ≤ limits.2
  | _ => False

/-- A column with an integral domain has values within the limits of its type. -/
def Fits (row : Row) : Prop :=
  ∀ c limits, c.type.numericLimits = some limits → (row c).InLimits limits

/-- What the query engine promises of casts: to the type a value has, and between integer types where
the value is within the limits of the other type, a cast gives the value. -/
structure Engine.Casts (engine : Engine) : Prop where
  same : ∀ name, name = .cast ∨ name = .tryCast → ∀ t value, engine.cast name t t value = value
  integers : ∀ name, name = .cast ∨ name = .tryCast → ∀ s t limits, s.isInteger → t.isInteger →
    t.numericLimits = some limits → ∀ value : Value, value.InLimits limits →
      engine.cast name s t value = value

/-- A domain accepts a value. -/
def Domain.Accepts (d : Domain Integral) : Value → Prop
  | .null => d.nullsAllowed = true
  | .integral v => d.Holds (position v)
  | _ => False

lemma isSome_numericLimits (type : SqlType) : type.numericLimits.isSome = type.isIntegral := by
  cases type <;> rfl

lemma isSome_integralTypeDomain (type : SqlType) :
    (integralTypeDomain type).isSome = type.isIntegral := by
  rw [integralTypeDomain, Option.isSome_map, isSome_numericLimits]

lemma conform_of_isIntegral {type : SqlType} (h : type.isIntegral = true) (value : Value) :
    Value.conform type value = value := by
  cases type with
  | boolean => cases h
  | _ => rfl

lemma eq_of_isInteger {type : SqlType} (h : type.isInteger = true) :
    type = .tinyint ∨ type = .smallint ∨ type = .integer ∨ type = .bigint := by
  cases type <;> first
    | exact absurd h Bool.false_ne_true
    | simp

/-- A value within the limits of an integer type is within those of a wider one. -/
lemma Value.InLimits.widen {s t : SqlType} {value : Value} {limits limits' : Integral × Integral}
    (h : value.InLimits limits) (hs : s.isInteger = true) (ht : t.isInteger = true)
    (hsize : s.cppSizeInBytes ≤ t.cppSizeInBytes) (hlimits : s.numericLimits = some limits)
    (hlimits' : t.numericLimits = some limits') : value.InLimits limits' := by
  have hwider : limits'.1 ≤ limits.1 ∧ limits.2 ≤ limits'.2 := by
    rcases eq_of_isInteger hs with rfl | rfl | rfl | rfl <;>
      rcases eq_of_isInteger ht with rfl | rfl | rfl | rfl <;>
      cases hlimits <;> cases hlimits' <;>
      first
        | exact absurd hsize (by decide)
        | exact ⟨by decide, by decide⟩
  cases value with
  | null => trivial
  | integral v => exact ⟨hwider.1.trans h.1, h.2.trans hwider.2⟩
  | boolean b => cases h
  | text t => cases h
  | list elements => cases h

section

variable {engine : Engine} {column : Column} {row : Row} {limits : Integral × Integral}

/-- A column under casts that widen it has the value of the column. -/
lemma eval_of_domainColumn (hcasts : engine.Casts)
    (hlimits : column.type.numericLimits = some limits) (hfits : (row column).InLimits limits)
    (e : Expr) (htyped : e.Typed) (h : domainColumn e = some column) :
    engine.eval row e = row column ∧ e.type.isIntegral = true ∧
      (e.type = column.type ∨ (e.type.isInteger = true ∧ column.type.isInteger = true)) := by
  have hcolumn : column.type.isIntegral = true := by
    rw [← isSome_numericLimits, hlimits]
    rfl
  induction e using domainColumn.induct with
  | case1 c =>
      cases h
      rw [Engine.eval, conform_of_isIntegral hcolumn]
      exact ⟨rfl, hcolumn, .inl rfl⟩
  | case2 name arg type hname ih =>
      rw [domainColumn, if_pos hname, Option.filter_eq_some_iff] at h
      obtain ⟨harg, hsize⟩ := h
      simp only [isSome_integralTypeDomain, Bool.and_eq_true, decide_eq_true_eq] at hsize
      obtain ⟨⟨-, htype⟩, hsize⟩ := hsize
      obtain ⟨hlocal, hargs⟩ := typed_call.mp htyped
      obtain ⟨heval, hargType, hrelated⟩ := ih (hargs arg List.mem_cons_self) harg
      have hcast : arg.type = type ∨ (arg.type.isInteger = true ∧ type.isInteger = true) := by
        rcases hname with rfl | rfl
        · exact hlocal arg.type (by simp [Exprs.toList]) hargType htype
        · exact hlocal arg.type (by simp [Exprs.toList]) hargType htype
      have hintegers : type = column.type ∨
          (type.isInteger = true ∧ column.type.isInteger = true) := by
        rcases hcast with rfl | ⟨hinteger, hinteger'⟩
        · exact hrelated
        · rcases hrelated with hsame | ⟨-, hcolumnInteger⟩
          · exact .inr ⟨hinteger', hsame ▸ hinteger⟩
          · exact .inr ⟨hinteger', hcolumnInteger⟩
      refine ⟨?_, htype, hintegers⟩
      have happly : ∀ types, types = [arg.type] → engine.apply name types type [row column] =
          engine.cast name arg.type type (row column) := by
        rintro types rfl
        rcases hname with rfl | rfl
        · rfl
        · rfl
      rw [Engine.eval_call, conform_of_isIntegral htype]
      simp only [Exprs.toList, List.map_cons, List.map_nil, heval]
      rw [happly _ rfl]
      rcases hcast with hsame | ⟨hinteger, hinteger'⟩
      · rw [hsame, hcasts.same name hname]
      · obtain ⟨limits', hlimits'⟩ := Option.isSome_iff_exists.mp
          ((isSome_numericLimits type).trans htype)
        have hcolumnInteger : column.type.isInteger = true := by
          rcases hrelated with hsame | ⟨-, h⟩
          · exact hsame ▸ hinteger
          · exact h
        exact hcasts.integers name hname _ _ limits' hinteger hinteger' hlimits' _
          (hfits.widen hcolumnInteger hinteger' hsize hlimits hlimits')
  | case3 name arg type hname =>
      rw [domainColumn, if_neg hname] at h
      cases h
  | case4 e hne hne' =>
      rw [domainColumn] at h
      · cases h
      · exact hne
      · exact hne'

end

/-! ### What domains accept -/

section

variable {d other : Domain Integral} {w : Value}

lemma accepts_intersect : (d.intersect other).Accepts w ↔ d.Accepts w ∧ other.Accepts w := by
  cases w <;> simp [Domain.Accepts]
  simp [Domain.intersect]

lemma accepts_unite : (d.unite other).Accepts w ↔ d.Accepts w ∨ other.Accepts w := by
  cases w <;> simp [Domain.Accepts]
  simp [Domain.unite]

lemma accepts_subtract : (d.subtract other).Accepts w ↔ d.Accepts w ∧ ¬ other.Accepts w := by
  cases w <;> simp [Domain.Accepts]
  simp [Domain.subtract, Domain.intersect, Domain.complement]

@[simp] lemma not_accepts_none : ¬ (Domain.none : Domain Integral).Accepts w := by
  cases w <;> simp [Domain.Accepts]
  simp [Domain.none]

@[simp] lemma accepts_onlyNull : (Domain.onlyNull : Domain Integral).Accepts w ↔ w = .null := by
  cases w <;> simp [Domain.Accepts]
  simp [Domain.onlyNull]

end

section

variable {engine : Engine} {column : Column} {row : Row} {limits : Integral × Integral}
  {type : SqlType} {w : Value}

/-- The non-NULL values of a column. -/
lemma accepts_nonNullDomain (hlimits : column.type.numericLimits = some limits)
    (hw : w.InLimits limits) : (nonNullDomain column).Accepts w ↔ w ≠ .null := by
  rw [nonNullDomain, integralTypeDomain, hlimits, Option.map_some, Option.getD_some,
    accepts_intersect]
  cases w with
  | null => simp [Domain.Accepts, Domain.greaterThanOrEqual]
  | integral v =>
      have hlow : limits.1 ≤ v ∧ v ≤ limits.2 := hw
      simpa [Domain.Accepts] using hlow
  | boolean b => cases hw
  | text t => cases hw
  | list elements => cases hw

/-- A NULL or an integer as a value. -/
def Value.ofOption : Option Integral → Value
  | none => null
  | some v => integral v

lemma eq_of_normalizeLiteral {literal : Value} {value : Option Integral}
    (h : normalizeLiteral literal = some value) : literal = .ofOption value := by
  cases literal <;> cases h <;> rfl

lemma eq_of_mapM_normalizeLiteral : {elements : List Value} → {values : List (Option Integral)} →
    elements.mapM normalizeLiteral = some values → elements = values.map Value.ofOption
  | [], values, h => by
      cases h
      rfl
  | element :: elements, values, h => by
      rw [List.mapM_cons] at h
      obtain ⟨value, hvalue, h⟩ := Option.bind_eq_some_iff.mp h
      obtain ⟨rest, hrest, h⟩ := Option.bind_eq_some_iff.mp h
      cases h
      rw [List.map_cons, eq_of_normalizeLiteral hvalue, ← eq_of_mapM_normalizeLiteral hrest]

lemma compareValues_integral (name : FunctionName) (a b : Integral) :
    engine.compareValues name type (.integral a) (.integral b) =
      some (relation name (engine.order type a) (engine.order type b)) := by
  rw [Engine.compareValues]

lemma compareValues_null_left (name : FunctionName) (b : Value) :
    engine.compareValues name type .null b = none := by
  rw [Engine.compareValues]

lemma compareValues_null_right (name : FunctionName) (a : Value) :
    engine.compareValues name type a .null = none := by
  cases a <;> rw [Engine.compareValues]
  all_goals
    intros
    contradiction

/-- The values of a comparison with an integer, for a type that orders its values as integers. -/
lemma accepts_makeTrueValues (horder : StrictMono (engine.order type)) {name : FunctionName}
    {f : Integral → Domain Integral} (hf : makeTrueValues name = some f) (b : Integral)
    (hw : w.InLimits limits) :
    (f b).Accepts w ↔ engine.compareValues name type w (.integral b) = some true := by
  cases w with
  | null =>
      rw [compareValues_null_left]
      cases name <;> cases hf <;>
        simp [Domain.Accepts, Domain.singleValue, Domain.lessThan, Domain.lessThanOrEqual,
          Domain.greaterThan, Domain.greaterThanOrEqual]
  | integral v =>
      rw [compareValues_integral]
      cases name <;> cases hf <;>
        simp [Domain.Accepts, relation, horder.lt_iff_lt, horder.le_iff_le,
          horder.injective.eq_iff]
  | boolean b => cases hw
  | text t => cases hw
  | list elements => cases hw

/-- A comparison with an integer is false when it is not true, but for NULL. -/
lemma compareValues_eq_false {name : FunctionName} {b : Integral} (hw : w.InLimits limits) :
    engine.compareValues name type w (.integral b) = some false ↔
      w ≠ .null ∧ ¬ engine.compareValues name type w (.integral b) = some true := by
  cases w with
  | null => simp [compareValues_null_left]
  | integral v => simp [compareValues_integral]
  | boolean b => cases hw
  | text t => cases hw
  | list elements => cases hw

/-- The truth value of a result. -/
def PredicateResult.holds : PredicateResult → Bool
  | isTrue => true
  | isFalse => false

variable (engine) in
/-- A comparison, IS DISTINCT FROM being one. -/
def Engine.compareBy (name : FunctionName) (type : SqlType) (a b : Value) : Truth :=
  if name = .distinctFrom then engine.distinctValues type a b
  else engine.compareValues name type a b

/-- The domain of a comparison. -/
lemma accepts_comparisonDomain (horder : StrictMono (engine.order type))
    (hlimits : column.type.numericLimits = some limits) (hw : w.InLimits limits)
    {name : FunctionName} {literal : Value} {result : PredicateResult} {domain : Domain Integral}
    (h : comparisonDomain column name literal result = some domain) :
    domain.Accepts w ↔ engine.compareBy name type w literal = some result.holds := by
  have hvalid := accepts_nonNullDomain hlimits hw
  unfold comparisonDomain at h
  unfold Engine.compareBy
  split at h
  case isTrue hname =>
    rw [if_pos hname]
    obtain ⟨value, hvalue, rfl⟩ := Option.map_eq_some_iff.mp h
    rw [eq_of_normalizeLiteral hvalue]
    have hequal : ∀ b, (Domain.singleValue b).Accepts w ↔ w = .integral b := by
      intro b
      cases w <;> simp [Domain.Accepts]
      simp [Domain.singleValue]
    cases value with
    | none =>
        cases result
        · simp only [accepts_subtract, accepts_unite, accepts_onlyNull, hvalid]
          cases w <;> simp [Value.ofOption, Engine.distinctValues, PredicateResult.holds]
        · simp only [accepts_onlyNull]
          cases w <;> simp [Value.ofOption, Engine.distinctValues, PredicateResult.holds]
    | some b =>
        cases result
        · simp only [accepts_subtract, accepts_unite, accepts_onlyNull, accepts_intersect, hvalid,
            hequal]
          cases w with
          | null => simp [Value.ofOption, Engine.distinctValues, PredicateResult.holds]
          | integral v =>
              simp [Value.ofOption, Engine.distinctValues, PredicateResult.holds,
                horder.injective.eq_iff]
          | boolean b => cases hw
          | text t => cases hw
          | list elements => cases hw
        · simp only [accepts_intersect, hvalid, hequal]
          cases w with
          | null => simp [Value.ofOption, Engine.distinctValues, PredicateResult.holds]
          | integral v =>
              simp [Value.ofOption, Engine.distinctValues, PredicateResult.holds,
                horder.injective.eq_iff]
          | boolean b => cases hw
          | text t => cases hw
          | list elements => cases hw
  case isFalse hname =>
    rw [if_neg hname]
    obtain ⟨f, hf, h⟩ := Option.bind_eq_some_iff.mp h
    obtain ⟨value, hvalue, rfl⟩ := Option.map_eq_some_iff.mp h
    rw [eq_of_normalizeLiteral hvalue]
    cases value with
    | none => simp [Value.ofOption, compareValues_null_right]
    | some b =>
        have htrue := accepts_makeTrueValues horder hf b hw
        have hnull : engine.compareValues name type w (.integral b) = some true → w ≠ .null := by
          rintro h rfl
          rw [compareValues_null_left] at h
          cases h
        cases result
        · simp only [accepts_intersect, hvalid, htrue]
          exact ⟨fun h => h.1, fun h => ⟨h, hnull h⟩⟩
        · simp only [accepts_subtract, accepts_intersect, hvalid, htrue]
          rw [PredicateResult.holds, Value.ofOption, compareValues_eq_false hw]
          exact and_congr_right fun h => by simp [h]

/-- The domain of an IN. -/
lemma accepts_inDomain (horder : StrictMono (engine.order type))
    (hlimits : column.type.numericLimits = some limits) (hw : w.InLimits limits)
    {elements : List Value} {result : PredicateResult} {domain : Domain Integral}
    (h : inDomain column elements result = some domain) :
    domain.Accepts w ↔ engine.isIn type w (some elements) = some result.holds := by
  have hvalid := accepts_nonNullDomain hlimits hw
  unfold inDomain at h
  obtain ⟨values, hvalues, rfl⟩ := Option.map_eq_some_iff.mp h
  rw [eq_of_mapM_normalizeLiteral hvalues]
  have hin : (Domain.in values.reduceOption).Accepts w ∧ w ≠ .null ↔
      ∃ v, w = .integral v ∧ some v ∈ values := by
    cases w <;> simp [Domain.Accepts, List.reduceOption_mem_iff]
  rw [Engine.isIn]
  by_cases hnull : w = .null
  · subst hnull
    cases result
    · simp [accepts_intersect, hvalid]
    · dsimp only
      split
      · simp
      · simp [accepts_subtract, hvalid]
  obtain ⟨v, rfl⟩ : ∃ v, w = .integral v := by
    cases w with
    | null => exact absurd rfl hnull
    | integral v => exact ⟨v, rfl⟩
    | boolean b => cases hw
    | text t => cases hw
    | list elements => cases hw
  have hequal : ∀ value : Option Integral,
      engine.compareValues .equality type (.integral v) (.ofOption value) =
        value.map fun b => decide (v = b) := by
    intro value
    cases value with
    | none => rw [Value.ofOption, compareValues_null_right, Option.map_none]
    | some b => simp [Value.ofOption, compareValues_integral, relation, horder.injective.eq_iff]
  rw [if_neg hnull, List.map_map]
  cases result
  · simp only [accepts_intersect, hvalid, hin, PredicateResult.holds, Truth.any_eq_true]
    simp [hequal]
  · dsimp only
    rw [PredicateResult.holds, Truth.any_eq_false]
    split
    case isTrue hmem =>
      refine iff_of_false (by simp) fun h => ?_
      have := h _ (List.mem_map_of_mem hmem)
      simp [hequal] at this
    case isFalse hmem =>
      simp only [accepts_subtract, accepts_intersect, hvalid, hin]
      simp only [ne_eq, hnull, not_false_eq_true, true_and, List.mem_map, Function.comp_apply,
        forall_exists_index, and_imp, forall_apply_eq_imp_iff₂, hequal]
      constructor
      · intro h value hvalue
        cases value with
        | none => exact absurd hvalue hmem
        | some b =>
            have hne : v ≠ b := by
              rintro rfl
              exact h ⟨v, rfl, hvalue⟩
            simp [hne]
      · rintro h ⟨b, hb, hvalue⟩
        cases hb
        simpa using h _ hvalue

end

/-! ### Conditions -/

/-- The comparisons that have a domain. -/
def FunctionName.isComparison : FunctionName → Bool
  | distinctFrom | equality | lt | lte | gt | gte => true
  | _ => false

lemma isComparison_reversed (name : FunctionName) :
    name.reversed.isComparison = name.isComparison := by
  cases name <;> rfl

lemma isComparison_of_comparisonDomain {column : Column} {name : FunctionName} {literal : Value}
    {result : PredicateResult} {domain : Domain Integral}
    (h : comparisonDomain column name literal result = some domain) :
    name.isComparison = true := by
  unfold comparisonDomain at h
  split at h
  case isTrue hname =>
    rw [hname]
    rfl
  case isFalse =>
    obtain ⟨f, hf, -⟩ := Option.bind_eq_some_iff.mp h
    cases name <;> first
      | rfl
      | cases hf

/-- A comparison is of two values of one type. -/
lemma typed_comparison {name : FunctionName} (hname : name.isComparison = true)
    {types : List SqlType} {type : SqlType} (h : name.Typed types type) : ∃ t, types = [t, t] := by
  cases name <;> first
    | exact h.2
    | cases hname

section

variable {engine : Engine} {column : Column} {row : Row} {limits : Integral × Integral}

/-- The value of a comparison. -/
lemma apply_comparison {name : FunctionName} (hname : name.isComparison = true)
    (s t type : SqlType) (a b : Value) :
    engine.apply name [s, t] type [a, b] = .ofTruth (engine.compareBy name s a b) := by
  cases name <;> first
    | rfl
    | cases hname

/-- A comparison with its operands the other way round. -/
lemma compareBy_reversed {name : FunctionName} (hname : name.isComparison = true) {type : SqlType} {w : Value} (hw : w.InLimits limits) (value : Option Integral) :
    engine.compareBy name type (.ofOption value) w =
      engine.compareBy name.reversed type w (.ofOption value) := by
  cases w with
  | null =>
      cases value <;> cases name <;>
        simp [FunctionName.reversed, Engine.compareBy, Value.ofOption, Engine.distinctValues,
          compareValues_null_left, compareValues_null_right]
  | integral v =>
      cases value with
      | none =>
          cases name <;>
            simp [FunctionName.reversed, Engine.compareBy, Value.ofOption, Engine.distinctValues,
              compareValues_null_left, compareValues_null_right]
      | some b =>
          cases name <;>
            simp [FunctionName.reversed, Engine.compareBy, Value.ofOption, Engine.distinctValues,
              compareValues_integral, relation, eq_comm, FunctionName.isComparison] at hname ⊢
  | boolean b => cases hw
  | text t => cases hw
  | list elements => cases hw

/-- A type that orders its values as integers does so at the types a column is cast to. -/
lemma order_of_domainColumn {type : SqlType} (horder : StrictMono (engine.order column.type))
    (htype : type = column.type ∨ (type.isInteger = true ∧ column.type.isInteger = true)) :
    StrictMono (engine.order type) := by
  rcases htype with rfl | ⟨hinteger, -⟩
  · exact horder
  · rcases eq_of_isInteger hinteger with rfl | rfl | rfl | rfl <;> exact fun _ _ h => h

/-- The value a literal is compared as. -/
lemma normalizeLiteral_of_comparisonDomain {name : FunctionName} {literal : Value}
    {result : PredicateResult} {domain : Domain Integral}
    (h : comparisonDomain column name literal result = some domain) :
    ∃ value, literal = .ofOption value := by
  unfold comparisonDomain at h
  split at h
  · obtain ⟨value, hvalue, -⟩ := Option.map_eq_some_iff.mp h
    exact ⟨value, eq_of_normalizeLiteral hvalue⟩
  · obtain ⟨f, -, h⟩ := Option.bind_eq_some_iff.mp h
    obtain ⟨value, hvalue, -⟩ := Option.map_eq_some_iff.mp h
    exact ⟨value, eq_of_normalizeLiteral hvalue⟩

/-- What a call says of a column. -/
lemma accepts_callDomain (hcasts : engine.Casts) (horder : StrictMono (engine.order column.type))
    (hlimits : column.type.numericLimits = some limits) (hfits : (row column).InLimits limits)
    {name : FunctionName} {args : Exprs} {type : SqlType} {result : PredicateResult}
    {domain : Domain Integral} (htyped : (Expr.call name args type).Typed)
    (h : callDomain column name args.toList result = some domain) :
    domain.Accepts (row column) ↔
      (engine.eval row (.call name args type)).truth = some result.holds := by
  obtain ⟨hlocal, hargs⟩ := typed_call.mp htyped
  rw [Engine.eval_call, Value.truth_conform]
  revert h hlocal hargs
  generalize args.toList = l
  intro h hlocal hargs
  have hcolumn := fun e (he : e ∈ l) => eval_of_domainColumn hcasts hlimits hfits e (hargs e he)
  unfold callDomain at h
  split at h
  -- IS NULL
  case h_1 arg =>
    split at h
    case isFalse => cases h
    case isTrue hdomain =>
      obtain ⟨heval, -, -⟩ := hcolumn arg List.mem_cons_self hdomain
      cases h
      cases result
      · simp [Engine.apply, heval, Value.truth, PredicateResult.holds]
      · simp [Engine.apply, heval, Value.truth, PredicateResult.holds,
          accepts_nonNullDomain hlimits hfits]
  -- IN
  case h_2 arg elements elementType =>
    split at h
    case isFalse => cases h
    case isTrue hdomain =>
      obtain ⟨rfl, hdomain⟩ := hdomain
      obtain ⟨heval, hintegral, htype⟩ := hcolumn arg List.mem_cons_self hdomain
      rw [accepts_inDomain (order_of_domainColumn horder htype) hlimits hfits h]
      have hconform : ∀ elements : List Value,
          elements.map (Value.conform arg.type) = elements := by
        intro elements
        rw [List.map_congr_left fun v _ => conform_of_isIntegral hintegral v, List.map_id']
      have htypes : [arg, Expr.literal (.list elements) (.array arg.type)].map Expr.type =
          [arg.type, .array arg.type] := rfl
      rw [htypes]
      simp [Engine.apply, heval, Engine.eval, Value.conform, Engine.inElements, hconform]
  -- BETWEEN
  case h_3 arg lower lowerType upper upperType =>
    split at h
    case isFalse => cases h
    case isTrue hdomain =>
      obtain ⟨-, t, htypes⟩ := hlocal
      obtain ⟨rfl, rfl, rfl⟩ : arg.type = t ∧ lowerType = t ∧ upperType = t := by
        simpa [Expr.type] using htypes
      obtain ⟨heval, hintegral, htype⟩ := hcolumn arg List.mem_cons_self hdomain
      have horder' := order_of_domainColumn horder htype
      obtain ⟨lowerDomain, hlower, h⟩ := Option.bind_eq_some_iff.mp h
      obtain ⟨upperDomain, hupper, h⟩ := Option.map_eq_some_iff.mp h
      have hlower' := accepts_comparisonDomain horder' hlimits hfits hlower
      have hupper' := accepts_comparisonDomain horder' hlimits hfits hupper
      simp only [Engine.compareBy, reduceCtorEq, if_false] at hlower' hupper'
      subst h
      cases result
      · simp only [accepts_intersect, hlower', hupper', PredicateResult.holds]
        simp [Engine.apply, heval, Engine.eval, conform_of_isIntegral hintegral]
      · simp only [accepts_unite, hlower', hupper', PredicateResult.holds]
        simp [Engine.apply, heval, Engine.eval, conform_of_isIntegral hintegral]
  -- A column compared with a literal
  case h_4 left literal literalType _ =>
    split at h
    case isFalse => cases h
    case isTrue hdomain =>
      obtain ⟨heval, hintegral, htype⟩ := hcolumn left List.mem_cons_self hdomain
      have hname := isComparison_of_comparisonDomain h
      obtain ⟨t, htypes⟩ := typed_comparison hname hlocal
      obtain ⟨rfl, rfl⟩ : left.type = t ∧ literalType = t := by simpa [Expr.type] using htypes
      rw [accepts_comparisonDomain (order_of_domainColumn horder htype) hlimits hfits h, htypes]
      simp only [List.map_cons, List.map_nil, heval, Engine.eval, conform_of_isIntegral hintegral]
      rw [apply_comparison hname, Value.truth_ofTruth]
  -- A literal compared with a column
  case h_5 literal literalType right _ _ =>
    split at h
    case isFalse => cases h
    case isTrue hdomain =>
      obtain ⟨heval, hintegral, htype⟩ := hcolumn right (by simp) hdomain
      have hname : name.isComparison = true :=
        (isComparison_reversed name).symm.trans (isComparison_of_comparisonDomain h)
      obtain ⟨t, htypes⟩ := typed_comparison hname hlocal
      obtain ⟨rfl, rfl⟩ : literalType = t ∧ right.type = t := by simpa [Expr.type] using htypes
      rw [accepts_comparisonDomain (order_of_domainColumn horder htype) hlimits hfits h, htypes]
      simp only [List.map_cons, List.map_nil, heval, Engine.eval, conform_of_isIntegral hintegral]
      obtain ⟨value, rfl⟩ := normalizeLiteral_of_comparisonDomain h
      rw [apply_comparison hname, Value.truth_ofTruth, compareBy_reversed hname hfits]
  case h_6 => cases h

/-- When an AND or OR of conditions has a truth value. -/
lemma junction_eq_holds {name : FunctionName} (hname : name = .and ∨ name = .or)
    {result : PredicateResult} {args : List Expr} :
    junction name ((args.map (engine.eval row)).map Value.truth) = some result.holds ↔
      if name = .and ↔ result = .isTrue then
        ∀ a ∈ args, (engine.eval row a).truth = some result.holds
      else ∃ a ∈ args, (engine.eval row a).truth = some result.holds := by
  rcases hname with rfl | rfl <;> cases result <;>
    simp [junction, PredicateResult.holds, Truth.all_eq_true, Truth.all_eq_false,
      Truth.any_eq_true, Truth.any_eq_false]

mutual

/-- The domain of a condition accepts a value when the condition has the truth value asked for. -/
theorem accepts_exprToDomainOf (hcasts : engine.Casts)
    (horder : StrictMono (engine.order column.type))
    (hlimits : column.type.numericLimits = some limits) (hfits : (row column).InLimits limits) :
    (e : Expr) → e.Typed → ∀ {result : PredicateResult} {domain : Domain Integral},
      exprToDomainOf column e result = some domain →
      (domain.Accepts (row column) ↔ (engine.eval row e).truth = some result.holds)
  | .column c, _, result, domain, h => nomatch h
  | .literal _ _, _, result, domain, h => nomatch h
  | .field _ _ _, _, result, domain, h => nomatch h
  | .call name args type, htyped, result, domain, h => by
      have hargs := (typed_call.mp htyped).2
      rw [exprToDomainOf.eq_def] at h
      dsimp only at h
      split at h
      case h_1 arg =>
        have harg := accepts_exprToDomainOf hcasts horder hlimits hfits arg
          (hargs arg List.mem_cons_self) h
        rw [harg, Engine.eval_call, Value.truth_conform]
        cases result <;>
          simp [Engine.apply, Exprs.toList, PredicateResult.opposite, PredicateResult.holds]
      case h_2 first rest =>
        obtain ⟨firstDomain, hfirst, hrest⟩ := Option.bind_eq_some_iff.mp h
        have hfirst' := accepts_exprToDomainOf hcasts horder hlimits hfits first
          (hargs first List.mem_cons_self) hfirst
        have hrest' := accepts_restToDomain hcasts horder hlimits hfits rest
          (fun a ha => hargs a (List.mem_cons_of_mem _ ha)) hrest
        rw [hrest', hfirst', Engine.eval_call, Value.truth_conform, truth_junction (.inl rfl),
          junction_eq_holds (.inl rfl)]
        simp [Exprs.toList]
      case h_3 first rest =>
        obtain ⟨firstDomain, hfirst, hrest⟩ := Option.bind_eq_some_iff.mp h
        have hfirst' := accepts_exprToDomainOf hcasts horder hlimits hfits first
          (hargs first List.mem_cons_self) hfirst
        have hrest' := accepts_restToDomain hcasts horder hlimits hfits rest
          (fun a ha => hargs a (List.mem_cons_of_mem _ ha)) hrest
        rw [hrest', hfirst', Engine.eval_call, Value.truth_conform, truth_junction (.inr rfl),
          junction_eq_holds (.inr rfl)]
        simp [Exprs.toList]
      case h_4 => exact accepts_callDomain hcasts horder hlimits hfits htyped h

/-- The rest of an AND or OR. -/
theorem accepts_restToDomain (hcasts : engine.Casts)
    (horder : StrictMono (engine.order column.type))
    (hlimits : column.type.numericLimits = some limits) (hfits : (row column).InLimits limits) :
    (args : Exprs) → (∀ a ∈ args.toList, a.Typed) → ∀ {name : FunctionName}
      {result : PredicateResult} {first domain : Domain Integral},
      restToDomain column name first args result = some domain →
      (domain.Accepts (row column) ↔
        if name = .and ↔ result = .isTrue then
          first.Accepts (row column) ∧
            ∀ a ∈ args.toList, (engine.eval row a).truth = some result.holds
        else
          first.Accepts (row column) ∨
            ∃ a ∈ args.toList, (engine.eval row a).truth = some result.holds)
  | .nil, _, name, result, first, domain, h => by
      cases h
      simp [Exprs.toList]
  | .cons next rest, hargs, name, result, first, domain, h => by
      rw [restToDomain] at h
      obtain ⟨nextDomain, hnext, hrest⟩ := Option.bind_eq_some_iff.mp h
      have hnext' := accepts_exprToDomainOf hcasts horder hlimits hfits next
        (hargs next List.mem_cons_self) hnext
      have hrest' := accepts_restToDomain hcasts horder hlimits hfits rest
        (fun a ha => hargs a (List.mem_cons_of_mem _ ha)) hrest
      rw [hrest', combineDomains]
      by_cases hjoin : name = .and ↔ result = .isTrue
      · simp only [if_pos hjoin, accepts_intersect, hnext', Exprs.toList, List.forall_mem_cons,
          and_assoc]
      · simp only [if_neg hjoin, accepts_unite, hnext', Exprs.toList, List.exists_mem_cons_iff,
          or_assoc]

end

/-- The domain of a condition accepts a value when the condition is met. -/
theorem accepts_exprToDomain (hcasts : engine.Casts) (horder : StrictMono (engine.order column.type))
    (hlimits : column.type.numericLimits = some limits) (hfits : (row column).InLimits limits)
    {e : Expr} (htyped : e.Typed) (hcolumns : e.columns = [column]) {domain : Domain Integral}
    (h : exprToDomain e = some domain) : domain.Accepts (row column) ↔ engine.accepts row e := by
  rw [exprToDomain, hcolumns] at h
  exact accepts_exprToDomainOf hcasts horder hlimits hfits e htyped h

end

/-! ### The limits of the type -/

/-- A domain lies within the limits of a type. -/
def Domain.LimitedTo (limits : Integral × Integral) (d : Domain Integral) : Prop :=
  d.Within (cutAt limits.1 false) (cutAt limits.2 true)

section

variable {column : Column} {limits : Integral × Integral}

lemma ranges_integralTypeDomain {type : SqlType} {domain : Domain Integral}
    (hlimits : type.numericLimits = some limits) (h : integralTypeDomain type = some domain) :
    domain.nullsAllowed = false ∧
      domain.ranges = [⟨some ⟨limits.1, true⟩, some ⟨limits.2, true⟩⟩] := by
  cases type <;> cases hlimits <;> cases h <;> exact ⟨rfl, rfl⟩

lemma limitedTo_nonNullDomain (hlimits : column.type.numericLimits = some limits) :
    (nonNullDomain column).LimitedTo limits := by
  obtain ⟨domain, hdomain⟩ : ∃ domain, integralTypeDomain column.type = some domain :=
    ⟨_, by rw [integralTypeDomain, hlimits, Option.map_some]⟩
  rw [nonNullDomain, hdomain, Option.getD_some]
  intro i hi
  rw [(ranges_integralTypeDomain hlimits hdomain).2, intervals, List.map_singleton,
    List.mem_singleton] at hi
  rw [hi]
  exact ⟨le_rfl, le_rfl⟩

lemma limitedTo_comparisonDomain (hlimits : column.type.numericLimits = some limits)
    {name : FunctionName} {literal : Value} {result : PredicateResult} {domain : Domain Integral}
    (h : comparisonDomain column name literal result = some domain) : domain.LimitedTo limits := by
  have hvalid := limitedTo_nonNullDomain hlimits
  unfold comparisonDomain at h
  split at h
  case isTrue =>
    obtain ⟨value, -, rfl⟩ := Option.map_eq_some_iff.mp h
    cases result
    · exact Domain.within_subtract (Domain.within_unite hvalid Domain.within_onlyNull)
    · cases value with
      | none => exact Domain.within_onlyNull
      | some b => exact Domain.within_intersect (.inr hvalid)
  case isFalse =>
    obtain ⟨f, -, h⟩ := Option.bind_eq_some_iff.mp h
    obtain ⟨value, -, rfl⟩ := Option.map_eq_some_iff.mp h
    cases value with
    | none => exact Domain.within_none
    | some b =>
        cases result
        · exact Domain.within_intersect (.inr hvalid)
        · exact Domain.within_subtract hvalid

lemma limitedTo_inDomain (hlimits : column.type.numericLimits = some limits)
    {elements : List Value} {result : PredicateResult} {domain : Domain Integral}
    (h : inDomain column elements result = some domain) : domain.LimitedTo limits := by
  have hvalid := limitedTo_nonNullDomain hlimits
  unfold inDomain at h
  obtain ⟨values, -, rfl⟩ := Option.map_eq_some_iff.mp h
  cases result
  · exact Domain.within_intersect (.inr hvalid)
  · dsimp only
    split
    · exact Domain.within_none
    · exact Domain.within_subtract hvalid

lemma limitedTo_callDomain (hlimits : column.type.numericLimits = some limits)
    {name : FunctionName} {args : List Expr} {result : PredicateResult} {domain : Domain Integral}
    (h : callDomain column name args result = some domain) : domain.LimitedTo limits := by
  unfold callDomain at h
  split at h
  case h_1 =>
    split at h
    case isFalse => cases h
    case isTrue =>
      cases h
      cases result
      · exact Domain.within_onlyNull
      · exact limitedTo_nonNullDomain hlimits
  case h_2 =>
    split at h
    case isFalse => cases h
    case isTrue => exact limitedTo_inDomain hlimits h
  case h_3 =>
    split at h
    case isFalse => cases h
    case isTrue =>
      obtain ⟨lowerDomain, hlower, h⟩ := Option.bind_eq_some_iff.mp h
      obtain ⟨upperDomain, hupper, rfl⟩ := Option.map_eq_some_iff.mp h
      have hlower' := limitedTo_comparisonDomain hlimits hlower
      have hupper' := limitedTo_comparisonDomain hlimits hupper
      cases result
      · exact Domain.within_intersect (.inl hlower')
      · exact Domain.within_unite hlower' hupper'
  case h_4 =>
    split at h
    case isFalse => cases h
    case isTrue => exact limitedTo_comparisonDomain hlimits h
  case h_5 =>
    split at h
    case isFalse => cases h
    case isTrue => exact limitedTo_comparisonDomain hlimits h
  case h_6 => cases h

mutual

lemma limitedTo_exprToDomainOf (hlimits : column.type.numericLimits = some limits) :
    (e : Expr) → ∀ {result : PredicateResult} {domain : Domain Integral},
      exprToDomainOf column e result = some domain → domain.LimitedTo limits
  | .column c, result, domain, h => nomatch h
  | .literal _ _, result, domain, h => nomatch h
  | .field _ _ _, result, domain, h => nomatch h
  | .call name args type, result, domain, h => by
      rw [exprToDomainOf.eq_def] at h
      dsimp only at h
      split at h
      case h_1 arg => exact limitedTo_exprToDomainOf hlimits arg h
      case h_2 first rest =>
        obtain ⟨firstDomain, hfirst, hrest⟩ := Option.bind_eq_some_iff.mp h
        exact limitedTo_restToDomain hlimits rest (limitedTo_exprToDomainOf hlimits first hfirst)
          hrest
      case h_3 first rest =>
        obtain ⟨firstDomain, hfirst, hrest⟩ := Option.bind_eq_some_iff.mp h
        exact limitedTo_restToDomain hlimits rest (limitedTo_exprToDomainOf hlimits first hfirst)
          hrest
      case h_4 => exact limitedTo_callDomain hlimits h

lemma limitedTo_restToDomain (hlimits : column.type.numericLimits = some limits) :
    (args : Exprs) → ∀ {name : FunctionName} {result : PredicateResult}
      {first domain : Domain Integral}, first.LimitedTo limits →
      restToDomain column name first args result = some domain → domain.LimitedTo limits
  | .nil, name, result, first, domain, hfirst, h => by
      cases h
      exact hfirst
  | .cons next rest, name, result, first, domain, hfirst, h => by
      rw [restToDomain] at h
      obtain ⟨nextDomain, hnext, hrest⟩ := Option.bind_eq_some_iff.mp h
      have hnext' := limitedTo_exprToDomainOf hlimits next hnext
      refine limitedTo_restToDomain hlimits rest ?_ hrest
      unfold combineDomains
      split
      · exact Domain.within_intersect (.inl hfirst)
      · exact Domain.within_unite hfirst hnext'

end

end

end Verax.Filters
