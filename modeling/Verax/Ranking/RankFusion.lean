import Verax.Ranking.Plan

/-!
# Detecting a ranking that a bound limits

Which ranking window a specialized node can compute, with the number of rows of each partition it
keeps. The bound is a conjunct on the rank column, or comes from a limit above.

* `rankFusionFromPredicate`, `detectRankFusion`: the bound of a window.
* `constantRankColumn`, `holdsAtRankOne`: a window without order keys ranks every row first.

A comparison with a literal that is not an integer raises.
-/

namespace Verax.Ranking

open Lib Lib.Rankings Filters

/-- Source: `PlanUtils.cpp` `integerValue`. -/
inductive Error
  | variantMustBeNonNull
  | unexpectedKind
  deriving DecidableEq

/-- Source: `PlanUtils.cpp` `integerValue`. -/
def integerValue : Value → Except Error ℤ
  | .integral value => .ok value.1
  | .null => .error .variantMustBeNonNull
  | _ => .error .unexpectedKind

/-- A ranking window that a specialized node can replace: the conjunct consumed as the bound, if any,
the part of it that bounds from below, and the rows of a partition to keep.
Source: `PushdownAndPrunePass.cpp` `RankFusion`. -/
structure RankFusion where
  consumedPredicate : Option Expr
  remainingPredicate : Option Expr
  rankColumn : Column
  rankFunction : RankFunction
  limit : Option ℕ+

/-- The largest bound of a specialized node.
Source: `std::numeric_limits<int32_t>::max()`. -/
def maxLimit : ℕ := 2 ^ 31 - 1

/-- The numbers up to which a comparison keeps rows.
Source: `PushdownAndPrunePass.cpp` `rankFusionFromPredicate`, the choice of `limit`. -/
def limitOf (name : FunctionName) (bound : ℤ) : Option ℕ+ :=
  if h : (name = .lte ∨ name = .between) ∧ 0 < bound then some ⟨bound.toNat, by omega⟩
  else if h : name = .lt ∧ 1 < bound then some ⟨(bound - 1).toNat, by omega⟩
  else if name = .equality ∧ bound = 1 then some 1
  else none

/-- The fusion for a conjunct and its bound.
Source: `PushdownAndPrunePass.cpp` `rankFusionFromPredicate`, after the bound is read. -/
def fusionOf (predicate : Expr) (remaining : Option Expr) (rankColumn : Column)
    (rankFunction : RankFunction) (name : FunctionName) (bound : ℤ) : Option RankFusion :=
  match limitOf name bound with
  | some limit =>
      if maxLimit < (limit : ℕ) then none
      else some ⟨some predicate, remaining, rankColumn, rankFunction, some limit⟩
  | none => none

variable (registry : Registry)

/-- The fusion for a range of ranks.
Source: `PushdownAndPrunePass.cpp` `rankFusionFromPredicate`, `BETWEEN`. -/
def rangeFusion (predicate : Expr) (rankColumn : Column) (rankFunction : RankFunction)
    (low : Value) (lowType : SqlType) (high : Value) : Except Error (Option RankFusion) := do
  let lower ← integerValue low
  let bound ← integerValue high
  let remaining :=
    if 1 < lower then
      some (makeComparison registry .gte (.column rankColumn) (.literal low lowType))
    else none
  pure (fusionOf predicate remaining rankColumn rankFunction .between bound)

/-- The fusion for a comparison with one bound.
Source: `PushdownAndPrunePass.cpp` `rankFusionFromPredicate`. -/
def boundFusion (predicate : Expr) (rankColumn : Column) (rankFunction : RankFunction)
    (name : FunctionName) (value : Value) : Except Error (Option RankFusion) := do
  let bound ← integerValue value
  pure (fusionOf predicate none rankColumn rankFunction name bound)

/-- Source: `PushdownAndPrunePass.cpp` `rankFusionFromPredicate`. -/
def rankFusionFromPredicate (rankColumn : Column) (rankFunction : RankFunction) (predicate : Expr) :
    Except Error (Option RankFusion) :=
  match predicate with
  | .call name args _ =>
      match args.toList with
      | [arg, .literal low lowType, .literal high _] =>
          if name = .between ∧ arg = .column rankColumn then
            rangeFusion registry predicate rankColumn rankFunction low lowType high
          else .ok none
      | [arg, .literal value _] =>
          if (name = .lte ∨ name = .lt ∨ name = .equality) ∧ arg = .column rankColumn then
            boundFusion predicate rankColumn rankFunction name value
          else .ok none
      | _ => .ok none
  | _ => .ok none

/-- The first conjunct that bounds the ranking.
Source: `PushdownAndPrunePass.cpp` `detectRankFusion`, the loop. -/
def fusionFromPending (rankColumn : Column) (rankFunction : RankFunction) :
    List Expr → Except Error (Option RankFusion)
  | [] => .ok none
  | conjunct :: rest => do
      match ← rankFusionFromPredicate registry rankColumn rankFunction conjunct with
      | some fusion => pure (some fusion)
      | none => fusionFromPending rankColumn rankFunction rest

/-- The fusion when no conjunct bounds the ranking: with order keys from the limit above, and else
without a bound, as an unordered `row_number` numbers rows as they arrive.
Source: `PushdownAndPrunePass.cpp` `detectRankFusion`, after the loop. -/
def fusionWithoutPredicate (rankColumn : Column) (rankFunction : RankFunction)
    (orderKeys : List SortKey) (rankLimit : Option ℕ+) : Option RankFusion :=
  if orderKeys ≠ [] then
    rankLimit.map fun limit => ⟨none, none, rankColumn, rankFunction, some limit⟩
  else some ⟨none, none, rankColumn, rankFunction, none⟩

/-- Source: `PushdownAndPrunePass.cpp` `detectRankFusion`. -/
def detectRankFusion (functions : List (RankFunction × Column)) (orderKeys : List SortKey)
    (pending : List Expr) (rankLimit : Option ℕ+) : Except Error (Option RankFusion) :=
  match functions with
  | [(rankFunction, rankColumn)] =>
      if orderKeys = [] ∧ rankFunction ≠ .rowNumber then .ok none
      else do
        match ← fusionFromPending registry rankColumn rankFunction pending with
        | some fusion => pure (some fusion)
        | none => pure (fusionWithoutPredicate rankColumn rankFunction orderKeys rankLimit)
  | _ => .ok none

/-- The rank column of a window that ranks every row first.
Source: `PushdownAndPrunePass.cpp` `constantRankColumn`. -/
def constantRankColumn (functions : List (RankFunction × Column)) (orderKeys : List SortKey) :
    Option Column :=
  match functions with
  | [(rankFunction, rankColumn)] =>
      if orderKeys = [] ∧ rankFunction ≠ .rowNumber then some rankColumn else none
  | _ => none

/-- Source: `PushdownAndPrunePass.cpp` `holdsAtRankOne`. -/
def holdsAtRankOne (rankColumn : Column) (conjunct : Expr) : Except Error Bool :=
  match conjunct with
  | .call name args _ =>
      match args.toList with
      | [arg, .literal value _] =>
          if (name = .equality ∨ name = .lt ∨ name = .lte ∨ name = .gt ∨ name = .gte) ∧
              arg = .column rankColumn then
            integerValue value >>= fun bound => pure (relation name 1 bound)
          else .ok false
      | _ => .ok false
  | _ => .ok false

/-! ### Comparisons with integers -/

/-- A comparison of a BIGINT column with literals compares with integers: a literal has the type of
the column, and a comparison with a NULL literal is folded. -/
def Folded (conjunct : Expr) : Prop :=
  ∀ name args type, conjunct = .call name args type →
    (name = .equality ∨ name = .lt ∨ name = .lte ∨ name = .gt ∨ name = .gte ∨ name = .between) →
    ∀ column rest, args.toList = .column column :: rest → column.type = .bigint →
      ∀ value literalType, .literal value literalType ∈ rest →
        literalType = .bigint ∧ ∃ i, value = .integral i

end Verax.Ranking
