import Mathlib.Data.List.Sort
import Verax.Grouping.IExpr
import Verax.Lib.Dictionary
import Verax.Lib.FirstOccurrences

/-!
# Planning GROUP BY

How the planner turns a GROUP BY clause into grouping keys and the sets of their indices, and the
GROUPING calls of the other clauses into lookups by the number of a row's set.

* `GroupByPlanner.expandGroupingSets`: the grouping sets of expressions.
* `GroupByPlanner.deduplicateGroupingKeys`, `deduplicateGroupingSets`: the keys, and the sets of
  their indices.
* `GroupByPlanner.rewriteGroupingMarker`: a GROUPING call as a lookup of its value.
* `GroupByPlanner.plan`: the keys, the sets and the clauses above the aggregate.

How an expression is translated and which columns a COLUMNS call stands for are parameters. The
cache of translated expressions, locations of errors, and the aggregation built from the result are
left out; counts of keys and arguments are natural numbers.
-/

namespace Verax.Grouping

open Verax.Filters Verax.Lib Verax.Lib.Dictionary

variable {Expression : Type}

/-! ### The clause -/

/-- An element of a GROUP BY clause. There is at least one grouping set.
Source: `ast/AstNodes.h` `SimpleGroupBy`, `Rollup`, `Cube`, `GroupingSets`. -/
inductive GroupingElement (Expression : Type) where
  | simpleGroupBy (expressions : List Expression)
  | rollup (expressions : List Expression)
  | cube (expressions : List Expression)
  | groupingSets (first : List Expression) (rest : List (List Expression))

/-- A GROUP BY clause has at least one element. Source: `ast/AstNodes.h` `GroupBy`. -/
structure GroupBy (Expression : Type) where
  distinct : Bool
  groupingElements : List (GroupingElement Expression)
  groupingElements_ne : groupingElements ≠ []

/-- How the planner reads expressions: whether one is a position in the SELECT list, what it is
translated to, and the columns it stands for if it has a COLUMNS call, else none.
Source: `LongLiteral::asSelectPosition`, `ExpressionPlanner.h` `toExpr`, `ColumnsExpansion.h`
`expand`. -/
structure ExpressionPlanner (Expression : Type) where
  asSelectPosition : Expression → Option ℤ
  toExpr : Expression → Except String IExpr
  expandColumns : IExpr → Except String (List IExpr)

/-- The clauses above the aggregation, and the aggregates they call.
Source: `GroupByPlanner.h` `projections_`, `filter_`, `sortingKeyExprs_`, `aggregates_`, and the
parameter `windowDefinitionExprs`. -/
structure Clauses where
  projections : List IExpr
  windowDefinitions : List IExpr
  filter : Option IExpr
  sortingKeys : List IExpr
  aggregates : List IExpr

namespace GroupByPlanner

/-! ### Expanding grouping sets -/

/-- Source: `GroupByPlanner.cpp` `expandRollup`. -/
def expandRollup (expressions : List IExpr) : List (List IExpr) :=
  ((List.range expressions.length).reverse.map fun i => expressions.take (i + 1)) ++ [[]]

/-- The expressions whose bit is set, the first expression having the highest bit. -/
def maskedExpressions (expressions : List IExpr) (bits : ℕ) : List IExpr :=
  expressions.zipIdx.filterMap fun (e, i) =>
    if bits.testBit (expressions.length - 1 - i) then some e else none

/-- Source: `GroupByPlanner.cpp` `expandCube`. -/
def expandCube (expressions : List IExpr) : Except String (List (List IExpr)) :=
  if expressions.length ≤ 30 then
    .ok ((List.range (2 ^ expressions.length)).reverse.map (maskedExpressions expressions))
  else .error "CUBE supports at most 30 columns"

/-- Source: `GroupByPlanner.cpp` `crossProductGroupingSets`. -/
def crossProductGroupingSets (accumulatedSets newSets : List (List IExpr)) : List (List IExpr) :=
  if accumulatedSets = [] then newSets
  else if newSets = [] then accumulatedSets
  else accumulatedSets.flatMap fun base => newSets.map fun addition => base ++ addition

variable (planner : ExpressionPlanner Expression) (selectExprs : List IExpr)

/-- Source: `GroupByPlanner.cpp` `resolveGroupingExpression`. -/
def resolveGroupingExpression (expr : Expression) : Except String IExpr :=
  match planner.asSelectPosition expr with
  | some n =>
      if n < 1 then .error "GROUP BY position is not in select list"
      else match selectExprs[(n - 1).toNat]? with
        | some e => .ok e
        | none => .error "GROUP BY position is not in select list"
  | none => planner.toExpr expr

/-- An expression, or the columns it stands for. -/
def resolveExpanded (expr : Expression) : Except String (List IExpr) := do
  let resolved ← resolveGroupingExpression planner selectExprs expr
  let expanded ← planner.expandColumns resolved
  return if expanded = [] then [resolved] else expanded

/-- Source: `GroupByPlanner.cpp` `resolveWithCache`. -/
def resolveAll (exprs : List Expression) : Except String (List IExpr) :=
  (exprs.mapM (resolveExpanded planner selectExprs)).map List.flatten

/-- The grouping sets of one element. -/
def expandElement : GroupingElement Expression → Except String (List (List IExpr))
  | .simpleGroupBy expressions => do
      let exprs ← resolveAll planner selectExprs expressions
      return [exprs]
  | .rollup expressions => do
      let exprs ← resolveAll planner selectExprs expressions
      return expandRollup exprs
  | .cube expressions => do
      let exprs ← resolveAll planner selectExprs expressions
      expandCube exprs
  | .groupingSets first rest => (first :: rest).mapM (resolveAll planner selectExprs)

/-- Source: `GroupByPlanner.cpp` `expandGroupingSets`. -/
def expandGroupingSets (elements : List (GroupingElement Expression)) :
    Except String (List (List IExpr)) :=
  elements.foldlM (fun sets element => do
    let newSets ← expandElement planner selectExprs element
    return crossProductGroupingSets sets newSets) []

/-! ### Keys and indices -/

/-- Source: `GroupByPlanner.h` `groupingKeys_`, `groupingKeyToIndex_`. -/
structure Keys where
  groupingKeys : List IExpr
  groupingKeyToIndex : Dict IExpr ℕ

/-- The index of an expression, which becomes a key if it is none yet. -/
def Keys.indexOf (keys : Keys) (expr : IExpr) : Keys × ℕ :=
  match keys.groupingKeyToIndex.lookup expr with
  | some index => (keys, index)
  | none => (⟨keys.groupingKeys ++ [expr],
      keys.groupingKeyToIndex.insert expr keys.groupingKeys.length⟩, keys.groupingKeys.length)

/-- The indices of the expressions of a set, each once. -/
def setIndices : Keys → List ℕ → List IExpr → Keys × List ℕ
  | keys, indices, [] => (keys, indices)
  | keys, indices, expr :: exprs =>
      let (keys, index) := keys.indexOf expr
      setIndices keys (if index ∈ indices then indices else indices ++ [index]) exprs

/-- The keys of all sets, and the indices of each.
Source: `GroupByPlanner.cpp` `deduplicateGroupingKeys`. -/
def deduplicateGroupingKeys : Keys → List (List IExpr) → Keys × List (List ℕ)
  | keys, [] => (keys, [])
  | keys, groupingSet :: groupingSets =>
      let (keys, indices) := setIndices keys [] groupingSet
      let (keys, rest) := deduplicateGroupingKeys keys groupingSets
      (keys, indices :: rest)

/-- The sorted sets, each where it is met first.
Source: `GroupByPlanner.cpp` `deduplicateGroupingSets`. -/
def deduplicateGroupingSets (groupingSetsIndices : List (List ℕ)) : List (List ℕ) :=
  FirstOccurrences.keepUnseen []
    (groupingSetsIndices.map fun indices => indices.insertionSort (· ≤ ·))

/-! ### GROUPING calls -/

/-- The column the number of a row's grouping set is in.
Source: `GroupByPlanner.cpp` `kGroupingSetIdColumn`. -/
def groupingSetIdColumn : String := "$grouping_set_id"

/-- A 32-bit value. -/
def int32 (value : BitVec 32) : Value := .integral ⟨value.toInt, by
  have := BitVec.le_toInt value
  have := BitVec.toInt_lt (x := value)
  omega⟩

/-- A 64-bit value. -/
def int64 (value : BitVec 64) : Value := .integral ⟨value.toInt, by
  have := BitVec.le_toInt value
  have := BitVec.toInt_lt (x := value)
  omega⟩

/-- A value as the literals of a GROUPING call over a number of columns have it: INTEGER while it
fits, then BIGINT. -/
def groupingLiteral (numColumns : ℕ) (value : BitVec 64) : Value :=
  if numColumns ≤ 31 then int32 (value.setWidth 32) else int64 value

/-- The type of a GROUPING call over a number of columns. -/
def groupingType (numColumns : ℕ) : SqlType := if numColumns ≤ 31 then .integer else .bigint

/-- The bit mask of a grouping set: a bit for each column, the first having the highest, cleared
where the set has the column. -/
def bitmaskOf (columnIndices groupingSet : List ℕ) : BitVec 64 :=
  columnIndices.zipIdx.foldl (fun bitmask (column, i) =>
    if column ∈ groupingSet then
      bitmask &&& ~~~((1 : BitVec 64) <<< (columnIndices.length - 1 - i))
    else bitmask) (((1 : BitVec 64) <<< columnIndices.length) - 1)

/-- The index of an argument of a GROUPING call. -/
def argumentIndex (groupingKeyToIndex : Dict IExpr ℕ) (input : IExpr) : Except String ℕ :=
  match input with
  | .node (.fieldAccess name) _ =>
      match groupingKeyToIndex.lookup input with
      | some index => .ok index
      | none => .error ("Not a grouping column: " ++ name)
  | _ => .error "GROUPING() arguments must be column references"

/-- What a GROUPING call over columns is replaced by. -/
def groupingLookup (groupingSetsIndices : List (List ℕ)) (columnIndices : List ℕ) :
    Except String IExpr :=
  if columnIndices = [] then .error "GROUPING() requires at least one column argument"
  else if columnIndices.length > 63 then .error "Too many GROUPING() column arguments"
  else
    let numColumns := columnIndices.length
    if groupingSetsIndices.length = 1 then
      .ok (.lit (groupingLiteral numColumns 0) (groupingType numColumns))
    else
      let bitmaskValues := groupingSetsIndices.map fun groupingSet =>
        groupingLiteral numColumns (bitmaskOf columnIndices groupingSet)
      -- element_at is 1-indexed; the grouping set number is 0-based
      .ok (.call "element_at"
        [.lit (.list (.ofList bitmaskValues)) (.array (groupingType numColumns)),
          .call "plus" [.col groupingSetIdColumn, .lit (int64 1) .bigint]])

section rewrite

variable (groupingKeyToIndex : Dict IExpr ℕ) (groupingSetsIndices : List (List ℕ))

/-- Source: `GroupByPlanner.cpp` `rewriteGroupingMarker`, the branch for a GROUPING call. -/
def rewriteGroupingCall (inputs : List IExpr) : Except String IExpr := do
  let columnIndices ← inputs.mapM (argumentIndex groupingKeyToIndex)
  groupingLookup groupingSetsIndices columnIndices

mutual

/-- The expression with its GROUPING calls replaced. The filter and the sort keys of an aggregate are
no inputs of it; those of a window are rewritten with it.
Source: `GroupByPlanner.cpp` `rewriteGroupingMarker`, `rewriteWindowExpr`. -/
def rewriteGroupingMarker : IExpr → Except String IExpr
  | .node kind inputs =>
      if kind = .call groupingFunctionName then
        rewriteGroupingCall groupingKeyToIndex groupingSetsIndices inputs.toList
      else do
        let inputs ← rewriteGroupingMarkers inputs
        return .node kind inputs
  | .aggregate name distinct inputs filter orderBy => do
      let inputs ← rewriteGroupingMarkers inputs
      return .aggregate name distinct inputs filter orderBy
  | .window spec inputs partitionKeys orderByKeys frameValues => do
      let inputs ← rewriteGroupingMarkers inputs
      let partitionKeys ← rewriteGroupingMarkers partitionKeys
      let orderByKeys ← rewriteGroupingMarkers orderByKeys
      let frameValues ← rewriteGroupingMarkers frameValues
      return .window spec inputs partitionKeys orderByKeys frameValues

def rewriteGroupingMarkers : IExprs → Except String IExprs
  | .nil => return .nil
  | .cons head tail => do
      let head ← rewriteGroupingMarker head
      let tail ← rewriteGroupingMarkers tail
      return .cons head tail

end

mutual

/-- Source: `GroupByPlanner.cpp` `rejectGroupingInAggregates`. -/
def rejectGroupingInAggregates : IExpr → Except String Unit
  | .node kind inputs =>
      if kind = .call groupingFunctionName then
        .error "GROUPING() is not allowed in this context"
      else rejectGroupingInAll inputs
  | .aggregate _ _ inputs _ _ => rejectGroupingInAll inputs
  | .window _ inputs _ _ _ => rejectGroupingInAll inputs

def rejectGroupingInAll : IExprs → Except String Unit
  | .nil => return
  | .cons head tail => do
      rejectGroupingInAggregates head
      rejectGroupingInAll tail

end

/-- The clauses with their GROUPING calls replaced.
Source: `GroupByPlanner.cpp` `buildAggregationPlan`, `resolveGroupingCalls`. -/
def resolveGroupingCalls (clauses : Clauses) : Except String Clauses := do
  clauses.aggregates.forM rejectGroupingInAggregates
  let rewrite := rewriteGroupingMarker groupingKeyToIndex groupingSetsIndices
  let projections ← clauses.projections.mapM rewrite
  let windowDefinitions ← clauses.windowDefinitions.mapM rewrite
  let filter ← clauses.filter.mapM rewrite
  let sortingKeys ← clauses.sortingKeys.mapM rewrite
  return { clauses with projections, windowDefinitions, filter, sortingKeys }

end rewrite

/-! ### The plan -/

/-- The keys and the sets handed to the aggregate. -/
structure GroupByPlan where
  keys : Keys
  groupingSetsIndices : List (List ℕ)

/-- The grouping keys and sets of a clause.
Source: `GroupByPlanner.cpp` `plan`. -/
def planGroupingSets (groupBy : GroupBy Expression) : Except String GroupByPlan := do
  let groupingSets ← expandGroupingSets planner selectExprs groupBy.groupingElements
  let (keys, groupingSetsIndices) := deduplicateGroupingKeys ⟨[], ∅⟩ groupingSets
  return ⟨keys, if groupBy.distinct then deduplicateGroupingSets groupingSetsIndices
    else groupingSetsIndices⟩

/-- Source: `GroupByPlanner.cpp` `plan`, `buildAggregationPlan`. -/
def plan (groupBy : GroupBy Expression) (clauses : Clauses) :
    Except String (GroupByPlan × Clauses) := do
  let plan ← planGroupingSets planner selectExprs groupBy
  let clauses ← resolveGroupingCalls plan.keys.groupingKeyToIndex plan.groupingSetsIndices clauses
  return (plan, clauses)

end GroupByPlanner

end Verax.Grouping
