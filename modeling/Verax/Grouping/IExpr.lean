import Verax.Filters.Expr

/-!
# Untyped expressions

The expressions the SQL planner builds before types are resolved, as far as the planning of GROUP BY
takes them apart, and what they mean.

* `IExpr`: an expression. Windows and aggregates keep expressions outside their inputs.
* `IExpr.meaning`: what an expression computes, given what its GROUPING calls do.

An expression is evaluated in an environment: a row of the aggregation, with the rows a window
function sees beside it and the values lambda parameters are bound to. The value of a node may depend
on what its parts compute in other environments.
-/

namespace Verax.Grouping

open Verax.Filters

/-! ### Expressions -/

/-- What a node is, beside its inputs. A subquery is known by a number.
Source: `velox/parse/IExpr.h` `IExpr::Kind`, as `GroupByPlanner.cpp` tells kinds apart. -/
inductive Kind where
  | input
  | fieldAccess (name : String)
  | call (name : String)
  | cast (type : SqlType) (isTryCast : Bool)
  | constant (value : Value) (type : SqlType)
  | lambda (arguments : List String)
  | concat (names : List String)
  | subquery (number : ℕ)
  deriving DecidableEq

/-- What a window call is beside its expressions: the directions and null orders of its sort keys,
and whether its frame has a start and an end value.
Source: `velox/parse/IExpr.h` `WindowCallExpr`. -/
structure WindowSpec where
  name : String
  sortOrders : List (Bool × Bool)
  frame : Option (String × Bool × Bool)
  isIgnoreNulls : Bool
  deriving DecidableEq

mutual

/-- Source: `velox/parse/IExpr.h` `IExpr`. -/
inductive IExpr where
  | node (kind : Kind) (inputs : IExprs)
  /-- A call with aggregate options: the filter and the sort keys are no inputs. -/
  | aggregate (name : String) (distinct : Bool) (inputs filter orderBy : IExprs)
  /-- The keys and the frame bounds are no inputs. -/
  | window (spec : WindowSpec) (inputs partitionKeys orderByKeys frameValues : IExprs)
  deriving DecidableEq

inductive IExprs where
  | nil
  | cons (head : IExpr) (tail : IExprs)
  deriving DecidableEq

end

namespace IExprs

def toList : IExprs → List IExpr
  | nil => []
  | cons head tail => head :: tail.toList

def ofList : List IExpr → IExprs
  | [] => nil
  | head :: tail => cons head (ofList tail)

@[simp] lemma toList_ofList (l : List IExpr) : (ofList l).toList = l := by
  induction l with
  | nil => rfl
  | cons head tail ih => rw [ofList, toList, ih]

end IExprs

namespace IExpr

/-- Source: `ExprApi.h` `Col`. -/
def col (name : String) : IExpr := node (.fieldAccess name) .nil

/-- Source: `ExprApi.h` `Call`. -/
def call (name : String) (inputs : List IExpr) : IExpr := node (.call name) (.ofList inputs)

/-- Source: `ExprApi.h` `Lit`. -/
def lit (value : Value) (type : SqlType) : IExpr := node (.constant value type) .nil

end IExpr

/-! ### Meaning -/

/-- What nodes compute from what their parts compute. -/
structure Engine (Env : Type) where
  node : Kind → List (Env → Value) → Env → Value
  aggregate : String → Bool → List (Env → Value) → List (Env → Value) → List (Env → Value) →
    Env → Value
  window : WindowSpec → List (Env → Value) → List (Env → Value) → List (Env → Value) →
    List (Env → Value) → Env → Value

/-- The name of the marker for a GROUPING call.
Source: `GroupByPlanner.h` `kGroupingFunctionName`. -/
def groupingFunctionName : String := "grouping"

section meaning

variable {Env : Type} (engine : Engine Env) (grouping : List IExpr → Env → Value)

mutual

/-- What an expression computes where GROUPING calls compute `grouping`. -/
def IExpr.meaning : IExpr → Env → Value
  | .node kind inputs =>
      if kind = .call groupingFunctionName then grouping inputs.toList
      else engine.node kind (IExprs.meanings inputs)
  | .aggregate name distinct inputs filter orderBy =>
      engine.aggregate name distinct (IExprs.meanings inputs) (IExprs.meanings filter)
        (IExprs.meanings orderBy)
  | .window spec inputs partitionKeys orderByKeys frameValues =>
      engine.window spec (IExprs.meanings inputs) (IExprs.meanings partitionKeys)
        (IExprs.meanings orderByKeys) (IExprs.meanings frameValues)

/-- What each of several expressions computes. -/
def IExprs.meanings : IExprs → List (Env → Value)
  | .nil => []
  | .cons head tail => IExpr.meaning head :: IExprs.meanings tail

end

end meaning

mutual

/-- No GROUPING call is in the expression. -/
def IExpr.hasNoGrouping : IExpr → Bool
  | .node kind inputs => decide (kind ≠ .call groupingFunctionName) && inputs.haveNoGrouping
  | .aggregate _ _ inputs filter orderBy =>
      inputs.haveNoGrouping && filter.haveNoGrouping && orderBy.haveNoGrouping
  | .window _ inputs partitionKeys orderByKeys frameValues =>
      inputs.haveNoGrouping && partitionKeys.haveNoGrouping && orderByKeys.haveNoGrouping &&
        frameValues.haveNoGrouping

def IExprs.haveNoGrouping : IExprs → Bool
  | .nil => true
  | .cons head tail => head.hasNoGrouping && tail.haveNoGrouping

end

section meaning

variable {Env : Type} (engine : Engine Env) (grouping grouping' : List IExpr → Env → Value)

@[simp] lemma IExprs.meanings_ofList (l : List IExpr) :
    (IExprs.ofList l).meanings engine grouping = l.map (·.meaning engine grouping) := by
  induction l with
  | nil => rw [IExprs.ofList, IExprs.meanings, List.map_nil]
  | cons head tail ih => rw [IExprs.ofList, IExprs.meanings, ih, List.map_cons]

lemma IExpr.meaning_call {name : String} (h : name ≠ groupingFunctionName) (inputs : List IExpr) :
    (IExpr.call name inputs).meaning engine grouping =
      engine.node (.call name) (inputs.map (·.meaning engine grouping)) := by
  rw [IExpr.call, IExpr.meaning, if_neg (by simpa using h), IExprs.meanings_ofList]

lemma IExpr.meaning_col (name : String) :
    (IExpr.col name).meaning engine grouping = engine.node (.fieldAccess name) [] := by
  rw [IExpr.col, IExpr.meaning, if_neg (by simp), IExprs.meanings]

lemma IExpr.meaning_lit (value : Value) (type : SqlType) :
    (IExpr.lit value type).meaning engine grouping = engine.node (.constant value type) [] := by
  rw [IExpr.lit, IExpr.meaning, if_neg (by simp), IExprs.meanings]

mutual

/-- Without GROUPING calls, it does not matter what they compute. -/
lemma IExpr.meaning_congr : (e : IExpr) → e.hasNoGrouping = true →
    e.meaning engine grouping = e.meaning engine grouping'
  | .node kind inputs, h => by
      rw [IExpr.hasNoGrouping, Bool.and_eq_true, decide_eq_true_iff] at h
      rw [IExpr.meaning, IExpr.meaning, if_neg h.1, if_neg h.1,
        IExprs.meanings_congr inputs h.2]
  | .aggregate _ _ inputs filter orderBy, h => by
      simp only [IExpr.hasNoGrouping, Bool.and_eq_true] at h
      rw [IExpr.meaning, IExpr.meaning, IExprs.meanings_congr inputs h.1.1,
        IExprs.meanings_congr filter h.1.2, IExprs.meanings_congr orderBy h.2]
  | .window _ inputs partitionKeys orderByKeys frameValues, h => by
      simp only [IExpr.hasNoGrouping, Bool.and_eq_true] at h
      rw [IExpr.meaning, IExpr.meaning, IExprs.meanings_congr inputs h.1.1.1,
        IExprs.meanings_congr partitionKeys h.1.1.2, IExprs.meanings_congr orderByKeys h.1.2,
        IExprs.meanings_congr frameValues h.2]

lemma IExprs.meanings_congr : (es : IExprs) → es.haveNoGrouping = true →
    es.meanings engine grouping = es.meanings engine grouping'
  | .nil, _ => by rw [IExprs.meanings, IExprs.meanings]
  | .cons head tail, h => by
      rw [IExprs.haveNoGrouping, Bool.and_eq_true] at h
      rw [IExprs.meanings, IExprs.meanings, IExpr.meaning_congr head h.1,
        IExprs.meanings_congr tail h.2]

end

end meaning

end Verax.Grouping
