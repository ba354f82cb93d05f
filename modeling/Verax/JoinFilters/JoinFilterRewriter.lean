import Mathlib.Data.Finset.Sort
import Verax.JoinFilters.Evaluation
import Verax.Lib.StateExcept

/-!
# Precomputing parts of a cross join's filter

`JoinFilterRewriter` moves parts of a join's filter that read one input into that input. The model
follows the source, with what it reads of `PrecomputeProjections` and of the caller.

* `PrecomputeProjections.toColumn`: the column of an input that holds an expression.
* `rewrite`: the filter over the inputs with the columns that were added.
* `precomputeCrossJoinFilter`: the filter and the projections over the inputs of a join.
-/

namespace Verax.JoinFilters

open QueryGraph Lib.StateExcept

variable {V : Type} [DecidableEq V]

/-! ### Projections over an input -/

/-- The columns of an input that are to be kept or added. `computed` is what the input computes if
it is a projection.
Source: `PrecomputeProjections.h` `PrecomputeProjections`, with `projectAllInputs` off. -/
structure PrecomputeProjections (V : Type) where
  computed : List (Expr V × Column)
  seen : List (Expr V × Column)
  outs : List (Column × Expr V)

namespace PrecomputeProjections

variable (projections : PrecomputeProjections V)

/-- Source: `PrecomputeProjections.cpp` `addToProject`. -/
def addToProject (e : Expr V) (column : Column) : PrecomputeProjections V :=
  { projections with
    seen := if (projections.seen.lookup e).isSome then projections.seen
      else (e, column) :: projections.seen
    outs := projections.outs ++ [(column, e)] }

/-- The column that holds an expression, and the number of the next column to be created.
Source: `PrecomputeProjections.cpp` `toColumn`, without an alias. -/
def toColumn (nextColumn : ℕ) (e : Expr V) : Expr V × PrecomputeProjections V × ℕ :=
  match e with
  | .column c =>
      match projections.seen.lookup e with
      | none => (e, projections.addToProject e c, nextColumn)
      | some d => (if d ≠ c then .column d else e, projections, nextColumn)
  | .lambda _ _ => (e, projections, nextColumn)
  | _ =>
      match projections.seen.lookup e with
      | some c => (.column c, projections, nextColumn)
      | none =>
          match projections.computed.lookup e with
          | some c =>
              let kept := if (projections.seen.lookup (.column c)).isSome then projections
                else projections.addToProject (.column c) c
              (.column c, { kept with seen := (e, c) :: kept.seen }, nextColumn)
          | none => (.column ⟨nextColumn⟩, projections.addToProject e ⟨nextColumn⟩, nextColumn + 1)

end PrecomputeProjections

/-! ### The rewriter -/

/-- Source: `JoinFilterRewriter.h` `JoinFilterRewriter`. -/
structure JoinFilterRewriter (V : Type) where
  left : PrecomputeProjections V
  right : PrecomputeProjections V
  leftColumns : List Column
  rightColumns : List Column
  nextColumn : ℕ

/-- A step of the rewriter. A check of the source that fails raises its message. -/
abbrev Rewriting (V : Type) (α : Type) := Checked String (JoinFilterRewriter V) α

namespace JoinFilterRewriter

/-- The column of the left input that holds an expression. -/
def toLeftColumn (e : Expr V) : Rewriting V (Expr V) := do
  let s ← get
  let result := s.left.toColumn s.nextColumn e
  modify fun s => { s with left := result.2.1, nextColumn := result.2.2 }
  return result.1

/-- The column of the right input that holds an expression. -/
def toRightColumn (e : Expr V) : Rewriting V (Expr V) := do
  let s ← get
  let result := s.right.toColumn s.nextColumn e
  modify fun s => { s with right := result.2.1, nextColumn := result.2.2 }
  return result.1

/-- Source: `JoinFilterRewriter.cpp` `tryPrecompute`. -/
def tryPrecompute (e : Expr V) : Rewriting V (Option (Expr V)) := do
  let s ← get
  if e.containsNonDeterministic then return none
  else if e.columns = ∅ then return none
  else if ∀ c ∈ e.columns, c ∈ s.leftColumns then return some (← toLeftColumn e)
  else if ∀ c ∈ e.columns, c ∈ s.rightColumns then return some (← toRightColumn e)
  else return none

/-- Source: `JoinFilterRewriter.cpp` `keep`. -/
def keep (c : Column) : Rewriting V PUnit := do
  let s ← get
  if c ∈ s.leftColumns then
    let _ ← toLeftColumn (.column c)
  else if c ∈ s.rightColumns then
    let _ ← toRightColumn (.column c)
  else throw "Join filter reads a column neither input produces"

/-- The columns an expression reads, in the order of their ids. -/
def columnList (e : Expr V) : List Column :=
  ((e.columns.image Column.id).sort (· ≤ ·)).map Column.mk

/-- Source: `JoinFilterRewriter.h` `keepAll`. -/
def keepAll (e : Expr V) : Rewriting V PUnit := (columnList e).forM keep

/-- Source: `ExprFactory.cpp` `rebuildCall`. -/
def rebuildCall (name : String) (functions : FunctionSet) (args : List (Expr V)) : Expr V :=
  .call name (Expr.unionArgFunctions functions args) args

mutual

/-- Source: `JoinFilterRewriter.cpp` `rewrite`, `rewriteCall` and `rewriteField`. -/
def rewrite : Expr V → Rewriting V (Expr V)
  | .call name functions args => do
      match ← tryPrecompute (.call name functions args) with
      | some column => return column
      | none =>
          if name = kTry then
            keepAll (.call name functions args)
            return .call name functions args
          else
            let newArgs ← if name = kIf ∨ name = kSwitch ∨ name = kCoalesce then rewriteFirst args
              else rewriteArgs args
            return if newArgs = args then .call name functions args
              else rebuildCall name functions newArgs
  | .field base name => do
      match ← tryPrecompute (.field base name) with
      | some column => return column
      | none =>
          let newBase ← rewrite base
          return if newBase = base then .field base name else .field newBase name
  | .column c => do
      keep c
      return .column c
  | .literal value => return .literal value
  | .lambda _ _ => throw "Unexpected expression in a join filter"

/-- The arguments of IF, SWITCH or COALESCE: only the first is evaluated for every row. -/
def rewriteFirst : List (Expr V) → Rewriting V (List (Expr V))
  | [] => throw "A special form without arguments"
  | first :: rest => do
      let newFirst ← rewrite first
      rest.forM keepAll
      return newFirst :: rest

/-- The arguments of a call; a lambda stays with the call. -/
def rewriteArgs : List (Expr V) → Rewriting V (List (Expr V))
  | [] => return []
  | .lambda args body :: rest => do
      keepAll (.lambda args body)
      return .lambda args body :: (← rewriteArgs rest)
  | arg :: rest => do
      let newArg ← rewrite arg
      return newArg :: (← rewriteArgs rest)

end

/-- Source: `JoinFilterRewriter.cpp` `rewrite`, of a filter. -/
def rewriteFilter (filter : List (Expr V)) : Rewriting V (List (Expr V)) := filter.mapM rewrite

/-- Keeps a column the join outputs, if an input has it. -/
def keepSource (c : Column) : Rewriting V PUnit := do
  let s ← get
  if c ∈ s.leftColumns then
    let _ ← toLeftColumn (.column c)
  else if c ∈ s.rightColumns then
    let _ ← toRightColumn (.column c)

/-- The rewritten filter; nothing if the filter and the inputs stay as they are, as they do where
the filter reads other columns.
Source: `NodeSimplifier.cpp` `precomputeCrossJoinFilter`. -/
def precomputeCrossJoinFilter (filter : List (Expr V)) (sourceColumns : List Column) :
    Rewriting V (Option (List (Expr V))) := do
  let s ← get
  if filter = [] then return none
  else if ∀ c ∈ Expr.columnsAll filter, c ∈ s.leftColumns ++ s.rightColumns then
    sourceColumns.forM keepSource
    return some (← rewriteFilter filter)
  else return none

end JoinFilterRewriter

end Verax.JoinFilters
