import Verax.Filters.Expr
import Verax.Lib.Accumulation
import Verax.Lib.BagJoin

/-!
# Plans with loops

The plan nodes `LowerRepeatPass.cpp` builds, the checks their constructors make, and the bag of rows
each computes. Rows are read through their columns; a node that renames or computes columns writes
new rows. The rows of the tables are a parameter, and a `scan` stands for any plan whose rows depend
on no recursive state.

* `Node.requiredStates`, `countStateReads`: the recursive states a plan reads.
* `Builder.project`, `Builder.filter`, `Builder.join`, `Builder.fixedPoint`: construction with its
  checks.
* `Node.rows`: the rows a plan computes from the tables and the states it reads.

A FixedPoint is one in append mode without a convergence, as the pass builds it; a UnionAll has two
legs. Partitioning and the other physical properties are left out.
-/

namespace Verax.LowerRepeat

open Verax.Lib Verax.Filters

/-! ### Rows -/

/-- The value a row has for a column. -/
def read (row : Row) (c : Column) : Value := .conform c.type (row c)

/-- The values a row has for columns. -/
def readAll (row : Row) (columns : List Column) : List Value := columns.map (read row)

/-- The row with the given values for columns, and NULL for the others. -/
def rowOf (columns : List Column) (values : List Value) : Row :=
  fun c => ((columns.zip values).lookup c).getD .null

/-- The row of a join: the columns of the left input from its row, the others from the right one's,
as far as they are output. -/
def joinedRow (leftColumns outputColumns : List Column) (left right : Row) : Row :=
  fun c => if c ∈ outputColumns then if c ∈ leftColumns then left c else right c else .null

/-- The keys of a join are equal: none compares as false or unknown. -/
def keysMatch (engine : Engine) : List SqlType → List Value → List Value → Bool
  | type :: types, a :: as, b :: bs =>
      decide (engine.compareValues .equality type a b = some true) && keysMatch engine types as bs
  | _, _, _ => true

/-! ### Nodes -/

/-- Source: `Node.h` `Project`, `Filter`, `Join`, `UnionAll`, `WorkingTable`, `FixedPoint`. -/
inductive Node where
  | scan (table : ℕ) (outputColumns : List Column)
  | project (input : Node) (exprs : List Expr) (outputColumns : List Column)
  | filter (input : Node) (predicates : List Expr)
  | join (left right : Node) (leftKeys rightKeys : List Expr) (outputColumns : List Column)
  | unionAll (left right : Node) (leftColumns rightColumns outputColumns : List Column)
  | workingTable (name : ℕ) (stateColumns outputColumns : List Column)
  | fixedPoint (anchor step : Node) (name : ℕ) (outputColumns sourceColumns : List Column)
      (maxIterations : ℤ) (failAtBound : Bool)

namespace Node

/-- Source: `Node.h` `Node::outputColumns`. -/
def outputColumns : Node → List Column
  | scan _ outputColumns => outputColumns
  | project _ _ outputColumns => outputColumns
  | filter input _ => input.outputColumns
  | join _ _ _ _ outputColumns => outputColumns
  | unionAll _ _ _ _ outputColumns => outputColumns
  | workingTable _ _ outputColumns => outputColumns
  | fixedPoint _ _ _ outputColumns _ _ _ => outputColumns

/-- The columns of a list that a node outputs, in the order of the list.
Source: `Node.cpp` `Node::outputsAmong`. -/
def outputsAmong (node : Node) (columns : List Column) : List Column :=
  columns.filter (· ∈ node.outputColumns)

/-- The recursive states a node reads and does not bind, with the columns it reads them by.
Source: `Node.cpp` `deriveRequiredStates` of `Node`, `WorkingTable` and `FixedPoint`. -/
def requiredStates : Node → List (ℕ × List Column)
  | scan _ _ => []
  | project input _ _ => input.requiredStates
  | filter input _ => input.requiredStates
  | join left right _ _ _ => left.requiredStates ∪ right.requiredStates
  | unionAll left right _ _ _ => left.requiredStates ∪ right.requiredStates
  | workingTable name stateColumns _ => [(name, stateColumns)]
  | fixedPoint anchor step name _ _ _ _ =>
      (anchor.requiredStates ∪ step.requiredStates).filter (·.1 ≠ name)

/-- The nodes that read a state.
Source: `Node.cpp` `WorkingTable::forEachRead`, `countStateReads`. -/
def countStateReads (state : ℕ) : Node → ℕ
  | scan _ _ => 0
  | project input _ _ => input.countStateReads state
  | filter input _ => input.countStateReads state
  | join left right _ _ _ => left.countStateReads state + right.countStateReads state
  | unionAll left right _ _ _ => left.countStateReads state + right.countStateReads state
  | workingTable name _ _ => if name = state then 1 else 0
  | fixedPoint anchor step name _ _ _ _ =>
      if name = state then 0 else anchor.countStateReads state + step.countStateReads state

end Node

/-! ### Construction -/

namespace Builder

/-- Source: `Node.cpp` `Project::Project`. -/
def project (input : Node) (exprs : List Expr) (outputColumns : List Column) :
    Except String Node :=
  if outputColumns.length = exprs.length then .ok (.project input exprs outputColumns)
  else .error "Project has one expression for each output column"

/-- Source: `Node.cpp` `Filter::Filter`. -/
def filter (input : Node) (predicates : List Expr) : Except String Node :=
  if predicates = [] then .error "Filter must have at least one predicate"
  else .ok (.filter input predicates)

/-- An inner join whose columns keep their identities.
Source: `Node.cpp` `Join::Join`. -/
def join (left right : Node) (leftKeys rightKeys : List Expr) (outputColumns : List Column) :
    Except String Node :=
  if leftKeys.length ≠ rightKeys.length then .error "Join has as many left keys as right keys"
  else if ∀ c ∈ outputColumns, c ∈ left.outputColumns ∨ c ∈ right.outputColumns then
    .ok (.join left right leftKeys rightKeys outputColumns)
  else .error "Join source column must come from an input"

/-- Source: `Node.cpp` `FixedPoint::FixedPoint`, `checkBranchReadsState`. -/
def fixedPoint (anchor step : Node) (name : ℕ) (outputColumns sourceColumns : List Column)
    (maxIterations : ℤ) : Except String Node :=
  if outputColumns = [] then .error "FixedPoint must have an output column"
  else if maxIterations < 1 then .error "FixedPoint maxIterations must be at least one"
  else if anchor.requiredStates ≠ [] then
    .error "FixedPoint anchor must not read its working table"
  else match step.requiredStates.lookup name with
    | none => .error "FixedPoint step must read its working table"
    | some columns =>
        if columns ≠ outputColumns then
          .error ("FixedPoint step WorkingTable state columns must match the fixed-point output " ++
            "by pointer identity")
        else if step.requiredStates.length ≠ 1 then
          .error "FixedPoint step must read only the state this fixed point binds"
        else if step.countStateReads name ≠ 1 then
          .error "FixedPoint step must read its state through one WorkingTable"
        else .ok (.fixedPoint anchor step name outputColumns sourceColumns maxIterations true)

end Builder

/-! ### The rows of a plan -/

/-- Why a plan computes no rows. -/
inductive Failure where
  | boundReached
  | unboundState (name : ℕ)
  deriving DecidableEq

/-- The latest rows of the states a plan may read. -/
abbrev States := ℕ → Option (Multiset Row)

/-- The states inside a loop: its own has the latest rows. -/
def States.bind (states : States) (name : ℕ) (delta : Multiset Row) : States :=
  fun state => if state = name then some delta else states state

/-- The rows a plan computes. The anchor of a loop reads no recursive state.
Source: `Node.h` `Project`, `Filter`, `Join`, `UnionAll`, `WorkingTable`, and the loop of
`FixedPoint`. -/
def Node.rows (engine : Engine) (tables : ℕ → Multiset Row) :
    Node → States → Except Failure (Multiset Row)
  | scan table _, _ => .ok (tables table)
  | project input exprs outputColumns, states => do
      let rows ← input.rows engine tables states
      return rows.map fun row => rowOf outputColumns (exprs.map (engine.eval row))
  | filter input predicates, states => do
      let rows ← input.rows engine tables states
      return rows.filter fun row => ∀ p ∈ predicates, (engine.eval row p).truth = some true
  | join left right leftKeys rightKeys outputColumns, states => do
      let leftRows ← left.rows engine tables states
      let rightRows ← right.rows engine tables states
      let on (l r : Row) := keysMatch engine (leftKeys.map Expr.type)
        (leftKeys.map (engine.eval l)) (rightKeys.map (engine.eval r))
      return (BagJoin.inner on leftRows rightRows).map
        fun p => joinedRow left.outputColumns outputColumns p.1 p.2
  | unionAll left right leftColumns rightColumns outputColumns, states => do
      let leftRows ← left.rows engine tables states
      let rightRows ← right.rows engine tables states
      return leftRows.map (fun row => rowOf outputColumns (readAll row leftColumns)) +
        rightRows.map (fun row => rowOf outputColumns (readAll row rightColumns))
  | workingTable name stateColumns outputColumns, states =>
      match states name with
      | none => .error (.unboundState name)
      | some delta => .ok (delta.map fun row => rowOf outputColumns (readAll row stateColumns))
  | fixedPoint anchor step name outputColumns sourceColumns maxIterations failAtBound, states => do
      let rows ← anchor.rows engine tables fun _ => none
      let delta := rows.map fun row => rowOf outputColumns (readAll row sourceColumns)
      Accumulation.accumulate
        (fun delta => do
          let rows ← step.rows engine tables (states.bind name delta)
          return rows.map fun row => rowOf outputColumns (readAll row step.outputColumns))
        (fun result => if failAtBound then .error .boundReached else .ok result)
        maxIterations.toNat delta delta

end Verax.LowerRepeat
