import Verax.Lib.PossibleBags
import Verax.Unnests.Expr

/-!
# Trees of unnests

The nodes through which the pushdown pass carries whether duplicates matter, and the rows they give.
What is below them is a leaf with some rows.

* `UnnestKey.rows`: the rows an unnest gives for an input row.
* `Tree`: filters, projections, sorts and unnests over a leaf; `Tree.Runs`: the rows they may give.
* `Tree.WellFormed`: what the constructors of the nodes check.
-/

namespace Verax.Unnests

open Lib Lib.PossibleBags

variable {V : Type}

/-! ### Rows -/

/-- A row without the columns that are not in a list. -/
def keepColumns (null : V) (columns : List Column) (row : Row V) : Row V :=
  fun c => if c ∈ columns then row c else null

/-- The value of a column of a literal row. -/
def valueOf (row : List (Column × V)) (c : Column) : Option V :=
  (row.find? fun p => p.1 = c).map Prod.snd

/-- A literal row. -/
def literalRow (null : V) (row : List (Column × V)) : Row V :=
  fun c => (valueOf row c).getD null

/-! ### Unnest -/

/-- An unnest of some collections: a row for each position of the longest one. `marker` keeps an
input row whose collections are all empty.
Source: `Node.h` `Unnest::Key`. -/
structure UnnestKey (V : Type) where
  unnestExpressions : List (Expr V)
  replicatedColumns : List Column
  unnestColumns : List (List Column)
  ordinalityColumn : Option Column
  markerColumn : Option Column
  outputColumns : List Column

namespace UnnestKey

variable (key : UnnestKey V) (engine : Engine V)

/-- The columns that the unnest makes. -/
def producedColumns : List Column :=
  key.unnestColumns.flatten ++ key.ordinalityColumn.toList ++ key.markerColumn.toList

/-- How many rows the unnest gives for some collections. -/
def rowCount (collections : List (List (List V))) : ℕ := (collections.map List.length).foldr max 0

/-- The value of a result column: of the element at a position, NULL past the end. -/
def elementAt (null : V) (collections : List (List (List V))) (position : ℕ) (c : Column) :
    Option V :=
  (key.unnestColumns.zip collections).findSome? fun p =>
    if c ∈ p.1 then
      some ((p.2[position]?.bind fun element => element[p.1.idxOf c]?).getD null)
    else none

/-- The row of a position. -/
def rowAt (row : Row V) (collections : List (List (List V))) (position : ℕ) : Row V :=
  keepColumns engine.null key.outputColumns fun c =>
    if c ∈ key.replicatedColumns then row c
    else
      match key.elementAt engine.null collections position c with
      | some value => value
      | none =>
          if key.ordinalityColumn = some c then engine.integer (position + 1)
          else if key.markerColumn = some c then engine.boolean true
          else engine.null

/-- The row of an input row whose collections are all empty. -/
def emptyRow (row : Row V) : Row V :=
  keepColumns engine.null key.outputColumns fun c =>
    if c ∈ key.replicatedColumns then row c
    else if key.ordinalityColumn = some c then engine.emptyOrdinality
    else if key.markerColumn = some c then engine.boolean false
    else engine.null

/-- The rows of an input row; a NULL collection is an empty one.
Source: `Node.h` `Unnest`, the comments of its key. -/
def rows (row : Row V) (values : List V) : Multiset (Row V) :=
  let collections := values.map fun v => (engine.collection v).getD []
  if rowCount collections = 0 then
    if key.markerColumn.isSome then {key.emptyRow engine row} else 0
  else ((List.range (rowCount collections)).map (key.rowAt engine row collections) :
    Multiset (Row V))

end UnnestKey

/-! ### Trees -/

/-- Nodes over a leaf. `values` is a `Values` with one row; the predicates of a filter are the
conjuncts of its condition. -/
inductive Tree (V : Type) where
  | leaf (columns : List Column)
  | values (row : List (Column × V))
  | filter (child : Tree V) (predicates : List (Expr V))
  | project (child : Tree V) (assignments : List (Column × Expr V))
  | sort (child : Tree V) (orderKeys : List (Expr V))
  | unnest (child : Tree V) (key : UnnestKey V)

/-- What predicates may say of a row. -/
def Passes (engine : Engine V) (predicates : List (Expr V)) (row : Row V) : Bool → Prop
  | true => ∀ p ∈ predicates, ∃ v ∈ engine.values row p, engine.holds v = true
  | false => ∃ p ∈ predicates, ∃ v ∈ engine.values row p, engine.holds v = false

/-- What a filter makes of a row. -/
def filterStep (engine : Engine V) (predicates : List (Expr V)) (row : Row V)
    (rows : Multiset (Row V)) : Prop :=
  Passes engine predicates row true ∧ rows = {row} ∨ Passes engine predicates row false ∧ rows = 0

/-- What a projection makes of a row. -/
def projectStep (engine : Engine V) (assignments : List (Column × Expr V)) (row : Row V)
    (rows : Multiset (Row V)) : Prop :=
  ∃ output : Row V, (∀ a ∈ assignments, output a.1 ∈ engine.values row a.2) ∧
    (∀ c, c ∉ assignments.map Prod.fst → output c = engine.null) ∧ rows = {output}

/-- What an unnest makes of a row. -/
def unnestStep (engine : Engine V) (key : UnnestKey V) (row : Row V) (rows : Multiset (Row V)) :
    Prop :=
  ∃ values ∈ engine.valuesAll row key.unnestExpressions, rows = key.rows engine row values

namespace Tree

/-- Source: `Node.h` `Node::outputColumns`. -/
def outputColumns : Tree V → List Column
  | leaf columns => columns
  | values row => row.map Prod.fst
  | filter child _ => child.outputColumns
  | project _ assignments => assignments.map Prod.fst
  | sort child _ => child.outputColumns
  | unnest _ key => key.outputColumns

/-- The columns of the tree. -/
def allColumns : Tree V → List Column
  | leaf columns => columns
  | values row => row.map Prod.fst
  | filter child _ => child.allColumns
  | project child assignments => assignments.map Prod.fst ++ child.allColumns
  | sort child _ => child.allColumns
  | unnest child key => key.producedColumns ++ child.allColumns

/-- The bags of rows a tree may give, over a leaf with some rows. -/
def Runs (engine : Engine V) (leafRows : Multiset (Row V)) : Tree V → Multiset (Row V) → Prop
  | leaf columns, rows => rows = leafRows.map (keepColumns engine.null columns)
  | values row, rows => rows = {literalRow engine.null row}
  | filter child predicates, rows =>
      ∃ input, child.Runs engine leafRows input ∧ Each (filterStep engine predicates) input rows
  | project child assignments, rows =>
      ∃ input, child.Runs engine leafRows input ∧ Each (projectStep engine assignments) input rows
  | sort child _, rows => child.Runs engine leafRows rows
  | unnest child key, rows =>
      ∃ input, child.Runs engine leafRows input ∧ Each (unnestStep engine key) input rows

end Tree

/-! ### Well-formedness -/

/-- An unnest over some columns.
Source: `Node.cpp` `Unnest::Unnest`. -/
structure UnnestKey.WellFormed (key : UnnestKey V) (child : Tree V) : Prop where
  expressions : key.unnestExpressions ≠ []
  aligned : key.unnestColumns.length = key.unnestExpressions.length
  reads : ∀ c ∈ Expr.columnsAll key.unnestExpressions, c ∈ child.outputColumns
  replicated : ∀ c ∈ key.replicatedColumns, c ∈ child.outputColumns
  fresh : ∀ c ∈ key.producedColumns, c ∉ child.allColumns
  outputs : ∀ c ∈ key.outputColumns, c ∈ key.replicatedColumns ∨ c ∈ key.producedColumns

/-- Each node reads columns of its input and makes new ones: no column stands for two things.
Source: `Node.cpp`, the constructors of the nodes. -/
def Tree.WellFormed : Tree V → Prop
  | .leaf _ => True
  | .values _ => True
  | .filter child predicates =>
      child.WellFormed ∧ ∀ c ∈ Expr.columnsAll predicates, c ∈ child.outputColumns
  | .project child assignments =>
      child.WellFormed ∧ (assignments.map Prod.fst).Nodup ∧
        (∀ c ∈ Expr.columnsAll (assignments.map Prod.snd), c ∈ child.outputColumns) ∧
        ∀ a ∈ assignments, a.1 ∈ child.allColumns → ∀ c, a.2 = .column c → c = a.1
  | .sort child orderKeys =>
      child.WellFormed ∧ ∀ c ∈ Expr.columnsAll orderKeys, c ∈ child.outputColumns
  | .unnest child key => child.WellFormed ∧ key.WellFormed child

end Verax.Unnests
