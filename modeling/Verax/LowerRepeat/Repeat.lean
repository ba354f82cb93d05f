import Mathlib.Order.Interval.Finset.Nat
import Verax.Lib.Walks
import Verax.LowerRepeat.Node

/-!
# Repeat

The node that matches a pattern repeated a number of times, with the conditions its constructor
checks, and what it means.

* `Repeat`: a Repeat whose checks hold, over inputs whose columns are their own.
* `Repeat.walksWithin`, `Repeat.walkRows`: its rows, one for each walk between the minimum and the maximum of hops from a
  start row to a matching end row.
-/

namespace Verax.LowerRepeat

open Verax.Lib Verax.Filters

/-! ### The node -/

/-- Source: `Node.h` `Repeat::Key`. -/
structure Repeat.Key where
  start : Node
  hop : Node
  /-- None when the walk ends at a row of `start`. -/
  endNode : Option Node
  startKeys : List Expr
  hopSourceKeys : List Expr
  hopDestinationKeys : List Expr
  endKeys : List Expr
  minHops : ℕ
  maxHops : ℕ
  outputColumns : List Column
  /-- Empty when each output is a column of `start` or `end`. -/
  sourceColumns : List Column
  hopCount : Option Column

namespace Repeat.Key

variable (key : Key)

/-- The explicit sources, or the outputs for a pass-through schema.
Source: `Node.h` `Repeat::Key::effectiveSourceColumns`. -/
def effectiveSourceColumns : List Column :=
  if key.sourceColumns = [] then key.outputColumns else key.sourceColumns

/-- The columns of the end, if it is separate. -/
def endColumns : List Column := (key.endNode.map Node.outputColumns).getD []

/-- The output may carry the source: a hop count supplies itself, a column of the start or the end
keeps its identity, and a column of the hop gives an array of its values or, for at most one hop,
its value. Types know no field names here, so equivalent types are equal.
Source: `Node.cpp` `Repeat::Repeat`, the loop over the sources. -/
def Carries (source output : Column) : Prop :=
  if key.hopCount = some output then source = output ∧ output.type = .bigint
  else if source ∈ key.start.outputColumns ++ key.endColumns then output = source
  else source ∈ key.hop.outputColumns ∧ output ≠ source ∧
    (output.type = .array source.type ∨ output.type = source.type ∧ key.maxHops ≤ 1)

end Repeat.Key

/-- A Repeat its constructor accepts. The hop counts are of type `int32_t`; the keys of an identity
column compare at one type; no column belongs to two of the inputs, and the hop count to none, as
each node makes its own columns; and outputs are not repeated, as for all nodes.
Source: `Node.h` `Repeat`, `Node.cpp` `Repeat::Repeat`, `checkKeysRead`. -/
structure Repeat extends Repeat.Key where
  startKeys_ne : startKeys ≠ []
  hopSource_types : hopSourceKeys.map Expr.type = startKeys.map Expr.type
  hopDestination_types : hopDestinationKeys.map Expr.type = startKeys.map Expr.type
  end_types : endKeys.map Expr.type = startKeys.map Expr.type
  minHops_le : minHops ≤ maxHops
  maxHops_lt : maxHops < 2 ^ 31
  not_oneHop : ¬(minHops = 1 ∧ maxHops = 1)
  startKeys_read : ∀ e ∈ startKeys, e.columns ⊆ start.outputColumns
  hopSourceKeys_read : ∀ e ∈ hopSourceKeys, e.columns ⊆ hop.outputColumns
  hopDestinationKeys_read : ∀ e ∈ hopDestinationKeys, e.columns ⊆ hop.outputColumns
  endKeys_read : ∀ e ∈ endKeys, e.columns ⊆ (endNode.getD start).outputColumns
  sources_length : toKey.effectiveSourceColumns.length = outputColumns.length
  carries : ∀ p ∈ toKey.effectiveSourceColumns.zip outputColumns, toKey.Carries p.1 p.2
  hopCount_mem : ∀ c, hopCount = some c → c ∈ outputColumns
  outputs_nodup : outputColumns.Nodup
  start_hop : start.outputColumns.Disjoint hop.outputColumns
  start_end : start.outputColumns.Disjoint toKey.endColumns
  end_hop : toKey.endColumns.Disjoint hop.outputColumns
  hopCount_fresh : ∀ c, hopCount = some c →
    c ∉ start.outputColumns ++ hop.outputColumns ++ toKey.endColumns

/-! ### Its rows -/

/-- A BIGINT. Out of range there is none. -/
def bigint (value : ℤ) : Value :=
  if h : -2 ^ 63 ≤ value ∧ value ≤ 2 ^ 63 - 1 then .integral ⟨value, h⟩ else .null

/-- The values of key expressions on a row. -/
def vertexOf (engine : Engine) (keys : List Expr) (row : Row) : List Value :=
  keys.map (engine.eval row)

namespace Repeat

variable (node : Repeat) (engine : Engine)

/-- Two vertices are the same: their identities compare as equal. -/
def sameVertex : List Value → List Value → Bool :=
  keysMatch engine (node.startKeys.map Expr.type)

/-- The value of an output for a walk: a column of its start or its end, the number of its hops, the
values on its hops from start to end, or the value on its one hop.
Source: `Node.h` `Repeat`, the comment on `outputColumns` and `hopCount`. -/
def outputValue (source output : Column) (startRow : Row) (hops : List Row) (endRow : Row) :
    Value :=
  if node.hopCount = some output then bigint hops.length
  else if source ∈ node.start.outputColumns then read startRow source
  else if source ∈ node.endColumns then read endRow source
  else if output.type = .array source.type then .list (.ofList (hops.map (read · source)))
  else match hops with
    | [hop] => read hop source
    | _ => .null

/-- The output row for a walk. -/
def outputRow (startRow : Row) (hops : List Row) (endRow : Row) : Row :=
  rowOf node.outputColumns
    (List.zipWith (fun source output => node.outputValue source output startRow hops endRow)
      node.effectiveSourceColumns node.outputColumns)

/-- The walks of a number of hops, with the rows they start and end at. -/
def walksOf (startRows hopRows endRows : Multiset Row) (hops : ℕ) :
    Multiset (Row × List Row × Row) :=
  match node.endNode with
  | some _ =>
      Walks.walks (node.sameVertex engine) (vertexOf engine node.hopSourceKeys)
        (vertexOf engine node.hopDestinationKeys) startRows (vertexOf engine node.startKeys) hopRows
        endRows (vertexOf engine node.endKeys) hops
  | none =>
      (Walks.closedWalks (node.sameVertex engine) (vertexOf engine node.hopSourceKeys)
        (vertexOf engine node.hopDestinationKeys) startRows (vertexOf engine node.startKeys) hopRows
        (vertexOf engine node.endKeys) hops).map fun w => (w.1, w.2, w.1)

/-- The walks of between `minHops` and `maxHops` hops. -/
def walksWithin (startRows hopRows endRows : Multiset Row) : Multiset (Row × List Row × Row) :=
  ∑ n ∈ Finset.Icc node.minHops node.maxHops, node.walksOf engine startRows hopRows endRows n

/-- The rows of a Repeat: one for each walk of between `minHops` and `maxHops` hops.
Source: `Node.h` `Repeat`. -/
def walkRows (startRows hopRows endRows : Multiset Row) : Multiset Row :=
  (node.walksWithin engine startRows hopRows endRows).map fun w => node.outputRow w.1 w.2.1 w.2.2

end Repeat

end Verax.LowerRepeat
