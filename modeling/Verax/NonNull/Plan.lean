import Verax.Lib.PossibleBags
import Verax.Lib.Representatives
import Verax.NonNull.Expr
import Verax.Plan.Join

/-!
# Plans whose columns may be NULL

The nodes through which it is derived which columns are never NULL, and the rows they may output.
What the query engine computes, such as aggregates, window functions and ranks, is a parameter,
`PlanEngine`. A node of any other kind may output any rows.

* `Operator`, `Node`: nodes of one input that pass columns on, and all nodes.
* `Operator.Outputs`, `Node.Outputs`: the bags of rows a node may output.
* `Node.WellFormed`: what the nodes document of their columns.
-/

namespace Verax.NonNull

open QueryGraph Lib Lib.PossibleBags Lib.Representatives

/-! ### Nodes -/

/-- Source: `Schema.h` `OrderType`. -/
inductive OrderType
  | ascNullsFirst | ascNullsLast | descNullsFirst | descNullsLast

/-- Source: velox `TopNRowNumberNode::RankFunction`. -/
inductive RankFunction
  | rowNumber | rank | denseRank

/-- Source: velox `AggregationNode::Step`. -/
inductive AggregateStep
  | kPartial | kFinal | kIntermediate | kSingle
  deriving DecidableEq

/-- A call of a window function; the frame by its text.
Source: `Node.h` `WindowFunction`. -/
structure WindowFunction (V : Type) where
  call : Expr V
  frame : String
  ignoreNulls : Bool

/-- Source: `QueryGraph.h` `Aggregate`. -/
structure AggregateCall (V : Type) where
  name : String
  args : List (Expr V)
  isDistinct : Bool
  condition : Option (Expr V)
  orderKeys : List (Expr V × OrderType)

/-- Source: `Node.h` `GroupId::Key`. -/
structure GroupIdKey (V : Type) where
  groupingKeys : List (Expr V)
  aggregationInputs : List Column
  groupingSets : List (List ℕ)
  groupingKeyColumns : List Column
  groupId : Column

/-- Source: `Node.h` `Unnest::Key`. -/
structure UnnestKey (V : Type) where
  unnestExpressions : List (Expr V)
  replicatedColumns : List Column
  unnestColumns : List (List Column)
  ordinalityColumn : Option Column
  markerColumn : Option Column
  outputColumns : List Column

/-- Nodes of one input, except projections and aggregations. The keys of an order stand with their
types.
Source: `Node.h`, the keys of the nodes. -/
inductive Operator (V : Type) where
  | filter (predicates : List (Expr V))
  | limit (offset count : ℕ)
  | sort (orderKeys : List (Expr V × OrderType))
  | topN (orderKeys : List (Expr V × OrderType)) (offset count : ℕ)
  | groupId (key : GroupIdKey V)
  | markDistinct (markers : List Column) (distinctKeys : List (Expr V)) (masks : List Column)
  | unnest (key : UnnestKey V)
  | window (functions : List (WindowFunction V)) (partitionKeys : List (Expr V))
      (orderKeys : List (Expr V × OrderType)) (results : List Column)
  | inference (call : Expr V) (result : Column)
  | rowNumber (partitionKeys : List (Expr V)) (limit : Option ℕ) (rankColumn : Option Column)
  | topNRowNumber (rankFunction : RankFunction) (partitionKeys : List (Expr V))
      (orderKeys : List (Expr V × OrderType)) (limit : ℕ) (rankColumn : Option Column)
  | assignUniqueId (idColumn : Column)
  | enforceDistinct (distinctKeys : List (Expr V))
  | exchange (partitionKeys : List (Expr V))

/-- Source: `Node.h` `Aggregate::Key`. -/
structure AggregateKey (V : Type) where
  groupingKeys : List (Expr V)
  aggregates : List (AggregateCall V)
  outputColumns : List Column
  step : AggregateStep
  groupId : Option Column
  globalGroupingSets : List ℕ

/-- Source: `Node.h` `Join::Key`. -/
structure JoinKey (V : Type) where
  joinType : JoinType
  leftKeys : List (Expr V)
  rightKeys : List (Expr V)
  filter : List (Expr V)
  nullAware : Bool
  nullAsValue : Bool
  outputColumns : List Column
  sourceColumns : List Column

/-- Plan nodes; `other` is a node of any other kind.
Source: `Node.h`. -/
inductive Node (V : Type) where
  | project (input : Node V) (exprs : List (Expr V)) (outputColumns : List Column)
  | aggregate (input : Node V) (key : AggregateKey V)
  | unionAll (inputs : List (Node V)) (legColumns : List (List Column))
      (outputColumns : List Column)
  | join (left right : Node V) (key : JoinKey V)
  | operator (operator : Operator V) (input : Node V)
  | other (outputColumns : List Column)

variable {V : Type}

namespace Operator

/-- The columns an operator adds to those of its input. -/
def added : Operator V → List Column
  | groupId key => key.groupingKeyColumns ++ [key.groupId]
  | markDistinct markers _ _ => markers
  | unnest key =>
      key.unnestColumns.flatten ++ key.ordinalityColumn.toList ++ key.markerColumn.toList
  | window _ _ _ results => results
  | inference _ result => [result]
  | rowNumber _ _ rankColumn => rankColumn.toList
  | topNRowNumber _ _ _ _ rankColumn => rankColumn.toList
  | assignUniqueId idColumn => [idColumn]
  | _ => []

/-- The columns an operator outputs, given those of its input.
Source: `Node.h`, the documentation of each node. -/
def outputColumns (input : List Column) : Operator V → List Column
  | groupId key => key.groupingKeyColumns ++ key.aggregationInputs ++ [key.groupId]
  | unnest key => key.outputColumns
  | op => input ++ op.added

end Operator

/-- Source: `Node.h` `Node::outputColumns`. -/
def Node.outputColumns : Node V → List Column
  | project _ _ outputColumns => outputColumns
  | aggregate _ key => key.outputColumns
  | unionAll _ _ outputColumns => outputColumns
  | join _ _ key => key.outputColumns
  | operator op input => op.outputColumns input.outputColumns
  | other outputColumns => outputColumns

namespace JoinKey

variable (key : JoinKey V)

/-- Source: `Node.h` `Join::Key::effectiveSourceColumns`. -/
def effectiveSourceColumns : List Column :=
  if key.sourceColumns = [] then key.outputColumns else key.sourceColumns

/-- The output column that holds the mark of a semi-project join.
Source: `Node.cpp` `projectsMark`. -/
def markColumn : Option Column :=
  if key.joinType = .leftSemiProject ∨ key.joinType = .rightSemiProject then
    key.outputColumns.getLast?
  else none

/-- The input column that supplies an output column. -/
def sourceOf (c : Column) : Option Column :=
  if key.markColumn = some c then none
  else (key.outputColumns.zip key.effectiveSourceColumns).lookup c

end JoinKey

/-! ### Rows -/

/-- What the query engine computes for the nodes of a plan: what equality compares of a value, if
anything; which values are the same for a group, NULL being the same as NULL; Booleans, integers and
the elements of a collection; aggregates, window functions and ranks over rows in some order. -/
structure PlanEngine (V : Type) extends Engine V where
  key : V → Option V
  same : Option V → Option V → Bool
  truth : Option V → Truth
  ofTruth : Truth → Option V
  integer : ℕ → V
  elements : Option V → List (List (Option V))
  emptyOrdinality : Option V
  ordered : List (Expr V × OrderType) → List (Row V) → Prop
  aggregate : AggregateStep → AggregateCall V → List (Row V) → Set (Option V)
  window : List (WindowFunction V) → List (Expr V) → List (Expr V × OrderType) → List (Row V) →
    Set (List (List (Option V)))
  ranks : RankFunction → List (Expr V) → List (Expr V × OrderType) → List (Row V) → Set (List ℕ)

variable (engine : PlanEngine V)

namespace PlanEngine

/-- A value for each expression on a row. -/
def Tuple (row : Row V) (es : List (Expr V)) (tuple : List (Option V)) : Prop :=
  List.Forall₂ (fun e v => v ∈ engine.values row e) es tuple

/-- Two tuples are the same. -/
def SameTuple (v w : List (Option V)) : Prop := List.Forall₂ (fun a b => engine.same a b = true) v w

instance : DecidableRel engine.SameTuple := fun v w =>
  inferInstanceAs (Decidable (List.Forall₂ (fun a b => engine.same a b = true) v w))

end PlanEngine

namespace Operator

/-- What a filter makes of a row. -/
def filterStep (predicates : List (Expr V)) (row : Row V) (rows : Multiset (Row V)) : Prop :=
  (∃ tuple, engine.Tuple row predicates tuple ∧
      rows = if (Truth.all (tuple.map engine.truth)).holds then {row} else 0)

/-- What a `GroupId` makes of a row: a row for each grouping set, with NULL for the keys that are
not in the set. -/
def groupIdStep (key : GroupIdKey V) (row : Row V) (rows : Multiset (Row V)) : Prop :=
  ∃ tuple, engine.Tuple row key.groupingKeys tuple ∧
    rows = (key.groupingSets.mapIdx fun id set =>
      row.extend (key.groupingKeyColumns ++ [key.groupId])
        ((tuple.mapIdx fun i v => if i ∈ set then v else none) ++ [some (engine.integer id)]) :
          List (Row V))

/-- The values of the columns that an unnest makes for a position. -/
def unnestValues (key : UnnestKey V) (collections : List (List (List (Option V))))
    (position : ℕ) : List (Option V) :=
  (key.unnestColumns.zip collections).flatMap fun p =>
    p.1.mapIdx fun i _ => (p.2[position]?.bind fun element => element[i]?).join

/-- What an unnest makes of a row: a row for each position of the longest collection. Without any,
one with a marker keeps the row. -/
def unnestStep (key : UnnestKey V) (row : Row V) (rows : Multiset (Row V)) : Prop :=
  ∃ tuple, engine.Tuple row key.unnestExpressions tuple ∧
    let collections := tuple.map engine.elements
    let extend values := row.extend (unnest key : Operator V).added values
    rows =
      if collections.all (· = []) then
        if key.markerColumn.isSome then
          {extend (unnestValues key collections 0 ++
            key.ordinalityColumn.toList.map (fun _ => engine.emptyOrdinality) ++
            [engine.ofTruth (some false)])}
        else 0
      else (((List.range ((collections.map List.length).foldr max 0)).map fun position =>
        extend (unnestValues key collections position ++
          key.ordinalityColumn.toList.map (fun _ => some (engine.integer (position + 1))) ++
          [engine.ofTruth (some true)]) : List (Row V)) : Multiset (Row V))

/-- What an inference makes of a row. -/
def inferenceStep (call : Expr V) (result : Column) (row : Row V) (rows : Multiset (Row V)) :
    Prop :=
  ∃ v ∈ engine.values row call, rows = {row.extend [result] [v]}

/-- A row with the markers of a MarkDistinct, given the rows before it. A mask marks rows among
those where it holds. -/
def markedRow (markers masks : List Column) (seen : List (Row V × List (Option V)))
    (item : Row V × List (Option V)) : Row V :=
  item.1.extend markers
    (((fun _ => true) :: masks.map fun mask row => (engine.truth (row mask)).holds).map
      fun passes => engine.ofTruth
        (some (isFirst (fun p q => engine.SameTuple p.2 q.2) (fun p => passes p.1) seen item)))

/-- **The bags of rows an operator may output** for a bag of input rows. Ids differ; rows that are
to be distinct and are not raise an error.
Source: `Node.h`, the documentation of each node. -/
def Outputs : Operator V → Multiset (Row V) → Multiset (Row V) → Prop
  | filter predicates, rows, out => Each (filterStep engine predicates) rows out
  | limit offset count, rows, out => ∃ l : List (Row V), rows = l ∧ out = (l.drop offset).take count
  | sort _, rows, out => out = rows
  | topN orderKeys offset count, rows, out =>
      ∃ l : List (Row V), rows = l ∧ engine.ordered orderKeys l ∧ out = (l.drop offset).take count
  | groupId key, rows, out => Each (groupIdStep engine key) rows out
  | markDistinct markers distinctKeys masks, rows, out =>
      ∃ l : List (Row V × List (Option V)), rows = l.map Prod.fst ∧
        (∀ p ∈ l, engine.Tuple p.1 distinctKeys p.2) ∧
        out = mapSeen (markedRow engine markers masks) [] l
  | unnest key, rows, out => Each (unnestStep engine key) rows out
  | window functions partitionKeys orderKeys results, rows, out =>
      ∃ l : List (Row V), rows = l ∧ ∃ values ∈ engine.window functions partitionKeys orderKeys l,
        out = List.zipWith (fun row vs => row.extend results vs) l values
  | inference call result, rows, out => Each (inferenceStep engine call result) rows out
  | rowNumber partitionKeys atMost rankColumn, rows, out =>
      ∃ l : List (Row V), rows = l ∧ ∃ ranks ∈ engine.ranks .rowNumber partitionKeys [] l,
        out = ((l.zip ranks).filter fun p => atMost.all (p.2 ≤ ·)).map fun p =>
          p.1.extend rankColumn.toList [some (engine.integer p.2)]
  | topNRowNumber rankFunction partitionKeys orderKeys atMost rankColumn, rows, out =>
      ∃ l : List (Row V), rows = l ∧ ∃ ranks ∈ engine.ranks rankFunction partitionKeys orderKeys l,
        out = ((l.zip ranks).filter (·.2 ≤ atMost)).map fun p =>
          p.1.extend rankColumn.toList [some (engine.integer p.2)]
  | assignUniqueId idColumn, rows, out =>
      ∃ (l : List (Row V)) (ids : List ℕ), rows = l ∧ ids.length = l.length ∧ ids.Nodup ∧
        out = List.zipWith (fun row id => row.extend [idColumn] [some (engine.integer id)]) l ids
  | enforceDistinct distinctKeys, rows, out =>
      out = rows ∧ ∃ l : List (Row V × List (Option V)), rows = l.map Prod.fst ∧
        (∀ p ∈ l, engine.Tuple p.1 distinctKeys p.2) ∧
        l.Pairwise fun p q => ¬ engine.SameTuple p.2 q.2
  | exchange _, rows, out => out = rows

end Operator

namespace AggregateKey

variable (key : AggregateKey V)

/-- The keys of the rows an aggregation makes of no rows: one if it has no keys, and one for each
global grouping set, with NULL for all keys but the id of the set. -/
def defaults : List (List (Option V)) :=
  (if key.groupingKeys = [] then [[]] else []) ++
    key.globalGroupingSets.map fun set => key.groupingKeys.map fun
      | .column c => if key.groupId = some c then some (engine.integer set) else none
      | _ => none

/-- The row of a group: its key and its aggregates. -/
def GroupRow (part : List (Row V × List (Option V))) (tuple : List (Option V)) (row : Row V) :
    Prop :=
  ∃ results, List.Forall₂ (fun call v => v ∈ engine.aggregate key.step call
      ((part.filter fun p => decide (engine.SameTuple p.2 tuple)).map Prod.fst))
      key.aggregates results ∧
    row = Row.extend (fun _ => none) key.outputColumns (tuple ++ results)

/-- The rows an aggregation makes of some rows, each with its keys: a row for each group, or the
default rows if there are no rows. -/
def Groups (part : List (Row V × List (Option V))) (out : Multiset (Row V)) : Prop :=
  ∃ tuples : Multiset (List (Option V)),
    (if part = [] then tuples = key.defaults engine
      else Represents engine.SameTuple tuples (part.map Prod.snd)) ∧
    Multiset.Rel (key.GroupRow engine part) tuples out

/-- The bags of rows an aggregation may output. A step before the last groups parts of the rows. -/
def Outputs (rows out : Multiset (Row V)) : Prop :=
  ∃ parts : List (List (Row V × List (Option V))),
    rows = parts.flatten.map Prod.fst ∧
    (∀ p ∈ parts.flatten, engine.Tuple p.1 key.groupingKeys p.2) ∧
    (key.step = .kSingle ∨ key.step = .kFinal → parts.length = 1) ∧
    ∃ outs, List.Forall₂ (key.Groups engine) parts outs ∧ out = outs.sum

end AggregateKey

namespace JoinKey

variable (key : JoinKey V)

/-- A row of a join's input; a number tells apart rows that are equal. -/
abbrev Occurrence (V : Type) := ℕ × Row V

/-- The value of an input column, NULL where there is no row. -/
def valueAt (leftColumns : List Column) (l r : Option (Occurrence V)) (c : Column) : Option V :=
  if c ∈ leftColumns then l.bind (·.2 c) else r.bind (·.2 c)

/-- The output row for a pair of rows and a mark. -/
def outputRow (leftColumns : List Column) (l r : Option (Occurrence V)) (mark : Truth) : Row V :=
  fun c =>
    if key.markColumn = some c then engine.ofTruth mark
    else (key.sourceOf c).bind (valueAt leftColumns l r)

/-- The join as an operation on bags, given what its keys and its filter come to. -/
def spec (leftColumns : List Column) (leftKeys rightKeys : List (Occurrence V → Option V))
    (filter : List (Occurrence V → Occurrence V → Truth)) : JoinSpec (Occurrence V) V where
  joinType := key.joinType
  leftKeys := leftKeys
  rightKeys := rightKeys
  filter := filter
  nullAware := key.nullAware
  nullAsValue := key.nullAsValue
  output := fun l r mark => (0, key.outputRow engine leftColumns l r mark)

/-- What the join compares of a key of some rows. -/
def KeyValues (rows : Multiset (Occurrence V)) (e : Expr V) (compared : Occurrence V → Option V) :
    Prop :=
  ∀ row ∈ rows, ∃ v ∈ engine.values row.2 e, compared row = v.bind engine.key

/-- The bags of rows a join may output. -/
def Outputs [DecidableEq V] (leftColumns : List Column) (left right out : Multiset (Row V)) :
    Prop :=
  ∃ (A B O : Multiset (Occurrence V)) (leftKeys rightKeys : List (Occurrence V → Option V))
    (filter : List (Occurrence V → Occurrence V → Truth)),
    left = A.map Prod.snd ∧ right = B.map Prod.snd ∧ out = O.map Prod.snd ∧
    List.Forall₂ (KeyValues engine A) key.leftKeys leftKeys ∧
    List.Forall₂ (KeyValues engine B) key.rightKeys rightKeys ∧
    List.Forall₂ (fun e holds => ∀ a ∈ A, ∀ b ∈ B,
      ∃ v ∈ engine.values (valueAt leftColumns (some a) (some b)) e, holds a b = engine.truth v)
      key.filter filter ∧
    O ∈ (key.spec engine leftColumns leftKeys rightKeys filter).outcomes A B

end JoinKey

namespace Node

variable [DecidableEq V]

/-- What a projection makes of a row. -/
def projectStep (exprs : List (Expr V)) (outputColumns : List Column) (row : Row V)
    (rows : Multiset (Row V)) : Prop :=
  ∃ tuple, engine.Tuple row exprs tuple ∧
    rows = {Row.extend (fun _ => none) outputColumns tuple}

/-- The row of a union for a row of a leg. -/
def legRow (legColumns outputColumns : List Column) (row : Row V) : Row V :=
  Row.extend (fun _ => none) outputColumns (legColumns.map row)

mutual

/-- **The bags of rows a node may output.** -/
def Outputs : Node V → Multiset (Row V) → Prop
  | project input exprs outputColumns, out =>
      ∃ rows, Outputs input rows ∧ Each (projectStep engine exprs outputColumns) rows out
  | aggregate input key, out => ∃ rows, Outputs input rows ∧ key.Outputs engine rows out
  | unionAll inputs legColumns outputColumns, out =>
      ∃ legs, AllOutput inputs legs ∧
        out = (List.zipWith (fun columns rows => rows.map (legRow columns outputColumns))
          legColumns legs).sum
  | join left right key, out =>
      ∃ A B, Outputs left A ∧ Outputs right B ∧ key.Outputs engine left.outputColumns A B out
  | operator op input, out => ∃ rows, Outputs input rows ∧ op.Outputs engine rows out
  | other _, _ => True

/-- The bags of rows some nodes may output. -/
def AllOutput : List (Node V) → List (Multiset (Row V)) → Prop
  | [], legs => legs = []
  | input :: inputs, legs => ∃ rows rest, Outputs input rows ∧ AllOutput inputs rest ∧
      legs = rows :: rest

end

end Node

/-! ### Well-formedness -/

/-- The columns that an operator adds are new.
Source: `Node.h` `GroupId::Key`, `Unnest`, and the documentation of the other nodes. -/
def Operator.WellFormed (input : List Column) (op : Operator V) : Prop :=
  ∀ c ∈ op.added, c ∉ input

/-- A join compares columns of each input on its side; a column it outputs is an input column, which
supplies itself, or a new one.
Source: `Node.h` `Join`, `Node.cpp` `Join::Join`. -/
structure JoinKey.WellFormed (registry : Registry) (left right : List Column) (key : JoinKey V) :
    Prop where
  aligned : key.outputColumns.length = key.effectiveSourceColumns.length
  disjoint : ∀ c ∈ left, c ∉ right
  leftKeys : ∀ e ∈ key.leftKeys, e.WellFormed registry ∧ ∀ c ∈ e.columns, c ∈ left
  rightKeys : ∀ e ∈ key.rightKeys, e.WellFormed registry ∧ ∀ c ∈ e.columns, c ∈ right
  keys : key.leftKeys.length = key.rightKeys.length
  mark : ∀ c, key.markColumn = some c → c ∉ left ∧ c ∉ right
  sources : ∀ p ∈ key.outputColumns.zip key.effectiveSourceColumns, key.markColumn ≠ some p.1 →
    p.1 ≠ p.2 → p.1 ∉ left ∧ p.1 ∉ right

/-- The columns a `GroupId` at a node or below it makes of its keys, as far as they are passed on.
An input that was found to be empty stands for what was above it. -/
def Node.groupingColumns : Node V → List Column
  | .operator (.groupId key) _ => key.groupingKeyColumns
  | .operator _ input => input.groupingColumns
  | .project input exprs outputColumns => ((exprs.zip outputColumns).filter fun p =>
      match p.1 with
      | .column c => c ∈ input.groupingColumns
      | _ => false).map Prod.snd
  | .aggregate input key => ((key.groupingKeys.zip key.outputColumns).filter fun p =>
      match p.1 with
      | .column c => c ∈ input.groupingColumns
      | _ => false).map Prod.snd
  | .other outputColumns => outputColumns
  | _ => []

/-- An aggregation has an output column for each key and aggregate. One with global grouping sets
groups by the columns of a `GroupId`.
Source: `Node.h` `Aggregate`, `Node.cpp` `Aggregate::Aggregate`. -/
structure AggregateKey.WellFormed (registry : Registry) (input : Node V) (key : AggregateKey V) :
    Prop where
  keys : ∀ e ∈ key.groupingKeys, e.WellFormed registry
  aligned : key.outputColumns.length = key.groupingKeys.length + key.aggregates.length
  distinct : key.outputColumns.Nodup
  groupId : key.groupId.isSome ↔ key.globalGroupingSets ≠ []
  grouping : key.globalGroupingSets ≠ [] → ∀ e ∈ key.groupingKeys,
    ∃ c, e = .column c ∧ (key.groupId = some c ∨ c ∈ input.groupingColumns)

mutual

/-- What the nodes document of their columns: no column stands for two things.
Source: `Node.h`, the documentation of each node. -/
def Node.WellFormed (registry : Registry) : Node V → Prop
  | .project input exprs outputColumns =>
      Node.WellFormed registry input ∧ (∀ e ∈ exprs, e.WellFormed registry) ∧
        outputColumns.length = exprs.length ∧ outputColumns.Nodup
  | .aggregate input key => Node.WellFormed registry input ∧ key.WellFormed registry input
  | .unionAll inputs legColumns outputColumns =>
      Node.AllWellFormed registry inputs ∧ legColumns.length = inputs.length ∧
        (∀ columns ∈ legColumns, columns.length = outputColumns.length) ∧ outputColumns.Nodup
  | .join left right key =>
      Node.WellFormed registry left ∧ Node.WellFormed registry right ∧
        key.WellFormed registry left.outputColumns right.outputColumns
  | .operator op input => Node.WellFormed registry input ∧ op.WellFormed input.outputColumns
  | .other _ => True

/-- Some nodes are well-formed. -/
def Node.AllWellFormed (registry : Registry) : List (Node V) → Prop
  | [] => True
  | input :: inputs => Node.WellFormed registry input ∧ Node.AllWellFormed registry inputs

end

end Verax.NonNull
