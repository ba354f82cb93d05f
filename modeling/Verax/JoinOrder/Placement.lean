import Verax.Plan.DistributedJoin
import Verax.JoinOrder.Candidates
import Verax.JoinOrder.CostModel
import Verax.JoinOrder.CoverColumns

/-!
# Where the rows of a join lie

The partitioning a join retains, and what a partitioning says of the rows that the tasks of a stage
hold. A row has a value for every column its subplan covers, whether or not an operator above reads
it.

* `joinOutputPartitioning`: `Join::outputPartitioning`.
* `Yields`, `Runs`: the rows of a plan, and the rows on each task when it runs on many.
* `Delivered`: the rows lie on the tasks as a partitioning says.
-/

set_option linter.unusedSectionVars false

namespace Verax.JoinOrder

open Verax.Lib Verax.Lib.Spreads Enumerator

variable {F σ : Type} [Add F] [BEq F] [LT F] [DecidableLT F]

/-! ### The partitioning a join retains -/

namespace Expr

/-- The expression over other columns. Source: `ExprFactory.cpp` `substitute`. -/
def substitute (pairs : List (Column × Column)) : Expr → Expr
  | .column c => .column ((pairs.lookup c).getD c)
  | .other id columns => .other id (columns.map fun c => (pairs.lookup c).getD c)

end Expr

/-- What is read of expressions and classes when a partitioning is carried over a join: whether two
keys are of one type, whose equal values are alike, and NULL wherever their columns are; the
coalesce of two keys; the columns of a class, in order; and what an Unnest expands.
Source: `Node.cpp` `supportsCoalesceKey`, `Builder.cpp` `canonicalizeCoalesce`, `QueryGraph.h`
`Equivalence`. -/
structure KeyFactory where
  coalesces : Expr → Expr → Bool
  canonicalizeCoalesce : Expr → Expr → Expr
  classColumns : ℕ → List Column
  unnestExpressions : ℕ → List Expr

section partitioning

variable (env : Env F σ) (k : KeyFactory)

/-- The partition function that two share, `some none` being the standard hash.
Source: `PhysicalProperties.cpp` `commonJoinPartitionType`. -/
def commonJoinPartitionType : Option ℕ → Option ℕ → Option (Option ℕ)
  | none, none => some none
  | some left, some right =>
    match env.copartitionedType left right with
    | none => none
    | some common =>
      if env.numPartitions common = env.numPartitions left ∧
          env.numPartitions common = env.numPartitions right then some (some common)
      else none
  | _, _ => none

/-- Every column that the expression reads is one of these.
Source: `PlanObject.cpp` `containsColumns`. -/
def containsColumns (columns : Finset Column) (e : Expr) : Bool := e.columns.all (· ∈ columns)

/-- The expression is one of these columns. Source: `PlanObject.h` `contains`. -/
def containsKey (columns : Finset Column) : Expr → Bool
  | .column c => c ∈ columns
  | .other .. => false

/-- Source: `Node.cpp` `survivingEquiKey`. -/
def survivingEquiKey (key : Expr) (outputColumns : Finset Column) : Option Expr :=
  match key with
  | .column c => c.equivalence.bind fun i =>
      ((k.classColumns i).find? (· ∈ outputColumns)).map .column
  | .other .. => none

/-- The coalesce of the join equality that places two keys.
Source: `Node.cpp` `fullJoinPartitioning`, the loop over the partition keys. -/
def coalescedKey (edge : JoinEdge) (leftKeys rightKeys : List Expr) (outputColumns : Finset Column)
    (keys : Expr × Expr) : Option Expr :=
  match (leftKeys.zip rightKeys).find? fun pair =>
      env.sameOrEqual keys.1 pair.1 && env.sameOrEqual keys.2 pair.2 with
  | none => none
  | some pair =>
    let outputs := edge.sourceColumns.zip edge.outputColumns
    let left := pair.1.substitute outputs
    let right := pair.2.substitute outputs
    if k.coalesces left right &&
        containsColumns outputColumns (k.canonicalizeCoalesce left right) then
      some (k.canonicalizeCoalesce left right)
    else none

/-- Source: `Node.cpp` `fullJoinPartitioning`. -/
def fullJoinPartitioning (left right : Partitioning) (leftKeys rightKeys : List Expr)
    (outputColumns : Finset Column) (edge : JoinEdge) : Partitioning :=
  if leftKeys.isEmpty || left.kind ≠ .partitioned || right.kind ≠ .partitioned ||
      left.replicateNullsAndAny || right.replicateNullsAndAny ||
      left.keys.length ≠ right.keys.length then .unspecified
  else
    match commonJoinPartitionType env left.partitionType right.partitionType with
    | none => .unspecified
    | some partitionType =>
      match (left.keys.zip right.keys).mapM
          (coalescedKey env k edge leftKeys rightKeys outputColumns) with
      | none => .unspecified
      | some keys => ⟨.partitioned, partitionType, keys, false⟩

/-- The keys of a partitioning as far as the output has them, or columns equal to them.
Source: `Node.cpp` `Join::outputPartitioning`, the loop over the keys. -/
def survivingKeys (keys : List Expr) (outputColumns : Finset Column) : Option (List Expr) :=
  keys.mapM fun key =>
    if containsColumns outputColumns key then some key
    else survivingEquiKey k key outputColumns

/-- The partition function that is retained: a shared one where both inputs have a connector's.
Source: `Node.cpp` `Join::outputPartitioning`. -/
def retainedType (source other : Option ℕ) : Option (Option ℕ) :=
  if source.isSome && other.isSome then commonJoinPartitionType env source other else some source

/-- The partitioning of one input, as far as the output has its keys.
Source: `Node.cpp` `Join::outputPartitioning`. -/
def retained (joinType : JoinType) (source other : Partitioning) (outputColumns : Finset Column) :
    Partitioning :=
  if source.kind ≠ .partitioned then source
  else
    match retainedType env source.partitionType other.partitionType with
    | none => .unspecified
    | some partitionType =>
      if source.keys.all (containsKey outputColumns) then
        { source with partitionType := partitionType }
      else if joinType ≠ .inner then .unspecified
      else
        match survivingKeys k source.keys outputColumns with
        | none => .unspecified
        | some keys => { source with partitionType := partitionType, keys := keys }

/-- Source: `Node.cpp` `Join::outputPartitioning`. -/
def outputPartitioning (joinType : JoinType) (left right : Partitioning)
    (leftKeys rightKeys : List Expr) (outputColumns : Finset Column) (edge : JoinEdge) :
    Partitioning :=
  if left.kind = .gather ∧ right.kind = .gather then .gather
  else if left.kind = .broadcast ∧ right.kind = .broadcast then left
  else if joinType = .full then
    fullJoinPartitioning env k left right leftKeys rightKeys outputColumns edge
  else
    let preserved := joinType.preservedSides
    if !preserved.left && !preserved.right then .unspecified
    else if preserved.left && !(preserved.right && left.kind = .broadcast) then
      retained env k joinType left right outputColumns
    else retained env k joinType right left outputColumns

/-- The partitioning of a candidate, an edge index always naming an edge.
Source: `DPhyp.cpp` `candidateOutputPartitioning`. -/
def joinOutputPartitioning (joinType : JoinType) (left right : Partitioning)
    (leftKeys rightKeys : List Expr) (combined : RelationSet) (edgeIndex : ℕ) : Partitioning :=
  match env.graph.edges[edgeIndex]? with
  | none => .unspecified
  | some edge =>
    outputPartitioning env k joinType left right leftKeys rightKeys
      (env.graph.coverOutputColumns k.unnestExpressions combined) edge

end partitioning

/-! ### Rows -/

/-- A value for each column, `none` being NULL. -/
abbrev Row (κ : Type) := Column → Option κ

/-- What the parts of a plan stand for: expressions, relations, Unnests and marks as rows of values,
and the task where a partition function sends the values of its keys. `home` is the task that rows
are gathered on. -/
structure Meaning (κ τ : Type) where
  eval : ℕ → List (Option κ) → Option κ
  truth : Expr → Row κ → Truth
  rows : ℕ → Multiset (Row κ)
  unnested : ℕ → Row κ → Multiset (Row κ)
  mark : ℕ → Truth → Row κ
  place : Option ℕ → List (Option κ) → τ
  home : τ

namespace Meaning

variable {κ τ : Type} (M : Meaning κ τ)

/-- The value of an expression on a row. -/
def value (e : Expr) (row : Row κ) : Option κ :=
  match e with
  | .column c => row c
  | .other id columns => M.eval id (columns.map row)

/-- An expression depends on the columns it reads. -/
lemma value_congr {e : Expr} {row row' : Row κ} (h : ∀ c ∈ e.columns, row c = row' c) :
    M.value e row = M.value e row' := by
  cases e with
  | column c => exact h c List.mem_cons_self
  | other id columns => exact congrArg (M.eval id) (List.map_congr_left h)

/-- An expression over other columns has the value that it has on the row they stand for. -/
lemma value_substitute (pairs : List (Column × Column)) (e : Expr) (row : Row κ) :
    M.value (e.substitute pairs) row = M.value e fun c => row ((pairs.lookup c).getD c) := by
  cases e with
  | column c => rfl
  | other id columns => simp [Expr.substitute, value, Function.comp_def]

end Meaning

/-! ### What a plan computes -/

section plans

variable (g : JoinHypergraph) {κ τ : Type} (M : Meaning κ τ)

/-- The columns of two inputs together; those of an input without a row are NULL. -/
def mergedRow (left right : RelationSet) (l r : Option (Row κ)) : Row κ := fun c =>
  if c ∈ g.coverColumns left then l.bind (· c)
  else if c ∈ g.coverColumns right then r.bind (· c) else none

/-- The output row of a join: the columns of its inputs, and those that its edge adds. A column that
is added for one of an input has its value; another is of the mark.
Source: `JoinTreeEmitter.cpp` `joinOutputColumns`. -/
def joinRow (edge : JoinEdge) (edgeIndex : ℕ) (left right : RelationSet) (l r : Option (Row κ))
    (mark : Truth) : Row κ := fun c =>
  if c ∈ g.coverColumns left ∨ c ∈ g.coverColumns right then mergedRow g left right l r c
  else
    match (edge.outputColumns.zip edge.sourceColumns).lookup c with
    | some source =>
      if source ∈ g.coverColumns left ∨ source ∈ g.coverColumns right then
        mergedRow g left right l r source
      else M.mark edgeIndex mark c
    | none => M.mark edgeIndex mark c

/-- A Filter above an operator keeps the row: it meets the conjuncts that are ready there and the
equalities of the filter edges. Source: `JoinTreeEmitter.cpp` `buildJoin`, `buildUnnest`. -/
def keepsRow [DecidableEq κ] (conjuncts : List Expr) (filterEdges : List ℕ) (row : Row κ) : Bool :=
  (conjuncts.all fun e => (M.truth e row).holds) &&
    (filterEdges.filterMap (g.edges[·]?)).all fun e => e.keyPairs.all fun p =>
      (Truth.eq (M.value p.1 row) (M.value p.2 row)).holds

/-- The rows that an Unnest makes of one of its input, filtered.
Source: `JoinTreeEmitter.cpp` `buildUnnest`. -/
def unnestRow [DecidableEq κ] (input : RelationSet) (edgeIndex : ℕ) (relation : RelationSet)
    (filterEdges : List ℕ) (row : Row κ) : Multiset (Row κ) :=
  ((M.unnested edgeIndex row).map fun made c =>
      if c ∈ g.coverColumns input then row c else made c).filter fun row =>
    keepsRow g M (DefaultCostModel.readyConjuncts g (input ∪ relation) [input]) filterEdges row

/-- A reversed anti join keeps the rows of its right input whose mark is false.
Source: `JoinTreeEmitter.cpp` `buildReversedAnti`. -/
def runType (joinType : JoinType) (reversedAnti : Bool) : JoinType :=
  if reversedAnti then .rightAnti else joinType

/-- The conjuncts that a Filter above a join applies: of an inner join they are its condition.
Source: `JoinTreeEmitter.cpp` `buildJoin`. -/
def conjunctsAbove (edge : JoinEdge) (left right : RelationSet) : List Expr :=
  if edge.joinType = .inner then []
  else DefaultCostModel.readyConjuncts g (left ∪ right) [left, right]

variable (env : Env F σ)

/-- The join of two subplans. Source: `JoinTreeEmitter.cpp` `buildJoin`, `buildReversedAnti`. -/
def joinSpec (edge : JoinEdge) (left right : MemoOp F) (edgeIndex : ℕ) (joinType : JoinType)
    (reversedAnti : Bool) (keyEdges : List ℕ) : JoinSpec (Row κ) κ :=
  let keys := orientedKeys left (edge :: keyEdges.filterMap (env.graph.edges[·]?))
  { joinType := runType joinType reversedAnti
    leftKeys := (keysInCoverSchema env keys.1 left.cover).map M.value
    rightKeys := (keysInCoverSchema env keys.2 right.cover).map M.value
    filter := (DefaultCostModel.appliedConjuncts env.graph edge left.cover right.cover).map
      fun e l r => M.truth e (mergedRow env.graph left.cover right.cover (some l) (some r))
    nullAware := edge.nullAware
    nullAsValue := edge.nullAsValue
    output := joinRow env.graph M edge edgeIndex left.cover right.cover }

variable [DecidableEq κ]

/-- The bags of rows that a plan may compute. An exchange only moves rows. -/
def Yields : MemoOp F → Set (Multiset (Row κ))
  | .leaf _ id _ => {M.rows id}
  | .unnest _ input edgeIndex relation filterEdges =>
    (fun W => W.bind (unnestRow env.graph M input.cover edgeIndex relation filterEdges)) ''
      Yields input
  | .join _ left right edgeIndex joinType reversedAnti keyEdges filterEdges _ =>
    {W | ∃ edge, env.graph.edges[edgeIndex]? = some edge ∧ ∃ A ∈ Yields left, ∃ B ∈ Yields right,
      ∃ O ∈ (joinSpec M env edge left right edgeIndex joinType reversedAnti keyEdges).outcomes A B,
        W = O.filter fun row => keepsRow env.graph M
          (conjunctsAbove env.graph edge left.cover right.cover) filterEdges row}
  | .exchange _ input _ => Yields input

/-- The task that a partitioning places a row on. -/
def Meaning.task (p : Partitioning) (row : Row κ) : τ :=
  M.place p.partitionType (p.keys.map (M.value · row))

/-- The rows that a task asks for of those that are replicated where a key is NULL. -/
def Meaning.asks (p : Partitioning) (t : τ) (row : Row κ) : Prop :=
  M.task p row = t ∨ ∃ key ∈ p.keys, M.value key row = none

variable [Fintype τ] [DecidableEq τ]

/-- The rows lie on the tasks as a partitioning says. With `replicateNullsAndAny`, each task has
also those with a NULL key, and one row at least if there is any.
Source: `PhysicalProperties.h` `PartitionKind`, `Partitioning`. -/
def Delivered (p : Partitioning) (W : Multiset (Row κ)) (S : τ → Multiset (Row κ)) : Prop :=
  match p.kind with
  | .unspecified | .arbitrary => gathered S = W
  | .gather => S = fun t => if t = M.home then W else 0
  | .broadcast => S = fun _ => W
  | .partitioned =>
    if p.replicateNullsAndAny then Shared (M.asks p) W S
    else S = fun t => W.filter (M.task p · = t)

/-- The rows that each task may hold when every operator runs on every task, over the rows there. An
exchange takes the rows of all tasks. -/
def Runs : MemoOp F → Set (τ → Multiset (Row κ))
  | .leaf _ id p => {S | Delivered M p (M.rows id) S}
  | .unnest _ input edgeIndex relation filterEdges =>
    (fun R t => (R t).bind (unnestRow env.graph M input.cover edgeIndex relation filterEdges)) ''
      Runs input
  | .join _ left right edgeIndex joinType reversedAnti keyEdges filterEdges _ =>
    {S | ∃ edge, env.graph.edges[edgeIndex]? = some edge ∧ ∃ L ∈ Runs left, ∃ R ∈ Runs right,
      ∃ O : τ → Multiset (Row κ), (∀ t, O t ∈ (joinSpec M env edge left right edgeIndex joinType
          reversedAnti keyEdges).outcomes (L t) (R t)) ∧
        S = fun t => (O t).filter fun row => keepsRow env.graph M
          (conjunctsAbove env.graph edge left.cover right.cover) filterEdges row}
  | .exchange _ input p => {S | ∃ R ∈ Runs input, Delivered M p (gathered R) S}

end plans

end Verax.JoinOrder
