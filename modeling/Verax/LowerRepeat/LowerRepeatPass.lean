import Mathlib.Algebra.Order.Ring.Rat
import Verax.LowerRepeat.Repeat

/-!
# Lowering a Repeat

The pass that replaces a Repeat by a loop over its hops or, for at most one hop, by a union. The
walks leave from the side with fewer estimated rows; a walk that leaves from the end meets the hops
in reverse.

* `Lowering.walkOf`: the side the walks leave from.
* `Lowering.makeAnchor`, `makeFixedPoint`, `makeShortWalks`, `extendByOneHop`, `makeResult`: the
  parts of the plan.
* `Lowering.rewriteRepeat`: the pass on a Repeat whose inputs are lowered already.

Column names are left out: a column is known by its identity and type. The substitutions this pass
makes replace columns by columns.
-/

namespace Verax.LowerRepeat

open Verax.Filters

/-! ### Building -/

/-- A computation that makes columns and names from the next free number, and may fail a check. -/
abbrev Build := StateT ℕ (Except String)

/-- A node's construction with its checks. -/
def Build.check {α : Type} (made : Except String α) : Build α := fun next => made.map (·, next)

/-- Source: `QueryGraph.cpp` `Column::create`, `Column::createWithUnknownValue`. -/
def createColumn (type : SqlType) : Build Column :=
  modifyGet fun next => (⟨next, type⟩, next + 1)

/-- Source: `QueryGraphContext.cpp` `newName`. -/
def newName : Build ℕ := modifyGet fun next => (next, next + 1)

/-- New columns of the given types. -/
def createColumns : List SqlType → Build (List Column)
  | [] => return []
  | type :: types => do
      let column ← createColumn type
      let columns ← createColumns types
      return column :: columns

/-- Source: `LowerRepeatPass.cpp` `createWithUnknownValues`. -/
def createWithUnknownValues (columns : List Column) : Build (List Column) :=
  createColumns (columns.map Column.type)

/-- Source: `LowerRepeatPass.cpp` `toExprs`. -/
def toExprs (columns : List Column) : List Expr := columns.map .column

/-- Appends the columns expressions read that the columns do not hold yet.
Source: `LowerRepeatPass.cpp` `appendColumnsRead`. -/
def appendColumnsRead (exprs : List Expr) (columns : List Column) : List Column :=
  columns ++ (exprs.foldr (fun e read => e.columns ∪ read) []).filter (· ∉ columns)

/-! ### Expressions -/

/-- Source: `LowerRepeatPass.cpp` `Lowering::bigint`. -/
def bigintLiteral (value : ℤ) : Expr := .literal (bigint value) .bigint

/-- Source: `Builder.h` `makeNull`. -/
def makeNull (type : SqlType) : Expr := .literal .null type

/-- Source: `Builder.h` `makeEmptyArray`. -/
def makeEmptyArray (arrayType : SqlType) : Expr := .literal (.list .nil) arrayType

/-- Source: `ExprFactory.cpp` `makeEq`. -/
def makeEq (lhs rhs : Expr) : Expr := .apply .equality [lhs, rhs] .boolean

/-- Source: `ExprFactory.cpp` `makeLessThan`. -/
def makeLessThan (lhs rhs : Expr) : Expr := .apply .lt [lhs, rhs] .boolean

/-- Source: `ExprFactory.cpp` `makeGreaterThanOrEqual`. -/
def makeGreaterThanOrEqual (lhs rhs : Expr) : Expr := .apply .gte [lhs, rhs] .boolean

/-- Source: `ExprFactory.cpp` `makeBigintAdd`. -/
def makeBigintAdd (lhs rhs : Expr) : Expr := .apply (.named "plus") [lhs, rhs] .bigint

/-- Source: `ExprFactory.cpp` `makeArrayAppend`. -/
def makeArrayAppend (array element : Expr) : Expr :=
  .apply (.named "array_append") [array, element] array.type

/-- Source: `ExprFactory.cpp` `makeArrayPrepend`. -/
def makeArrayPrepend (element array : Expr) : Expr :=
  .apply (.named "array_prepend") [element, array] array.type

mutual

/-- The expression with columns replaced.
Source: `ExprFactory.cpp` `ExprFactory::replace`. -/
def replaceColumns (σ : Column → Column) : Expr → Expr
  | .column c => .column (σ c)
  | .literal value type => .literal value type
  | .field base name type => .field (replaceColumns σ base) name type
  | .call name args type => .call name (replaceAllColumns σ args) type

/-- The arguments with columns replaced. -/
def replaceAllColumns (σ : Column → Column) : Exprs → Exprs
  | .nil => .nil
  | .cons head tail => .cons (replaceColumns σ head) (replaceAllColumns σ tail)

end

/-- What each column is replaced by. Source: `PlanSubstitutions.h` `PlanSubstitutions`. -/
abbrev PlanSubstitutions := List (Column × Column)

namespace PlanSubstitutions

/-- The column a column is replaced by. -/
def target (substitutions : PlanSubstitutions) (c : Column) : Column :=
  (substitutions.lookup c).getD c

/-- Source: `PlanSubstitutions.cpp` `add`. -/
def add (substitutions : PlanSubstitutions) (source replacement : Column) :
    Except String PlanSubstitutions :=
  match substitutions.lookup source with
  | none => .ok (substitutions ++ [(source, replacement)])
  | some existing =>
      if existing = replacement then .ok substitutions
      else .error "Conflicting substitutions for expression"

/-- Adds a substitution for each of several columns. -/
def addAll (substitutions : PlanSubstitutions) :
    List Column → List Column → Except String PlanSubstitutions
  | source :: sources, replacement :: replacements => do
      let substitutions ← substitutions.add source replacement
      addAll substitutions sources replacements
  | _, _ => .ok substitutions

/-- Up to a number of rounds of replacing, until nothing changes. -/
def applyWithin (substitutions : PlanSubstitutions) : ℕ → Expr → Except String Expr
  | 0, _ => .error "Expression substitutions did not converge"
  | rounds + 1, e =>
      let rewritten := replaceColumns substitutions.target e
      if rewritten = e then .ok e else applyWithin substitutions rounds rewritten

/-- Applies the substitutions until the expression stops changing. Replacing columns by columns, one
that does not stop within as many rounds as there are substitutions comes round again.
Source: `PlanSubstitutions.cpp` `apply`. -/
def apply (substitutions : PlanSubstitutions) (e : Expr) : Except String Expr :=
  substitutions.applyWithin (substitutions.length + 1) e

end PlanSubstitutions

namespace Lowering

/-! ### Walks -/

/-- A Repeat as seen from the side its walks leave from. Source: `LowerRepeatPass.cpp` `Walk`. -/
structure Walk where
  source : Node
  fromKeys : List Expr
  /-- Hop keys of the vertex a hop leaves from and the vertex it reaches, in the direction of the
  walk. -/
  hopFrom : List Expr
  hopTo : List Expr
  /-- None when the walk ends at a row of `source`. -/
  target : Option Node
  toKeys : List Expr
  /-- The walk leaves from the end, so it meets the hops in reverse order. -/
  fromEnd : Bool

/-- The columns of the hop the result reads, for their value or for an array of their values.
Source: `LowerRepeatPass.cpp` `HopColumns`. -/
structure HopColumns where
  values : List Column
  collected : List Column
  arrayTypes : List SqlType

/-- The loop over the sources and their outputs; `seen` are the sources met before. -/
def HopColumns.collect (hopColumns : List Column) :
    List (Column × Column) → List Column → HopColumns
  | [], _ => ⟨[], [], []⟩
  | (source, output) :: rest, seen =>
      if source ∉ hopColumns ∨ source ∈ seen then collect hopColumns rest seen
      else
        let result := collect hopColumns rest (source :: seen)
        if output.type = source.type then { result with values := source :: result.values }
        else { result with
          collected := source :: result.collected, arrayTypes := output.type :: result.arrayTypes }

/-- Source: `LowerRepeatPass.cpp` `HopColumns::of`. -/
def HopColumns.of (node : Repeat) : HopColumns :=
  collect node.hop.outputColumns (node.effectiveSourceColumns.zip node.outputColumns) []

/-- The walks' columns: the carried columns, the current vertex, the values of the hop columns the
result reads, the arrays it collects, and the hop count, in that order.
Source: `LowerRepeatPass.cpp` `WalkState`. -/
structure WalkState where
  columns : List Column
  carried : List Column
  vertex : List Column
  hopValues : List Column
  arrays : List Column
  hops : Option Column

/-- Source: `LowerRepeatPass.cpp` `WalkState::of`. -/
def WalkState.of (columns : List Column) (numCarried numKeys numHopValues numArrays : ℕ) :
    WalkState where
  columns := columns
  carried := columns.take numCarried
  vertex := (columns.drop numCarried).take numKeys
  hopValues := (columns.drop (numCarried + numKeys)).take numHopValues
  arrays := (columns.drop (numCarried + numKeys + numHopValues)).take numArrays
  hops := (columns.drop (numCarried + numKeys + numHopValues + numArrays)).head?

/-- Walks from the end when it is present and has fewer estimated rows.
Source: `LowerRepeatPass.cpp` `Lowering::walkOf`. -/
def walkOf (estimates : Node → Option ℚ) (node : Repeat) : Walk :=
  let fromEnd : Option Node := node.endNode.filter fun endNode =>
    match estimates node.start, estimates endNode with
    | some startRows, some endRows => endRows < startRows
    | _, _ => false
  match fromEnd with
  | some endNode =>
      { source := endNode
        fromKeys := node.endKeys
        hopFrom := node.hopDestinationKeys
        hopTo := node.hopSourceKeys
        target := some node.start
        toKeys := node.startKeys
        fromEnd := true }
  | none =>
      { source := node.start
        fromKeys := node.startKeys
        hopFrom := node.hopSourceKeys
        hopTo := node.hopDestinationKeys
        target := node.endNode
        toKeys := node.endKeys
        fromEnd := false }

/-! ### The parts of the plan -/

/-- Source: `LowerRepeatPass.cpp` `Lowering::emptyArrays`. -/
def emptyArrays (hops : HopColumns) : List Expr := hops.arrayTypes.map makeEmptyArray

/-- The walks of zero hops: the carried columns, the vertex the walk leaves from, NULL for each hop
value, an empty array for each array, and a hop count of 0 when they count.
Source: `LowerRepeatPass.cpp` `Lowering::makeAnchor`. -/
def makeAnchor (walk : Walk) (carried : List Column) (hops : HopColumns) (counts : Bool) :
    Build Node := do
  let made := walk.fromKeys ++ hops.values.map (fun c => makeNull c.type) ++ emptyArrays hops ++
    if counts then [bigintLiteral 0] else []
  let columns ← createColumns (made.map Expr.type)
  .check (Builder.project walk.source (toExprs carried ++ made) (carried ++ columns))

/-- Joins walks with the hop on the vertex they reached, and extends them by it.
Source: `LowerRepeatPass.cpp` `Lowering::extendByOneHop`. -/
def extendByOneHop (node : Repeat) (walk : Walk) (walks : Node) (vertex : List Expr)
    (carried hopValues collected : List Column) (arrays : List Expr) (hops : Option Expr)
    (anchorColumns : List Column) : Build Node := do
  let joined := appendColumnsRead (toExprs collected) <| appendColumnsRead (toExprs hopValues) <|
    appendColumnsRead walk.hopTo walks.outputColumns
  let extended ← .check (Builder.join walks node.hop vertex walk.hopFrom joined)
  -- a walk from the end meets the hops in reverse, so it prepends
  let extendedArrays := List.zipWith
    (fun c array => if walk.fromEnd then makeArrayPrepend (.column c) array
      else makeArrayAppend array (.column c))
    collected arrays
  let exprs := toExprs carried ++ walk.hopTo ++ toExprs hopValues ++ extendedArrays ++
    (hops.map fun hops => makeBigintAdd hops (bigintLiteral 1)).toList
  let columns ← createWithUnknownValues anchorColumns
  .check (Builder.project extended exprs columns)

/-- Extends the latest walks that have fewer than `maxHops` hops by one hop. Without a hop count the
source would read a null column.
Source: `LowerRepeatPass.cpp` `Lowering::makeStep`. -/
def makeStep (node : Repeat) (walk : Walk) (name : ℕ) (state : WalkState) (hops : HopColumns)
    (anchorColumns : List Column) : Build Node := do
  let readColumns ← createWithUnknownValues state.columns
  let read := WalkState.of readColumns state.carried.length state.vertex.length
    state.hopValues.length state.arrays.length
  let some readHops := read.hops | throw "The walks have no hop count"
  let extensible ← .check (Builder.filter (.workingTable name state.columns read.columns)
    [makeLessThan (.column readHops) (bigintLiteral node.maxHops)])
  extendByOneHop node walk extensible (toExprs read.vertex) read.carried [] hops.collected
    (toExprs read.arrays) (some (.column readHops)) anchorColumns

/-- A sum of values of type `int32_t`, which wraps around. -/
def int32Add (a b : ℤ) : ℤ := Int.bmod (a + b) (2 ^ 32)

/-- The FixedPoint that accumulates the walks from the anchor.
Source: `LowerRepeatPass.cpp` `Lowering::makeFixedPoint`. -/
def makeFixedPoint (node : Repeat) (walk : Walk) (anchor : Node) (anchorColumns : List Column)
    (state : WalkState) (hops : HopColumns) : Build Node := do
  let name ← newName
  let step ← makeStep node walk name state hops anchorColumns
  -- the step adds no rows once every walk has `maxHops` hops, which the loop sees one iteration
  -- later
  .check (Builder.fixedPoint anchor step name state.columns anchorColumns (int32Add node.maxHops 1))

/-- The walks of at most one hop and their columns: the anchor for zero hops, and the side the walk
leaves from joined with the hop for one.
Source: `LowerRepeatPass.cpp` `Lowering::makeShortWalks`. -/
def makeShortWalks (node : Repeat) (walk : Walk) (anchor : Node) (anchorColumns : List Column)
    (carried : List Column) (hops : HopColumns) (counts : Bool) : Build (Node × List Column) := do
  if node.maxHops = 1 then
    let hopped ← extendByOneHop node walk walk.source walk.fromKeys carried hops.values
      hops.collected (emptyArrays hops) (if counts then some (bigintLiteral 0) else none)
      anchorColumns
    let columns ← createWithUnknownValues anchorColumns
    return (.unionAll anchor hopped anchorColumns hopped.outputColumns columns, columns)
  else return (anchor, anchorColumns)

/-- The column the hop count is in, if the walks count. The source would read a null column. -/
def hopCountOf (state : WalkState) : Except String Column :=
  match state.hops with
  | some hops => .ok hops
  | none => .error "The walks have no hop count"

/-- The condition that a walk has at least `minHops` hops. -/
def enoughHops (node : Repeat) (state : WalkState) : Except String (List Expr) :=
  if node.minHops > 0 then (hopCountOf state).map fun count =>
    [makeGreaterThanOrEqual (.column count) (bigintLiteral node.minHops)]
  else .ok []

/-- The conditions that a walk has come back to its start, if it is to end there. -/
def backAtSource (walk : Walk) (state : WalkState) (toState : PlanSubstitutions) :
    Except String (List Expr) :=
  if walk.target = none then (walk.toKeys.mapM toState.apply).map fun toKeys =>
    List.zipWith (fun vertex key => makeEq (.column vertex) key) state.vertex toKeys
  else .ok []

/-- The walks that meet conditions, if there are any. -/
def filterWalks (walks : Node) (predicates : List Expr) : Except String Node :=
  if predicates = [] then .ok walks else Builder.filter walks predicates

/-- The hop count as a column of a join, if the result reads it. -/
def joinedCount (node : Repeat) (state : WalkState) : Except String (List Column) :=
  if node.hopCount.isSome then (hopCountOf state).map ([·]) else .ok []

/-- The walks joined with the side they lead to, if there is one. -/
def joinTarget (node : Repeat) (walk : Walk) (walks : Node) (state : WalkState) :
    Except String Node :=
  match walk.target with
  | none => .ok walks
  | some target => do
      let count ← joinedCount node state
      let joined := state.carried ++ state.hopValues ++ state.arrays ++ count ++
        target.outputsAmong node.effectiveSourceColumns
      Builder.join walks target (toExprs state.vertex) walk.toKeys joined

/-- The walks with at least `minHops` hops, joined with the side they lead to or ending at the one
they left from, shaped as the Repeat's output.
Source: `LowerRepeatPass.cpp` `Lowering::makeResult`. -/
def makeResult (node : Repeat) (walk : Walk) (walks : Node) (state : WalkState)
    (carried : List Column) (hops : HopColumns) : Except String Node := do
  let enough ← enoughHops node state
  let toState ← PlanSubstitutions.addAll [] carried state.carried
  let toState ← toState.addAll hops.values state.hopValues
  let toState ← toState.addAll hops.collected state.arrays
  let back ← backAtSource walk state toState
  let filtered ← filterWalks walks (enough ++ back)
  let arrived ← joinTarget node walk filtered state
  let outputExprs ← node.effectiveSourceColumns.mapM fun source =>
    if node.hopCount = some source then (hopCountOf state).map .column
    else toState.apply (.column source)
  Builder.project arrived outputExprs node.outputColumns

/-- The plan for a Repeat seen from the side its walks leave from.
Source: `LowerRepeatPass.cpp` `Lowering::lower`. -/
def lower (node : Repeat) (walk : Walk) : Build Node := do
  let carried := walk.source.outputsAmong node.effectiveSourceColumns
  let carried := if walk.target = none then appendColumnsRead walk.toKeys carried else carried
  let hops := HopColumns.of node
  let numKeys := walk.fromKeys.length
  let loops := node.maxHops > 1
  let counts := loops ∨ node.hopCount.isSome
  let anchor ← makeAnchor walk carried hops counts
  let anchorColumns := anchor.outputColumns
  if loops then
    let columns ← createWithUnknownValues anchorColumns
    let state := WalkState.of columns carried.length numKeys 0 hops.collected.length
    let walks ← makeFixedPoint node walk anchor anchorColumns state hops
    .check (makeResult node walk walks state carried hops)
  else
    let (walks, columns) ← makeShortWalks node walk anchor anchorColumns carried hops counts
    let state := WalkState.of columns carried.length numKeys hops.values.length
      hops.collected.length
    .check (makeResult node walk walks state carried hops)

/-- The plan for a Repeat.
Source: `LowerRepeatPass.cpp` `Lowering::rewriteRepeat`. -/
def rewriteRepeat (estimates : Node → Option ℚ) (node : Repeat) : Build Node :=
  lower node (walkOf estimates node)

end Lowering

end Verax.LowerRepeat
