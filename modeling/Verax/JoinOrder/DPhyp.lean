import Verax.JoinOrder.Candidates
import Verax.Lib.StateExcept

/-!
# Join enumeration

The enumerator of `DPhyp.cpp`: the dynamic program over pairs of connected sets (`solveComponent`),
the greedy fallback taken when the budget trips (`greedy`), and the two entry points, which check
that the plan returned enforces every edge (`enumerate`, `enumerateComponents`).

The recursions of the source end because each level excludes at least one more relation; here they
carry a depth that a graph of at most 64 relations never uses up. The loops of the fallback carry a
bound in the same way.
-/

set_option linter.unusedSectionVars false

namespace Verax.JoinOrder

open Verax.Lib.StateExcept

/-- The internal checks the enumerator makes. -/
inductive EnumError
  | notPlainInner
  | noSwappedType
  | keyEdgeUnsupported
  | filterEdgeUnsupported
  deriving DecidableEq

/-- Computations of the enumerator. -/
abbrev EnumM (F σ : Type) := Checked EnumError (State F σ)

variable {F σ : Type} [Add F] [BEq F] [LT F] [DecidableLT F]

namespace Enumerator

/-! ### Neighborhoods and orientations -/

/-- The opposite side of an edge one of whose sides lies in `set` and the other outside it. -/
def oppositeSide (set : RelationSet) (e : JoinEdge) : Option RelationSet :=
  if e.leftEligibility ⊆ set ∧ Disjoint e.rightEligibility set then some e.rightEligibility
  else if e.rightEligibility ⊆ set ∧ Disjoint e.leftEligibility set then some e.leftEligibility
  else none

/-- One step of the scan of `neighborhood`. -/
def addNeighbor (set forbidden result : RelationSet) (e : JoinEdge) : RelationSet :=
  match oppositeSide set e with
  | none => result
  | some other =>
    if Disjoint other forbidden then insert (RelationSet.min other) result else result

/-- The minimum of each opposite side reachable from `set` that avoids `forbidden`.
Source: `DPhyp.cpp` `neighborhood`. -/
def neighborhood (g : JoinHypergraph) (set forbidden : RelationSet) : RelationSet :=
  g.edges.foldl (addNeighbor set forbidden) ∅

/-- True if the edge may be played with the build side preserved.
Source: `DPhyp.cpp` `hasRightProjectVariant`. -/
def hasRightProjectVariant (e : JoinEdge) : Bool := !(e.nullAware && !e.filter.isEmpty)

/-- A flag for each input of a join. Source: `Node.h` `Join::Sides`. -/
structure Sides where
  left : Bool
  right : Bool

/-- The loop-invariant input of a join in a loop's step, if it can be built once.
Source: `Node.cpp` `Join::loopInvariantSide`. -/
def loopInvariantSide (joinType : JoinType) (hasKeys nullAsValue : Bool) (readsState : Sides) :
    Sides :=
  if joinType = .inner ∧ hasKeys ∧ ¬ nullAsValue ∧ readsState.left ≠ readsState.right then
    ⟨!readsState.left, !readsState.right⟩
  else ⟨false, false⟩

variable (env : Env F σ)

/-- True when a relation of `cover` reads a loop's state. Source: `DPhyp.cpp` `readsState`. -/
def readsState (cover : RelationSet) : Bool :=
  env.graph.relations.zipIdx.any fun r => r.2 ∈ cover && r.1.readsState

/-- Considers both orientations of a join, or only the one that builds a loop-invariant input.
Source: `DPhyp.cpp` `considerOrientations`. -/
def considerOrientations (leftPlan rightPlan : MemoOp F) (edgeIndex : ℕ) (edge : JoinEdge)
    (leftJoinType : JoinType) (combined : RelationSet) (keyEdges filterEdges : List ℕ) :
    EnumM F σ PUnit := do
  let loopInvariant := loopInvariantSide leftJoinType (!edge.leftKeys.isEmpty) edge.nullAsValue
    ⟨readsState env leftPlan.cover, readsState env rightPlan.cover⟩
  if !loopInvariant.left then
    modify (considerCandidate env
      ⟨edgeIndex, leftJoinType, combined, false, keyEdges, filterEdges⟩ edge leftPlan rightPlan)
  if !loopInvariant.right then
    match leftJoinType.swapType with
    | none => throw .noSwappedType
    | some swapped => modify (considerCandidate env
        ⟨edgeIndex, swapped, combined, false, keyEdges, filterEdges⟩ edge rightPlan leftPlan)

/-- Join candidates for a single edge; an anti join and a null-aware semi project with a filter
keep their orientation. Source: `DPhyp.cpp` `emitSingleEdge`. -/
def emitSingleEdge (edgeIndex : ℕ) (edge : JoinEdge) (isForward : Bool)
    (leftPlan rightPlan : MemoOp F) (combined : RelationSet) (keyEdges filterEdges : List ℕ) :
    EnumM F σ PUnit := do
  if !(keyEdges.isEmpty || edge.joinType = .inner) then throw .keyEdgeUnsupported
  else if !(filterEdges.isEmpty || edge.joinType.keepsBothInputs) then throw .filterEdgeUnsupported
  else
    let probeOnLeft := if isForward then leftPlan else rightPlan
    let probeOnRight := if isForward then rightPlan else leftPlan
    if edge.joinType = .anti ∨ edge.joinType = .leftSemiProject ∧ ¬ hasRightProjectVariant edge then
      modify (considerCandidate env
        ⟨edgeIndex, edge.joinType, combined, false, keyEdges, filterEdges⟩ edge probeOnLeft
        probeOnRight)
      if edge.joinType = .anti ∧ hasRightProjectVariant edge then
        modify (considerCandidate env ⟨edgeIndex, edge.joinType, combined, true, [], []⟩ edge
          probeOnRight probeOnLeft)
    else
      match if isForward then some edge.joinType else edge.joinType.swapType with
      | none => throw .noSwappedType
      | some leftType =>
        considerOrientations env leftPlan rightPlan edgeIndex edge leftType combined keyEdges
          filterEdges

/-- The candidate that expands the plan of `inputSet` by an Unnest relation.
Source: `DPhyp.cpp` `emitUnnest`. -/
def emitUnnest (inputSet : RelationSet) (edgeIndex : ℕ) (edge : JoinEdge) (combined : RelationSet)
    (filterEdges : List ℕ) (st : State F σ) : State F σ :=
  match st.cheapestPlan inputSet with
  | none => st
  | some input => addCandidate env combined
      (.unnest ⟨none, none⟩ input edgeIndex edge.rightEndpoints filterEdges) st

/-- Applies the one edge crossing a partition: an Unnest expands the side holding its input, any
other edge joins the two plans. Source: `DPhyp.cpp` `applyCrossingEdge`. -/
def applyCrossingEdge (edgeIndex : ℕ) (isForward : Bool)
    (subgraph complement combined : RelationSet) (filterEdges : List ℕ) : EnumM F σ PUnit := do
  match env.graph.edges[edgeIndex]? with
  | none => pure ()
  | some edge =>
    if edge.isUnnest then
      if complement ≠ edge.rightEligibility then pure ()
      else modify (emitUnnest env subgraph edgeIndex edge combined filterEdges)
    else
      let st ← get
      match st.cheapestPlan subgraph, st.cheapestPlan complement with
      | some leftPlan, some rightPlan =>
        emitSingleEdge env edgeIndex edge isForward leftPlan rightPlan combined [] filterEdges
      | _, _ => pure ()

/-- The crossing edges that are not plain inner ones. Source: `DPhyp.cpp` `emitCsgCmp`,
`specialPosition`. -/
def specialEdges (g : JoinHypergraph) (joinEdges : List CrossingEdge) : List CrossingEdge :=
  joinEdges.filter fun c => !(g.edges[c.index]?.any (·.isPlainInner))

/-- A step may carry filter edges if it has none, expands an Unnest, or keeps both inputs.
Source: `DPhyp.cpp` `emitCsgCmp`, `canApplyFilterEdges`. -/
def canApplyFilterEdges (g : JoinHypergraph) (filterEdges : List ℕ) (edgeIndex : ℕ) : Bool :=
  filterEdges.isEmpty ||
    g.edges[edgeIndex]?.any fun e => e.isUnnest || e.joinType.keepsBothInputs

/-- Joins the plans of two sides over several inner edges at once: the canonical key edges supply
the keys. Source: `DPhyp.cpp` `emitCsgCmp`, last part. -/
def applyInnerEdges (joinEdges : List CrossingEdge) (subgraph complement combined : RelationSet)
    (filterEdges : List ℕ) : EnumM F σ PUnit := do
  let st ← get
  match st.cheapestPlan subgraph, st.cheapestPlan complement with
  | some leftPlan, some rightPlan =>
    match env.graph.canonicalKeyEdges (joinEdges.map (·.index)) with
    | [] => pure ()
    | primary :: keyEdges =>
      match env.graph.edges[primary]? with
      | none => pure ()
      | some edge =>
        considerOrientations env leftPlan rightPlan primary edge .inner combined keyEdges
          filterEdges
  | _, _ => pure ()

/-- What is done with the edges that cross a partition. Source: `DPhyp.cpp` `emitCsgCmp`. -/
def applyCrossing (subgraph complement : RelationSet) (crossing : CrossingEdges) :
    EnumM F σ PUnit :=
  let combined := subgraph ∪ complement
  match crossing.joinEdges with
  | [] => pure ()
  | [only] =>
    if canApplyFilterEdges env.graph crossing.filterEdges only.index then
      applyCrossingEdge env only.index only.leftToRight subgraph complement combined
        crossing.filterEdges
    else pure ()
  | joinEdges =>
    match specialEdges env.graph joinEdges with
    | [special] =>
      let filterEdges := crossing.filterEdges ++
        (joinEdges.filter (· ≠ special)).map (·.index)
      if canApplyFilterEdges env.graph filterEdges special.index then
        applyCrossingEdge env special.index special.leftToRight subgraph complement combined
          filterEdges
      else pure ()
    | [] => applyInnerEdges env joinEdges subgraph complement combined crossing.filterEdges
    | _ => throw .notPlainInner

/-- Joins a pair of sides along the edges crossing between them.
Source: `DPhyp.cpp` `emitCsgCmp`. -/
def emitCsgCmp (subgraph complement : RelationSet) : EnumM F σ PUnit := do
  let st ← get
  modify fun st => { st with
    budget := st.budget.consume, pairs := st.pairs ++ [(subgraph, complement)] }
  if st.budget.stops then pure ()
  else
    match env.graph.crossingEdges subgraph complement with
    | none => pure ()
    | some crossing => applyCrossing env subgraph complement crossing

/-! ### The dynamic program -/

/-- Depth of the recursions: more than the number of relations. -/
def maxDepth : ℕ := RelationSet.kMaxRelations + 1

/-- Grows the complement and emits the pair for each grown set that has a plan.
Source: `DPhyp.cpp` `enumerateCmpRec`. -/
def enumerateCmpRec : ℕ → RelationSet → RelationSet → RelationSet → EnumM F σ PUnit
  | 0, _, _, _ => pure ()
  | depth + 1, subgraph, complement, forbidden => do
    let st ← get
    if st.budget.isExceeded then pure ()
    else
      let neighbors := neighborhood env.graph complement forbidden
      if neighbors = ∅ then pure ()
      else
        let subsets := RelationSet.subsetsBySize neighbors
        subsets.forM fun subset => do
          let st ← get
          if st.planned (complement ∪ subset) then
            emitCsgCmp env subgraph (complement ∪ subset)
          else pure ()
        subsets.forM fun subset =>
          enumerateCmpRec depth subgraph (complement ∪ subset) (forbidden ∪ neighbors)

/-- Emits every pair whose first side is `subgraph`. Source: `DPhyp.cpp` `emitCsg`. -/
def emitCsg (subgraph : RelationSet) : EnumM F σ PUnit := do
  let st ← get
  if st.budget.isExceeded then pure ()
  else
    let forbidden := RelationSet.prefixThrough (RelationSet.min subgraph)
    let neighbors := neighborhood env.graph subgraph forbidden
    (RelationSet.toAscending neighbors).reverse.forM fun vertexId => do
      emitCsgCmp env subgraph {vertexId}
      enumerateCmpRec env maxDepth subgraph {vertexId}
        (forbidden ∪ subgraph ∪ (RelationSet.prefixThrough vertexId ∩ neighbors))

/-- Grows the subgraph and emits from each grown set that has a plan.
Source: `DPhyp.cpp` `enumerateCsgRec`. -/
def enumerateCsgRec : ℕ → RelationSet → RelationSet → EnumM F σ PUnit
  | 0, _, _ => pure ()
  | depth + 1, subgraph, forbidden => do
    let st ← get
    if st.budget.isExceeded then pure ()
    else
      let neighbors := neighborhood env.graph subgraph forbidden
      if neighbors = ∅ then pure ()
      else
        let subsets := RelationSet.subsetsBySize neighbors
        subsets.forM fun subset => do
          let st ← get
          if st.planned (subgraph ∪ subset) then emitCsg env (subgraph ∪ subset) else pure ()
        subsets.forM fun subset =>
          enumerateCsgRec depth (subgraph ∪ subset) (forbidden ∪ neighbors)

/-- Adds the leaf of one relation, unless it is expanded by an Unnest or in the memo already.
Source: `DPhyp.cpp` `initLeaves`. -/
def initLeaf (id : ℕ) (st : State F σ) : State F σ :=
  if id ∈ env.graph.expandedRelationIds || st.planned {id} then st
  else
    let partition := (env.graph.relations[id]?.map (·.globalPartition)).getD .unspecified
    let r := costed env (.leaf ⟨none, none⟩ id partition) st
    addPlan env {id} r.1 r.2

/-- Source: `DPhyp.cpp` `initLeaves`. -/
def initLeaves (relations : RelationSet) (st : State F σ) : State F σ :=
  (RelationSet.toAscending relations).foldl (fun st id => initLeaf env id st) st

/-- Runs the dynamic program over a component; returns whether the budget was exceeded.
Source: `DPhyp.cpp` `solveComponent`. -/
def solveComponent (component : RelationSet) : EnumM F σ Bool := do
  modify fun st => initLeaves env component { st with budget := st.budget.reset }
  (RelationSet.toAscending component).reverse.forM fun id =>
    if id ∈ env.graph.expandedRelationIds then pure ()
    else do
      emitCsg env {id}
      enumerateCsgRec env maxDepth {id} (RelationSet.prefixThrough id)
  let st ← get
  pure st.budget.isExceeded

/-- Source: `DPhyp.cpp` `solve`. -/
def solve : EnumM F σ Bool :=
  solveComponent env (RelationSet.prefixThrough (env.graph.relations.length - 1))

/-! ### The greedy fallback -/

/-- One pass of `expandableRelations` over the edges. -/
def expandablePass (set gained : RelationSet) : RelationSet :=
  env.graph.edges.foldl (fun gained e =>
    if e.isUnnest && decide (e.leftEligibility ⊆ set ∪ gained) &&
        !decide (e.rightEligibility ⊆ set ∪ gained) then gained ∪ e.rightEligibility
    else gained) gained

/-- The relations `set` would gain by applying every Unnest it covers the input of.
Source: `DPhyp.cpp` `expandableRelations`. -/
def expandableRelations (set : RelationSet) : RelationSet :=
  (expandablePass env set)^[maxDepth] ∅

/-- One pass of `expandThroughUnnests`: the set reached and whether it grew. -/
def expandPass : List (JoinEdge × ℕ) → RelationSet → Bool → EnumM F σ (RelationSet × Bool)
  | [], set, grown => pure (set, grown)
  | (e, edgeIndex) :: rest, set, grown => do
    if !e.isUnnest || !decide (e.leftEligibility ⊆ set) || decide (e.rightEligibility ⊆ set) then
      expandPass rest set grown
    else
      let expanded := set ∪ e.rightEligibility
      modify fun st => emitUnnest env set edgeIndex e expanded []
        { st with expansions := st.expansions ++ [(set, edgeIndex)] }
      let st ← get
      match st.cheapestPlan expanded with
      | none => expandPass rest set grown
      | some _ => expandPass rest expanded true

/-- Applies every Unnest whose input `set` covers, repeatedly.
Source: `DPhyp.cpp` `expandThroughUnnests`. -/
def expandThroughUnnests : ℕ → RelationSet → EnumM F σ RelationSet
  | 0, set => pure set
  | bound + 1, set => do
    let r ← expandPass env env.graph.edges.zipIdx set false
    if r.2 then expandThroughUnnests bound r.1 else pure r.1

/-- True when some edge is waiting on the expansion of the fragment: it reads relations gained and
reaches outside. -/
def awaitsExpansion (fragment gained : RelationSet) : Bool :=
  env.graph.edges.any fun e => !e.isUnnest && !decide (Disjoint e.totalEligibility gained) &&
    !decide (e.totalEligibility ⊆ fragment ∪ gained)

/-- Expands the first fragment an edge is waiting on that grows.
Source: `DPhyp.cpp` `expandOneFragment`. -/
def expandOneFragment : List RelationSet → EnumM F σ (Option (List RelationSet))
  | [] => pure none
  | fragment :: rest => do
    let gained := expandableRelations env fragment
    if gained ≠ ∅ ∧ awaitsExpansion env fragment gained then
      let grown ← expandThroughUnnests env maxDepth fragment
      if grown ≠ fragment then return some (grown :: rest)
    let r ← expandOneFragment rest
    return r.map (fragment :: ·)

/-- The best pair of fragments so far: its cardinality and its two sides. -/
abbrev BestPair (F : Type) := Option (F × RelationSet × RelationSet)

/-- Emits one pair of fragments and keeps it if its join output is smaller. A recorded set always
has a known cardinality. Source: `DPhyp.cpp` `greedy`, inner loop. -/
def considerPair (best : BestPair F) (left right : RelationSet) : EnumM F σ (BestPair F) := do
  emitCsgCmp env left right
  let st ← get
  match PlanSet.cardinality (st.memo (left ∪ right)), best with
  | none, _ => pure best
  | some cardinality, none => pure (some (cardinality, left, right))
  | some cardinality, some (bestCardinality, _, _) =>
    if cardinality < bestCardinality then pure (some (cardinality, left, right)) else pure best

/-- Tries the pairs in turn. Source: `DPhyp.cpp` `greedy`, the two nested loops. -/
def bestPair : List (RelationSet × RelationSet) → BestPair F → EnumM F σ (BestPair F)
  | [], best => pure best
  | (left, right) :: rest, best => do
    let best ← considerPair env best left right
    bestPair rest best

/-- Merges the best pair of fragments until one is left; expands one when none connects.
Source: `DPhyp.cpp` `greedy`, main loop. -/
def mergeFragments : ℕ → List RelationSet → EnumM F σ (Option RelationSet)
  | 0, _ => pure none
  | _ + 1, [] => pure none
  | _ + 1, [fragment] => pure (some fragment)
  | bound + 1, fragments => do
    let best ← bestPair env (laterPairs fragments) none
    match best with
    | some (_, left, right) =>
      mergeFragments bound ((fragments.map fun f => if f = left then left ∪ right else f).filter
        (· ≠ right))
    | none =>
      let r ← expandOneFragment env fragments
      match r with
      | some fragments => mergeFragments bound fragments
      | none => pure none

/-- True when every relation with a plan of its own has a known cardinality.
Source: `DPhyp.cpp` `greedy`, `allCardinalitiesKnown`. -/
def allCardinalitiesKnown (ids : List ℕ) (st : State F σ) : Bool :=
  ids.all fun id => (PlanSet.cardinality (st.memo {id})).isSome

/-- The greedy fallback for a component. Source: `DPhyp.cpp` `greedy`. -/
def greedy (component : RelationSet) : EnumM F σ (Option (MemoOp F)) := do
  modify fun st => initLeaves env component { st with budget := st.budget.disable }
  let ids := (RelationSet.toAscending component).filter (· ∉ env.graph.expandedRelationIds)
  let st ← get
  if !allCardinalitiesKnown ids st then pure none
  else
    let merged ← mergeFragments env (2 * maxDepth) (ids.map ({·}))
    match merged with
    | none => pure none
    | some fragment =>
      let _ ← expandThroughUnnests env maxDepth fragment
      let st ← get
      pure (st.cheapestPlan component)

end Enumerator

/-! ### Entry points -/

/-- How an enumeration can fail: an internal check of the enumerator, or a plan that does not
enforce an edge. -/
inductive PlanError
  | enumerator (e : EnumError)
  | edgeNotEnforced
  deriving DecidableEq

namespace DPhyp

open Enumerator

variable (env : Env F σ)

/-- The enumerator at construction: an empty memo and a fresh budget.
Source: `DPhyp.cpp` `DPhyp::enumerate`. -/
def initialState (costState : σ) (enumerationBudget : ℤ) : State F σ where
  memo _ := []
  budget := .new enumerationBudget
  costState := costState
  pairs := []
  expansions := []

/-- Source: `DPhyp.cpp`, `memo_.clear()`. -/
def clearMemo (st : State F σ) : State F σ := { st with memo := fun _ => [] }

/-- The plan of a connected graph before the final check: the dynamic program's, or the greedy one
when the budget trips. Source: `DPhyp.cpp` `DPhyp::enumerate`. -/
def plan : EnumM F σ (Option (MemoOp F)) := do
  let budgetExceeded ← solve env
  if budgetExceeded then
    modify clearMemo
    greedy env env.graph.relationIds
  else
    let st ← get
    pure (st.cheapestPlan env.graph.relationIds)

/-- The roots of the components before the final check; empty when one has no plan.
Source: `DPhyp.cpp` `DPhyp::enumerate(components)`. -/
def planComponents : List RelationSet → EnumM F σ (Option (List (MemoOp F)))
  | [] => pure (some [])
  | component :: rest => do
    let budgetExceeded ← solveComponent env component
    let root ← if budgetExceeded then greedy env component
      else do
        let st ← get
        pure (st.cheapestPlan component)
    match root with
    | none => pure none
    | some root =>
      let roots ← planComponents rest
      pure (roots.map (root :: ·))

/-- The check of the plans to be returned. Source: `DPhyp.cpp` `checkEdgesEnforced`. -/
def checked {β : Type} (applied : β → List ℕ) (outcome : Except EnumError (Option β)) :
    Except PlanError (Option β) :=
  match outcome with
  | .error e => .error (.enumerator e)
  | .ok none => .ok none
  | .ok (some plan) =>
    if env.graph.checkEdgesEnforced (· ∈ applied plan) then .ok (some plan)
    else .error .edgeNotEnforced

/-- The plan of a connected graph; `none` sends the caller to the written join order.
Source: `DPhyp.cpp` `DPhyp::enumerate`. -/
def enumerate (costState : σ) (enumerationBudget : ℤ) : Except PlanError (Option (MemoOp F)) :=
  checked env MemoOp.appliedEdges
    (exec (plan env) (initialState costState enumerationBudget)).1

/-- The plans of the components of a disconnected graph.
Source: `DPhyp.cpp` `DPhyp::enumerate(components)`. -/
def enumerateComponents (costState : σ) (enumerationBudget : ℤ) (components : List RelationSet) :
    Except PlanError (Option (List (MemoOp F))) :=
  checked env (·.flatMap MemoOp.appliedEdges)
    (exec (planComponents env components) (initialState costState enumerationBudget)).1

end DPhyp

end Verax.JoinOrder
