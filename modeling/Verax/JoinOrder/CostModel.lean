import Verax.JoinOrder.PlanSet

/-!
# The default cost model

`DefaultCostModel` of `CostModel.cpp`, with the cardinality shaping of `JoinFanout.cpp`: a leaf costs
its cardinality, a join the work of a hash join, and each cover's estimate is computed once and
cached. An estimate that is missing makes whatever reads it missing.

The arithmetic is that of an arbitrary type with the operations the formulas use. Statistics of
relations and columns, the selectivity of predicates, row widths, and the unit costs of `Cost.h`
are parameters (`Statistics`).

* `cost_join_eq_none`: a join whose primary edge has a key of unknown distinct count has no cost,
  unless the cover's estimate was cached before or the type ignores the matches.
-/

set_option linter.unusedSectionVars false

namespace Verax.JoinOrder

/-- Distinct counts recorded for expressions; an expression not recorded has its base count.
Source: `ConstraintMap`, the `cardinality` of its values. -/
abbrev Constraints (F : Type) := Expr → Option (Option F)

/-- Source: `EstimateProvider.h` `Estimate`. -/
structure Estimate (F : Type) where
  cardinality : Option F
  constraints : Constraints F

/-- The estimates cached per cover. Source: `CostModel.cpp` `BySetMap`. -/
abbrev BySetMap (F : Type) := RelationSet → Option (Estimate F)

/-- What the cost model reads from outside. Source: `EstimateProvider.h`, `Filters.h`
`conjunctsSelectivity`, `JoinConstraints.h` `refineInnerKeys`, `Cost.h` `Costs`. -/
structure Statistics (F : Type) where
  relationCardinality : ℕ → Option F
  leafEstimate : ℕ → Estimate F
  baseNdv : Expr → Option F
  conjunctsSelectivity : Constraints F → List Expr → Option (F × Constraints F)
  refineInnerKeys : JoinType → List Expr → List Expr → Constraints F → Constraints F
  coveredRowBytes : RelationSet → F
  hashRowCost : F → F → F
  hashBuildCost : F → F → F
  hashTableCost : F → F
  kHashColumnCost : F
  kKeyCompareCost : F
  kByteShuffleCost : F
  kDefaultUnnestFanout : F
  saturate : F → F

namespace DefaultCostModel

variable {F : Type} [Add F] [Sub F] [Mul F] [Div F] [Max F] [Min F] [Zero F] [One F] [NatCast F]
  [BEq F] [LT F] [DecidableLT F]

/-! ### Arithmetic on estimates -/

/-- Unknown if either operand is. Source: `EstimateMath.h`. -/
def combine (f : F → F → F) : Option F → Option F → Option F
  | some a, some b => some (f a b)
  | _, _ => none

@[simp] lemma combine_none_left (f : F → F → F) (b : Option F) : combine f none b = none := rfl

@[simp] lemma combine_none_right (f : F → F → F) (a : Option F) : combine f a none = none := by
  cases a <;> rfl

@[simp] lemma combine_some (f : F → F → F) (a b : F) :
    combine f (some a) (some b) = some (f a b) := rfl

variable (g : JoinHypergraph) (stats : Statistics F)

/-- Source: `EstimateMath.h` `mul`. -/
def mul : Option F → Option F → Option F := combine fun a b => stats.saturate (a * b)

/-- Source: `EstimateMath.h` `add`. -/
def add : Option F → Option F → Option F := combine fun a b => stats.saturate (a + b)

/-- Source: `EstimateMath.h` `subtract`. -/
def subtract : Option F → Option F → Option F := combine fun a b => stats.saturate (a - b)

/-- Source: `EstimateMath.h` `maxOf`. -/
def maxOf : Option F → Option F → Option F := combine max

/-- Source: `EstimateMath.h` `minOf`. -/
def minOf : Option F → Option F → Option F := combine min

/-! ### Selectivities -/

/-- The distinct count of a key. Source: `value(constraints, key).cardinality`. -/
def ndv (constraints : Constraints F) (key : Expr) : Option F :=
  (constraints key).getD (stats.baseNdv key)

/-- Source: `CostModel.cpp` `coverEstimate`; the source checks that the entry is there. -/
def coverEstimate (cover : RelationSet) (bySet : BySetMap F) : Estimate F :=
  (bySet cover).getD ⟨none, fun _ => none⟩

/-- Existing entries are kept. Source: `CostModel.cpp` `mergeConstraints`. -/
def mergeConstraints (from' into : Constraints F) : Constraints F := fun e =>
  (into e).or (from' e)

/-- Source: `CostModel.cpp` `sideRowCount`. -/
def sideRowCount (side : RelationSet) : Option F :=
  (RelationSet.toAscending side).foldl (fun rows id => mul stats rows (stats.relationCardinality id))
    (some 1)

/-- The joint distinct count capped by the rows of the side, when they are known. -/
def capped (joint : F) (side : RelationSet) : F :=
  match sideRowCount stats side with
  | some rows => min joint rows
  | none => joint

/-- The scan over the key pairs of `innerEdgeSelectivity`, with the joint distinct counts so far. -/
def keySelectivity (e : JoinEdge) (constraints : Constraints F) :
    List (Expr × Expr) → F → F → Option F
  | [], jointLeft, jointRight =>
    some (1 / max (capped stats jointLeft e.leftEndpoints) (capped stats jointRight e.rightEndpoints))
  | (left, right) :: rest, jointLeft, jointRight =>
    match ndv stats constraints left, ndv stats constraints right with
    | some leftNdv, some rightNdv =>
      if leftNdv == 0 || rightNdv == 0 then some 0
      else keySelectivity e constraints rest (jointLeft * leftNdv) (jointRight * rightNdv)
    | _, _ => none

/-- Source: `CostModel.cpp` `innerEdgeSelectivity`. -/
def innerEdgeSelectivity (e : JoinEdge) (constraints : Constraints F) : Option F :=
  keySelectivity stats e constraints e.keyPairs 1 1

/-- A filter edge of unknown selectivity is left out. Source: `CostModel.cpp` `applyFilterEdges`. -/
def applyFilterEdges (cardinality : Option F) (filterEdges : List ℕ)
    (constraints : Constraints F) : Option F :=
  (filterEdges.filterMap (g.edges[·]?)).foldl (fun cardinality e =>
    match innerEdgeSelectivity stats e constraints with
    | some selectivity => mul stats cardinality (some selectivity)
    | none => cardinality) cardinality

/-- The conjuncts evaluated at a step over `cover` that no input covers. -/
def readyConjuncts (cover : RelationSet) (inputs : List RelationSet) : List Expr :=
  (g.filterConjuncts.filter fun c =>
    decide (c.relations ⊆ cover) && inputs.all fun input => !decide (c.relations ⊆ input)).map (·.expr)

/-- Source: `CostModel.cpp` `appliedConjuncts`. -/
def appliedConjuncts (e : JoinEdge) (left right : RelationSet) : List Expr :=
  if e.joinType ≠ .inner then e.filter else readyConjuncts g (left ∪ right) [left, right]

/-- Source: `CostModel.cpp` `innerMatchCardinality`. -/
def innerMatchCardinality (e : JoinEdge) (keyEdges : List ℕ) (constraints : Constraints F)
    (leftCardinality rightCardinality : Option F) : Option F :=
  let matched := mul stats (mul stats leftCardinality rightCardinality)
    (innerEdgeSelectivity stats e constraints)
  if e.joinType ≠ .inner then matched
  else (keyEdges.filterMap (g.edges[·]?)).foldl (fun matched keyEdge =>
    mul stats matched (innerEdgeSelectivity stats keyEdge constraints)) matched

/-- Source: `JoinFanout.cpp` `shapeByJoinType`. -/
def shapeByJoinType (joinType : JoinType) (left right matched : Option F) : Option F :=
  match joinType with
  | .left => maxOf matched left
  | .right => maxOf matched right
  | .full => subtract stats (add stats left right) matched
  | .leftSemiFilter => minOf left matched
  | .rightSemiFilter => minOf right matched
  | .leftSemiProject => left
  | .rightSemiProject => right
  | .anti => maxOf (some 0) (subtract stats left (minOf left matched))
  | .countingLeftSemiFilter => minOf (minOf left right) matched
  | .inner | .rightAnti | .countingAnti => matched

/-- The output cardinality and the constraints refined by the filter.
Source: `JoinFanout.cpp` `JoinFanout::outputCardinality`. -/
def outputCardinality (joinType : JoinType) (left right matched : Option F) (filter : List Expr)
    (constraints : Constraints F) : Option F × Constraints F :=
  if filter.isEmpty then (shapeByJoinType stats joinType left right matched, constraints)
  else
    match stats.conjunctsSelectivity constraints filter with
    | some (selectivity, constraints) =>
      (shapeByJoinType stats joinType left right (mul stats matched (some selectivity)), constraints)
    | none => (shapeByJoinType stats joinType left right none, constraints)

/-! ### Estimates per cover -/

/-- Computes a cover's estimate unless it is cached. -/
def cached (cover : RelationSet) (estimate : Estimate F) (bySet : BySetMap F) :
    Estimate F × BySetMap F :=
  match bySet cover with
  | some known => (known, bySet)
  | none => (estimate, fun S => if S = cover then some estimate else bySet S)

/-- The estimate of a join that is not cached. Source: `CostModel.cpp` `joinEstimate`. -/
def joinEstimate (e : JoinEdge) (left right : MemoOp F) (keyEdges filterEdges : List ℕ)
    (bySet : BySetMap F) : Estimate F :=
  let l := coverEstimate left.cover bySet
  let r := coverEstimate right.cover bySet
  let constraints := mergeConstraints r.constraints l.constraints
  let matched := innerMatchCardinality g stats e keyEdges constraints l.cardinality r.cardinality
  let edgeLeftIsPhysicalLeft := decide (e.leftEligibility ⊆ left.cover)
  let output := outputCardinality stats e.joinType
    (if edgeLeftIsPhysicalLeft then l.cardinality else r.cardinality)
    (if edgeLeftIsPhysicalLeft then r.cardinality else l.cardinality) matched
    (appliedConjuncts g e left.cover right.cover) constraints
  { cardinality := maxOf (some 1) (applyFilterEdges g stats output.1 filterEdges output.2)
    constraints := stats.refineInnerKeys e.joinType e.leftKeys e.rightKeys output.2 }

/-- The estimate of an Unnest that is not cached. Source: `CostModel.cpp` `unnestEstimate`. -/
def unnestEstimate (input : MemoOp F) (cover : RelationSet) (filterEdges : List ℕ)
    (bySet : BySetMap F) : Estimate F :=
  let i := coverEstimate input.cover bySet
  let cardinality := applyFilterEdges g stats
    (mul stats i.cardinality (some stats.kDefaultUnnestFanout)) filterEdges i.constraints
  let conjuncts := readyConjuncts g cover [input.cover]
  match if conjuncts.isEmpty then none else stats.conjunctsSelectivity i.constraints conjuncts with
  | some (selectivity, constraints) =>
    ⟨maxOf (some 1) (mul stats cardinality (some selectivity)), constraints⟩
  | none => ⟨maxOf (some 1) cardinality, i.constraints⟩

/-! ### Costs -/

/-- The number of key pairs of the edges a join applies as keys, at least one. -/
def numKeys (e : JoinEdge) (keyEdges : List ℕ) : ℕ :=
  max 1 (e.leftKeys.length + ((keyEdges.filterMap (g.edges[·]?)).map (·.leftKeys.length)).sum)

/-- The cost of a hash join whose output cardinality is estimated.
Source: `CostModel.cpp` `hashJoinCost`. -/
def hashJoinCost (e : JoinEdge) (left right : MemoOp F) (keyEdges : List ℕ)
    (cardinality : Option F) : Option F :=
  match right.cost.cardinality with
  | none => none
  | some rightCard =>
    let keys : F := (numKeys g e keyEdges : ℕ)
    let rowBytes := stats.coveredRowBytes right.cover
    let buildUnitCost := stats.hashBuildCost rightCard rowBytes +
      keys * (1 + 1) * stats.kHashColumnCost + keys * stats.kKeyCompareCost
    let probeUnitCost := cardinality.map fun output => stats.hashTableCost rightCard +
      keys * stats.kHashColumnCost + keys * stats.kKeyCompareCost * min 1 output
    let rowUnitCost := stats.hashRowCost rightCard rowBytes
    add stats (add stats (add stats (add stats left.cost.cost right.cost.cost)
      (mul stats (some rightCard) (some buildUnitCost)))
      (mul stats left.cost.cardinality probeUnitCost))
      (mul stats cardinality (some rowUnitCost))

/-- The cost of an Unnest whose output cardinality is estimated.
Source: `CostModel.cpp` `unnestCost`. -/
def unnestCost (input : MemoOp F) (cover : RelationSet) (cardinality : Option F) : Option F :=
  let perRowCost := cardinality.map (stats.hashRowCost · (stats.coveredRowBytes cover))
  add stats (add stats input.cost.cost (mul stats input.cost.cardinality perRowCost))
    (mul stats cardinality perRowCost)

/-- The cost and output cardinality of an operator over costed inputs. An exchange is costed where
it is built, and an edge index always names an edge. Source: `CostModel.cpp`
`DefaultCostModel::cost`. -/
def cost (bySet : BySetMap F) : MemoOp F → Cost F × BySetMap F
  | .leaf _ id _ =>
    let r := cached {id} (stats.leafEstimate id) bySet
    (⟨r.1.cardinality, r.1.cardinality⟩, r.2)
  | .join _ left right edgeIndex _ _ keyEdges filterEdges _ =>
    match g.edges[edgeIndex]? with
    | none => (⟨none, none⟩, bySet)
    | some e =>
      let r := cached (left.cover ∪ right.cover)
        (joinEstimate g stats e left right keyEdges filterEdges bySet) bySet
      (⟨hashJoinCost g stats e left right keyEdges r.1.cardinality, r.1.cardinality⟩, r.2)
  | .unnest _ input _ relation filterEdges =>
    let cover := input.cover ∪ relation
    let r := cached cover (unnestEstimate g stats input cover filterEdges bySet) bySet
    (⟨unnestCost stats input cover r.1.cardinality, r.1.cardinality⟩, r.2)
  | .exchange c _ _ => (c, bySet)

/-- Source: `CostModel.cpp` `DefaultCostModel::shuffleCost`. -/
def shuffleCost (op : MemoOp F) : Option F :=
  mul stats op.cost.cardinality (some (stats.coveredRowBytes op.cover * stats.kByteShuffleCost))

/-- Source: `CostModel.cpp` `CostModel::broadcastSizeIfFits`. -/
def broadcastSizeIfFits (limitBytes : F) (op : MemoOp F) : Option F :=
  match op.cost.cardinality with
  | none => none
  | some cardinality =>
    let size := cardinality * max 1 (stats.coveredRowBytes op.cover)
    if ¬ 0 < limitBytes ∨ limitBytes < size then none else some size

/-- Source: `CostModel.h` `DefaultCostModel`. -/
def default (limitBytes : F) : CostModel F (BySetMap F) where
  cost := cost g stats
  shuffleCost := shuffleCost stats
  broadcastCost op numWorkers := mul stats (shuffleCost stats op) (some (numWorkers : F))
  broadcastSizeIfFits := broadcastSizeIfFits stats limitBytes

/-! ### Missing estimates -/

variable {g stats}

/-- A hash join whose output cardinality is unknown has no cost. -/
lemma hashJoinCost_none (e : JoinEdge) (left right : MemoOp F) (keyEdges : List ℕ) :
    hashJoinCost g stats e left right keyEdges none = none := by
  unfold hashJoinCost
  split
  · rfl
  · simp [add, mul]

/-- The keys of an edge are scanned until one of unknown distinct count is met. -/
lemma keySelectivity_eq_none {e : JoinEdge} {constraints : Constraints F} {pair : Expr × Expr}
    (hpair : ndv stats constraints pair.1 = none ∨ ndv stats constraints pair.2 = none) :
    ∀ {pairs : List (Expr × Expr)} {jointLeft jointRight : F}, pair ∈ pairs →
      (∀ p ∈ pairs, ∀ n, ndv stats constraints p.1 = some n ∨ ndv stats constraints p.2 = some n →
        (n == 0) = false) →
      keySelectivity stats e constraints pairs jointLeft jointRight = none := by
  intro pairs
  induction pairs with
  | nil => exact fun hmem _ => absurd hmem List.not_mem_nil
  | cons p pairs ih =>
    obtain ⟨left, right⟩ := p
    intro jointLeft jointRight hmem hzero
    rw [keySelectivity]
    rcases hleft : ndv stats constraints left with - | n
    · rfl
    rcases hright : ndv stats constraints right with - | m
    · rfl
    have hn := hzero _ List.mem_cons_self n (Or.inl hleft)
    have hm := hzero _ List.mem_cons_self m (Or.inr hright)
    simp only [hn, hm, Bool.or_self, Bool.false_eq_true, if_false]
    refine ih ?_ fun q hq => hzero q (List.mem_cons_of_mem _ hq)
    rcases List.mem_cons.mp hmem with rfl | hmem
    · simp [hleft, hright] at hpair
    · exact hmem

/-- **An inner join over a key of unknown distinct count has no cost**, when its cover has not been
estimated before and no filter edges are applied with it. -/
theorem cost_join_eq_none {bySet : BySetMap F} {c : Cost F} {left right : MemoOp F}
    {edgeIndex : ℕ} {joinType : JoinType} {reversed : Bool} {keyEdges : List ℕ} {p : Partitioning}
    {e : JoinEdge} (he : g.edges[edgeIndex]? = some e) (hinner : e.joinType = .inner)
    (hnew : bySet (left.cover ∪ right.cover) = none)
    (hkey : innerEdgeSelectivity stats e (mergeConstraints
      (coverEstimate right.cover bySet).constraints (coverEstimate left.cover bySet).constraints) =
        none) :
    (cost g stats bySet (.join c left right edgeIndex joinType reversed keyEdges [] p)).1 =
      ⟨none, none⟩ := by
  have hmatched : ∀ (l : List JoinEdge) (constraints : Constraints F),
      l.foldl (fun matched keyEdge =>
        mul stats matched (innerEdgeSelectivity stats keyEdge constraints)) none = none := by
    intro l constraints
    induction l with
    | nil => rfl
    | cons e l ih => exact ih
  have hestimate : (joinEstimate g stats e left right keyEdges [] bySet).cardinality = none := by
    unfold joinEstimate
    simp only [innerMatchCardinality, hkey, hinner, ne_eq, not_true_eq_false, if_false, mul,
      combine_none_right, outputCardinality, applyFilterEdges, List.filterMap_nil, List.foldl_nil]
    have := hmatched (keyEdges.filterMap (g.edges[·]?))
    simp only [mul] at this
    rw [this]
    split
    · simp [shapeByJoinType, maxOf]
    · split <;> simp [shapeByJoinType, maxOf]
  simp [cost, he, cached, hnew, hestimate, hashJoinCost_none]

end DefaultCostModel

end Verax.JoinOrder
