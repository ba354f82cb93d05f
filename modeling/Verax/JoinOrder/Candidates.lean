import Verax.JoinOrder.PlanSet

/-!
# Join candidates

What the enumerator does with two subplans and the edges between them: on one worker it builds the
join as it stands (`considerCandidate`); on several it tries the ways of bringing the inputs
together, reusing a partitioning, shuffling, gathering or copying a side, and adds one candidate for
each. A candidate is costed and dropped when its cost is unknown.

Everything here updates the state and cannot fail. `StepClosed` says once what its steps can do:
count, cost, add a leaf for a set that has a plan, and add the join of two plans that stand for the
two sides. `considerCandidate_step` is the rule its users cite: a property of states that those
steps keep is kept by considering a join.

Parameters (`Env`) stand for code elsewhere: connector partition functions, the grouped read of a
relation, the partitioning a join exposes, and equality of expressions up to equivalence classes.
-/

set_option linter.unusedSectionVars false

namespace Verax.JoinOrder

/-! ### Budget and state -/

/-- Caps the candidates considered; a cap of at most zero is no cap.
Source: `DPhyp.cpp` `EnumerationBudget`. -/
structure EnumerationBudget where
  cap : ℤ
  count : ℤ
  isExceeded : Bool
  enforced : Bool

namespace EnumerationBudget

/-- Source: `DPhyp.cpp` `EnumerationBudget::EnumerationBudget`. -/
def new (cap : ℤ) : EnumerationBudget := ⟨cap, 0, false, decide (0 < cap)⟩

/-- Counts one unit. Source: `DPhyp.cpp` `EnumerationBudget::consume`. -/
def consume (b : EnumerationBudget) : EnumerationBudget :=
  if !b.enforced || b.isExceeded then b
  else { b with count := b.count + 1, isExceeded := decide (b.cap < b.count + 1) }

/-- What `consume` returns: whether to stop. Source: `DPhyp.cpp` `EnumerationBudget::consume`. -/
def stops (b : EnumerationBudget) : Bool := b.enforced && b.consume.isExceeded

/-- Source: `DPhyp.cpp` `EnumerationBudget::reset`. -/
def reset (b : EnumerationBudget) : EnumerationBudget :=
  { b with count := 0, isExceeded := false, enforced := decide (0 < b.cap) }

/-- Source: `DPhyp.cpp` `EnumerationBudget::disable`. -/
def disable (b : EnumerationBudget) : EnumerationBudget := { b with enforced := false }

/-- A budget without a cap that has not been exceeded. -/
def Unlimited (b : EnumerationBudget) : Prop := b.cap ≤ 0 ∧ b.enforced = false ∧ b.isExceeded = false

lemma Unlimited.consume {b : EnumerationBudget} (h : b.Unlimited) : b.consume = b := by
  simp [EnumerationBudget.consume, h.2.1]

lemma Unlimited.stops {b : EnumerationBudget} (h : b.Unlimited) : b.stops = false := by
  simp [EnumerationBudget.stops, h.2.1]

lemma unlimited_reset {b : EnumerationBudget} (h : b.cap ≤ 0) : b.reset.Unlimited :=
  ⟨h, by simpa [reset] using h, rfl⟩

end EnumerationBudget

/-- The enumerator's state: the memo, the budget, the cost model's cache, and a record, kept for the
proofs only, of the pairs `emitCsgCmp` was called on and of the Unnest expansions applied outside
the dynamic program. Source: `DPhyp.cpp` `Enumerator`. -/
structure State (F σ : Type) where
  memo : RelationSet → PlanSet F
  budget : EnumerationBudget
  costState : σ
  pairs : List (RelationSet × RelationSet)
  expansions : List (RelationSet × ℕ)

/-- What the enumerator is constructed with, and the outside functions it calls.
Source: `DPhyp.cpp` `Enumerator::Enumerator`. -/
structure Env (F σ : Type) where
  graph : JoinHypergraph
  costModel : CostModel F σ
  numWorkers : ℕ
  hashStageTasks : ℕ
  numPartitions : ℕ → ℕ
  copartitionedType : ℕ → ℕ → Option ℕ
  groupedPartition : ℕ → Partitioning
  sameOrEqual : Expr → Expr → Bool
  joinOutputPartitioning : JoinType → Partitioning → Partitioning → List Expr → List Expr →
    RelationSet → ℕ → Partitioning

variable {F σ : Type} [Add F] [BEq F] [LT F] [DecidableLT F]

namespace State

/-- The memo holds a plan for the set. Source: `DPhyp.cpp`, `memo_.find(…) != memo_.end()`. -/
def planned (st : State F σ) (S : RelationSet) : Bool := !(st.memo S).isEmpty

/-- Source: `DPhyp.cpp` `cheapestPlan`. -/
def cheapestPlan (st : State F σ) (S : RelationSet) : Option (MemoOp F) :=
  PlanSet.cheapest (st.memo S)

end State

namespace Enumerator

variable (env : Env F σ)

/-- Source: `DPhyp.cpp`, `memo_[set].addPlan(…)`. -/
def addPlan (S : RelationSet) (op : MemoOp F) (st : State F σ) : State F σ :=
  { st with memo := fun T =>
    if T = S then PlanSet.addPlan env.costModel (st.memo S) op else st.memo T }

/-- Costs an operator; the cost model may update its cache. Source: `DPhyp.cpp`,
`costModel_.cost(…)`. -/
def costed (op : MemoOp F) (st : State F σ) : MemoOp F × State F σ :=
  let r := env.costModel.cost st.costState op
  (op.withCost r.1, { st with costState := r.2 })

/-- Counts, costs and, if its cost is known, inserts a candidate.
Source: `DPhyp.cpp` `addJoinCandidate`, `emitUnnest`. -/
def addCandidate (combined : RelationSet) (op : MemoOp F) (st : State F σ) : State F σ :=
  let r := costed env op { st with budget := st.budget.consume }
  if r.1.cost.cost.isNone then r.2 else addPlan env combined r.1 r.2

/-! ### Distribution -/

/-- Cheapest plan for `cover` in the required partitioning: one that has it, or the cheapest plan
under an exchange to it. Source: `DPhyp.cpp` `bestOnPartitioning`, `makeExchange`. -/
def bestOnPartitioning (st : State F σ) (cover : RelationSet) (required : Partitioning) :
    Option (MemoOp F) :=
  match PlanSet.best env.costModel (st.memo cover) required with
  | none => none
  | some (plan, cost) =>
    if plan.outputPartitioning.sameClassAs required then some plan
    else if plan.outputPartitioning.kind = .broadcast then none
    else some (.exchange ⟨some cost, plan.cost.cardinality⟩ plan required)

/-- Source: `DPhyp.cpp` `gatheredSmall`. -/
def gatheredSmall (st : State F σ) (input : MemoOp F) : Option (MemoOp F) :=
  match env.costModel.broadcastSizeIfFits input with
  | none => none
  | some _ => bestOnPartitioning env st input.cover .gather

/-- The keys rewritten to the columns that survive in a subplan over `cover`.
Source: `DPhyp.cpp` `keysInCoverSchema`. -/
def keysInCoverSchema (keys : List Expr) (cover : RelationSet) : List Expr :=
  keys.map fun key =>
    match key with
    | .column c =>
      if c ∈ env.graph.coverColumns cover then .column (env.graph.coverColumnReps cover c) else key
    | .other .. => key

/-- Source: `DPhyp.cpp` `repartitioned`. -/
def repartitioned (st : State F σ) (cover : RelationSet) (keys : List Expr)
    (replicateNullsAndAny : Bool) : Option (MemoOp F) :=
  bestOnPartitioning env st cover (.hash (keysInCoverSchema env keys cover) replicateNullsAndAny)

/-- Source: `DPhyp.cpp` `repartitionedTo`. -/
def repartitionedTo (st : State F σ) (cover : RelationSet) (keys : List Expr) (targetType : ℕ) :
    Option (MemoOp F) :=
  bestOnPartitioning env st cover (.connectorHash (keysInCoverSchema env keys cover) targetType)

/-- Plans for `cover` partitioned on a subset of the keys, connector-bucketed ones first. Reading a
single relation grouped may add a plan for it. Source: `DPhyp.cpp` `partitioningsOn`. -/
def partitioningsOn (cover : RelationSet) (keys : List Expr) (st : State F σ) :
    (List (MemoOp F) × List (MemoOp F)) × State F σ :=
  let coverKeys := keysInCoverSchema env keys cover
  let alternatives := PlanSet.partitioningsOnSubsets (st.memo cover) coverKeys
  let id := RelationSet.min cover
  if !st.planned cover || !alternatives.1.isEmpty || cover.card ≠ 1 ||
      !(env.groupedPartition id).coLocates coverKeys then
    (alternatives, st)
  else
    let r := costed env (.leaf ⟨none, none⟩ id (env.groupedPartition id)) st
    let st' := addPlan env cover r.1 r.2
    (PlanSet.partitioningsOnSubsets (st'.memo cover) coverKeys, st')

/-- Source: `PhysicalProperties.cpp` `numStageTasks`. -/
def numStageTasks (p : Partitioning) : ℕ :=
  match p.kind with
  | .partitioned => p.partitionType.elim env.hashStageTasks env.numPartitions
  | .gather => 1
  | .unspecified | .broadcast | .arbitrary => env.numWorkers

/-- Cheapest plan for `cover` copied to every task of the probe's stage.
Source: `DPhyp.cpp` `replicatedChild`. -/
def replicatedChild (st : State F σ) (cover : RelationSet) (probePartitioning : Partitioning) :
    Option (MemoOp F) :=
  match st.cheapestPlan cover with
  | none => none
  | some base =>
    match env.costModel.broadcastSizeIfFits base with
    | none => none
    | some _ =>
      if base.outputPartitioning.kind = .broadcast && probePartitioning.kind ≠ .gather then
        some base
      else if (Partitioning.globalReplicatedTo probePartitioning).kind = .gather then
        bestOnPartitioning env st cover (.globalReplicatedTo probePartitioning)
      else
        let broadcast := env.costModel.broadcastCost base (numStageTasks env probePartitioning)
        let total := base.cost.cost.bind fun c => broadcast.map (c + ·)
        some (.exchange ⟨total, base.cost.cardinality⟩ base .globalBroadcast)

/-- Equi-keys oriented to the physical children. Source: `DPhyp.cpp` `orientedKeys`. -/
def orientedKeys (left : MemoOp F) (edges : List JoinEdge) : List Expr × List Expr :=
  (edges.flatMap fun e => if e.leftEligibility ⊆ left.cover then e.leftKeys else e.rightKeys,
    edges.flatMap fun e => if e.leftEligibility ⊆ left.cover then e.rightKeys else e.leftKeys)

/-- Source: `MemoOp.cpp` `JoinOp::emittedJoinType`. -/
def emittedJoinType (joinType : JoinType) (reversedAnti : Bool) : JoinType :=
  if reversedAnti then .rightSemiProject else joinType

/-- The part of a candidate fixed before its children are chosen: the edges it applies, its type
and the set it is recorded under. -/
structure Shape where
  edgeIndex : ℕ
  joinType : JoinType
  combined : RelationSet
  reversedAnti : Bool
  keyEdges : List ℕ
  filterEdges : List ℕ

/-- The join of two chosen children, not yet costed. -/
def Shape.op (shape : Shape) (left right : MemoOp F) (outputPartitioning : Partitioning) :
    MemoOp F :=
  .join ⟨none, none⟩ left right shape.edgeIndex shape.joinType shape.reversedAnti shape.keyEdges
    shape.filterEdges outputPartitioning

/-- Source: `DPhyp.cpp` `addDistributedJoinCandidate`, `candidateOutputPartitioning`. -/
def addDistributedJoinCandidate (shape : Shape) (leftKeys rightKeys : List Expr)
    (left right : MemoOp F) (st : State F σ) : State F σ :=
  addCandidate env shape.combined
    (shape.op left right (env.joinOutputPartitioning
      (emittedJoinType shape.joinType shape.reversedAnti) left.outputPartitioning
      right.outputPartitioning (keysInCoverSchema env leftKeys left.cover)
      (keysInCoverSchema env rightKeys right.cover) shape.combined shape.edgeIndex)) st

/-- Adds the candidate over two children when both could be provided. -/
def addIfBoth (shape : Shape) (leftKeys rightKeys : List Expr) :
    Option (MemoOp F) → Option (MemoOp F) → State F σ → State F σ
  | some left, some right, st => addDistributedJoinCandidate env shape leftKeys rightKeys left right st
  | _, _, st => st

/-- A partitioning in terms of join-key positions. Source: `JoinPartitioning.h`. -/
structure JoinPartitioning where
  keyPositions : List ℕ
  partitionType : Option ℕ
  deriving DecidableEq

/-- Source: `JoinPartitioning.cpp` `JoinPartitioning::from`. -/
def JoinPartitioning.from (partitioning : Partitioning) (joinKeys : List Expr) :
    Option JoinPartitioning :=
  if partitioning.kind ≠ .partitioned || partitioning.keys.isEmpty ||
      partitioning.replicateNullsAndAny then none
  else
    (partitioning.keys.mapM fun key => joinKeys.findIdx? (env.sameOrEqual · key)).map
      (⟨·, partitioning.partitionType⟩)

/-- Source: `PhysicalProperties.cpp` `commonJoinPartitionType`, as a test. -/
def haveCommonJoinPartitionType : Option ℕ → Option ℕ → Bool
  | none, none => true
  | some left, some right =>
    match env.copartitionedType left right with
    | none => false
    | some common => env.numPartitions common = env.numPartitions left &&
        env.numPartitions common = env.numPartitions right
  | _, _ => false

/-- Source: `JoinPartitioning.cpp` `coPartitionsWith`. -/
def JoinPartitioning.coPartitionsWith (p q : JoinPartitioning) : Bool :=
  p.keyPositions = q.keyPositions && haveCommonJoinPartitionType env p.partitionType q.partitionType

/-- Source: `JoinPartitioning.cpp` `correspondingKeys`. -/
def JoinPartitioning.correspondingKeys (p : JoinPartitioning) (joinKeys : List Expr) : List Expr :=
  p.keyPositions.filterMap (joinKeys[·]?)

/-- A memo plan with its partitioning in join-key positions.
Source: `DPhyp.cpp` `MemoPartitioningOffer`. -/
abbrev Offer (F : Type) := MemoOp F × JoinPartitioning

/-- The cheaper of two plans with one partitioning, the earlier one on a tie. -/
def cheaperOffer (offer same : Offer F) : Offer F :=
  match offer.1.cost.cost, same.1.cost.cost with
  | some cost, some sameCost => if cost < sameCost then offer else same
  | _, _ => same

/-- Adds a plan to the offers: a new partitioning is appended, a known one keeps its cheapest plan.
Source: `DPhyp.cpp` `partitioningOffers`, `makeOffers`. -/
def addOffer (coverKeys : List Expr) (offers : List (Offer F)) (plan : MemoOp F) :
    List (Offer F) :=
  match JoinPartitioning.from env plan.outputPartitioning coverKeys with
  | none => offers
  | some partitioning =>
    match offers.findIdx? (·.2 = partitioning) with
    | none => offers ++ [(plan, partitioning)]
    | some i => offers.modify i (cheaperOffer (plan, partitioning))

/-- The cheapest offer for each distinct partitioning.
Source: `DPhyp.cpp` `partitioningOffers`, `makeOffers`. -/
def makeOffers (coverKeys : List Expr) (plans : List (MemoOp F)) : List (Offer F) :=
  plans.foldl (addOffer env coverKeys) []

/-- The partitionings a side can retain: connector offers, then hash offers.
Source: `DPhyp.cpp` `partitioningOffers`. -/
def partitioningOffers (plan : MemoOp F) (keys : List Expr) (st : State F σ) :
    (List (Offer F) × List (Offer F)) × State F σ :=
  let r := partitioningsOn env plan.cover keys st
  let coverKeys := keysInCoverSchema env keys plan.cover
  ((makeOffers env coverKeys r.1.1, makeOffers env coverKeys r.1.2), r.2)

/-- The plan of the moved side aligned with a kept offer.
Source: `DPhyp.cpp` `addCoPartitionedCandidate`, `addAligned`. -/
def aligned (st : State F σ) (moved : RelationSet) (movedKeys : List Expr) (kept : Offer F) :
    Option (MemoOp F) :=
  match kept.1.outputPartitioning.partitionType with
  | none => repartitioned env st moved (kept.2.correspondingKeys movedKeys) false
  | some t => repartitionedTo env st moved (kept.2.correspondingKeys movedKeys) t

/-- Candidates that keep a side's partitioning. Source: `DPhyp.cpp` `addCoPartitionedCandidate`. -/
def addCoPartitionedCandidate (shape : Shape) (leftKeys rightKeys : List Expr)
    (left right : MemoOp F) (leftOffers rightOffers : List (Offer F)) (st : State F σ) :
    State F σ :=
  let st := leftOffers.foldl (fun st leftOffer => rightOffers.foldl (fun st rightOffer =>
    if leftOffer.2.coPartitionsWith env rightOffer.2 then
      addDistributedJoinCandidate env shape leftKeys rightKeys leftOffer.1 rightOffer.1 st
    else st) st) st
  let st := leftOffers.foldl (fun st kept => addIfBoth env shape leftKeys rightKeys
    (some kept.1) (aligned env st right.cover rightKeys kept) st) st
  rightOffers.foldl (fun st kept => addIfBoth env shape leftKeys rightKeys
    (aligned env st left.cover leftKeys kept) (some kept.1) st) st

/-- The candidate over inputs gathered to one task. Source: `DPhyp.cpp` `considerCandidate`. -/
def addGathered (shape : Shape) (leftKeys rightKeys : List Expr) (left right : MemoOp F)
    (st : State F σ) : State F σ :=
  let leftGathered := left.outputPartitioning.kind = .gather
  let rightGathered := right.outputPartitioning.kind = .gather
  if leftGathered ∨ rightGathered then
    addIfBoth env shape leftKeys rightKeys
      (if leftGathered then some left else gatheredSmall env st left)
      (if rightGathered then some right else gatheredSmall env st right) st
  else st

/-- The candidates over an input replicated on every worker.
Source: `DPhyp.cpp` `considerCandidate`. -/
def addReplicated (shape : Shape) (leftKeys rightKeys : List Expr) (left right : MemoOp F)
    (st : State F σ) : State F σ :=
  let leftReplicated := left.outputPartitioning.kind = .broadcast
  let rightReplicated := right.outputPartitioning.kind = .broadcast
  if leftReplicated ∨ rightReplicated then
    let st := addIfBoth env shape leftKeys rightKeys
      (if leftReplicated then some left else replicatedChild env st left.cover .globalBroadcast)
      (if rightReplicated then some right
        else replicatedChild env st right.cover .globalBroadcast) st
    if leftReplicated ∧ ¬ rightReplicated ∧ shape.joinType.canBroadcastProbe ∧
        ¬ shape.reversedAnti then
      addDistributedJoinCandidate env shape leftKeys rightKeys left right st
    else st
  else st

/-- The candidates over inputs partitioned on the join keys.
Source: `DPhyp.cpp` `considerCandidate`. -/
def addPartitioned (shape : Shape) (edge : JoinEdge) (leftKeys rightKeys : List Expr)
    (left right : MemoOp F) (st : State F σ) : State F σ :=
  if leftKeys.isEmpty then st
  else if edge.nullAware then
    let existenceOnLeft := decide (edge.rightEligibility ⊆ left.cover)
    let existenceOnRight := decide (edge.rightEligibility ⊆ right.cover)
    addIfBoth env shape leftKeys rightKeys
      (repartitioned env st left.cover leftKeys existenceOnLeft)
      (repartitioned env st right.cover rightKeys existenceOnRight) st
  else
    let leftOffers := partitioningOffers env left leftKeys st
    let rightOffers := partitioningOffers env right rightKeys leftOffers.2
    let st := rightOffers.2
    let st := addCoPartitionedCandidate env shape leftKeys rightKeys left right
      leftOffers.1.2 rightOffers.1.2 st
    let st := addCoPartitionedCandidate env shape leftKeys rightKeys left right
      leftOffers.1.1 rightOffers.1.1 st
    if leftOffers.1.1.isEmpty && leftOffers.1.2.isEmpty && rightOffers.1.1.isEmpty &&
        rightOffers.1.2.isEmpty then
      addIfBoth env shape leftKeys rightKeys (repartitioned env st left.cover leftKeys false)
        (repartitioned env st right.cover rightKeys false) st
    else st

/-- The candidate that replicates the build side. Source: `DPhyp.cpp` `considerCandidate`. -/
def addBroadcastBuild (shape : Shape) (leftKeys rightKeys : List Expr) (left right : MemoOp F)
    (st : State F σ) : State F σ :=
  if shape.joinType.canBroadcastBuild && !shape.reversedAnti then
    addIfBoth env shape leftKeys rightKeys (some left)
      (replicatedChild env st right.cover left.outputPartitioning) st
  else st

/-- Considers joining `left` with `right` along an edge: as they stand on one worker, and in every
way of distributing them on several. Source: `DPhyp.cpp` `considerCandidate`. -/
def considerCandidate (shape : Shape) (edge : JoinEdge) (left right : MemoOp F) (st : State F σ) :
    State F σ :=
  if env.numWorkers = 1 then
    addCandidate env shape.combined (shape.op left right .unspecified) st
  else
    let keys := orientedKeys left (edge :: shape.keyEdges.filterMap (env.graph.edges[·]?))
    let st := addGathered env shape keys.1 keys.2 left right st
    let st := addReplicated env shape keys.1 keys.2 left right st
    let st := addPartitioned env shape edge keys.1 keys.2 left right st
    addBroadcastBuild env shape keys.1 keys.2 left right st

/-! ### What considering a candidate can do -/

/-- A property `P` of states that every step of considering a join keeps, with `Q S op` the property
of the plans that may stand for the set `S`: plans of the memo and exchanges over them. -/
structure StepClosed (shape : Shape) (left right : MemoOp F) (P : State F σ → Prop)
    (Q : RelationSet → MemoOp F → Prop) : Prop where
  leftPlan : Q left.cover left
  rightPlan : Q right.cover right
  memo : ∀ {st S op}, P st → op ∈ st.memo S → Q S op
  exchange : ∀ {S op c p}, Q S op → Q S (.exchange c op p)
  budget : ∀ {st}, P st → P { st with budget := st.budget.consume }
  costState : ∀ {st c}, P st → P { st with costState := c }
  leaf : ∀ {st S c id p}, P st → st.planned S → S = {id} → P (addPlan env S (.leaf c id p) st)
  join : ∀ {st l r p c}, P st → Q left.cover l → Q right.cover r → c.cost.isSome →
    P (addPlan env shape.combined ((shape.op l r p).withCost c) st)

section steps

variable {env}
variable {shape : Shape} {left right : MemoOp F} {P : State F σ → Prop}
  {Q : RelationSet → MemoOp F → Prop} (h : StepClosed env shape left right P Q)
include h

lemma addCandidate_step {st : State F σ} {l r : MemoOp F} {p : Partitioning} (hst : P st)
    (hl : Q left.cover l) (hr : Q right.cover r) :
    P (addCandidate env shape.combined (shape.op l r p) st) := by
  unfold addCandidate costed
  set c := env.costModel.cost st.costState (shape.op l r p) with hc
  have hst' := h.costState (c := c.2) (h.budget hst)
  simp only [MemoOp.cost_withCost]
  split
  · exact hst'
  · rename_i hnone
    exact h.join hst' hl hr (by simpa [Option.isSome_iff_ne_none] using hnone)

lemma bestOnPartitioning_step {st : State F σ} {S : RelationSet} {p : Partitioning}
    {op : MemoOp F} (hst : P st) (hop : bestOnPartitioning env st S p = some op) : Q S op := by
  unfold bestOnPartitioning at hop
  split at hop
  · exact absurd hop (by simp)
  · rename_i plan cost hbest
    have hplan := h.memo hst (PlanSet.best_mem hbest).1
    split at hop
    · exact Option.some.inj hop ▸ hplan
    · split at hop
      · exact absurd hop (by simp)
      · exact Option.some.inj hop ▸ h.exchange hplan

lemma replicatedChild_step {st : State F σ} {S : RelationSet} {p : Partitioning} {op : MemoOp F}
    (hst : P st) (hop : replicatedChild env st S p = some op) : Q S op := by
  unfold replicatedChild at hop
  split at hop
  · exact absurd hop (by simp)
  · rename_i base hbase
    have hplan := h.memo hst (PlanSet.cheapest_mem hbase)
    split at hop
    · exact absurd hop (by simp)
    · split at hop
      · exact Option.some.inj hop ▸ hplan
      · split at hop
        · exact bestOnPartitioning_step h hst hop
        · exact Option.some.inj hop ▸ h.exchange hplan

lemma gatheredSmall_step {st : State F σ} {input op : MemoOp F} (hst : P st)
    (hop : gatheredSmall env st input = some op) : Q input.cover op := by
  unfold gatheredSmall at hop
  split at hop
  · exact absurd hop (by simp)
  · exact bestOnPartitioning_step h hst hop

lemma aligned_step {st : State F σ} {S : RelationSet} {keys : List Expr} {kept : Offer F}
    {op : MemoOp F} (hst : P st) (hop : aligned env st S keys kept = some op) : Q S op := by
  unfold aligned at hop
  split at hop
  · exact bestOnPartitioning_step h hst hop
  · exact bestOnPartitioning_step h hst hop

lemma addIfBoth_step {st : State F σ} {lk rk : List Expr} {l r : Option (MemoOp F)} (hst : P st)
    (hl : ∀ op, l = some op → Q left.cover op) (hr : ∀ op, r = some op → Q right.cover op) :
    P (addIfBoth env shape lk rk l r st) := by
  rcases l with - | l
  · exact hst
  · rcases r with - | r
    · exact hst
    · exact addCandidate_step h hst (hl l rfl) (hr r rfl)

lemma partitioningsOn_step {st : State F σ} (S : RelationSet) (keys : List Expr) (hst : P st) :
    P (partitioningsOn env S keys st).2 ∧
      ∀ op, op ∈ (partitioningsOn env S keys st).1.1 ∨ op ∈ (partitioningsOn env S keys st).1.2 →
        Q S op := by
  have hmem : ∀ {st : State F σ} {ks : List Expr}, P st → ∀ op,
      op ∈ (PlanSet.partitioningsOnSubsets (st.memo S) ks).1 ∨
        op ∈ (PlanSet.partitioningsOnSubsets (st.memo S) ks).2 → Q S op := by
    intro st ks hst op hop
    refine h.memo hst (?_ : op ∈ st.memo S)
    rcases hop with hop | hop
    · exact List.mem_of_mem_filter (List.mem_of_mem_filter hop)
    · exact List.mem_of_mem_filter (List.mem_of_mem_filter hop)
  unfold partitioningsOn
  simp only []
  split
  · exact ⟨hst, hmem hst⟩
  · rename_i hcond
    simp only [Bool.or_eq_true, not_or, Bool.not_eq_true', Bool.not_eq_false, decide_eq_true_eq,
      not_not, ne_eq] at hcond
    obtain ⟨⟨⟨hplanned, -⟩, hcard⟩, -⟩ := hcond
    obtain ⟨id, rfl⟩ := Finset.card_eq_one.mp hcard
    have hmin : RelationSet.min {id} = id :=
      Finset.mem_singleton.mp (RelationSet.min_mem (Finset.singleton_nonempty id))
    have hst' : P (addPlan env {id} (costed env (.leaf ⟨none, none⟩ (RelationSet.min {id})
        (env.groupedPartition (RelationSet.min {id}))) st).1 (costed env (.leaf ⟨none, none⟩
        (RelationSet.min {id}) (env.groupedPartition (RelationSet.min {id}))) st).2) :=
      h.leaf (h.costState hst) hplanned (by rw [hmin])
    exact ⟨hst', hmem hst'⟩

omit h in
lemma cheaperOffer_cases (offer same : Offer F) :
    cheaperOffer offer same = offer ∨ cheaperOffer offer same = same := by
  unfold cheaperOffer
  split
  · split
    · exact Or.inl rfl
    · exact Or.inr rfl
  · exact Or.inr rfl

omit h in
/-- An offer after an addition is of the added plan or was there before. -/
lemma addOffer_mem {coverKeys : List Expr} {offers : List (Offer F)} {plan : MemoOp F}
    {offer : Offer F} (hoffer : offer ∈ addOffer env coverKeys offers plan) :
    offer.1 = plan ∨ offer ∈ offers := by
  unfold addOffer at hoffer
  split at hoffer
  · exact Or.inr hoffer
  · split at hoffer
    · rcases List.mem_append.mp hoffer with hoffer | hoffer
      · exact Or.inr hoffer
      · exact Or.inl (List.mem_singleton.mp hoffer ▸ rfl)
    · obtain ⟨j, hj, rfl⟩ := List.mem_iff_getElem.mp hoffer
      rw [List.length_modify] at hj
      rw [List.getElem_modify]
      split
      · rcases cheaperOffer_cases (plan, _) offers[j] with heq | heq
        · exact Or.inl (by rw [heq])
        · exact Or.inr (by rw [heq]; exact List.getElem_mem hj)
      · exact Or.inr (List.getElem_mem hj)

omit h in
/-- Offers are made of the plans they were made from. -/
lemma makeOffers_mem {coverKeys : List Expr} {plans : List (MemoOp F)} {offer : Offer F}
    (hoffer : offer ∈ makeOffers env coverKeys plans) : offer.1 ∈ plans := by
  suffices key : ∀ (rest : List (MemoOp F)) (acc : List (Offer F)), (∀ op ∈ rest, op ∈ plans) →
      (∀ o ∈ acc, o.1 ∈ plans) → ∀ o ∈ rest.foldl (addOffer env coverKeys) acc, o.1 ∈ plans from
    key plans [] (fun _ h => h) (by simp) offer hoffer
  intro rest
  induction rest with
  | nil => exact fun acc _ hacc => hacc
  | cons plan rest ih =>
    intro acc hrest hacc
    refine ih _ (fun op hop => hrest op (List.mem_cons_of_mem _ hop)) fun o ho => ?_
    rcases addOffer_mem ho with heq | ho
    · exact heq ▸ hrest plan List.mem_cons_self
    · exact hacc o ho

lemma partitioningOffers_step {st : State F σ} (op : MemoOp F) (keys : List Expr) (hst : P st) :
    P (partitioningOffers env op keys st).2 ∧
      (∀ o ∈ (partitioningOffers env op keys st).1.1, Q op.cover o.1) ∧
      ∀ o ∈ (partitioningOffers env op keys st).1.2, Q op.cover o.1 := by
  obtain ⟨hst', hQ⟩ := partitioningsOn_step h op.cover keys hst
  exact ⟨hst', fun o ho => hQ _ (Or.inl (makeOffers_mem ho)),
    fun o ho => hQ _ (Or.inr (makeOffers_mem ho))⟩

omit h in
/-- A fold keeps what each of its steps keeps. -/
lemma foldl_keeps {β : Type} {f : State F σ → β → State F σ} :
    ∀ {l : List β} {st : State F σ}, P st → (∀ st, ∀ b ∈ l, P st → P (f st b)) → P (l.foldl f st)
  | [], _, hst, _ => hst
  | b :: l, _, hst, hf =>
    foldl_keeps (l := l) (hf _ b List.mem_cons_self hst)
      fun st c hc => hf st c (List.mem_cons_of_mem _ hc)

lemma addCoPartitionedCandidate_step {st : State F σ} (lk rk : List Expr)
    {leftOffers rightOffers : List (Offer F)} (hst : P st)
    (hl : ∀ o ∈ leftOffers, Q left.cover o.1) (hr : ∀ o ∈ rightOffers, Q right.cover o.1) :
    P (addCoPartitionedCandidate env shape lk rk left right leftOffers rightOffers st) := by
  unfold addCoPartitionedCandidate
  refine foldl_keeps (foldl_keeps (foldl_keeps hst ?_) ?_) ?_
  · intro st lo hlo hst
    refine foldl_keeps hst fun st ro hro hst => ?_
    split
    · exact addCandidate_step h hst (hl lo hlo) (hr ro hro)
    · exact hst
  · intro st kept hkept hst
    exact addIfBoth_step h hst (fun op hop => Option.some.inj hop ▸ hl kept hkept)
      fun op hop => aligned_step h hst hop
  · intro st kept hkept hst
    exact addIfBoth_step h hst (fun op hop => aligned_step h hst hop)
      fun op hop => Option.some.inj hop ▸ hr kept hkept

lemma addGathered_step {st : State F σ} {lk rk : List Expr} (hst : P st) :
    P (addGathered env shape lk rk left right st) := by
  unfold addGathered
  simp only []
  split
  · refine addIfBoth_step h hst (fun op hop => ?_) fun op hop => ?_
    · split at hop
      · exact Option.some.inj hop ▸ h.leftPlan
      · exact gatheredSmall_step h hst hop
    · split at hop
      · exact Option.some.inj hop ▸ h.rightPlan
      · exact gatheredSmall_step h hst hop
  · exact hst

lemma addReplicated_step {st : State F σ} {lk rk : List Expr} (hst : P st) :
    P (addReplicated env shape lk rk left right st) := by
  unfold addReplicated
  simp only []
  split
  · have hboth : P (addIfBoth env shape lk rk
        (if left.outputPartitioning.kind = .broadcast then some left
          else replicatedChild env st left.cover .globalBroadcast)
        (if right.outputPartitioning.kind = .broadcast then some right
          else replicatedChild env st right.cover .globalBroadcast) st) := by
      refine addIfBoth_step h hst (fun op hop => ?_) fun op hop => ?_
      · split at hop
        · exact Option.some.inj hop ▸ h.leftPlan
        · exact replicatedChild_step h hst hop
      · split at hop
        · exact Option.some.inj hop ▸ h.rightPlan
        · exact replicatedChild_step h hst hop
    split
    · exact addCandidate_step h hboth h.leftPlan h.rightPlan
    · exact hboth
  · exact hst

lemma addPartitioned_step {st : State F σ} {edge : JoinEdge} {lk rk : List Expr} (hst : P st) :
    P (addPartitioned env shape edge lk rk left right st) := by
  unfold addPartitioned
  simp only []
  split
  · exact hst
  · split
    · exact addIfBoth_step h hst (fun op hop => bestOnPartitioning_step h hst hop)
        fun op hop => bestOnPartitioning_step h hst hop
    · obtain ⟨hst₁, hlc, hlh⟩ := partitioningOffers_step h left lk hst
      obtain ⟨hst₂, hrc, hrh⟩ := partitioningOffers_step h right rk hst₁
      have hst₃ := addCoPartitionedCandidate_step h lk rk hst₂ hlh hrh
      have hst₄ := addCoPartitionedCandidate_step h lk rk hst₃ hlc hrc
      split
      · exact addIfBoth_step h hst₄ (fun op hop => bestOnPartitioning_step h hst₄ hop)
          fun op hop => bestOnPartitioning_step h hst₄ hop
      · exact hst₄

lemma addBroadcastBuild_step {st : State F σ} {lk rk : List Expr} (hst : P st) :
    P (addBroadcastBuild env shape lk rk left right st) := by
  unfold addBroadcastBuild
  split
  · exact addIfBoth_step h hst (fun op hop => Option.some.inj hop ▸ h.leftPlan)
      fun op hop => replicatedChild_step h hst hop
  · exact hst

/-- **Considering a join keeps what its steps keep.** -/
theorem considerCandidate_step {st : State F σ} {edge : JoinEdge} (hst : P st) :
    P (considerCandidate env shape edge left right st) := by
  unfold considerCandidate
  simp only []
  split
  · exact addCandidate_step h hst h.leftPlan h.rightPlan
  · exact addBroadcastBuild_step h (addPartitioned_step h (addReplicated_step h
      (addGathered_step h hst)))

end steps

end Enumerator

end Verax.JoinOrder
