import Verax.JoinOrder.JoinHypergraph

/-!
# Memo entries and the plan frontier

`MemoOp` is a subplan of the memo: a leaf, a join of two subplans, an Unnest over a subplan, or an
exchange. `PlanSet` is the set of plans the memo keeps for one relation set: `addPlan` drops a
candidate that an existing plan dominates and the existing plans the candidate dominates.

Costs are floats in the source. Here they belong to an arbitrary type `F` with an addition, an
order test and an equality test, none of which obeys any law, so what is proved holds of float
arithmetic. A plan is a value, so the identity of the objects the source points at is not modelled.
-/

set_option linter.unusedSectionVars false

namespace Verax.JoinOrder

/-! ### Entries -/

/-- Estimated cost and output row count, each possibly unknown. Source: `Cost.h` `Cost`. -/
structure Cost (F : Type) where
  cost : Option F
  cardinality : Option F
  deriving DecidableEq

/-- A subplan of the memo. Source: `MemoOp.h` `LeafOp`, `JoinOp`, `UnnestOp`, `ExchangeOp`. -/
inductive MemoOp (F : Type)
  | leaf (cost : Cost F) (relationId : ℕ) (outputPartitioning : Partitioning)
  | join (cost : Cost F) (left right : MemoOp F) (edgeIndex : ℕ) (joinType : JoinType)
      (reversedAnti : Bool) (keyEdges filterEdges : List ℕ) (outputPartitioning : Partitioning)
  | unnest (cost : Cost F) (input : MemoOp F) (edgeIndex : ℕ) (unnestRelation : RelationSet)
      (filterEdges : List ℕ)
  | exchange (cost : Cost F) (input : MemoOp F) (outputPartitioning : Partitioning)

namespace MemoOp

variable {F : Type}

/-- Source: `MemoOp.h` `MemoOp::cost`. -/
def cost : MemoOp F → Cost F
  | leaf c .. | join c .. | unnest c .. | exchange c .. => c

/-- The relations a subplan covers. Source: `MemoOp.h` `cover`. -/
def cover : MemoOp F → RelationSet
  | leaf _ id _ => {id}
  | join _ left right .. => left.cover ∪ right.cover
  | unnest _ input _ relation _ => input.cover ∪ relation
  | exchange _ input _ => input.cover

/-- Source: `MemoOp.h` `outputPartitioning`; an Unnest keeps its input's (`MemoOp.cpp`). -/
def outputPartitioning : MemoOp F → Partitioning
  | leaf _ _ p => p
  | join _ _ _ _ _ _ _ _ p => p
  | unnest _ input .. => input.outputPartitioning
  | exchange _ _ p => p

/-- The operator with its cost set. Source: `DPhyp.cpp`, `candidate->cost = …`. -/
def withCost (c : Cost F) : MemoOp F → MemoOp F
  | leaf _ id p => leaf c id p
  | join _ l r e t a k f p => join c l r e t a k f p
  | unnest _ i e r f => unnest c i e r f
  | exchange _ i p => exchange c i p

/-- The edges a subplan applies. Source: `DPhyp.cpp` `collectAppliedEdges`. -/
def appliedEdges : MemoOp F → List ℕ
  | leaf .. => []
  | join _ left right e _ _ keys filters _ =>
    e :: keys ++ filters ++ left.appliedEdges ++ right.appliedEdges
  | unnest _ input e _ filters => e :: filters ++ input.appliedEdges
  | exchange _ input _ => input.appliedEdges

/-- The rank of a join type in the source's enumeration, which the tiebreak compares. -/
def joinTypeRank : JoinType → ℕ
  | .inner => 0 | .left => 1 | .right => 2 | .full => 3
  | .leftSemiFilter => 4 | .countingLeftSemiFilter => 5 | .leftSemiProject => 6
  | .rightSemiFilter => 7 | .rightSemiProject => 8 | .rightAnti => 9 | .anti => 10
  | .countingAnti => 11

/-- The rank of a partition kind in the source's enumeration. -/
def partitionKindRank : PartitionKind → ℕ
  | .unspecified => 0 | .partitioned => 1 | .gather => 2 | .broadcast => 3 | .arbitrary => 4

/-- The tiebreak key, compared lexicographically. Source: `PlanSet.cpp` `tieKey`. -/
def tieKey : MemoOp F → List ℕ
  | join _ left right e t a _ _ _ =>
    [RelationSet.bits left.cover, RelationSet.bits right.cover, e, joinTypeRank t, a.toNat]
  | unnest _ input e _ _ => [RelationSet.bits input.cover, 0, e, 0, 2]
  | exchange _ input p =>
    [RelationSet.bits input.cover, 0, p.keys.length, partitionKindRank p.kind, 1]
  | leaf _ id _ => [id, 0, 0, 0, 0]

@[simp] lemma cover_withCost (c : Cost F) (op : MemoOp F) : (op.withCost c).cover = op.cover := by
  cases op <;> rfl

@[simp] lemma cost_withCost (c : Cost F) (op : MemoOp F) : (op.withCost c).cost = c := by
  cases op <;> rfl

@[simp] lemma appliedEdges_withCost (c : Cost F) (op : MemoOp F) :
    (op.withCost c).appliedEdges = op.appliedEdges := by
  cases op <;> rfl

end MemoOp

/-! ### Cost model -/

/-- The pluggable cost source. `cost` may update a cache of estimates, threaded as `σ`; the size
test of a broadcast has the configured limit built in. Source: `CostModel.h` `CostModel`. -/
structure CostModel (F σ : Type) where
  cost : σ → MemoOp F → Cost F × σ
  shuffleCost : MemoOp F → Option F
  broadcastCost : MemoOp F → ℕ → Option F
  broadcastSizeIfFits : MemoOp F → Option F

/-- The plans kept for one relation set. Source: `PlanSet.h` `PlanSet`. -/
abbrev PlanSet (F : Type) := List (MemoOp F)

namespace PlanSet

variable {F σ : Type} [Add F] [BEq F] [LT F] [DecidableLT F]

/-- Cost of producing the partitioning `target` from a costed plan.
Source: `PlanSet.cpp` `costAsPartitioning`. -/
def costAsPartitioning (cm : CostModel F σ) (op : MemoOp F) (base : F) (target : Partitioning) :
    Option F :=
  if op.outputPartitioning.sameClassAs target then some base
  else (cm.shuffleCost op).map (base + ·)

/-- An existing plan reaches the candidate's partitioning at no greater cost: cheaper, or equal
with a tiebreak no greater. A plan of unknown cost, which the source never compares, dominates
nothing. Source: `PlanSet.cpp` `addPlan`, first loop. -/
def dominatesCandidate (cm : CostModel F σ) (candidate existing : MemoOp F) (candidateCost : F) :
    Bool :=
  match existing.cost.cost.bind fun base =>
      costAsPartitioning cm existing base candidate.outputPartitioning with
  | none => false
  | some asCandidate => asCandidate < candidateCost ||
      (asCandidate == candidateCost && decide (existing.tieKey ≤ candidate.tieKey))

/-- The candidate reaches an existing plan's partitioning at lower cost, or equal cost with a
smaller tiebreak. Source: `PlanSet.cpp` `addPlan`, `erase_if`. -/
def dominatedByCandidate (cm : CostModel F σ) (candidate existing : MemoOp F) (candidateCost : F) :
    Bool :=
  match existing.cost.cost,
      costAsPartitioning cm candidate candidateCost existing.outputPartitioning with
  | some existingCost, some asExisting => asExisting < existingCost ||
      (asExisting == existingCost && decide (candidate.tieKey < existing.tieKey))
  | _, _ => false

/-- Inserts a candidate, keeping the set non-dominated. A candidate of unknown cost, which only a
leaf can be, is kept. Source: `PlanSet.cpp` `addPlan`. -/
def addPlan (cm : CostModel F σ) (plans : PlanSet F) (candidate : MemoOp F) : PlanSet F :=
  match candidate.cost.cost with
  | none => plans ++ [candidate]
  | some candidateCost =>
    if plans.any (dominatesCandidate cm candidate · candidateCost) then plans
    else (plans.filter fun existing => !dominatedByCandidate cm candidate existing candidateCost) ++
      [candidate]

/-- The better of the best plan so far and the next one, by effective cost, then tiebreak. -/
def betterOf (best : Option (MemoOp F × F)) (plan : MemoOp F) (effective : Option F) :
    Option (MemoOp F × F) :=
  match effective, best with
  | none, _ => best
  | some cost, none => some (plan, cost)
  | some cost, some (bestPlan, bestCost) =>
    if cost < bestCost || (cost == bestCost && decide (plan.tieKey < bestPlan.tieKey)) then
      some (plan, cost)
    else best

/-- Source: `PlanSet.cpp` `best`, with a required partitioning. -/
def best (cm : CostModel F σ) (plans : PlanSet F) (required : Partitioning) :
    Option (MemoOp F × F) :=
  plans.foldl (fun acc plan => betterOf acc plan (plan.cost.cost.bind fun base =>
    costAsPartitioning cm plan base required)) none

/-- The cheapest plan whatever its partitioning; an uncosted plan only where nothing is costed.
Source: `PlanSet.cpp` `cheapest`. -/
def cheapest (plans : PlanSet F) : Option (MemoOp F) :=
  match plans with
  | [plan] => some plan
  | _ =>
    match plans.foldl (fun acc plan => betterOf acc plan plan.cost.cost) none with
    | some (plan, _) => some plan
    | none => plans.head?

/-- Plans partitioned on a subset of the keys: connector-bucketed ones and standard-hash ones.
Source: `PlanSet.cpp` `partitioningsOnSubsets`. -/
def partitioningsOnSubsets (plans : PlanSet F) (keys : List Expr) :
    List (MemoOp F) × List (MemoOp F) :=
  let reusable := plans.filter fun plan =>
    plan.cost.cost.isSome && plan.outputPartitioning.kind = .partitioned &&
      !plan.outputPartitioning.replicateNullsAndAny && plan.outputPartitioning.coLocates keys
  (reusable.filter (·.outputPartitioning.partitionType.isSome),
    reusable.filter (·.outputPartitioning.partitionType.isNone))

/-- Source: `PlanSet.cpp` `cardinality`. -/
def cardinality (plans : PlanSet F) : Option F := plans.head?.bind (·.cost.cardinality)

/-! ### Lemmas -/

/-- A set that received a plan is not empty. -/
lemma addPlan_ne_nil (cm : CostModel F σ) (plans : PlanSet F) (candidate : MemoOp F) :
    addPlan cm plans candidate ≠ [] := by
  unfold addPlan
  split
  · simp
  · split
    · rename_i h
      intro hnil
      simp [hnil] at h
    · simp

/-- A plan of the set after an insertion is the candidate or was there before. -/
lemma mem_addPlan {cm : CostModel F σ} {plans : PlanSet F} {candidate op : MemoOp F}
    (h : op ∈ addPlan cm plans candidate) : op ∈ plans ∨ op = candidate := by
  unfold addPlan at h
  split at h
  · simpa using h
  · split at h
    · exact Or.inl h
    · rcases List.mem_append.mp h with h | h
      · exact Or.inl (List.mem_of_mem_filter h)
      · exact Or.inr (List.mem_singleton.mp h)

/-- The running best is kept or replaced by the plan at hand with its effective cost. -/
lemma betterOf_cases (acc : Option (MemoOp F × F)) (plan : MemoOp F) (effective : Option F) :
    betterOf acc plan effective = acc ∨
      ∃ c, effective = some c ∧ betterOf acc plan effective = some (plan, c) := by
  rcases effective with - | c
  · exact Or.inl (by cases acc <;> rfl)
  · rcases acc with - | ⟨bestPlan, bestCost⟩
    · exact Or.inr ⟨c, rfl, rfl⟩
    · by_cases h : (c < bestCost || (c == bestCost && decide (plan.tieKey < bestPlan.tieKey))) = true
      · exact Or.inr ⟨c, rfl, if_pos h⟩
      · exact Or.inl (if_neg h)

/-- A running best is never lost, and a costed plan provides one. -/
lemma betterOf_isSome {acc : Option (MemoOp F × F)} {plan : MemoOp F} {effective : Option F}
    (h : acc.isSome ∨ effective.isSome) : (betterOf acc plan effective).isSome := by
  rcases betterOf_cases acc plan effective with heq | ⟨c, -, heq⟩
  · rcases h with h | h
    · rwa [heq]
    · obtain ⟨c, rfl⟩ := Option.isSome_iff_exists.mp h
      rcases acc with - | best
      · rfl
      · rw [heq]
        rfl
  · rw [heq]
    rfl

/-- The running best is one of the plans folded over, with its effective cost. -/
lemma foldl_betterOf_mem {effective : MemoOp F → Option F} :
    ∀ (plans : PlanSet F) {acc : Option (MemoOp F × F)} {r : MemoOp F × F},
      plans.foldl (fun acc plan => betterOf acc plan (effective plan)) acc = some r →
      acc = some r ∨ r.1 ∈ plans ∧ effective r.1 = some r.2
  | [], _, _, h => Or.inl h
  | plan :: plans, acc, r, h => by
    rcases foldl_betterOf_mem plans h with h | ⟨h, heq⟩
    · rcases betterOf_cases acc plan (effective plan) with heq | ⟨c, hc, heq⟩
      · exact Or.inl (heq ▸ h)
      · obtain rfl : (plan, c) = r := Option.some.inj (heq ▸ h)
        exact Or.inr ⟨List.mem_cons_self, hc⟩
    · exact Or.inr ⟨List.mem_cons_of_mem _ h, heq⟩

/-- A costed plan among those folded over yields a best one. -/
lemma foldl_betterOf_isSome {effective : MemoOp F → Option F} :
    ∀ (plans : PlanSet F) {acc : Option (MemoOp F × F)},
      (acc.isSome ∨ ∃ plan ∈ plans, (effective plan).isSome) →
      (plans.foldl (fun acc plan => betterOf acc plan (effective plan)) acc).isSome
  | [], _, h => by simpa using h
  | plan :: plans, acc, h => by
    refine foldl_betterOf_isSome plans ?_
    rcases h with h | ⟨q, hq, h⟩
    · exact Or.inl (betterOf_isSome (Or.inl h))
    · rcases List.mem_cons.mp hq with rfl | hq
      · exact Or.inl (betterOf_isSome (Or.inr h))
      · exact Or.inr ⟨q, hq, h⟩

lemma best_mem {cm : CostModel F σ} {plans : PlanSet F} {required : Partitioning}
    {r : MemoOp F × F} (h : best cm plans required = some r) :
    r.1 ∈ plans ∧ (r.1.cost.cost.bind fun base => costAsPartitioning cm r.1 base required) =
      some r.2 := by
  rcases foldl_betterOf_mem _ h with h | h
  · exact absurd h (by simp)
  · exact h

/-- The cheapest plan is one of the set. -/
lemma cheapest_mem {plans : PlanSet F} {op : MemoOp F} (h : cheapest plans = some op) :
    op ∈ plans := by
  unfold cheapest at h
  split at h
  · simpa using h.symm
  · split at h
    · rename_i plan c hfold
      obtain rfl := Option.some.inj h
      rcases foldl_betterOf_mem _ hfold with h | h
      · exact absurd h (by simp)
      · exact h.1
    · exact List.mem_of_head? h

/-- A nonempty set has a cheapest plan. -/
lemma cheapest_isSome {plans : PlanSet F} (h : plans ≠ []) : ∃ op, cheapest plans = some op := by
  unfold cheapest
  split
  · exact ⟨_, rfl⟩
  · split
    · exact ⟨_, rfl⟩
    · exact ⟨_, List.head?_eq_some_head h⟩

end PlanSet

end Verax.JoinOrder
