import Verax.Lib.Frontiers
import Verax.JoinOrder.Completeness
import Mathlib.Data.Prod.Lex
import Mathlib.Algebra.Order.Monoid.Defs
import Mathlib.Algebra.Order.Group.Nat

/-!
# The plan frontier and the order of the candidates

What `PlanSet` holds after costed plans of one relation set were added in turn, and what `best` and
`cheapest` return from it. Costs belong to a linear order with a monotone addition, which need not
be associative or strictly monotone: float addition, which absorbs small terms, is neither.

* `frontier_nondominated`, `bestFor_least`: no stored plan is dominated, and the least cost over all
  plans ever added is returned, for every required partitioning.
* `frontierHolds_iff`: every order of the candidates returns the same plans if and only if for every
  requirement one plan that no other dominates comes before all that no such plan displaces.
* `frontier_order`: the tie key does not read the partitioning of a join's output; joins may tie.
-/

set_option linter.unusedSectionVars false

namespace Verax.JoinOrder

open Lib.Frontiers

/-! ### Partitionings -/

/-- Partitionings of one class are the same. -/
@[simp] lemma Partitioning.sameClassAs_iff {p q : Partitioning} :
    p.sameClassAs q = true ↔ p = q := by
  cases p
  cases q
  simp only [Partitioning.sameClassAs, Bool.and_eq_true, decide_eq_true_eq, Partitioning.mk.injEq]
  tauto

/-- Repartitioning is priced by what it moves: the same for plans that cover the same relations and
have the same number of rows, and never negative. -/
structure CostModel.PricesRows {F σ : Type} [LE F] [Zero F] (cm : CostModel F σ) : Prop where
  congr : ∀ p q, p.cover = q.cover → p.cost.cardinality = q.cost.cardinality →
    cm.shuffleCost p = cm.shuffleCost q
  nonneg : ∀ op, (∀ rows ∈ op.cost.cardinality, 0 ≤ rows) →
    ∀ shuffle ∈ cm.shuffleCost op, 0 ≤ shuffle

namespace PlanSet

/-! ### Selection -/

section Selection

variable {F σ : Type} [Add F] [BEq F] [LT F] [DecidableLT F]

/-- The cost of a plan with the shuffle that meets the requirement, if it is known.
Source: `PlanSet.cpp` `best`. -/
def effectiveCost (cm : CostModel F σ) (required : Option Partitioning) (plan : MemoOp F) :
    Option F :=
  match required with
  | none => plan.cost.cost
  | some target => plan.cost.cost.bind fun base => costAsPartitioning cm plan base target

/-- The plan of least effective cost, with that cost. Source: `PlanSet.cpp` `best`, with a required
partitioning or none. -/
def bestFor (cm : CostModel F σ) (plans : PlanSet F) (required : Option Partitioning) :
    Option (MemoOp F × F) :=
  plans.foldl (fun acc plan => betterOf acc plan (effectiveCost cm required plan)) none

lemma bestFor_some (cm : CostModel F σ) (plans : PlanSet F) (required : Partitioning) :
    bestFor cm plans (some required) = best cm plans required := rfl

/-- The set after plans were added in turn. -/
def frontier (cm : CostModel F σ) (offered : List (MemoOp F)) : PlanSet F :=
  offered.foldl (addPlan cm) []

/-- A stored plan makes `addPlan` drop a candidate. -/
def Dominates (cm : CostModel F σ) (existing candidate : MemoOp F) : Prop :=
  ∃ cost ∈ candidate.cost.cost, dominatesCandidate cm candidate existing cost = true

/-- A candidate makes `addPlan` erase a stored plan. -/
def Displaces (cm : CostModel F σ) (candidate existing : MemoOp F) : Prop :=
  ∃ cost ∈ candidate.cost.cost, dominatedByCandidate cm candidate existing cost = true

/-- A plan of the offered ones that no other dominates. -/
def Undominated (cm : CostModel F σ) (offered : List (MemoOp F)) (plan : MemoOp F) : Prop :=
  plan ∈ offered ∧ ∀ other ∈ offered, other ≠ plan → ¬ Dominates cm other plan

/-- For a requirement, one undominated plan comes before every plan that no undominated one
displaces, by effective cost, then tie key; or no plan's effective cost is known. -/
def Settled (cm : CostModel F σ) (offered : List (MemoOp F)) (required : Option Partitioning) :
    Prop :=
  (∀ plan ∈ offered, effectiveCost cm required plan = none) ∨
    ∃ plan cost, Undominated cm offered plan ∧ effectiveCost cm required plan = some cost ∧
      ∀ other ∈ offered, other ≠ plan → ∀ otherCost ∈ effectiveCost cm required other,
        otherCost < cost ∨ otherCost = cost ∧ other.tieKey ≤ plan.tieKey →
          ∃ better, Undominated cm offered better ∧ Displaces cm better other

end Selection

variable {F σ : Type} [LinearOrder F] [AddZeroClass F] {cm : CostModel F σ}
  {offered : List (MemoOp F)}

/-- Costed plans for one relation set: they cover the same relations and have the same estimated
number of rows. Source: `PlanSet.h` `addPlan`, `cardinality`. -/
structure OneRelationSet (offered : List (MemoOp F)) : Prop where
  cover_eq : ∀ p ∈ offered, ∀ q ∈ offered, p.cover = q.cover
  cardinality_eq : ∀ p ∈ offered, ∀ q ∈ offered, p.cost.cardinality = q.cost.cardinality
  rows_nonneg : ∀ p ∈ offered, ∀ rows ∈ p.cost.cardinality, 0 ≤ rows
  costed : ∀ p ∈ offered, p.cost.cost.isSome

lemma OneRelationSet.perm {reordered : List (MemoOp F)} (h : OneRelationSet offered)
    (hperm : offered.Perm reordered) : OneRelationSet reordered where
  cover_eq p hp q hq := h.cover_eq p (hperm.mem_iff.mpr hp) q (hperm.mem_iff.mpr hq)
  cardinality_eq p hp q hq := h.cardinality_eq p (hperm.mem_iff.mpr hp) q (hperm.mem_iff.mpr hq)
  rows_nonneg p hp := h.rows_nonneg p (hperm.mem_iff.mpr hp)
  costed p hp := h.costed p (hperm.mem_iff.mpr hp)

/-! ### The scale of the plans -/

/-- The cost of a costed plan. -/
def knownCost (plan : MemoOp F) : F := plan.cost.cost.getD 0

/-- Plans on the scale of their effective costs, ties ordered by key. -/
def scale (cm : CostModel F σ) : Scale (MemoOp F) (Option Partitioning) (F ×ₗ List ℕ) where
  value required plan :=
    (match required with
      | none => some (knownCost plan)
      | some target => costAsPartitioning cm plan (knownCost plan) target).map
        fun cost => toLex (cost, plan.tieKey)
  home plan := some plan.outputPartitioning
  own plan := toLex (knownCost plan, plan.tieKey)
  value_home plan := by
    change (costAsPartitioning cm plan (knownCost plan) plan.outputPartitioning).map _ = _
    rw [costAsPartitioning, if_pos (Partitioning.sameClassAs_iff.mpr rfl)]
    rfl

lemma cost_of_costed {plan : MemoOp F} (h : plan.cost.cost.isSome) :
    plan.cost.cost = some (knownCost plan) := by
  obtain ⟨cost, hcost⟩ := Option.isSome_iff_exists.mp h
  rw [knownCost, hcost]
  rfl

lemma value_scale {plan : MemoOp F} (h : plan.cost.cost.isSome) (required : Option Partitioning) :
    (scale cm).value required plan =
      (effectiveCost cm required plan).map fun cost => toLex (cost, plan.tieKey) := by
  rcases required with - | target
  · rw [effectiveCost, cost_of_costed h]
    rfl
  · rw [effectiveCost, cost_of_costed h]
    rfl

/-- The key order as a boolean, as the code compares. -/
lemma toLex_le_iff {a b : F} {j k : List ℕ} :
    toLex (a, j) ≤ toLex (b, k) ↔ (decide (a < b) || (a == b && decide (j ≤ k))) = true := by
  simp [Prod.Lex.toLex_le_toLex]

lemma toLex_le_of_le {a b : F} (h : a ≤ b) (k : List ℕ) : toLex (a, k) ≤ toLex (b, k) :=
  Prod.Lex.toLex_le_toLex.mpr (h.lt_or_eq.imp_right fun heq => ⟨heq, le_rfl⟩)

lemma toLex_lt_iff {a b : F} {j k : List ℕ} :
    toLex (a, j) < toLex (b, k) ↔ (decide (a < b) || (a == b && decide (j < k))) = true := by
  simp [Prod.Lex.toLex_lt_toLex]

lemma dominates_iff {existing candidate : MemoOp F} (he : existing.cost.cost.isSome)
    (hc : candidate.cost.cost.isSome) :
    (scale cm).covers existing candidate = true ↔ Dominates cm existing candidate := by
  have hvalue : (scale cm).value ((scale cm).home candidate) existing =
      (costAsPartitioning cm existing (knownCost existing) candidate.outputPartitioning).map
        fun cost => toLex (cost, existing.tieKey) := rfl
  rw [Scale.covers, hvalue, Dominates, cost_of_costed hc]
  simp only [Option.mem_def, Option.some.injEq, exists_eq_left']
  rw [dominatesCandidate, cost_of_costed he, Option.bind_some]
  rcases costAsPartitioning cm existing (knownCost existing) candidate.outputPartitioning
    with - | cost
  · exact Iff.rfl
  · rw [← toLex_le_iff]
    exact decide_eq_true_iff

lemma displaces_iff {existing candidate : MemoOp F} (he : existing.cost.cost.isSome)
    (hc : candidate.cost.cost.isSome) :
    (scale cm).beats candidate existing = true ↔ Displaces cm candidate existing := by
  have hvalue : (scale cm).value ((scale cm).home existing) candidate =
      (costAsPartitioning cm candidate (knownCost candidate) existing.outputPartitioning).map
        fun cost => toLex (cost, candidate.tieKey) := rfl
  rw [Scale.beats, hvalue, Displaces, cost_of_costed hc]
  simp only [Option.mem_def, Option.some.injEq, exists_eq_left']
  rw [dominatedByCandidate, cost_of_costed he]
  rcases costAsPartitioning cm candidate (knownCost candidate) existing.outputPartitioning
    with - | cost
  · exact Iff.rfl
  · rw [← toLex_lt_iff]
    exact decide_eq_true_iff

/-- Adding a costed plan to costed plans is an offer. -/
lemma addPlan_eq_offer {plans : PlanSet F} {candidate : MemoOp F}
    (hplans : ∀ plan ∈ plans, plan.cost.cost.isSome) (hc : candidate.cost.cost.isSome) :
    addPlan cm plans candidate = (scale cm).offer plans candidate := by
  have hdominates : ∀ plan ∈ plans,
      dominatesCandidate cm candidate plan (knownCost candidate) =
        (scale cm).covers plan candidate := by
    intro plan hplan
    rw [Bool.eq_iff_iff, dominates_iff (hplans plan hplan) hc, Dominates, cost_of_costed hc]
    simp
  have hdisplaces : ∀ plan ∈ plans,
      dominatedByCandidate cm candidate plan (knownCost candidate) =
        (scale cm).beats candidate plan := by
    intro plan hplan
    rw [Bool.eq_iff_iff, displaces_iff (hplans plan hplan) hc, Displaces, cost_of_costed hc]
    simp
  have hany : plans.any (dominatesCandidate cm candidate · (knownCost candidate)) =
      plans.any ((scale cm).covers · candidate) := by
    rw [Bool.eq_iff_iff, List.any_eq_true, List.any_eq_true]
    exact exists_congr fun plan => and_congr_right fun hplan => by rw [hdominates plan hplan]
  have hfilter :
      (plans.filter fun plan => !dominatedByCandidate cm candidate plan (knownCost candidate)) =
        plans.filter fun plan => !(scale cm).beats candidate plan :=
    List.filter_congr fun plan hplan => by rw [hdisplaces plan hplan]
  unfold addPlan Scale.offer
  rw [cost_of_costed hc]
  simp only [hany, hfilter]

/-- The plans stored are the frontier of the offers. -/
lemma frontier_eq_run (h : ∀ plan ∈ offered, plan.cost.cost.isSome) :
    frontier cm offered = (scale cm).run offered := by
  have hfold : ∀ (l : List (MemoOp F)) (plans : PlanSet F), (∀ plan ∈ l, plan.cost.cost.isSome) →
      (∀ plan ∈ plans, plan.cost.cost.isSome) →
      l.foldl (addPlan cm) plans = l.foldl (scale cm).offer plans := by
    intro l
    induction l with
    | nil => exact fun _ _ _ => rfl
    | cons candidate l ih =>
      intro plans hl hplans
      have hc := hl candidate List.mem_cons_self
      rw [List.foldl_cons, List.foldl_cons, addPlan_eq_offer hplans hc]
      refine ih _ (fun plan hplan => hl plan (List.mem_cons_of_mem _ hplan)) fun plan hplan => ?_
      rcases Scale.mem_offer hplan with hplan | rfl
      · exact hplans plan hplan
      · exact hc
  exact hfold offered [] h (by simp)

/-- The selection of the code is that of the first candidate of least value. -/
lemma bestFor_eq_selected (h : ∀ plan ∈ offered, plan.cost.cost.isSome)
    (required : Option Partitioning) :
    (bestFor cm (frontier cm offered) required).map (fun best =>
        (best.1, toLex (best.2, best.1.tieKey))) = (scale cm).selected offered required := by
  have hfold : ∀ (l : PlanSet F) (best : Option (MemoOp F × F)),
      (∀ plan ∈ l, plan.cost.cost.isSome) →
      (l.foldl (fun acc plan => betterOf acc plan (effectiveCost cm required plan)) best).map
          (fun best => (best.1, toLex (best.2, best.1.tieKey))) =
        l.foldl (better ((scale cm).value required))
          (best.map fun best => (best.1, toLex (best.2, best.1.tieKey))) := by
    intro l
    induction l with
    | nil => exact fun _ _ => rfl
    | cons plan l ih =>
      intro best hl
      rw [List.foldl_cons, List.foldl_cons, ih _ fun p hp => hl p (List.mem_cons_of_mem _ hp)]
      congr 1
      unfold betterOf better
      rw [value_scale (hl plan List.mem_cons_self)]
      rcases effectiveCost cm required plan with - | cost
      · rfl
      · rcases best with - | ⟨bestPlan, bestCost⟩
        · rfl
        · simp only [Option.map_some, toLex_lt_iff]
          split <;> rfl
  rw [frontier_eq_run h, bestFor, Scale.selected, firstLeast, hfold _ none]
  · rfl
  · exact fun plan hplan => h plan (Scale.mem_of_mem_run hplan)

/-! ### What a plan reaches -/

/-- A plan of least cost among those offered, with its cost; none where no cost is known. -/
def LeastOf (offered : List (MemoOp F)) (cost : MemoOp F → Option F) : Option (MemoOp F × F) → Prop
  | none => ∀ plan ∈ offered, cost plan = none
  | some (plan, least) => plan ∈ offered ∧ cost plan = some least ∧
      ∀ other ∈ offered, ∀ otherCost ∈ cost other, least ≤ otherCost

section Ordered

variable [AddLeftMono F] [AddRightMono F]

/-- A shuffle costs what a plan costs, or more. -/
lemma knownCost_le (hpriced : cm.PricesRows) (hset : OneRelationSet offered) {plan : MemoOp F}
    (hplan : plan ∈ offered) {required : Option Partitioning} {cost : F}
    (h : effectiveCost cm required plan = some cost) : knownCost plan ≤ cost := by
  rcases required with - | target
  · rw [effectiveCost, cost_of_costed (hset.costed plan hplan), Option.some.injEq] at h
    exact h.le
  · rw [effectiveCost, cost_of_costed (hset.costed plan hplan), Option.bind_some,
      costAsPartitioning] at h
    split at h
    · exact (Option.some.inj h).le
    · obtain ⟨shuffle, hshuffle, rfl⟩ := Option.map_eq_some_iff.mp h
      exact le_add_of_nonneg_right
        (hpriced.nonneg plan (hset.rows_nonneg plan hplan) shuffle hshuffle)

/-- **A plan that dominates another meets every requirement at no greater cost.** -/
lemma effectiveCost_le (hpriced : cm.PricesRows) (hset : OneRelationSet offered)
    {existing candidate : MemoOp F} (he : existing ∈ offered) (hc : candidate ∈ offered)
    (hdominates : Dominates cm existing candidate) {required : Option Partitioning} {cost : F}
    (h : effectiveCost cm required candidate = some cost) :
    ∃ cost' ≤ cost, effectiveCost cm required existing = some cost' := by
  obtain ⟨reached, hreached, hle⟩ : ∃ reached,
      effectiveCost cm (some candidate.outputPartitioning) existing = some reached ∧
        reached ≤ knownCost candidate := by
    obtain ⟨v, hv, hle⟩ := Scale.covers_iff.mp
      ((dominates_iff (hset.costed _ he) (hset.costed _ hc)).mpr hdominates)
    rw [value_scale (hset.costed _ he)] at hv
    obtain ⟨reached, hreached, rfl⟩ := Option.map_eq_some_iff.mp hv
    exact ⟨reached, hreached, (Prod.Lex.toLex_le_toLex.mp hle).elim le_of_lt fun h => h.1.le⟩
  have hbase : knownCost existing ≤ knownCost candidate :=
    (knownCost_le hpriced hset he hreached).trans hle
  have hbound := knownCost_le hpriced hset hc h
  rcases required with - | target
  · exact ⟨_, hbase.trans hbound, cost_of_costed (hset.costed _ he)⟩
  · by_cases htarget : candidate.outputPartitioning = target
    · exact ⟨reached, hle.trans hbound, htarget ▸ hreached⟩
    · by_cases hown : existing.outputPartitioning = target
      · refine ⟨_, hbase.trans hbound, ?_⟩
        rw [effectiveCost, cost_of_costed (hset.costed _ he), Option.bind_some, costAsPartitioning,
          if_pos (Partitioning.sameClassAs_iff.mpr hown)]
      · rw [effectiveCost, cost_of_costed (hset.costed _ hc), Option.bind_some, costAsPartitioning,
          if_neg (Partitioning.sameClassAs_iff.not.mpr htarget)] at h
        obtain ⟨shuffle, hshuffle, rfl⟩ := Option.map_eq_some_iff.mp h
        refine ⟨knownCost existing + shuffle, add_le_add_left hbase shuffle, ?_⟩
        have hsame := hpriced.congr existing candidate (hset.cover_eq _ he _ hc)
          (hset.cardinality_eq _ he _ hc)
        rw [effectiveCost, cost_of_costed (hset.costed _ he), Option.bind_some, costAsPartitioning,
          if_neg (Partitioning.sameClassAs_iff.not.mpr hown), hsame, hshuffle]
        rfl

/-! ### The plans returned -/

/-- The stored plans reach whatever an offered plan reaches. -/
lemma exists_mem_frontier (hpriced : cm.PricesRows) (hset : OneRelationSet offered)
    {plan : MemoOp F} (hplan : plan ∈ offered) : ∃ stored ∈ frontier cm offered, ∀ required cost,
      effectiveCost cm required plan = some cost →
        ∃ cost' ≤ cost, effectiveCost cm required stored = some cost' := by
  rw [frontier_eq_run hset.costed]
  refine Scale.exists_mem_run (R := fun stored plan => ∀ required cost,
    effectiveCost cm required plan = some cost →
      ∃ cost' ≤ cost, effectiveCost cm required stored = some cost')
    (fun _ _ cost h => ⟨cost, le_rfl, h⟩) ?_ ?_ plan hplan
  · intro a b c hab hbc required cost h
    obtain ⟨cost', hle, h⟩ := hbc required cost h
    obtain ⟨cost'', hle', h⟩ := hab required cost' h
    exact ⟨cost'', hle'.trans hle, h⟩
  · intro e he x hx hcovers required cost h
    exact effectiveCost_le hpriced hset he hx
      ((dominates_iff (hset.costed e he) (hset.costed x hx)).mp hcovers) h

/-- **No stored plan is dominated by another.** -/
theorem frontier_nondominated (hset : OneRelationSet offered) :
    ∀ p ∈ frontier cm offered, ∀ q ∈ frontier cm offered, ¬ Displaces cm p q := by
  rw [frontier_eq_run hset.costed]
  intro p hp q hq hdisplaces
  have hp' := hset.costed p (Scale.mem_of_mem_run hp)
  have hq' := hset.costed q (Scale.mem_of_mem_run hq)
  exact Scale.not_beats_of_mem_run p hp q hq ((displaces_iff hq' hp').mpr hdisplaces)

/-- **The plan returned has the least effective cost over all plans offered.** -/
theorem bestFor_least (hpriced : cm.PricesRows) (hset : OneRelationSet offered)
    (required : Option Partitioning) :
    LeastOf offered (effectiveCost cm required) (bestFor cm (frontier cm offered) required) := by
  have hselected : _ = (scale cm).selected offered required :=
    bestFor_eq_selected hset.costed required
  rcases heq : bestFor cm (frontier cm offered) required with - | ⟨best, least⟩
  · rw [heq, Option.map_none] at hselected
    intro plan hplan
    rcases hcost : effectiveCost cm required plan with - | cost
    · rfl
    · obtain ⟨stored, hstored, hreach⟩ := exists_mem_frontier hpriced hset hplan
      obtain ⟨cost', -, hcost'⟩ := hreach required cost hcost
      rw [frontier_eq_run hset.costed] at hstored
      have hnone := firstLeast_eq_none hselected.symm stored hstored
      rw [value_scale (hset.costed _ (Scale.mem_of_mem_run hstored)), hcost'] at hnone
      cases hnone
  · rw [heq, Option.map_some] at hselected
    obtain ⟨hmem, hvalue, hle⟩ := firstLeast_eq_some hselected.symm
    have hoffered := Scale.mem_of_mem_run hmem
    rw [value_scale (hset.costed _ hoffered)] at hvalue
    obtain ⟨cost, hcost, heqCost⟩ := Option.map_eq_some_iff.mp hvalue
    obtain rfl : cost = least := congrArg Prod.fst (toLex.injective heqCost)
    refine ⟨hoffered, hcost, fun other hother otherCost hotherCost => ?_⟩
    obtain ⟨stored, hstored, hreach⟩ := exists_mem_frontier hpriced hset hother
    obtain ⟨cost', hcost', hreached⟩ := hreach required otherCost hotherCost
    rw [frontier_eq_run hset.costed] at hstored
    have hlex := hle stored hstored (toLex (cost', stored.tieKey)) (by
      rw [value_scale (hset.costed _ (Scale.mem_of_mem_run hstored)), hreached]
      rfl)
    exact ((Prod.Lex.toLex_le_toLex.mp hlex).elim le_of_lt fun h => h.1.le).trans hcost'

end Ordered

/-- Among costed plans the cheapest is the one returned where nothing is required. -/
lemma cheapest_eq_bestFor (cm : CostModel F σ) : ∀ {plans : PlanSet F},
    (∀ plan ∈ plans, plan.cost.cost.isSome) →
      cheapest plans = (bestFor cm plans none).map Prod.fst
  | [], _ => rfl
  | [plan], h => by
    rw [cheapest, bestFor, List.foldl_cons, effectiveCost, cost_of_costed (h plan (by simp))]
    rfl
  | plan :: other :: plans, h => by
    have hsome : (bestFor cm (plan :: other :: plans) none).isSome :=
      foldl_betterOf_isSome _ (Or.inr ⟨plan, by simp, h plan (by simp)⟩)
    obtain ⟨best, hbest⟩ := Option.isSome_iff_exists.mp hsome
    have hfold : (plan :: other :: plans).foldl
        (fun acc plan => betterOf acc plan plan.cost.cost) none = some best := hbest
    rw [hbest]
    simp only [cheapest, hfold, Option.map_some]

/-! ### Every order of the candidates -/

lemma undominated_iff {plan : MemoOp F} (h : ∀ plan ∈ offered, plan.cost.cost.isSome) :
    (scale cm).Uncovered offered plan ↔ Undominated cm offered plan := by
  refine and_congr_right fun hplan => forall₂_congr fun other hother => ?_
  rw [dominates_iff (h other hother) (h plan hplan)]

lemma settled_iff (h : ∀ plan ∈ offered, plan.cost.cost.isSome) {required : Option Partitioning} :
    (scale cm).Settled offered required ↔ Settled cm offered required := by
  refine or_congr (forall₂_congr fun plan hplan => ?_) ⟨?_, ?_⟩
  · rw [value_scale (h plan hplan), Option.map_eq_none_iff]
  · rintro ⟨plan, v, hplan, hv, hbeaten⟩
    rw [value_scale (h plan hplan.1)] at hv
    obtain ⟨cost, hcost, rfl⟩ := Option.map_eq_some_iff.mp hv
    refine ⟨plan, cost, (undominated_iff h).mp hplan, hcost, fun other hother hne c hc hle => ?_⟩
    have hvalue : toLex (c, other.tieKey) ∈ (scale cm).value required other := by
      rw [value_scale (h other hother), hc]
      rfl
    obtain ⟨u, hu, hbeats⟩ := hbeaten other hother hne _ hvalue (Prod.Lex.toLex_le_toLex.mpr hle)
    exact ⟨u, (undominated_iff h).mp hu, (displaces_iff (h other hother) (h u hu.1)).mp hbeats⟩
  · rintro ⟨plan, cost, hplan, hcost, hdisplaced⟩
    refine ⟨plan, toLex (cost, plan.tieKey), (undominated_iff h).mpr hplan, ?_,
      fun other hother hne v hv hle => ?_⟩
    · rw [value_scale (h plan hplan.1), hcost]
      rfl
    · rw [value_scale (h other hother)] at hv
      obtain ⟨c, hc, rfl⟩ := Option.map_eq_some_iff.mp hv
      obtain ⟨u, hu, hdisplaces⟩ :=
        hdisplaced other hother hne c hc (Prod.Lex.toLex_le_toLex.mp hle)
      exact ⟨u, (undominated_iff h).mpr hu,
        (displaces_iff (h other hother) (h u hu.1)).mpr hdisplaces⟩

/-- **The frontier is a function of the candidates**: no stored plan is dominated by another, the
plans returned have the least cost over all plans offered, and any other order of the offers returns
the same plans. -/
structure FrontierHolds (cm : CostModel F σ) (offered : List (MemoOp F)) : Prop where
  nondominated : ∀ p ∈ frontier cm offered, ∀ q ∈ frontier cm offered, ¬ Displaces cm p q
  best_least : ∀ required,
    LeastOf offered (effectiveCost cm required) (bestFor cm (frontier cm offered) required)
  cheapest_least : LeastOf offered (fun plan => plan.cost.cost)
    ((cheapest (frontier cm offered)).map fun plan => (plan, knownCost plan))
  anyOrder : ∀ reordered, offered.Perm reordered →
    (∀ required, bestFor cm (frontier cm reordered) required =
      bestFor cm (frontier cm offered) required) ∧
    cheapest (frontier cm reordered) = cheapest (frontier cm offered)

/-- **The frontier is a function of the candidates iff every requirement is settled.** -/
theorem frontierHolds_iff [AddLeftMono F] [AddRightMono F] (hpriced : cm.PricesRows)
    (hset : OneRelationSet offered) :
    FrontierHolds cm offered ↔ ∀ required, Settled cm offered required := by
  have hknown : ∀ e ∈ offered, ∀ x ∈ offered, (scale cm).covers e x = true → ∀ required,
      ((scale cm).value required x).isSome → ((scale cm).value required e).isSome := by
    intro e he x hx hcovers required hsome
    rw [value_scale (hset.costed x hx), Option.isSome_map] at hsome
    obtain ⟨cost, hcost⟩ := Option.isSome_iff_exists.mp hsome
    obtain ⟨cost', -, hcost'⟩ := effectiveCost_le hpriced hset he hx
      ((dominates_iff (hset.costed e he) (hset.costed x hx)).mp hcovers) hcost
    rw [value_scale (hset.costed e he), hcost']
    rfl
  have hown : ∀ plan ∈ offered, ∀ required v, (scale cm).value required plan = some v →
      (scale cm).own plan ≤ v := by
    intro plan hplan required v hv
    rw [value_scale (hset.costed plan hplan)] at hv
    obtain ⟨cost, hcost, rfl⟩ := Option.map_eq_some_iff.mp hv
    exact toLex_le_of_le (knownCost_le hpriced hset hplan hcost) _
  have hiff := Scale.selected_iff hown hknown
  simp only [settled_iff hset.costed] at hiff
  rw [← hiff]
  constructor
  · intro h required reordered hperm
    rw [← bestFor_eq_selected hset.costed, ← bestFor_eq_selected (hset.perm hperm).costed,
      (h.anyOrder reordered hperm).1 required]
  · intro h
    have hbest : ∀ reordered, offered.Perm reordered → ∀ required,
        bestFor cm (frontier cm reordered) required =
          bestFor cm (frontier cm offered) required := by
      intro reordered hperm required
      have hselected := h required reordered hperm
      rw [← bestFor_eq_selected hset.costed, ← bestFor_eq_selected (hset.perm hperm).costed]
        at hselected
      exact Option.map_injective (fun a b hab => by
        simp only [Prod.mk.injEq, EmbeddingLike.apply_eq_iff_eq] at hab
        exact Prod.ext hab.1 hab.2.1) hselected
    have hcheapest : ∀ l, OneRelationSet l →
        cheapest (frontier cm l) = (bestFor cm (frontier cm l) none).map Prod.fst := by
      intro l hl
      refine cheapest_eq_bestFor cm fun plan hplan => ?_
      rw [frontier_eq_run hl.costed] at hplan
      exact hl.costed plan (Scale.mem_of_mem_run hplan)
    refine ⟨frontier_nondominated hset, bestFor_least hpriced hset, ?_, fun reordered hperm =>
      ⟨hbest reordered hperm, ?_⟩⟩
    · have hleast := bestFor_least hpriced hset none
      rw [hcheapest offered hset]
      rcases heq : bestFor cm (frontier cm offered) none with - | ⟨plan, cost⟩
      · rwa [heq] at hleast
      · rw [heq] at hleast
        have hcost : knownCost plan = cost :=
          Option.some.inj ((cost_of_costed (hset.costed plan hleast.1)).symm.trans hleast.2.1)
        rw [Option.map_some, Option.map_some, hcost]
        exact hleast
    · rw [hcheapest offered hset, hcheapest reordered (hset.perm hperm), hbest reordered hperm]

/-! ### Exact sums and distinct keys -/

/-- Where sums are exact, a plan that displaces another comes before it for every requirement. -/
lemma value_lt_of_displaces [AddLeftMono F] [AddRightStrictMono F] (hpriced : cm.PricesRows)
    (hset : OneRelationSet offered) {better plan : MemoOp F} (hb : better ∈ offered)
    (hp : plan ∈ offered) (hdisplaces : Displaces cm better plan) {required : Option Partitioning}
    {v : F ×ₗ List ℕ} (hv : (scale cm).value required plan = some v) :
    ∃ w < v, (scale cm).value required better = some w := by
  have : AddRightMono F := addRightMono_of_addRightStrictMono F
  have hb' := hset.costed better hb
  have hp' := hset.costed plan hp
  have hbeats := (displaces_iff hp' hb').mpr hdisplaces
  obtain ⟨u, hu, hlt⟩ := Scale.beats_iff.mp hbeats
  rw [value_scale hb'] at hu
  obtain ⟨reached, hmet, rfl⟩ := Option.map_eq_some_iff.mp hu
  have hreached : effectiveCost cm (some plan.outputPartitioning) better = some reached := hmet
  rw [value_scale hp'] at hv
  obtain ⟨cost, hcost, rfl⟩ := Option.map_eq_some_iff.mp hv
  have hdominates : Dominates cm better plan :=
    (dominates_iff hb' hp').mp (Scale.covers_of_beats hbeats)
  obtain ⟨cost', -, hcost'⟩ := effectiveCost_le hpriced hset hb hp hdominates hcost
  refine ⟨toLex (cost', better.tieKey), ?_, by rw [value_scale hb', hcost']; rfl⟩
  have hbound : toLex (knownCost plan, plan.tieKey) ≤ toLex (cost, plan.tieKey) :=
    toLex_le_of_le (knownCost_le hpriced hset hp hcost) _
  have hbelow : cost' ≤ reached →
      toLex (cost', better.tieKey) < toLex (cost, plan.tieKey) := fun hle =>
    (toLex_le_of_le hle _).trans_lt (hlt.trans_le hbound)
  have hbase := knownCost_le hpriced hset hb hreached
  have hunfold : ∀ {p : MemoOp F} {target : Partitioning}, p.cost.cost.isSome →
      effectiveCost cm (some target) p = costAsPartitioning cm p (knownCost p) target := by
    intro p target hp
    rw [effectiveCost, cost_of_costed hp, Option.bind_some]
  rcases required with - | target
  · rw [effectiveCost, cost_of_costed hb', Option.some.injEq] at hcost'
    exact hbelow (hcost' ▸ hbase)
  · by_cases htarget : plan.outputPartitioning = target
    · rw [htarget, hcost', Option.some.injEq] at hreached
      exact hbelow hreached.le
    · rw [hunfold hb', costAsPartitioning] at hcost'
      split at hcost'
      · exact hbelow (Option.some.inj hcost' ▸ hbase)
      · rw [hunfold hb', costAsPartitioning] at hreached
        split at hreached
        · -- The two have the same partitioning and pay the same shuffle.
          rw [hunfold hp', costAsPartitioning,
            if_neg (Partitioning.sameClassAs_iff.not.mpr htarget),
            ← hpriced.congr better plan (hset.cover_eq _ hb _ hp) (hset.cardinality_eq _ hb _ hp)]
            at hcost
          obtain ⟨shuffle, hshuffle, rfl⟩ := Option.map_eq_some_iff.mp hcost'
          rw [hshuffle, Option.map_some, Option.some.injEq] at hcost
          obtain rfl := Option.some.inj hreached
          subst hcost
          exact Prod.Lex.toLex_lt_toLex.mpr ((Prod.Lex.toLex_lt_toLex.mp hlt).imp
            (fun h => add_lt_add_left h shuffle) fun h => ⟨congrArg (· + shuffle) h.1, h.2⟩)
        · rw [hcost', Option.some.injEq] at hreached
          exact hbelow hreached.le

/-- **With exact sums and a tie key of its own for each plan, every requirement is settled.** -/
theorem settled_of_tieKey [AddLeftMono F] [AddRightStrictMono F] (hpriced : cm.PricesRows)
    (hset : OneRelationSet offered)
    (hkeys : ∀ p ∈ offered, ∀ q ∈ offered, p.tieKey = q.tieKey → p = q)
    (required : Option Partitioning) : Settled cm offered required := by
  rw [← settled_iff hset.costed]
  rcases heq : firstLeast ((scale cm).value required) offered with - | ⟨plan, v⟩
  · exact Or.inl (firstLeast_eq_none heq)
  · obtain ⟨hplan, hv, hleast⟩ := firstLeast_eq_some heq
    have hkey : ∀ {p : MemoOp F} {w : F ×ₗ List ℕ} {r : Option Partitioning}, p ∈ offered →
        (scale cm).value r p = some w → (ofLex w).2 = p.tieKey := by
      intro p w r hp hw
      rw [value_scale (hset.costed p hp)] at hw
      obtain ⟨cost, -, rfl⟩ := Option.map_eq_some_iff.mp hw
      rfl
    refine Or.inr ⟨plan, v, ⟨hplan, fun e he hne hcovers => ?_⟩, hv, fun q hq hne x hx hle => ?_⟩
    · obtain ⟨u, hu, hle⟩ := Scale.covers_iff.mp hcovers
      have hlt : u < (scale cm).own plan := hle.lt_of_ne fun h =>
        hne (hkeys e he plan hplan ((hkey he hu).symm.trans (h ▸ rfl)))
      obtain ⟨w, hw, hvalue⟩ := value_lt_of_displaces hpriced hset he hplan
        ((displaces_iff (hset.costed plan hplan) (hset.costed e he)).mp
          (Scale.beats_iff.mpr ⟨u, hu, hlt⟩)) hv
      exact absurd (hleast e he w hvalue) hw.not_ge
    · have hxv : x = v := le_antisymm hle (hleast q hq x hx)
      exact absurd (hkeys q hq plan hplan ((hkey hq hx).symm.trans (hxv ▸ hkey hplan hv))) hne

end PlanSet

/-- The default cost model prices the bytes of the rows. -/
theorem DefaultCostModel.default_pricesRows {F : Type} [LinearOrder F] [Add F] [Sub F] [Mul F]
    [Div F] [Zero F] [One F] [NatCast F] (g : JoinHypergraph) (stats : Statistics F)
    (limitBytes : F) (hbytes : ∀ cover, 0 ≤ stats.coveredRowBytes cover * stats.kByteShuffleCost)
    (hmul : ∀ a b, 0 ≤ a → 0 ≤ b → 0 ≤ stats.saturate (a * b)) :
    (DefaultCostModel.default g stats limitBytes).PricesRows where
  congr p q hcover hrows := by
    change DefaultCostModel.shuffleCost stats p = DefaultCostModel.shuffleCost stats q
    rw [DefaultCostModel.shuffleCost, DefaultCostModel.shuffleCost, hcover, hrows]
  nonneg op hrows shuffle hshuffle := by
    change DefaultCostModel.shuffleCost stats op = some shuffle at hshuffle
    rw [DefaultCostModel.shuffleCost, DefaultCostModel.mul] at hshuffle
    rcases hcardinality : op.cost.cardinality with - | rows
    · rw [hcardinality] at hshuffle
      cases hshuffle
    · rw [hcardinality, DefaultCostModel.combine_some, Option.some.injEq] at hshuffle
      exact hshuffle ▸ hmul _ _ (hrows rows hcardinality) (hbytes _)

/-! ### Two joins of two relations -/

namespace TwoRelations

/-- The default cost model, with known statistics. -/
def costModel : CostModel ℕ (BySetMap ℕ) := DefaultCostModel.default graph (statistics (some 10)) 0

/-- A join of the two relations whose output is partitioned on the key of one of them. -/
def joined (cost key : ℕ) : MemoOp ℕ :=
  .join ⟨some cost, some 10⟩ (.leaf ⟨some 10, some 10⟩ 0 .unspecified)
    (.leaf ⟨some 10, some 10⟩ 1 .unspecified) 0 .inner false [] []
    (.hash [.column (column key)] false)

/-- The join, repartitioned on the other key. -/
def exchanged : MemoOp ℕ :=
  .exchange ⟨some 150, some 10⟩ (joined 100 0) (.hash [.column (column 1)] false)

lemma costModel_pricesRows : costModel.PricesRows :=
  DefaultCostModel.default_pricesRows graph _ 0 (fun _ => Nat.zero_le _)
    fun _ _ _ _ => Nat.zero_le _

lemma oneRelationSet_joined (cost cost' key key' : ℕ) :
    PlanSet.OneRelationSet [joined cost key, joined cost' key'] where
  cover_eq := by simp [joined, MemoOp.cover]
  cardinality_eq := by simp [joined, MemoOp.cost]
  rows_nonneg _ _ _ _ := Nat.zero_le _
  costed := by simp [joined, MemoOp.cost]

/-- A join and an exchange of its output have keys of their own. -/
theorem frontierHolds_exchanged : PlanSet.FrontierHolds costModel [joined 100 0, exchanged] := by
  have hset : PlanSet.OneRelationSet [joined 100 0, exchanged] :=
    { cover_eq := by simp [joined, exchanged, MemoOp.cover]
      cardinality_eq := by simp [joined, exchanged, MemoOp.cost]
      rows_nonneg := fun _ _ _ _ => Nat.zero_le _
      costed := by simp [joined, exchanged, MemoOp.cost] }
  refine (PlanSet.frontierHolds_iff costModel_pricesRows hset).mpr fun required =>
    PlanSet.settled_of_tieKey costModel_pricesRows hset ?_ required
  have hkey : (joined 100 0).tieKey ≠ exchanged.tieKey := by decide
  intro p hp q hq heq
  simp only [List.mem_cons, List.not_mem_nil, or_false] at hp hq
  rcases hp with rfl | rfl <;> rcases hq with rfl | rfl
  · rfl
  · exact absurd heq hkey
  · exact absurd heq.symm hkey
  · rfl

/-- **Two joins that tie.** Of two joins of the same relations over one edge, with the same cost and
partitioned on different keys, the cheapest is the one added first. -/
theorem frontier_order : costModel.PricesRows ∧
    PlanSet.OneRelationSet [joined 100 0, joined 100 1] ∧
    ¬ PlanSet.FrontierHolds costModel [joined 100 0, joined 100 1] := by
  refine ⟨costModel_pricesRows, oneRelationSet_joined .., fun h => ?_⟩
  have hcheapest := (h.anyOrder _ (List.Perm.swap _ _ _)).2
  have houtput := congrArg (Option.map MemoOp.outputPartitioning) hcheapest
  revert houtput
  decide +kernel

end TwoRelations

end Verax.JoinOrder
