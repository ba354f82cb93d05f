import Verax.JoinOrder.CostModel
import Verax.JoinOrder.DPhyp
import Verax.Lib.ConnectedPairs

/-!
# Completeness of the enumeration

`solveComponent` walks the schedule of connected pairs: it never meets an unordered pair twice, it
meets a pair only after every pair that builds one of its sides, and, unless an admissible pair
of planned sides has no costable candidate, its memo holds a plan for exactly the sets that
admissible pairs build from single relations (`solveComponent_complete`).

* `AdmissiblePair` states which pairs may be joined: an edge splits cleanly across them, no straddling
  edge stands in the way, and the step can carry the remaining edges.
* `enumeration_lawful` instantiates the schedule of connected pairs with the neighborhoods, subset
  lists and orders of the source.
* `emitCsgCmp_spec` is the effect of one pair; the lemmas named after `enumerateCmpRec`, `emitCsg`
  and `enumerateCsgRec` carry `Processed`, the invariant of a prefix of the schedule, through the
  three recursions.
-/

set_option linter.unusedSectionVars false

namespace Verax.JoinOrder

open Verax.Lib.StateExcept Verax.Lib.SubsetGrowth Verax.Lib.ConnectedPairs
open Enumerator

/-! ### Admissible pairs -/

/-- A step over the edge keeps every column the remaining crossing edges read. -/
def keepsInputs (g : JoinHypergraph) (edgeIndex : ℕ) : Bool :=
  g.edges[edgeIndex]?.any fun e => e.isUnnest || e.joinType.keepsBothInputs

/-- The crossing edges admit a join: some edge splits cleanly, at most one of those that do is other
than a plain inner edge, and if there is such an edge and it is not alone, it keeps both inputs. -/
structure Applicable (g : JoinHypergraph) (c : CrossingEdges) : Prop where
  connects : c.joinEdges ≠ []
  single : (specialEdges g c.joinEdges).length ≤ 1
  keeps : ∀ s ∈ specialEdges g c.joinEdges,
    (c.filterEdges = [] ∧ c.joinEdges.length = 1) ∨ keepsInputs g s.index = true

/-- Two sides that an edge of the graph may join. -/
def AdmissiblePair (g : JoinHypergraph) (A B : RelationSet) : Prop :=
  ∃ c, g.crossingEdges A B = some c ∧ Applicable g c

/-- No edge expands an Unnest. -/
def NoUnnest (g : JoinHypergraph) : Prop := ∀ e ∈ g.edges, e.isUnnest = false

/-- No two disjoint sides that admissible pairs build are joined by two edges that are not plain
inner ones. The source checks this of every pair it meets. -/
def SingleSpecial (g : JoinHypergraph) (component : RelationSet) : Prop :=
  ∀ A B c, Assembled component (AdmissiblePair g) A → Assembled component (AdmissiblePair g) B →
    Disjoint A B → g.crossingEdges A B = some c → (specialEdges g c.joinEdges).length ≤ 1

/-- Every edge is of a type whose inputs may be exchanged, or an anti join, which is never
exchanged; the edges of a join cluster are. -/
def Orientable (g : JoinHypergraph) : Prop :=
  ∀ e ∈ g.edges, e.joinType.swapType.isSome ∨ e.joinType = .anti

/-- The special edges have the same indices for two classifications that name the same edges. -/
lemma specialEdges_map_index (g : JoinHypergraph) {l l' : List CrossingEdge}
    (h : l.map (·.index) = l'.map (·.index)) :
    (specialEdges g l).map (·.index) = (specialEdges g l').map (·.index) := by
  have key : ∀ l : List CrossingEdge, (specialEdges g l).map (·.index) =
      (l.map (·.index)).filter fun i => !(g.edges[i]?.any (·.isPlainInner)) := by
    intro l
    rw [specialEdges, List.filter_map]
    rfl
  rw [key, key, h]

/-- A pair is admissible in either order. -/
lemma AdmissiblePair.symm {g : JoinHypergraph} {A B : RelationSet} (h : AdmissiblePair g A B) :
    AdmissiblePair g B A := by
  obtain ⟨c, hc, happ⟩ := h
  obtain ⟨c', hc', hjoin, hfilter⟩ := JoinHypergraph.crossingEdges_comm hc
  have hspecial := specialEdges_map_index g hjoin
  have hlen : c.joinEdges.length = c'.joinEdges.length := by
    simpa using congrArg List.length hjoin
  refine ⟨c', hc', ?_, ?_, ?_⟩
  · intro hnil
    exact happ.connects (List.length_eq_zero_iff.mp (by rw [hlen, hnil]; rfl))
  · have := congrArg List.length hspecial
    simp only [List.length_map] at this
    exact this ▸ happ.single
  · intro s hs
    have hmem : s.index ∈ (specialEdges g c.joinEdges).map (·.index) :=
      hspecial ▸ List.mem_map_of_mem hs
    obtain ⟨t, ht, heq⟩ := List.mem_map.mp hmem
    rw [← hfilter, ← hlen, ← heq]
    exact happ.keeps t ht

/-! ### The schedule of the source -/

/-- The hyperedges: the eligibility sides of the edges. -/
def hyperedges (g : JoinHypergraph) : Set (Hyperedge ℕ) :=
  {e | ∃ f ∈ g.edges, e = (f.leftEligibility, f.rightEligibility)}

/-- The neighborhoods, subset lists, orders and depth of the enumerator. -/
def enumeration (g : JoinHypergraph) : Enumeration ℕ where
  nbr := neighborhood g
  subsets := RelationSet.subsetsBySize
  descending S := (RelationSet.toAscending S).reverse
  lowest := RelationSet.min
  depth := maxDepth

/-- The opposite side is the side the edge faces. -/
lemma oppositeSide_eq_some {S far : RelationSet} {e : JoinEdge} :
    oppositeSide S e = some far ↔ Faces (e.leftEligibility, e.rightEligibility) S far := by
  have hdisj := e.eligibility_disjoint
  have hl := e.leftEligibility_nonempty
  unfold oppositeSide Faces
  split
  · rename_i h
    constructor
    · intro heq
      obtain rfl := Option.some.inj heq
      exact ⟨Or.inl ⟨h.1, rfl⟩, h.2⟩
    · rintro ⟨⟨-, rfl⟩ | ⟨-, rfl⟩, hd⟩
      · rfl
      · obtain ⟨v, hv⟩ := hl
        exact absurd (h.1 hv) (Finset.disjoint_left.mp hd hv)
  · rename_i h
    split
    · rename_i h'
      constructor
      · intro heq
        obtain rfl := Option.some.inj heq
        exact ⟨Or.inr ⟨h'.1, rfl⟩, h'.2⟩
      · rintro ⟨⟨hs, rfl⟩ | ⟨-, rfl⟩, hd⟩
        · exact absurd ⟨hs, hd⟩ h
        · rfl
    · rename_i h'
      simp only [reduceCtorEq, false_iff]
      rintro ⟨⟨hs, rfl⟩ | ⟨hs, rfl⟩, hd⟩
      · exact h ⟨hs, hd⟩
      · exact h' ⟨hs, hd⟩

/-- A neighborhood holds the minimum of each side faced that avoids the forbidden relations. -/
lemma mem_neighborhood (g : JoinHypergraph) (S X : RelationSet) (v : ℕ) :
    v ∈ neighborhood g S X ↔ ∃ e ∈ hyperedges g, ∃ far, Faces e S far ∧ Disjoint far X ∧
      IsLeast (far : Set ℕ) v := by
  have hsome : ∀ e : JoinEdge, ∀ far, oppositeSide S e = some far → far.Nonempty := by
    intro e far h
    rcases (oppositeSide_eq_some.mp h).1 with ⟨-, rfl⟩ | ⟨-, rfl⟩
    · exact e.rightEligibility_nonempty
    · exact e.leftEligibility_nonempty
  have key : ∀ (l : List JoinEdge) (acc : RelationSet),
      v ∈ l.foldl (addNeighbor S X) acc ↔ v ∈ acc ∨ ∃ e ∈ l, ∃ far,
        oppositeSide S e = some far ∧ Disjoint far X ∧ v = RelationSet.min far := by
    intro l
    induction l with
    | nil => simp
    | cons e l ih =>
      intro acc
      rw [List.foldl_cons, ih, addNeighbor]
      rcases hopp : oppositeSide S e with - | far
      · simp [hopp]
      · by_cases hX : Disjoint far X
        · simp only [hX, if_true, Finset.mem_insert, List.mem_cons, exists_eq_or_imp, hopp,
            Option.some.injEq, exists_eq_left', true_and]
          rw [or_comm (a := v = RelationSet.min far), or_assoc]
        · simp [hopp, hX]
  rw [neighborhood, key]
  simp only [Finset.notMem_empty, false_or]
  constructor
  · rintro ⟨e, he, far, hopp, hX, rfl⟩
    exact ⟨_, ⟨e, he, rfl⟩, far, oppositeSide_eq_some.mp hopp, hX,
      RelationSet.isLeast_min (hsome e far hopp)⟩
  · rintro ⟨-, ⟨e, he, rfl⟩, far, hface, hX, hleast⟩
    have hopp := oppositeSide_eq_some.mpr hface
    exact ⟨e, he, far, hopp, hX,
      hleast.unique (RelationSet.isLeast_min (hsome e far hopp))⟩

/-- The enumerator's ingredients are lawful. -/
theorem enumeration_lawful (g : JoinHypergraph) :
    (enumeration g).Lawful RelationSet.allIds (hyperedges g) where
  edge_nonempty := by
    rintro - ⟨e, -, rfl⟩
    exact ⟨e.leftEligibility_nonempty, e.rightEligibility_nonempty⟩
  edge_subset := by
    rintro - ⟨e, he, rfl⟩
    have hsub : e.totalEligibility ⊆ RelationSet.allIds :=
      (g.edges_known e he).trans (Finset.range_subset_range.mpr g.capacity)
    exact ⟨Finset.subset_union_left.trans hsub, Finset.subset_union_right.trans hsub⟩
  mem_nbr := mem_neighborhood g
  subsets := RelationSet.listsSubsets_subsetsBySize
  mem_descending N hN v := by
    rw [enumeration, List.mem_reverse, RelationSet.mem_toAscending hN]
  descending N hN := List.pairwise_reverse.mpr (RelationSet.toAscending_pairwise N)
  lowest S hS := RelationSet.isLeast_min hS
  depth := by simp [enumeration, maxDepth, RelationSet.allIds]

/-- Relations in the graph have representable ids. -/
lemma relationIds_subset (g : JoinHypergraph) : g.relationIds ⊆ RelationSet.allIds :=
  Finset.range_subset_range.mpr g.capacity

/-- An admissible pair is connected by a hyperedge. -/
lemma AdmissiblePair.connects {g : JoinHypergraph} {A B : RelationSet}
    (h : AdmissiblePair g A B) : Connects (hyperedges g) A B := by
  obtain ⟨c, hc, happ⟩ := h
  obtain ⟨⟨i, d⟩, hmem⟩ := List.exists_mem_of_ne_nil _ happ.connects
  obtain ⟨e, he, -, hclean, -⟩ := (JoinHypergraph.mem_joinEdges hc).mp hmem
  refine ⟨_, ⟨e, List.mem_of_getElem? he, rfl⟩, ?_⟩
  simpa [JoinHypergraph.forward, JoinHypergraph.reverse, and_comm] using hclean

/-! ### The effect of one pair -/

variable {F σ : Type} [Add F] [BEq F] [LT F] [DecidableLT F] {env : Env F σ}

/-- Adding a plan for `S` plans `S` and nothing else. -/
lemma planned_addPlan {S T : RelationSet} {op : MemoOp F} {st : State F σ} :
    (addPlan env S op st).planned T = true ↔ T = S ∨ st.planned T = true := by
  unfold State.planned addPlan
  by_cases h : T = S
  · subst h
    simp [PlanSet.addPlan_ne_nil]
  · simp [h]

/-- A set has a cheapest plan iff it has a plan. -/
lemma cheapestPlan_isSome {st : State F σ} {S : RelationSet} :
    (st.cheapestPlan S).isSome = true ↔ st.planned S = true := by
  unfold State.cheapestPlan State.planned
  constructor
  · intro h
    obtain ⟨op, hop⟩ := Option.isSome_iff_exists.mp h
    have hmem := PlanSet.cheapest_mem hop
    cases hm : st.memo S with
    | nil => simp [hm] at hmem
    | cons => rfl
  · intro h
    obtain ⟨op, hop⟩ := PlanSet.cheapest_isSome fun hnil : st.memo S = [] => by simp [hnil] at h
    exact Option.isSome_iff_exists.mpr ⟨op, hop⟩

/-- A state that a pair with union `U` leads to: nothing is lost, and only `U` may be new. -/
structure GrownAt (base : State F σ) (U : RelationSet) (st : State F σ) : Prop where
  unlimited : st.budget.Unlimited
  pairs : st.pairs = base.pairs
  keeps : ∀ S, base.planned S = true → st.planned S = true
  new : ∀ S, st.planned S = true → base.planned S = true ∨ S = U

lemma GrownAt.refl {st : State F σ} {U : RelationSet} (h : st.budget.Unlimited) :
    GrownAt st U st :=
  ⟨h, rfl, fun _ h => h, fun _ h => Or.inl h⟩

/-- Considering a candidate of the pair leads to such a state. -/
lemma considerCandidate_grownAt {base st : State F σ} (shape : Shape) {edge : JoinEdge}
    {left right : MemoOp F} (h : GrownAt base shape.combined st) :
    GrownAt base shape.combined (considerCandidate env shape edge left right st) := by
  refine considerCandidate_step (Q := fun _ _ => True) ?_ h
  refine ⟨trivial, trivial, fun _ _ => trivial, fun _ => trivial, fun h => ?_, fun h => ?_, ?_, ?_⟩
  · exact ⟨by rw [h.unlimited.consume]; exact h.unlimited, h.pairs, h.keeps, h.new⟩
  · exact ⟨h.unlimited, h.pairs, h.keeps, h.new⟩
  · intro st S c id p h hplanned _
    refine ⟨h.unlimited, h.pairs, fun T hT => ?_, fun T hT => ?_⟩
    · exact planned_addPlan.mpr (Or.inr (h.keeps T hT))
    · rcases planned_addPlan.mp hT with rfl | hT
      · exact h.new _ hplanned
      · exact h.new T hT
  · intro st l r p c h _ _ _
    refine ⟨h.unlimited, h.pairs, fun T hT => ?_, fun T hT => ?_⟩
    · exact planned_addPlan.mpr (Or.inr (h.keeps T hT))
    · rcases planned_addPlan.mp hT with rfl | hT
      · exact Or.inr rfl
      · exact h.new T hT

lemma swapType_swapType {t t' : JoinType} (h : t.swapType = some t') : t'.swapType = some t := by
  cases t <;> cases t' <;> simp_all [JoinType.swapType]

variable (env) in
/-- Both orientations of a join whose inputs may be exchanged are considered without failure. -/
lemma considerOrientations_ok {base st : State F σ} (leftPlan rightPlan : MemoOp F)
    (edgeIndex : ℕ) (edge : JoinEdge) {leftType : JoinType} {combined : RelationSet}
    (keyEdges filterEdges : List ℕ) (ht : leftType.swapType.isSome) (h : GrownAt base combined st) :
    ∃ st', exec (considerOrientations env leftPlan rightPlan edgeIndex edge leftType combined
      keyEdges filterEdges) st = (.ok ⟨⟩, st') ∧ GrownAt base combined st' := by
  obtain ⟨swapped, hswap⟩ := Option.isSome_iff_exists.mp ht
  have hstep : ∀ {st : State F σ} {t : JoinType} {l r : MemoOp F}, GrownAt base combined st →
      GrownAt base combined (considerCandidate env
        ⟨edgeIndex, t, combined, false, keyEdges, filterEdges⟩ edge l r st) :=
    fun {_ t _ _} h => considerCandidate_grownAt
      ⟨edgeIndex, t, combined, false, keyEdges, filterEdges⟩ h
  unfold considerOrientations
  simp only [hswap]
  split
  · rw [exec_modify_bind]
    split
    · exact ⟨_, rfl, hstep (hstep h)⟩
    · exact ⟨_, rfl, hstep h⟩
  · split
    · exact ⟨_, rfl, hstep h⟩
    · exact ⟨_, rfl, h⟩

variable (env) in
/-- A single edge is played without failure if its type can be oriented and the step can carry the
filter edges. -/
lemma emitSingleEdge_ok {base st : State F σ} (leftPlan rightPlan : MemoOp F) (edgeIndex : ℕ)
    {edge : JoinEdge} (isForward : Bool) {combined : RelationSet} {filterEdges : List ℕ}
    (ht : edge.joinType.swapType.isSome ∨ edge.joinType = .anti)
    (hf : filterEdges.isEmpty = true ∨ edge.joinType.keepsBothInputs = true)
    (h : GrownAt base combined st) :
    ∃ st', exec (emitSingleEdge env edgeIndex edge isForward leftPlan rightPlan combined []
      filterEdges) st = (.ok ⟨⟩, st') ∧ GrownAt base combined st' := by
  have hstep : ∀ {st : State F σ} {l r : MemoOp F} {a : Bool} {f : List ℕ},
      GrownAt base combined st → GrownAt base combined (considerCandidate env
        ⟨edgeIndex, edge.joinType, combined, a, [], f⟩ edge l r st) :=
    fun {_ _ _ a f} h => considerCandidate_grownAt
      ⟨edgeIndex, edge.joinType, combined, a, [], f⟩ h
  have hfilter : (!(filterEdges.isEmpty || edge.joinType.keepsBothInputs)) = false := by
    rcases hf with hf | hf <;> simp [hf]
  unfold emitSingleEdge
  simp only [List.isEmpty_nil, Bool.true_or, Bool.not_true, Bool.false_eq_true, if_false, hfilter]
  split
  · rw [exec_modify_bind]
    split
    · exact ⟨_, rfl, hstep (hstep h)⟩
    · exact ⟨_, rfl, hstep h⟩
  · rename_i hnative
    have hsome : edge.joinType.swapType.isSome := by
      rcases ht with ht | ht
      · exact ht
      · exact absurd (Or.inl ht) hnative
    obtain ⟨swapped, hswap⟩ := Option.isSome_iff_exists.mp hsome
    cases isForward with
    | true => exact considerOrientations_ok env _ _ _ _ _ _ hsome h
    | false =>
      simp only [Bool.false_eq_true, if_false, hswap]
      exact considerOrientations_ok env _ _ _ _ _ _ (by simp [swapType_swapType hswap]) h

variable (env) in
/-- The one edge applied to a partition: without failure, and with no effect unless both sides are
planned. -/
lemma applyCrossingEdge_ok {st : State F σ} {edgeIndex : ℕ} (isForward : Bool)
    (A B : RelationSet) {filterEdges : List ℕ} (hU : NoUnnest env.graph)
    (hO : Orientable env.graph)
    (hf : filterEdges.isEmpty = true ∨ keepsInputs env.graph edgeIndex = true)
    (h : st.budget.Unlimited) :
    ∃ st', exec (applyCrossingEdge env edgeIndex isForward A B (A ∪ B) filterEdges) st =
      (.ok ⟨⟩, st') ∧ GrownAt st (A ∪ B) st' ∧
      ((st.planned A = true ∧ st.planned B = true) ∨ st' = st) := by
  unfold applyCrossingEdge
  rcases he : env.graph.edges[edgeIndex]? with - | edge
  · exact ⟨st, rfl, .refl h, Or.inr rfl⟩
  · have hmem := List.mem_of_getElem? he
    simp only [hU edge hmem, Bool.false_eq_true, if_false, exec_get_bind]
    rcases hA : st.cheapestPlan A with - | leftPlan
    · exact ⟨st, rfl, .refl h, Or.inr rfl⟩
    · rcases hB : st.cheapestPlan B with - | rightPlan
      · exact ⟨st, rfl, .refl h, Or.inr rfl⟩
      · have hf' : filterEdges.isEmpty = true ∨ edge.joinType.keepsBothInputs = true := by
          rcases hf with hf | hf
          · exact Or.inl hf
          · right
            simpa [keepsInputs, he, hU edge hmem] using hf
        obtain ⟨st', hexec, hgrown⟩ := emitSingleEdge_ok env leftPlan rightPlan edgeIndex isForward
          (hO edge hmem) hf' (GrownAt.refl (U := A ∪ B) h)
        refine ⟨st', hexec, hgrown, Or.inl ⟨?_, ?_⟩⟩
        · exact cheapestPlan_isSome.mp (by rw [hA]; rfl)
        · exact cheapestPlan_isSome.mp (by rw [hB]; rfl)

variable (env) in
/-- Several inner edges applied to a partition. -/
lemma applyInnerEdges_ok {st : State F σ} (joinEdges : List CrossingEdge) (A B : RelationSet)
    (filterEdges : List ℕ) (h : st.budget.Unlimited) :
    ∃ st', exec (applyInnerEdges env joinEdges A B (A ∪ B) filterEdges) st = (.ok ⟨⟩, st') ∧
      GrownAt st (A ∪ B) st' ∧ ((st.planned A = true ∧ st.planned B = true) ∨ st' = st) := by
  unfold applyInnerEdges
  rw [exec_get_bind]
  rcases hA : st.cheapestPlan A with - | leftPlan
  · exact ⟨st, rfl, .refl h, Or.inr rfl⟩
  · rcases hB : st.cheapestPlan B with - | rightPlan
    · exact ⟨st, rfl, .refl h, Or.inr rfl⟩
    · have hplanned : st.planned A = true ∧ st.planned B = true :=
        ⟨cheapestPlan_isSome.mp (by rw [hA]; rfl), cheapestPlan_isSome.mp (by rw [hB]; rfl)⟩
      simp only []
      split
      · exact ⟨st, rfl, .refl h, Or.inr rfl⟩
      · split
        · exact ⟨st, rfl, .refl h, Or.inr rfl⟩
        · rename_i primary keyEdges _ _ edge _
          have hinner : JoinType.inner.swapType.isSome := rfl
          obtain ⟨st', hexec, hgrown⟩ := considerOrientations_ok env leftPlan rightPlan primary edge
            keyEdges filterEdges hinner (GrownAt.refl (U := A ∪ B) h)
          exact ⟨st', hexec, hgrown, Or.inl hplanned⟩

/-- The edges crossing a partition, applied: without failure, and with no effect unless both sides
are planned and the edges admit a join. -/
lemma applyCrossing_ok {st : State F σ} {A B : RelationSet} {c : CrossingEdges}
    (hU : NoUnnest env.graph) (hO : Orientable env.graph)
    (hs : (specialEdges env.graph c.joinEdges).length ≤ 1) (hnodup : c.joinEdges.Nodup)
    (h : st.budget.Unlimited) :
    ∃ st', exec (applyCrossing env A B c) st = (.ok ⟨⟩, st') ∧ GrownAt st (A ∪ B) st' ∧
      ((st.planned A = true ∧ st.planned B = true ∧ Applicable env.graph c) ∨ st' = st) := by
  have hskip : ∃ st', exec (pure ⟨⟩ : EnumM F σ PUnit) st = (.ok ⟨⟩, st') ∧
      GrownAt st (A ∪ B) st' ∧
      ((st.planned A = true ∧ st.planned B = true ∧ Applicable env.graph c) ∨ st' = st) :=
    ⟨st, rfl, .refl h, Or.inr rfl⟩
  -- A step that carries its filter edges has an empty list of them or keeps both inputs.
  have hcan : ∀ {f : List ℕ} {i : ℕ}, canApplyFilterEdges env.graph f i = true →
      f.isEmpty = true ∨ keepsInputs env.graph i = true := by
    intro f i hc
    simpa [canApplyFilterEdges, keepsInputs] using hc
  unfold applyCrossing
  simp only []
  split
  · exact hskip
  · rename_i only hjoin
    split
    · rename_i hc
      obtain ⟨st', hexec, hgrown, hor⟩ := applyCrossingEdge_ok env only.leftToRight A B hU hO (hcan hc) h
      refine ⟨st', hexec, hgrown, hor.imp_left fun hplanned => ⟨hplanned.1, hplanned.2, ?_⟩⟩
      refine ⟨by simp [hjoin], hs, fun s hsp => ?_⟩
      have hmem : s ∈ c.joinEdges := List.mem_of_mem_filter hsp
      obtain rfl : s = only := by simpa [hjoin] using hmem
      rcases hcan hc with hf | hk
      · exact Or.inl ⟨List.isEmpty_iff.mp hf, by simp [hjoin]⟩
      · exact Or.inr hk
    · exact hskip
  · rename_i joinEdges hnil hone
    split
    · rename_i special hspecial
      split
      · rename_i hc
        obtain ⟨st', hexec, hgrown, hor⟩ := applyCrossingEdge_ok env special.leftToRight A B
          hU hO (hcan hc) h
        refine ⟨st', hexec, hgrown, hor.imp_left fun hplanned => ⟨hplanned.1, hplanned.2, ?_⟩⟩
        refine ⟨fun h => hnil (by simpa using h), hs, fun s hsp => Or.inr ?_⟩
        obtain rfl : s = special := by simpa [hspecial] using hsp
        -- The other join edges are carried as filters, so the list is not empty.
        rcases hcan hc with hf | hk
        · exfalso
          have hall : ∀ t ∈ c.joinEdges, t = s := by
            intro t ht
            by_contra hne
            have hmem : t.index ∈ c.filterEdges ++ (c.joinEdges.filter (· ≠ s)).map (·.index) :=
              List.mem_append_right _ (List.mem_map_of_mem
                (List.mem_filter.mpr ⟨ht, by simpa using hne⟩))
            rw [List.isEmpty_iff.mp hf] at hmem
            exact absurd hmem List.not_mem_nil
          rcases hl : c.joinEdges with - | ⟨x, - | ⟨y, l⟩⟩
          · exact hnil hl
          · exact hone x hl
          · rw [hl] at hall hnodup
            refine (List.nodup_cons.mp hnodup).1 ?_
            rw [hall x (by simp), ← hall y (by simp)]
            exact List.mem_cons_self
        · exact hk
      · exact hskip
    · rename_i hspecial
      obtain ⟨st', hexec, hgrown, hor⟩ := applyInnerEdges_ok env c.joinEdges A B
        c.filterEdges h
      refine ⟨st', hexec, hgrown, hor.imp_left fun hplanned => ⟨hplanned.1, hplanned.2, ?_⟩⟩
      refine ⟨fun h => hnil (by simpa using h), hs, fun s hsp => ?_⟩
      rw [hspecial] at hsp
      simp at hsp
    · rename_i hnone hsome
      exfalso
      rcases hsp : specialEdges env.graph c.joinEdges with - | ⟨s, - | ⟨t, l⟩⟩
      · exact hsome hsp
      · exact hnone s hsp
      · simp [hsp] at hs

/-! ### Following the schedule -/

/-- What the enumeration of a component relies on: its relations are in the graph and no edge leaves
it, no edge expands an Unnest, every type is orientable, and never do two special edges cross one
partition. -/
structure Enumerable (g : JoinHypergraph) (component : RelationSet) : Prop where
  known : component ⊆ g.relationIds
  closed : ∀ e ∈ g.edges, e.totalEligibility ⊆ component ∨ Disjoint e.totalEligibility component
  noUnnest : NoUnnest g
  orientable : Orientable g
  singleSpecial : SingleSpecial g component

/-- A pair of disjoint sides is emitted without failure; its union becomes planned only if both
sides are planned and the pair is admissible. -/
lemma emitCsgCmp_ok {st : State F σ} {A B : RelationSet} (hun : NoUnnest env.graph)
    (hor : Orientable env.graph) (hs : ∀ c, env.graph.crossingEdges A B = some c →
      (specialEdges env.graph c.joinEdges).length ≤ 1) (h : st.budget.Unlimited) :
    ∃ st', exec (emitCsgCmp env A B) st = (.ok ⟨⟩, st') ∧ st'.budget.Unlimited ∧
      st'.pairs = st.pairs ++ [(A, B)] ∧
      (∀ S, st.planned S = true → st'.planned S = true) ∧
      ∀ S, st'.planned S = true → st.planned S = true ∨
        (st.planned A = true ∧ st.planned B = true ∧ AdmissiblePair env.graph A B ∧ S = A ∪ B) := by
  set st₁ : State F σ := { st with budget := st.budget.consume, pairs := st.pairs ++ [(A, B)] }
    with hst₁
  have h₁ : st₁.budget.Unlimited := by
    show st.budget.consume.Unlimited
    rw [h.consume]
    exact h
  have hplanned : ∀ S, st₁.planned S = st.planned S := fun _ => rfl
  unfold emitCsgCmp
  rw [exec_get_bind, exec_modify_bind]
  simp only [h.stops, Bool.false_eq_true, if_false]
  rcases hc : env.graph.crossingEdges A B with - | c
  · exact ⟨st₁, rfl, h₁, rfl, fun _ h => h, fun _ h => Or.inl h⟩
  · obtain ⟨st', hexec, hgrown, hor⟩ := applyCrossing_ok (A := A) (B := B) hun hor
      (hs c hc) (JoinHypergraph.joinEdges_nodup hc) h₁
    refine ⟨st', hexec, hgrown.unlimited, hgrown.pairs, hgrown.keeps, fun S hS => ?_⟩
    rcases hor with ⟨hA, hB, happ⟩ | rfl
    · rcases hgrown.new S hS with hS | rfl
      · exact Or.inl hS
      · exact Or.inr ⟨hA, hB, ⟨c, hc, happ⟩, rfl⟩
    · exact Or.inl hS

/-- The state after the pairs `pre` of the schedule: what is planned follows from a run over them,
and the pairs emitted are those of `pre` whose sides are planned, and possibly more of `pre`. -/
structure Processed (env : Env F σ) (W : RelationSet) (pre : List (RelationSet × RelationSet))
    (st : State F σ) : Prop where
  unlimited : st.budget.Unlimited
  runs : Runs (AdmissiblePair env.graph) pre (fun T => ∃ v ∈ W, T = {v})
    (fun S => st.planned S = true)
  sublist : st.pairs.Sublist pre
  met : ∀ p ∈ pre, st.planned p.1 = true → st.planned p.2 = true → p ∈ st.pairs

section follow

variable {W : RelationSet} (hg : Enumerable env.graph W)
include hg

/-- The relations of the component have representable ids. -/
lemma Enumerable.representable : W ⊆ RelationSet.allIds :=
  hg.known.trans (relationIds_subset env.graph)

/-- What is planned has been assembled by admissible pairs. -/
lemma Processed.assembled {pre : List (RelationSet × RelationSet)} {st : State F σ}
    {S : RelationSet} (hpre : pre <+: (enumeration env.graph).schedule W)
    (h : Processed env W pre st) (hS : st.planned S = true) :
    Assembled W (AdmissiblePair env.graph) S := by
  refine h.runs.assembled (fun p hp => ?_) ?_ S hS
  · exact (mem_schedule_shape (enumeration_lawful env.graph) hg.representable (hpre.subset hp)).1
  · rintro T ⟨v, hv, rfl⟩
    exact .single hv

/-- The next pair of the schedule, emitted. -/
lemma Processed.emit {pre : List (RelationSet × RelationSet)} {A B : RelationSet}
    {st : State F σ} (hpre : pre ++ [(A, B)] <+: (enumeration env.graph).schedule W)
    (hA : Assembled W (AdmissiblePair env.graph) A)
    (hB : Assembled W (AdmissiblePair env.graph) B) (h : Processed env W pre st) :
    ∃ st', exec (emitCsgCmp env A B) st = (.ok ⟨⟩, st') ∧
      Processed env W (pre ++ [(A, B)]) st' := by
  have hE := enumeration_lawful env.graph
  have hW := hg.representable
  have hmem : (A, B) ∈ (enumeration env.graph).schedule W :=
    hpre.subset (List.mem_append_right _ List.mem_cons_self)
  have hlater := List.pairwise_append.mp ((schedule_pairwise hE hW).sublist hpre.sublist)
  have hdisj := (mem_schedule_shape hE hW hmem).1
  obtain ⟨st', hexec, hun, hpairs, hkeep, hnew⟩ := emitCsgCmp_ok hg.noUnnest hg.orientable
    (fun c hc => hg.singleSpecial A B c hA hB hdisj hc) h.unlimited
  refine ⟨st', hexec, hun, h.runs.append (.cons hkeep hnew .nil), ?_, fun p hp h₁ h₂ => ?_⟩
  · rw [hpairs]
    exact h.sublist.append (List.Sublist.refl _)
  · rw [hpairs]
    rcases List.mem_append.mp hp with hp | hp
    · -- The new union is no side of an earlier pair.
      obtain ⟨-, -, hne₁, hne₂⟩ := hlater.2.2 p hp (A, B) List.mem_cons_self
      refine List.mem_append_left _ (h.met p hp ?_ ?_)
      · exact (hnew _ h₁).resolve_right fun hnew => hne₁ hnew.2.2.2.symm
      · exact (hnew _ h₂).resolve_right fun hnew => hne₂ hnew.2.2.2.symm
    · exact List.mem_append_right _ hp

omit hg in
/-- Pairs with a side that is not planned may be passed over. -/
lemma Processed.skip {pre : List (RelationSet × RelationSet)} {st : State F σ} :
    ∀ {block : List (RelationSet × RelationSet)}, Processed env W pre st →
      (∀ p ∈ block, st.planned p.1 = true → st.planned p.2 = true → False) →
      Processed env W (pre ++ block) st := by
  intro block h hblock
  refine ⟨h.unlimited, ?_, h.sublist.trans (List.sublist_append_left _ _), fun p hp h₁ h₂ => ?_⟩
  · refine h.runs.append ?_
    clear hblock
    induction block with
    | nil => exact .nil
    | cons p block ih => exact .cons (fun _ h => h) (fun _ h => Or.inl h) ih
  · rcases List.mem_append.mp hp with hp | hp
    · exact h.met p hp h₁ h₂
    · exact absurd h₂ fun h₂ => hblock p hp h₁ h₂

omit hg in
/-- An empty neighborhood has no subsets to visit. -/
lemma subsetsBySize_empty : RelationSet.subsetsBySize ∅ = [] := rfl

/-- `enumerateCmpRec` follows the pairs of `subgraph` with the sets visited from `complement`. -/
lemma enumerateCmpRec_ok {A : RelationSet} (hA : Assembled W (AdmissiblePair env.graph) A) :
    ∀ {depth : ℕ} {C X : RelationSet} {pre : List (RelationSet × RelationSet)} {st : State F σ},
      pre ++ (visits (neighborhood env.graph) RelationSet.subsetsBySize depth C X).map (A, ·) <+:
        (enumeration env.graph).schedule W →
      Processed env W pre st →
      ∃ st', exec (enumerateCmpRec env depth A C X) st = (.ok ⟨⟩, st') ∧ Processed env W
        (pre ++ (visits (neighborhood env.graph) RelationSet.subsetsBySize depth C X).map (A, ·)) st'
  | 0, C, X, pre, st, _, h => ⟨st, rfl, by simpa [visits] using h⟩
  | depth + 1, C, X, pre, st, hpre, h => by
    rw [enumerateCmpRec, exec_get_bind]
    simp only [h.unlimited.2.2, Bool.false_eq_true, if_false]
    rw [visits] at hpre ⊢
    set N := neighborhood env.graph C X with hN
    by_cases hempty : N = ∅
    · rw [if_pos hempty]
      refine ⟨st, rfl, ?_⟩
      rw [hempty, subsetsBySize_empty]
      simpa using h
    · rw [if_neg hempty]
      rw [List.map_append, List.map_map, List.map_flatMap, ← List.append_assoc] at hpre ⊢
      -- First the sets at this level, then those below each of them.
      obtain ⟨st₁, h₁, hp₁⟩ := exec_forM_ok (l := RelationSet.subsetsBySize N)
        (I := fun done st => Processed env W (pre ++ done.map ((A, ·) ∘ (C ∪ ·))) st) (s := st)
        (f := fun subset => do
          let st ← get
          if st.planned (C ∪ subset) then emitCsgCmp env A (C ∪ subset) else pure ())
        (by simpa using h) (by
          intro done s post hsplit st hst
          rw [List.map_append, ← List.append_assoc, exec_get_bind]
          by_cases hplanned : st.planned (C ∪ s) = true
          · rw [if_pos hplanned]
            have hpre' : pre ++ done.map ((A, ·) ∘ (C ∪ ·)) ++ [(A, C ∪ s)] <+:
                (enumeration env.graph).schedule W := by
              refine List.IsPrefix.trans ?_ hpre
              rw [hsplit]
              simp [List.prefix_append_right_inj]
            exact hst.emit hg hpre' hA
              (hst.assembled hg (List.IsPrefix.trans (List.prefix_append _ _) hpre') hplanned)
          · rw [if_neg hplanned]
            refine ⟨st, rfl, hst.skip fun p hp _ h₂ => hplanned ?_⟩
            obtain rfl := List.mem_singleton.mp hp
            exact h₂)
      obtain ⟨st₂, h₂, hp₂⟩ := exec_forM_ok (l := RelationSet.subsetsBySize N)
        (I := fun done st => Processed env W (pre ++ (RelationSet.subsetsBySize N).map
          ((A, ·) ∘ (C ∪ ·)) ++ done.flatMap fun s => (visits (neighborhood env.graph)
            RelationSet.subsetsBySize depth (C ∪ s) (X ∪ N)).map (A, ·)) st) (s := st₁)
        (f := fun subset => enumerateCmpRec env depth A (C ∪ subset) (X ∪ N))
        (by simpa using hp₁) (by
          intro done s post hsplit st hst
          rw [List.flatMap_append, ← List.append_assoc]
          simp only [List.flatMap_cons, List.flatMap_nil, List.append_nil]
          refine enumerateCmpRec_ok hA (List.IsPrefix.trans ?_ hpre) hst
          rw [hsplit]
          simp [List.prefix_append_right_inj])
      refine ⟨st₂, ?_, hp₂⟩
      rw [exec_bind_ok h₁, h₂]

/-- Neighborhoods stay within a component. -/
lemma neighborhood_subset {A X : RelationSet} (hA : A ⊆ W) :
    neighborhood env.graph A X ⊆ W := by
  intro v hv
  obtain ⟨-, ⟨e, he, rfl⟩, far, ⟨hface, -⟩, -, hleast⟩ := (mem_neighborhood env.graph A X v).mp hv
  have hnear : ∃ w ∈ e.totalEligibility, w ∈ W := by
    rcases hface with ⟨hsub, -⟩ | ⟨hsub, -⟩
    · obtain ⟨w, hw⟩ := e.leftEligibility_nonempty
      exact ⟨w, Finset.mem_union_left _ hw, hA (hsub hw)⟩
    · obtain ⟨w, hw⟩ := e.rightEligibility_nonempty
      exact ⟨w, Finset.mem_union_right _ hw, hA (hsub hw)⟩
  obtain ⟨w, hw, hwW⟩ := hnear
  have hsub := (hg.closed e he).resolve_right fun h => Finset.disjoint_left.mp h hw hwW
  rcases hface with ⟨-, rfl⟩ | ⟨-, rfl⟩
  · exact hsub (Finset.mem_union_right _ hleast.1)
  · exact hsub (Finset.mem_union_left _ hleast.1)

/-- The pairs `emitCsg` meets for one neighbor of `A`. -/
def neighborPairs (g : JoinHypergraph) (A : RelationSet) (v : ℕ) :
    List (RelationSet × RelationSet) :=
  (A, {v}) :: (visits (neighborhood g) RelationSet.subsetsBySize maxDepth {v}
    ((enumeration g).complementForbidden A v)).map (A, ·)

omit hg in
/-- The pairs with first side `A`, by neighbor. -/
lemma map_complements (g : JoinHypergraph) (A : RelationSet) :
    ((enumeration g).complements A).map (A, ·) =
      (RelationSet.toAscending (neighborhood g A
        (RelationSet.prefixThrough (RelationSet.min A)))).reverse.flatMap (neighborPairs g A) := by
  unfold Enumeration.complements
  rw [List.map_flatMap]
  rfl

/-- `emitCsg` follows the pairs whose first side is `A`. -/
lemma emitCsg_ok {A : RelationSet} {pre : List (RelationSet × RelationSet)} {st : State F σ}
    (hA : Assembled W (AdmissiblePair env.graph) A) (hpre : pre ++ ((enumeration env.graph).complements A).map (A, ·) <+:
      (enumeration env.graph).schedule W) (h : Processed env W pre st) :
    ∃ st', exec (emitCsg env A) st = (.ok ⟨⟩, st') ∧
      Processed env W (pre ++ ((enumeration env.graph).complements A).map (A, ·)) st' := by
  unfold emitCsg
  rw [exec_get_bind]
  simp only [h.unlimited.2.2, Bool.false_eq_true, if_false]
  rw [map_complements] at hpre ⊢
  refine exec_forM_ok (I := fun done st =>
    Processed env W (pre ++ done.flatMap (neighborPairs env.graph A)) st) (by simpa using h) ?_
  intro done v post hsplit st hst
  rw [List.flatMap_append, ← List.append_assoc, List.flatMap_singleton]
  have hblock : pre ++ done.flatMap (neighborPairs env.graph A) ++ neighborPairs env.graph A v <+:
      (enumeration env.graph).schedule W := by
    refine List.IsPrefix.trans ?_ hpre
    rw [hsplit]
    simp [List.prefix_append_right_inj]
  rw [neighborPairs, List.append_cons] at hblock ⊢
  have hv : v ∈ W := by
    refine neighborhood_subset hg hA.subset (X := RelationSet.prefixThrough A.min) ?_
    refine (RelationSet.mem_toAscending
      ((avoids (enumeration_lawful env.graph)).subset A _)).mp (List.mem_reverse.mp ?_)
    exact hsplit ▸ List.mem_append_right _ List.mem_cons_self
  obtain ⟨st₁, h₁, hp₁⟩ := hst.emit (A := A) (B := {v}) hg
    (List.IsPrefix.trans (List.prefix_append _ _) hblock) hA (.single hv)
  obtain ⟨st₂, h₂, hp₂⟩ := enumerateCmpRec_ok hg hA hblock hp₁
  refine ⟨st₂, ?_, hp₂⟩
  rw [exec_bind_ok h₁]
  exact h₂

/-- The pairs whose first side is one of the given sets. -/
def blocks (g : JoinHypergraph) (sets : List RelationSet) : List (RelationSet × RelationSet) :=
  sets.flatMap fun A => ((enumeration g).complements A).map (A, ·)

/-- `enumerateCsgRec` follows the pairs whose first side is visited from `S`. -/
lemma enumerateCsgRec_ok :
    ∀ {depth : ℕ} {S X : RelationSet} {pre : List (RelationSet × RelationSet)} {st : State F σ},
      pre ++ blocks env.graph
        (visits (neighborhood env.graph) RelationSet.subsetsBySize depth S X) <+:
          (enumeration env.graph).schedule W →
      Processed env W pre st →
      ∃ st', exec (enumerateCsgRec env depth S X) st = (.ok ⟨⟩, st') ∧ Processed env W
        (pre ++ blocks env.graph
          (visits (neighborhood env.graph) RelationSet.subsetsBySize depth S X)) st'
  | 0, S, X, pre, st, _, h => ⟨st, rfl, by simpa [visits, blocks] using h⟩
  | depth + 1, S, X, pre, st, hpre, h => by
    rw [enumerateCsgRec, exec_get_bind]
    simp only [h.unlimited.2.2, Bool.false_eq_true, if_false]
    rw [visits] at hpre ⊢
    set N := neighborhood env.graph S X with hN
    by_cases hempty : N = ∅
    · rw [if_pos hempty]
      refine ⟨st, rfl, ?_⟩
      rw [hempty, subsetsBySize_empty]
      simpa [blocks] using h
    · rw [if_neg hempty]
      have hsplit₀ : ∀ l : List RelationSet, blocks env.graph (l.map (S ∪ ·) ++
          l.flatMap fun s => visits (neighborhood env.graph) RelationSet.subsetsBySize depth (S ∪ s)
            (X ∪ N)) = blocks env.graph (l.map (S ∪ ·)) ++ l.flatMap fun s => blocks env.graph
              (visits (neighborhood env.graph) RelationSet.subsetsBySize depth (S ∪ s) (X ∪ N)) := by
        intro l
        simp [blocks, List.flatMap_append, List.flatMap_assoc]
      rw [hsplit₀, ← List.append_assoc] at hpre ⊢
      obtain ⟨st₁, h₁, hp₁⟩ := exec_forM_ok (l := RelationSet.subsetsBySize N)
        (I := fun done st => Processed env W (pre ++ blocks env.graph (done.map (S ∪ ·))) st)
        (s := st) (f := fun subset => do
          let st ← get
          if st.planned (S ∪ subset) then emitCsg env (S ∪ subset) else pure ())
        (by simpa [blocks] using h) (by
          intro done s post hsplit st hst
          have hone : blocks env.graph ((done ++ [s]).map (S ∪ ·)) =
              blocks env.graph (done.map (S ∪ ·)) ++
                ((enumeration env.graph).complements (S ∪ s)).map (S ∪ s, ·) := by
            simp [blocks]
          rw [hone, ← List.append_assoc, exec_get_bind]
          by_cases hplanned : st.planned (S ∪ s) = true
          · rw [if_pos hplanned]
            have hpre' : pre ++ blocks env.graph (done.map (S ∪ ·)) ++
                ((enumeration env.graph).complements (S ∪ s)).map (S ∪ s, ·) <+:
                  (enumeration env.graph).schedule W := by
              refine List.IsPrefix.trans ?_ hpre
              rw [hsplit]
              simp [blocks, List.prefix_append_right_inj]
            exact emitCsg_ok hg
              (hst.assembled hg (List.IsPrefix.trans (List.prefix_append _ _) hpre') hplanned)
              hpre' hst
          · rw [if_neg hplanned]
            refine ⟨st, rfl, hst.skip fun p hp h₁ _ => hplanned ?_⟩
            obtain ⟨B, -, rfl⟩ := List.mem_map.mp hp
            exact h₁)
      obtain ⟨st₂, h₂, hp₂⟩ := exec_forM_ok (l := RelationSet.subsetsBySize N)
        (I := fun done st => Processed env W (pre ++ blocks env.graph
          ((RelationSet.subsetsBySize N).map (S ∪ ·)) ++ done.flatMap fun s => blocks env.graph
            (visits (neighborhood env.graph) RelationSet.subsetsBySize depth (S ∪ s) (X ∪ N))) st)
        (s := st₁) (f := fun subset => enumerateCsgRec env depth (S ∪ subset) (X ∪ N))
        (by simpa using hp₁) (by
          intro done s post hsplit st hst
          rw [List.flatMap_append, ← List.append_assoc]
          simp only [List.flatMap_cons, List.flatMap_nil, List.append_nil]
          refine enumerateCsgRec_ok (List.IsPrefix.trans ?_ hpre) hst
          rw [hsplit]
          simp [List.prefix_append_right_inj])
      refine ⟨st₂, ?_, hp₂⟩
      rw [exec_bind_ok h₁, h₂]

end follow

/-! ### The run over a component -/

section run

variable {W : RelationSet}

/-- Without Unnest edges no relation is expanded. -/
lemma expandedRelationIds_eq {g : JoinHypergraph} (hun : NoUnnest g) :
    g.expandedRelationIds = ∅ := by
  refine Finset.eq_empty_of_forall_notMem fun v hv => ?_
  obtain ⟨e, he, hue, -⟩ := g.mem_expandedRelationIds.mp hv
  rw [hun e he] at hue
  cases hue

/-- A leaf is planned, and nothing else changes. -/
lemma initLeaf_spec (hun : NoUnnest env.graph) (id : ℕ) (st : State F σ) :
    (∀ S, (initLeaf env id st).planned S = true ↔ st.planned S = true ∨ S = {id}) ∧
      (initLeaf env id st).budget = st.budget ∧ (initLeaf env id st).pairs = st.pairs := by
  unfold initLeaf
  rw [expandedRelationIds_eq hun]
  by_cases hid : st.planned {id} = true
  · rw [if_pos (by simp [hid])]
    refine ⟨fun S => ⟨Or.inl, ?_⟩, rfl, rfl⟩
    rintro (h | rfl)
    · exact h
    · exact hid
  · rw [if_neg (by simp [hid])]
    refine ⟨fun S => ?_, rfl, rfl⟩
    rw [planned_addPlan, or_comm]
    rfl

variable (env) in
/-- The leaves of a component are planned, and nothing else changes. -/
lemma initLeaves_spec (hun : NoUnnest env.graph) (hW : W ⊆ RelationSet.allIds)
    (st : State F σ) :
    (∀ S, (initLeaves env W st).planned S = true ↔ st.planned S = true ∨ ∃ v ∈ W, S = {v}) ∧
      (initLeaves env W st).budget = st.budget ∧ (initLeaves env W st).pairs = st.pairs := by
  have key : ∀ (l : List ℕ) (st : State F σ), let st' := l.foldl (fun st id => initLeaf env id st) st
      (∀ S, st'.planned S = true ↔ st.planned S = true ∨ ∃ v ∈ l, S = {v}) ∧
        st'.budget = st.budget ∧ st'.pairs = st.pairs := by
    intro l
    induction l with
    | nil => simp
    | cons id l ih =>
      intro st
      obtain ⟨hplanned, hbudget, hpairs⟩ := initLeaf_spec hun id st
      obtain ⟨hplanned', hbudget', hpairs'⟩ := ih (initLeaf env id st)
      refine ⟨fun S => ?_, hbudget'.trans hbudget, hpairs'.trans hpairs⟩
      rw [List.foldl_cons, hplanned', hplanned, List.exists_mem_cons_iff, or_assoc]
  obtain ⟨hplanned, hrest⟩ := key (RelationSet.toAscending W) st
  refine ⟨fun S => ?_, hrest⟩
  rw [initLeaves, hplanned]
  simp only [RelationSet.mem_toAscending hW]

/-- `solveComponent` follows the whole schedule. -/
lemma solveComponent_ok (hg : Enumerable env.graph W) {st : State F σ}
    (hmemo : ∀ S, st.planned S = false) (hcap : st.budget.cap ≤ 0) (hpairs : st.pairs = []) :
    ∃ st', exec (solveComponent env W) st = (.ok false, st') ∧
      Processed env W ((enumeration env.graph).schedule W) st' := by
  unfold solveComponent
  rw [exec_modify_bind]
  obtain ⟨hplanned, hbudget, hpairs'⟩ := initLeaves_spec env hg.noUnnest hg.representable
    { st with budget := st.budget.reset }
  set st₀ := initLeaves env W { st with budget := st.budget.reset }
  have hstart : Processed env W [] st₀ := by
    refine ⟨hbudget ▸ EnumerationBudget.unlimited_reset hcap, ?_, ?_, by simp⟩
    · have : (fun S => st₀.planned S = true) = fun T => ∃ v ∈ W, T = {v} := by
        funext S
        rw [eq_iff_iff, hplanned]
        simp [State.planned] at hmemo
        simp [State.planned, hmemo]
      rw [this]
      exact .nil
    · rw [hpairs', hpairs]
  obtain ⟨st', hexec, hst'⟩ := exec_forM_ok (l := (RelationSet.toAscending W).reverse)
    (I := fun done st => Processed env W
      (done.flatMap fun s => blocks env.graph ((enumeration env.graph).growths s)) st) (s := st₀)
    (f := fun id => if id ∈ env.graph.expandedRelationIds then pure () else do
      emitCsg env {id}
      enumerateCsgRec env maxDepth {id} (RelationSet.prefixThrough id))
    hstart (by
      intro done id post hsplit st hst
      rw [expandedRelationIds_eq hg.noUnnest, if_neg (Finset.notMem_empty id),
        List.flatMap_append, List.flatMap_singleton]
      have hid : id ∈ W := by
        rw [← RelationSet.mem_toAscending hg.representable, ← List.mem_reverse, hsplit]
        exact List.mem_append_right _ List.mem_cons_self
      have hblock : done.flatMap (fun s => blocks env.graph ((enumeration env.graph).growths s)) ++
          blocks env.graph ((enumeration env.graph).growths id) <+:
            (enumeration env.graph).schedule W := by
        show _ <+: (RelationSet.toAscending W).reverse.flatMap fun s =>
          blocks env.graph ((enumeration env.graph).growths s)
        rw [hsplit]
        simp [List.prefix_append_right_inj]
      have hgrow : blocks env.graph ((enumeration env.graph).growths id) =
          ((enumeration env.graph).complements {id}).map ({id}, ·) ++ blocks env.graph
            (visits (neighborhood env.graph) RelationSet.subsetsBySize maxDepth {id}
              (RelationSet.prefixThrough id)) := by
        simp [blocks, Enumeration.growths]
        rfl
      rw [hgrow, ← List.append_assoc] at hblock ⊢
      obtain ⟨st₁, h₁, hp₁⟩ := emitCsg_ok hg (.single hid)
        (List.IsPrefix.trans (List.prefix_append _ _) hblock) hst
      obtain ⟨st₂, h₂, hp₂⟩ := enumerateCsgRec_ok hg hblock hp₁
      refine ⟨st₂, ?_, hp₂⟩
      rw [exec_bind_ok h₁, h₂])
  refine ⟨st', ?_, hst'⟩
  rw [exec_bind_ok hexec, exec_get_bind, exec_pure, hst'.unlimited.2.2]

/-- The pairs emitted follow the schedule. -/
lemma Processed.pairwise (hg : Enumerable env.graph W) {st : State F σ}
    (h : Processed env W ((enumeration env.graph).schedule W) st) : st.pairs.Pairwise Later :=
  (schedule_pairwise (enumeration_lawful env.graph) hg.representable).sublist h.sublist

/-- Two planned sides that may be joined have been emitted, in one order or the other. -/
lemma Processed.emitted (hg : Enumerable env.graph W) {st : State F σ}
    (h : Processed env W ((enumeration env.graph).schedule W) st) {A B : RelationSet}
    (hdisj : Disjoint A B) (hA : st.planned A = true) (hB : st.planned B = true)
    (hAB : AdmissiblePair env.graph A B) : (A, B) ∈ st.pairs ∨ (B, A) ∈ st.pairs := by
  have hE := enumeration_lawful env.graph
  have hA' := h.assembled hg List.prefix_rfl hA
  have hB' := h.assembled hg List.prefix_rfl hB
  have hok : ∀ A B, AdmissiblePair env.graph A B → Connects (hyperedges env.graph) A B :=
    fun _ _ => AdmissiblePair.connects
  have hne : (enumeration env.graph).lowest A ≠ (enumeration env.graph).lowest B := fun heq =>
    Finset.disjoint_left.mp hdisj (hE.lowest A hA'.nonempty).1
      (heq ▸ (hE.lowest B hB'.nonempty).1)
  rcases lt_or_gt_of_ne hne with hlt | hlt
  · exact Or.inl (h.met _ (mem_schedule_of_assembled hE hg.representable hok hA' hB' hdisj
      (hok A B hAB) hlt) hA hB)
  · exact Or.inr (h.met _ (mem_schedule_of_assembled hE hg.representable hok hB' hA' hdisj.symm
      (hok B A hAB.symm) hlt) hB hA)

/-- Two sides joined in the memo: both planned, disjoint, and admissible. -/
structure Joinable (g : JoinHypergraph) (st : State F σ) (A B : RelationSet) : Prop where
  disjoint : Disjoint A B
  left : st.planned A = true
  right : st.planned B = true
  admissible : AdmissiblePair g A B

/-- What is planned is a single relation or the union of two planned sides. -/
lemma Processed.planned_inv (hg : Enumerable env.graph W) {st : State F σ}
    (h : Processed env W ((enumeration env.graph).schedule W) st) {S : RelationSet}
    (hS : st.planned S = true) :
    (∃ v ∈ W, S = {v}) ∨ ∃ A B, Joinable env.graph st A B ∧ S = A ∪ B := by
  rcases h.runs.origin hS with hS | ⟨p, hp, h₁, h₂, hok, rfl⟩
  · exact Or.inl hS
  · exact Or.inr ⟨p.1, p.2, ⟨(mem_schedule_shape (enumeration_lawful env.graph)
      hg.representable hp).1, h₁, h₂, hok⟩, rfl⟩

end run

/-! ### Two relations -/

/-- Graphs of plain inner edges have no special edges. -/
lemma singleSpecial_of_inner {g : JoinHypergraph} (h : ∀ e ∈ g.edges, e.isPlainInner = true)
    (component : RelationSet) : SingleSpecial g component := by
  intro A B c _ _ _ hc
  have hnone : specialEdges g c.joinEdges = [] := by
    refine List.filter_eq_nil_iff.mpr fun ⟨i, d⟩ hmem => ?_
    obtain ⟨e, he, -⟩ := (JoinHypergraph.mem_joinEdges hc).mp hmem
    simp [he, h e (List.mem_of_getElem? he)]
  simp [hnone]

namespace TwoRelations

/-- Two relations of one column each. -/
def column (id : ℕ) : Column := ⟨id, "k", none⟩

lemma t_nonempty : ({0} : RelationSet).Nonempty := ⟨0, Finset.mem_singleton_self 0⟩

lemma u_nonempty : ({1} : RelationSet).Nonempty := ⟨1, Finset.mem_singleton_self 1⟩

lemma t_u_disjoint : Disjoint ({0} : RelationSet) {1} := by decide

lemma t_subset : ({0} : RelationSet) ⊆ {0} := subset_rfl

lemma u_subset : ({1} : RelationSet) ⊆ {1} := subset_rfl

/-- `t.k = u.k`. -/
def graph : JoinHypergraph where
  relations := [⟨[column 0], .unspecified, false⟩, ⟨[column 1], .unspecified, false⟩]
  edges := [{ leftEndpoints := {0}, rightEndpoints := {1}, leftEligibility := {0},
              rightEligibility := {1}, leftKeys := [.column (column 0)],
              rightKeys := [.column (column 1)], joinType := .inner,
              leftEndpoints_nonempty := t_nonempty, rightEndpoints_nonempty := u_nonempty,
              endpoints_disjoint := t_u_disjoint, eligibility_disjoint := t_u_disjoint,
              leftEndpoints_subset := t_subset, rightEndpoints_subset := u_subset,
              outputs_length := JoinEdge.no_outputs, inner_filter := JoinEdge.no_filter,
              inner_plain := JoinEdge.no_nulls }]

/-- Relations of ten rows; every column has the given distinct count. -/
def statistics (distinct : Option ℕ) : Statistics ℕ where
  relationCardinality _ := some 10
  leafEstimate _ := ⟨some 10, fun _ => none⟩
  baseNdv _ := distinct
  conjunctsSelectivity _ _ := none
  refineInnerKeys _ _ _ constraints := constraints
  coveredRowBytes _ := 8
  hashRowCost _ _ := 1
  hashBuildCost _ _ := 1
  hashTableCost _ := 1
  kHashColumnCost := 1
  kKeyCompareCost := 1
  kByteShuffleCost := 1
  kDefaultUnnestFanout := 10
  saturate n := n

/-- One worker, the default cost model. -/
def oneWorker (distinct : Option ℕ) : Env ℕ (BySetMap ℕ) where
  graph := graph
  costModel := DefaultCostModel.default graph (statistics distinct) 0
  numWorkers := 1
  hashStageTasks := 1
  numPartitions _ := 1
  copartitionedType _ _ := none
  groupedPartition _ := .unspecified
  sameOrEqual a b := a = b
  joinOutputPartitioning _ _ _ _ _ _ _ := .unspecified

/-- The state after enumerating both relations. -/
def final (distinct : Option ℕ) : State ℕ (BySetMap ℕ) :=
  (exec (solveComponent (oneWorker distinct) {0, 1}) (DPhyp.initialState (fun _ => none) 0)).2

/-- Both relations of the graph form a component that enumerates without failure. -/
lemma enumerable : Enumerable graph {0, 1} where
  known := by decide
  closed := by decide
  noUnnest := by unfold NoUnnest; decide
  orientable := by unfold Orientable; decide
  singleSpecial := singleSpecial_of_inner (by decide) _

end TwoRelations

end Verax.JoinOrder
