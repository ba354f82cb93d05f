import Verax.JoinOrder.EnforcedPlans

/-!
# What holds of every plan recorded

A property of plans that the leaves have, that an Unnest hands on, and that considering a join keeps
is one of every plan that an enumeration records.

* `Rules`: what is to be shown of a property. A join is considered for two plans over disjoint
  relations and an edge between them, in one of the orientations that `Oriented` lists.
* `plan_holds`: the property holds of what the memo stores when an enumeration ends.
-/

set_option linter.unusedSectionVars false

namespace Verax.JoinOrder

open Verax.Lib.StateExcept Verax.Lib.ConnectedPairs
open Enumerator

variable {F σ : Type} [Add F] [BEq F] [LT F] [DecidableLT F]

/-- How an edge lies across the two inputs of a join: as it is written, or exchanged, in which case
the join type is exchanged too or the anti join is a reversed one. -/
inductive Orientation (edge : JoinEdge) (left right : RelationSet) : JoinType → Bool → Prop
  | asWritten : edge.leftEligibility ⊆ left → edge.rightEligibility ⊆ right →
      Orientation edge left right edge.joinType false
  | exchanged {joinType : JoinType} : edge.leftEligibility ⊆ right →
      edge.rightEligibility ⊆ left → edge.joinType.swapType = some joinType →
      Orientation edge left right joinType false
  | reversedAnti : edge.leftEligibility ⊆ right → edge.rightEligibility ⊆ left →
      edge.joinType = .anti → Orientation edge left right .anti true

/-- Further key edges lie across the two inputs, beside an inner edge. -/
structure KeyEdges (g : JoinHypergraph) (edge : JoinEdge) (left right : RelationSet)
    (keyEdges : List ℕ) : Prop where
  inner : keyEdges ≠ [] → edge.joinType = .inner
  across : ∀ i ∈ keyEdges, ∃ e, g.edges[i]? = some e ∧
    (JoinHypergraph.forward e left right || JoinHypergraph.reverse e left right) = true

/-- Two plans over disjoint relations, and the edges along which they are joined. -/
structure Oriented (g : JoinHypergraph) (edge : JoinEdge) (shape : Shape) (left right : MemoOp F) :
    Prop where
  edge_eq : g.edges[shape.edgeIndex]? = some edge
  isJoin : edge.isUnnest = false
  disjoint : Disjoint left.cover right.cover
  combined : shape.combined = left.cover ∪ right.cover
  orientation : Orientation edge left.cover right.cover shape.joinType shape.reversedAnti
  keyEdges : KeyEdges g edge left.cover right.cover shape.keyEdges

/-- Every plan recorded for a set covers it and has a property. -/
def Holds (P : MemoOp F → Prop) (st : State F σ) : Prop :=
  ∀ S, ∀ op ∈ st.memo S, op.cover = S ∧ P op

/-- What is to be shown of a property for it to hold of every plan recorded. -/
structure Rules (env : Env F σ) (P : MemoOp F → Prop) : Prop where
  leaf : ∀ c id,
    P (.leaf c id ((env.graph.relations[id]?.map (·.globalPartition)).getD .unspecified))
  unnest : ∀ c input i edge filters, env.graph.edges[i]? = some edge → edge.isUnnest = true →
    P input → P (.unnest c input i edge.rightEndpoints filters)
  consider : ∀ (st : State F σ) shape edge left right, Oriented env.graph edge shape left right →
    P left → P right → Holds P st → Holds P (considerCandidate env shape edge left right st)

variable {env : Env F σ} {P : MemoOp F → Prop} {st : State F σ}

lemma Holds.of_memo {st' : State F σ} (h : Holds P st) (hmemo : st'.memo = st.memo) :
    Holds P st' := fun S op hop => h S op (hmemo ▸ hop)

/-- Recording a plan. -/
lemma Holds.addPlan (h : Holds P st) {S : RelationSet} {op : MemoOp F} (hcover : op.cover = S)
    (hop : P op) : Holds P (addPlan env S op st) := by
  intro T q hq
  unfold Enumerator.addPlan at hq
  simp only at hq
  split at hq
  · rename_i heq
    rcases PlanSet.mem_addPlan hq with hq | rfl
    · exact heq ▸ h S q hq
    · exact ⟨hcover.trans heq.symm, hop⟩
  · exact h T q hq

/-- Recording a costed candidate. -/
lemma Holds.addCandidate (h : Holds P st) {S : RelationSet} {op : MemoOp F} (hcover : op.cover = S)
    (hop : ∀ c, P (op.withCost c)) : Holds P (addCandidate env S op st) := by
  unfold Enumerator.addCandidate
  simp only
  split
  · exact h.of_memo rfl
  · exact (h.of_memo rfl).addPlan (by rw [costed, MemoOp.cover_withCost, hcover]) (hop _)

section rules

variable (hrules : Rules env P)
include hrules

/-! ### One pair -/

lemma considerOrientations_holds {l r : MemoOp F} {edge : JoinEdge} {edgeIndex : ℕ}
    {leftType : JoinType} {combined : RelationSet} {keyEdges filterEdges : List ℕ}
    (hl : P l) (hr : P r) (horiented : Oriented env.graph edge
      ⟨edgeIndex, leftType, combined, false, keyEdges, filterEdges⟩ l r) :
    Triple (Holds P)
      (considerOrientations env l r edgeIndex edge leftType combined keyEdges filterEdges)
      fun _ => Holds P := by
  have hswapped : ∀ swapped, leftType.swapType = some swapped →
      Triple (Holds P) (modify (considerCandidate env
        ⟨edgeIndex, swapped, combined, false, keyEdges, filterEdges⟩ edge r l) : EnumM F σ PUnit)
        fun _ => Holds P := by
    intro swapped hswap
    refine .update fun st => hrules.consider st _ edge r l ⟨horiented.edge_eq, horiented.isJoin,
      horiented.disjoint.symm, by rw [horiented.combined, Finset.union_comm], ?_, ?_⟩ hr hl
    · have horientation := horiented.orientation
      simp only at horientation ⊢
      cases horientation with
      | asWritten hleft hright => exact .exchanged hleft hright hswap
      | exchanged hleft hright htype =>
          obtain rfl := Option.some.inj ((swapType_swapType htype).symm.trans hswap)
          exact .asWritten hleft hright
    · refine ⟨horiented.keyEdges.inner, fun i hi => ?_⟩
      obtain ⟨e, he, hacross⟩ := horiented.keyEdges.across i hi
      refine ⟨e, he, ?_⟩
      rw [Bool.or_comm]
      simpa [JoinHypergraph.forward, JoinHypergraph.reverse, Bool.and_comm] using hacross
  unfold considerOrientations
  refine .ite (fun _ => ?_) fun _ => ?_
  · refine .bind (Q := fun _ => Holds P)
      (.update fun st => hrules.consider st _ edge l r horiented hl hr) fun _ => ?_
    refine .ite (fun _ => ?_) fun _ => .pure fun _ h => h
    split
    · exact .throw _
    · exact hswapped _ ‹_›
  · refine .ite (fun _ => ?_) fun _ => .pure fun _ h => h
    split
    · exact .throw _
    · exact hswapped _ ‹_›

/-- The plans of two sides, and the one edge that joins them. -/
structure Crossed (g : JoinHypergraph) (edge : JoinEdge) (edgeIndex : ℕ) (isForward : Bool)
    (combined : RelationSet) (l r : MemoOp F) : Prop where
  edge_eq : g.edges[edgeIndex]? = some edge
  isJoin : edge.isUnnest = false
  disjoint : Disjoint l.cover r.cover
  combined_eq : combined = l.cover ∪ r.cover
  across : (isForward = true ∧ edge.leftEligibility ⊆ l.cover ∧ edge.rightEligibility ⊆ r.cover) ∨
    (isForward = false ∧ edge.leftEligibility ⊆ r.cover ∧ edge.rightEligibility ⊆ l.cover)

omit hrules in
lemma noKeyEdges {g : JoinHypergraph} {edge : JoinEdge} {A B : RelationSet} :
    KeyEdges g edge A B [] := ⟨fun h => absurd rfl h, fun _ h => absurd h List.not_mem_nil⟩

lemma emitSingleEdge_holds {l r : MemoOp F} {edge : JoinEdge} {edgeIndex : ℕ} {isForward : Bool}
    {combined : RelationSet} {filterEdges : List ℕ} (hl : P l) (hr : P r)
    (hcrossed : Crossed env.graph edge edgeIndex isForward combined l r) :
    Triple (Holds P) (emitSingleEdge env edgeIndex edge isForward l r combined [] filterEdges)
      fun _ => Holds P := by
  -- The side of the edge's left operand probes.
  have hprobe : ∀ st, Holds P st →
      Holds P (considerCandidate env
        ⟨edgeIndex, edge.joinType, combined, false, [], filterEdges⟩ edge
        (if isForward then l else r) (if isForward then r else l) st) ∧
      (edge.joinType = .anti → Holds P (considerCandidate env
        ⟨edgeIndex, edge.joinType, combined, true, [], []⟩ edge
        (if isForward then r else l) (if isForward then l else r) st)) := by
    intro st h
    obtain ⟨hedge, hjoin, hdisj, hcombined, hacross⟩ := hcrossed
    have hcombined' : combined = r.cover ∪ l.cover := by rw [hcombined, Finset.union_comm]
    rcases hacross with ⟨rfl, hleft, hright⟩ | ⟨rfl, hleft, hright⟩
    · refine ⟨hrules.consider st _ edge l r
        ⟨hedge, hjoin, hdisj, hcombined, .asWritten hleft hright, noKeyEdges⟩ hl hr h,
        fun hanti => hrules.consider st _ edge r l
          ⟨hedge, hjoin, hdisj.symm, hcombined', ?_, noKeyEdges⟩ hr hl h⟩
      simp only [hanti]
      exact .reversedAnti hleft hright hanti
    · refine ⟨hrules.consider st _ edge r l
        ⟨hedge, hjoin, hdisj.symm, hcombined', .asWritten hleft hright, noKeyEdges⟩ hr hl h,
        fun hanti => hrules.consider st _ edge l r
          ⟨hedge, hjoin, hdisj, hcombined, ?_, noKeyEdges⟩ hl hr h⟩
      simp only [hanti]
      exact .reversedAnti hleft hright hanti
  unfold emitSingleEdge
  refine .ite (fun _ => .throw _) fun _ => .ite (fun _ => .throw _) fun _ =>
    .ite (fun _ => ?_) fun _ => ?_
  · refine .bind (Q := fun _ => Holds P) (.update fun st h => (hprobe st h).1) fun _ => ?_
    exact .ite (fun hanti => .update fun st h => (hprobe st h).2 hanti.1)
      fun _ => .pure fun _ h => h
  · split
    · exact .throw _
    · rename_i leftType htype
      refine considerOrientations_holds hrules hl hr ⟨hcrossed.edge_eq, hcrossed.isJoin,
        hcrossed.disjoint, hcrossed.combined_eq, ?_, noKeyEdges⟩
      rcases hcrossed.across with ⟨rfl, hleft, hright⟩ | ⟨rfl, hleft, hright⟩
      · obtain rfl := Option.some.inj htype
        exact .asWritten hleft hright
      · exact .exchanged hleft hright htype

lemma emitUnnest_holds (h : Holds P st) {S : RelationSet} {edge : JoinEdge} {edgeIndex : ℕ}
    (hedge : env.graph.edges[edgeIndex]? = some edge) (hunnest : edge.isUnnest = true)
    {combined : RelationSet} (hcombined : combined = S ∪ edge.rightEndpoints)
    (filterEdges : List ℕ) : Holds P (emitUnnest env S edgeIndex edge combined filterEdges st) := by
  unfold emitUnnest
  split
  · exact h
  · rename_i input hinput
    obtain ⟨hcover, hP⟩ := h S input (PlanSet.cheapest_mem hinput)
    refine h.addCandidate ?_ fun c =>
      hrules.unnest c input edgeIndex edge filterEdges hedge hunnest hP
    rw [hcombined, ← hcover]
    rfl

lemma applyCrossingEdge_holds {A B : RelationSet} (hdisj : Disjoint A B) {edgeIndex : ℕ}
    {isForward : Bool} {c : CrossingEdges} (hc : env.graph.crossingEdges A B = some c)
    (hmem : ⟨edgeIndex, isForward⟩ ∈ c.joinEdges) (filterEdges : List ℕ) :
    Triple (Holds P) (applyCrossingEdge env edgeIndex isForward A B (A ∪ B) filterEdges)
      fun _ => Holds P := by
  obtain ⟨edge, hedge, -, hclean, hforward⟩ := (JoinHypergraph.mem_joinEdges hc).mp hmem
  unfold applyCrossingEdge
  rw [hedge]
  refine .ite (fun hunnest => .ite (fun _ => .pure fun _ h => h) fun hB => ?_) fun hjoin => ?_
  · refine .update fun st h => emitUnnest_holds hrules h hedge hunnest ?_ _
    rw [not_not.mp hB, (edge.unnest_shape hunnest).2.2.2]
  · refine .get_bind fun st h => ?_
    split
    · rename_i l r hl hr
      obtain ⟨rfl, hPl⟩ := h _ l (PlanSet.cheapest_mem hl)
      obtain ⟨rfl, hPr⟩ := h _ r (PlanSet.cheapest_mem hr)
      refine (emitSingleEdge_holds hrules hPl hPr
        ⟨hedge, Bool.eq_false_iff.mpr hjoin, hdisj, rfl, ?_⟩).conseq (fun _ heq => heq ▸ h)
          fun _ _ h => h
      cases isForward with
      | true =>
          have hforward := hforward.symm
          simp only [JoinHypergraph.forward, Bool.and_eq_true, decide_eq_true_eq] at hforward
          exact .inl ⟨rfl, hforward⟩
      | false =>
          rw [← hforward, Bool.false_or] at hclean
          simp only [JoinHypergraph.reverse, Bool.and_eq_true, decide_eq_true_eq] at hclean
          exact .inr ⟨rfl, hclean⟩
    · exact .pure fun _ heq => heq ▸ h

lemma applyInnerEdges_holds {A B : RelationSet} (hdisj : Disjoint A B) {c : CrossingEdges}
    (hc : env.graph.crossingEdges A B = some c)
    (hspecial : specialEdges env.graph c.joinEdges = []) (filterEdges : List ℕ) :
    Triple (Holds P) (applyInnerEdges env c.joinEdges A B (A ∪ B) filterEdges)
      fun _ => Holds P := by
  have hplain : ∀ i ∈ env.graph.canonicalKeyEdges (c.joinEdges.map (·.index)), ∀ e,
      env.graph.edges[i]? = some e → e.isPlainInner = true ∧
        (JoinHypergraph.forward e A B || JoinHypergraph.reverse e A B) = true := by
    intro i hi e he
    have hi := (List.mem_insertionSort _).mp (JoinHypergraph.keepCanonical_subset _ _ hi)
    obtain ⟨⟨j, d⟩, hj, rfl⟩ := List.mem_map.mp hi
    obtain ⟨e', he', -, hclean, -⟩ := (JoinHypergraph.mem_joinEdges hc).mp hj
    obtain rfl := Option.some.inj (he.symm.trans he')
    refine ⟨?_, hclean⟩
    by_contra hnot
    have hmem : (⟨j, d⟩ : CrossingEdge) ∈ specialEdges env.graph c.joinEdges :=
      List.mem_filter.mpr ⟨hj, by simp [he, hnot]⟩
    rw [hspecial] at hmem
    cases hmem
  unfold applyInnerEdges
  refine .get_bind fun st h => ?_
  split
  · rename_i l r hl hr
    obtain ⟨rfl, hPl⟩ := h _ l (PlanSet.cheapest_mem hl)
    obtain ⟨rfl, hPr⟩ := h _ r (PlanSet.cheapest_mem hr)
    split
    · exact .pure fun _ heq => heq ▸ h
    · rename_i primary keyEdges hcanonical
      split
      · exact .pure fun _ heq => heq ▸ h
      · rename_i edge hedge
        obtain ⟨hinner, hclean⟩ := hplain primary (hcanonical ▸ List.mem_cons_self) edge hedge
        simp only [JoinEdge.isPlainInner, Bool.and_eq_true, Bool.not_eq_true', decide_eq_true_eq]
          at hinner
        refine (considerOrientations_holds hrules hPl hPr
          ⟨hedge, hinner.1, hdisj, rfl, ?_, fun _ => hinner.2, fun i hi => ?_⟩).conseq
            (fun _ heq => heq ▸ h) fun _ _ h => h
        · simp only [JoinHypergraph.forward, JoinHypergraph.reverse, Bool.or_eq_true,
            Bool.and_eq_true, decide_eq_true_eq] at hclean
          rcases hclean with ⟨hleft, hright⟩ | ⟨hright, hleft⟩
          · exact hinner.2 ▸ .asWritten hleft hright
          · exact .exchanged hright hleft (by rw [hinner.2]; rfl)
        · have hmem := hcanonical ▸ List.mem_cons_of_mem primary hi
          obtain ⟨e, he⟩ : ∃ e, env.graph.edges[i]? = some e := by
            have hi := (List.mem_insertionSort _).mp
              (JoinHypergraph.keepCanonical_subset _ _ hmem)
            obtain ⟨⟨j, d⟩, hj, rfl⟩ := List.mem_map.mp hi
            obtain ⟨e, he, -⟩ := (JoinHypergraph.mem_joinEdges hc).mp hj
            exact ⟨e, he⟩
          exact ⟨e, he, (hplain i hmem e he).2⟩
  · exact .pure fun _ heq => heq ▸ h

lemma applyCrossing_holds {A B : RelationSet} (hdisj : Disjoint A B) {c : CrossingEdges}
    (hc : env.graph.crossingEdges A B = some c) :
    Triple (Holds P) (applyCrossing env A B c) fun _ => Holds P := by
  unfold applyCrossing
  simp only
  split
  · exact .pure fun _ h => h
  · rename_i only hjoin
    exact .ite (fun _ => applyCrossingEdge_holds hrules hdisj hc
      (hjoin ▸ List.mem_singleton_self only) _) fun _ => .pure fun _ h => h
  · split
    · rename_i special hspecial
      refine .ite (fun _ => applyCrossingEdge_holds hrules hdisj hc ?_ _) fun _ =>
        .pure fun _ h => h
      have hmem : special ∈ specialEdges env.graph c.joinEdges := by
        rw [hspecial]
        exact List.mem_singleton_self special
      exact List.mem_of_mem_filter hmem
    · rename_i hspecial
      exact applyInnerEdges_holds hrules hdisj hc hspecial _
    · exact .throw _

/-- **Emitting a pair of disjoint sides.** -/
lemma emitCsgCmp_holds {A B : RelationSet} (hdisj : Disjoint A B) :
    Triple (Holds P) (emitCsgCmp env A B) fun _ => Holds P := by
  unfold emitCsgCmp
  refine .read fun st =>
    .bind (Q := fun _ => Holds P) (.update fun _ h => h.of_memo rfl) fun _ => ?_
  refine .ite (fun _ => .pure fun _ h => h) fun _ => ?_
  cases hc : env.graph.crossingEdges A B with
  | none => exact .pure fun _ h => h
  | some c => exact applyCrossing_holds hrules hdisj hc

/-! ### The dynamic program -/

lemma enumerateCmpRec_holds {A : RelationSet} : ∀ {depth : ℕ} {C X : RelationSet}, Disjoint A C →
    A ⊆ X → Triple (Holds P) (enumerateCmpRec env depth A C X) fun _ => Holds P
  | 0, C, X, _, _ => .pure fun _ h => h
  | depth + 1, C, X, hdisj, hsub => by
    have hgrown : ∀ s ∈ RelationSet.subsetsBySize (neighborhood env.graph C X),
        Disjoint A (C ∪ s) := by
      intro s hs
      refine Finset.disjoint_union_right.mpr ⟨hdisj, ?_⟩
      exact ((neighborhood_disjoint env.graph C X).1.symm.mono_left hsub).mono_right
        (subset_of_mem_subsetsBySize env.graph hs)
    rw [enumerateCmpRec]
    refine .read fun st => .ite (fun _ => .pure fun _ h => h) fun _ =>
      .ite (fun _ => .pure fun _ h => h) fun _ => ?_
    refine .bind (Q := fun _ => Holds P) (.forM fun s hs => ?_) fun _ => .forM fun s hs => ?_
    · exact .read fun st => .ite (fun _ => emitCsgCmp_holds hrules (hgrown s hs))
        fun _ => .pure fun _ h => h
    · exact enumerateCmpRec_holds (hgrown s hs) (hsub.trans Finset.subset_union_left)

lemma emitCsg_holds {A : RelationSet} : Triple (Holds P) (emitCsg env A) fun _ => Holds P := by
  unfold emitCsg
  refine .read fun st => .ite (fun _ => .pure fun _ h => h) fun _ => .forM fun v hv => ?_
  have hv' : v ∈ neighborhood env.graph A (RelationSet.prefixThrough A.min) :=
    (RelationSet.mem_toAscending ((avoids (enumeration_lawful env.graph)).subset A _)).mp
      (List.mem_reverse.mp hv)
  have hdisj : Disjoint A {v} := Finset.disjoint_singleton_right.mpr fun hvA =>
    Finset.disjoint_left.mp (neighborhood_disjoint env.graph A _).2 hv' hvA
  refine .bind (emitCsgCmp_holds hrules hdisj) fun _ => enumerateCmpRec_holds hrules hdisj ?_
  exact Finset.subset_union_right.trans Finset.subset_union_left

lemma enumerateCsgRec_holds : ∀ {depth : ℕ} {A X : RelationSet},
    Triple (Holds P) (enumerateCsgRec env depth A X) fun _ => Holds P
  | 0, A, X => .pure fun _ h => h
  | depth + 1, A, X => by
    rw [enumerateCsgRec]
    refine .read fun st => .ite (fun _ => .pure fun _ h => h) fun _ =>
      .ite (fun _ => .pure fun _ h => h) fun _ => ?_
    refine .bind (Q := fun _ => Holds P) (.forM fun s _ => ?_) fun _ =>
      .forM fun s _ => enumerateCsgRec_holds
    exact .read fun st => .ite (fun _ => emitCsg_holds hrules) fun _ => .pure fun _ h => h

lemma initLeaves_holds (h : Holds P st) (component : RelationSet) :
    Holds P (initLeaves env component st) := by
  refine foldl_keeps (P := Holds P) h fun st id _ h => ?_
  unfold initLeaf
  split
  · exact h
  · exact (h.of_memo rfl).addPlan rfl (hrules.leaf _ id)

lemma solveComponent_holds {component : RelationSet} :
    Triple (Holds P) (solveComponent env component) fun _ => Holds P := by
  unfold solveComponent
  refine .bind (Q := fun _ => Holds P) (.update fun st h => ?_) fun _ =>
    .bind (Q := fun _ => Holds P) (.forM fun id _ => ?_) fun _ => .read fun _ => .pure fun _ h => h
  · have hst : Holds P { st with budget := st.budget.reset } := h.of_memo rfl
    exact initLeaves_holds hrules hst component
  · refine .ite (fun _ => .pure fun _ h => h) fun _ => ?_
    exact .bind (emitCsg_holds hrules) fun _ => enumerateCsgRec_holds hrules

/-! ### The fallback -/

section greedy

variable (hU : UnnestsDistinct env.graph)
include hU

lemma expandPass_holds : ∀ {entries : List (JoinEdge × ℕ)} {A : RelationSet} {grown : Bool},
    (∀ x ∈ entries, env.graph.edges[x.2]? = some x.1) →
    Triple (Holds P) (expandPass env entries A grown)
      fun r st => Holds P st ∧ Grows env.graph A r.1
  | [], A, grown, _ => .pure fun _ h => ⟨h, .refl _ _⟩
  | (e, i) :: rest, A, grown, hentries => by
    have he : env.graph.edges[i]? = some e := hentries _ List.mem_cons_self
    have hrest : ∀ x ∈ rest, env.graph.edges[x.2]? = some x.1 :=
      fun x hx => hentries x (List.mem_cons_of_mem _ hx)
    rw [expandPass]
    refine .ite (fun _ => expandPass_holds hrest) fun hcond => ?_
    simp only [Bool.or_eq_true, Bool.not_eq_true', decide_eq_false_iff_not, decide_eq_true_eq,
      not_or, Bool.not_eq_false, not_not] at hcond
    obtain ⟨⟨hunnest, hleft⟩, -⟩ := hcond
    have hright := (e.unnest_shape hunnest).2.2.2
    have hgrows : Grows env.graph A (A ∪ e.rightEligibility) := by
      rw [hright]
      exact .expand hU (List.mem_of_getElem? he) hunnest hleft
    refine .bind (Q := fun _ => Holds P) (.update fun st h => ?_) fun _ => .read fun st => ?_
    · have hst : Holds P { st with expansions := st.expansions ++ [(A, i)] } := h.of_memo rfl
      exact emitUnnest_holds hrules hst he hunnest (congrArg (A ∪ ·) hright) []
    · split
      · exact expandPass_holds hrest
      · exact (expandPass_holds hrest).conseq (fun _ h => h) fun r st h => ⟨h.1, hgrows.trans h.2⟩

lemma expandThroughUnnests_holds : ∀ {bound : ℕ} {A : RelationSet},
    Triple (Holds P) (expandThroughUnnests env bound A)
      fun grown st => Holds P st ∧ Grows env.graph A grown
  | 0, A => .pure fun _ h => ⟨h, .refl _ _⟩
  | bound + 1, A => by
    rw [expandThroughUnnests]
    refine .bind (expandPass_holds hrules hU fun _ => JoinHypergraph.getElem?_of_mem_zipIdx)
      fun r => .ite (fun _ => ?_) fun _ => .pure fun _ h => h
    intro st h grown st' heq
    obtain ⟨hholds, hgrows⟩ := expandThroughUnnests_holds st h.1 grown st' heq
    exact ⟨hholds, h.2.trans hgrows⟩

lemma expandOneFragment_holds : ∀ {l : List RelationSet},
    Triple (Holds P) (expandOneFragment env l)
      fun r st => Holds P st ∧ ∀ l', r = some l' → ListGrows env.graph l l'
  | [] => .pure fun _ h => ⟨h, (fun _ heq => by cases heq)⟩
  | A :: rest => by
    have hlater : Triple (Holds P)
        (do
          let r ← expandOneFragment env rest
          return r.map (A :: ·))
        fun r st => Holds P st ∧ ∀ l', r = some l' → ListGrows env.graph (A :: rest) l' := by
      refine .bind expandOneFragment_holds fun r => .pure fun st h => ⟨h.1, fun l' heq => ?_⟩
      obtain ⟨l'', rfl, rfl⟩ := Option.map_eq_some_iff.mp heq
      exact (h.2 l'' rfl).tail A
    rw [expandOneFragment]
    simp only
    refine .ite (fun _ => ?_) fun _ => hlater
    refine .bind (expandThroughUnnests_holds hrules hU) fun grown => .ite (fun _ => ?_) fun _ =>
      hlater.conseq (fun _ h => h.1) fun _ _ h => h
    refine .pure fun st h => ⟨h.1, fun l' heq => ?_⟩
    obtain rfl := Option.some.inj heq
    exact ListGrows.head h.2 rest

omit hU in
lemma considerPair_holds {best : BestPair F} {A B : RelationSet} (hdisj : Disjoint A B) :
    Triple (Holds P) (considerPair env best A B)
      fun r st => Holds P st ∧ (r = best ∨ ∃ c, r = some (c, A, B)) := by
  unfold considerPair
  refine .bind (emitCsgCmp_holds hrules hdisj) fun _ => .read fun st => ?_
  split
  · exact .pure fun _ h => ⟨h, .inl rfl⟩
  · exact .pure fun _ h => ⟨h, .inr ⟨_, rfl⟩⟩
  · exact .ite (fun _ => .pure fun _ h => ⟨h, .inr ⟨_, rfl⟩⟩)
      fun _ => .pure fun _ h => ⟨h, .inl rfl⟩

omit hU in
lemma bestPair_holds : ∀ {pairs : List (RelationSet × RelationSet)} {best : BestPair F},
    (∀ p ∈ pairs, Disjoint p.1 p.2) → Triple (Holds P) (bestPair env pairs best)
      fun r st => Holds P st ∧
        ∀ c A B, r = some (c, A, B) → best = some (c, A, B) ∨ (A, B) ∈ pairs
  | [], best, _ => .pure fun _ h => ⟨h, fun _ _ _ heq => .inl heq⟩
  | (A, B) :: rest, best, hpairs => by
    rw [bestPair]
    refine .bind (considerPair_holds hrules (hpairs _ List.mem_cons_self)) fun r => ?_
    intro st h best' st' heq
    obtain ⟨hholds, hbest⟩ :=
      bestPair_holds (fun p hp => hpairs p (List.mem_cons_of_mem _ hp)) st h.1 best' st' heq
    refine ⟨hholds, fun c C D hsome => ?_⟩
    rcases hbest c C D hsome with hr | hmem
    · rcases h.2 with rfl | ⟨c', rfl⟩
      · exact .inl hr
      · cases hr
        exact .inr List.mem_cons_self
    · exact .inr (List.mem_cons_of_mem _ hmem)

lemma mergeFragments_holds : ∀ {bound : ℕ} {l : List RelationSet}, Fragments env.graph l →
    Triple (Holds P) (mergeFragments env bound l) fun _ => Holds P
  | 0, l, _ => .pure fun _ h => h
  | bound + 1, [], _ => .pure fun _ h => h
  | bound + 1, [A], _ => .pure fun _ h => h
  | bound + 1, A :: B :: rest, hl => by
    rw [mergeFragments]
    · refine .bind (bestPair_holds hrules fun p hp => rel_of_mem_laterPairs hl.disjoint hp)
        fun best => ?_
      cases best with
      | none =>
          refine .bind ((expandOneFragment_holds hrules hU).conseq (fun _ h => h.1)
            fun _ _ h => h) fun r => ?_
          cases r with
          | none => exact .pure fun _ h => h.1
          | some l' =>
              intro st h
              exact mergeFragments_holds ((h.2 l' rfl).fragments hl) st h.1
      | some best =>
          obtain ⟨c, C, D⟩ := best
          intro st h
          have hmem := (h.2 c C D rfl).resolve_left fun heq => by cases heq
          obtain ⟨hC, hD⟩ := mem_of_mem_laterPairs hmem
          exact mergeFragments_holds (hl.merge hC hD) st h.1
    · intro heq
      cases heq
    · intro A' heq
      cases heq

/-- The plan returned for a set, over a memo of which a property holds. -/
def Gives (P : MemoOp F → Prop) (S : RelationSet) (root : Option (MemoOp F)) (st : State F σ) :
    Prop :=
  Holds P st ∧ ∀ op, root = some op → op.cover = S ∧ P op

omit hrules hU in
lemma Holds.gives (h : Holds P st) (S : RelationSet) : Gives P S (st.cheapestPlan S) st :=
  ⟨h, fun op hop => h S op (PlanSet.cheapest_mem hop)⟩

lemma greedy_holds {component : RelationSet} :
    Triple (Holds P) (greedy env component) (Gives P component) := by
  have hnone : ∀ st : State F σ, Holds P st → Gives P component none st :=
    fun st h => ⟨h, (fun _ heq => by cases heq)⟩
  unfold greedy
  refine .bind (Q := fun _ => Holds P) (.update fun st h => ?_) fun _ =>
    .read fun st => .ite (fun _ => .pure hnone) fun _ => ?_
  · have hst : Holds P { st with budget := st.budget.disable } := h.of_memo rfl
    exact initLeaves_holds hrules hst component
  refine .bind (mergeFragments_holds hrules hU (fragments_singletons component)) fun merged => ?_
  cases merged with
  | none => exact .pure hnone
  | some fragment =>
      refine .bind (expandThroughUnnests_holds hrules hU) fun grown =>
        .get_bind fun st h => .pure fun st' heq => ?_
      rw [heq]
      exact h.1.gives component

/-- **What the rules show of a property holds of every plan** that an enumeration of a connected
graph records, and of the one it returns. -/
theorem plan_holds : Triple (Holds P) (DPhyp.plan env) (Gives P env.graph.relationIds) := by
  unfold DPhyp.plan Enumerator.solve
  refine .bind (solveComponent_holds hrules) fun exceeded => .ite (fun _ => ?_) fun _ => ?_
  · refine .bind (Q := fun _ => Holds P) (.update fun st _ S op hop => ?_) fun _ =>
      greedy_holds hrules hU
    exact absurd hop List.not_mem_nil
  · refine .get_bind fun st h => .pure fun st' heq => ?_
    rw [heq]
    exact h.gives env.graph.relationIds

/-- What the rules show of a property holds of the plans of the components. -/
theorem planComponents_holds : ∀ {components : List RelationSet},
    Triple (Holds P) (DPhyp.planComponents env components) fun roots st => Holds P st ∧
      ∀ ops, roots = some ops →
        List.Forall₂ (fun component op => op.cover = component ∧ P op) components ops
  | [] => .pure fun st h => ⟨h, fun ops heq => by
      cases heq
      exact .nil⟩
  | component :: rest => by
    have hnone : ∀ st : State F σ, Holds P st → Holds P st ∧ ∀ ops,
        (none : Option (List (MemoOp F))) = some ops →
          List.Forall₂ (fun component op => op.cover = component ∧ P op) (component :: rest) ops :=
      fun st h => ⟨h, fun ops heq => by cases heq⟩
    have hsome : ∀ root : MemoOp F, root.cover = component ∧ P root → Triple (Holds P)
        (do
          let roots ← DPhyp.planComponents env rest
          pure (roots.map (root :: ·)) : EnumM F σ (Option (List (MemoOp F))))
        fun roots st => Holds P st ∧ ∀ ops, roots = some ops →
          List.Forall₂ (fun component op => op.cover = component ∧ P op) (component :: rest)
            ops := by
      intro root hroot
      refine .bind planComponents_holds fun roots => .pure fun st h => ⟨h.1, fun ops heq => ?_⟩
      obtain ⟨tail, htail, rfl⟩ := Option.map_eq_some_iff.mp heq
      exact .cons hroot (h.2 tail htail)
    rw [DPhyp.planComponents]
    refine .bind (solveComponent_holds hrules) fun exceeded => ?_
    simp only []
    apply Triple.ite
    · refine fun _ => .bind (greedy_holds hrules hU) fun root => ?_
      rcases root with - | root
      · exact .pure fun st h => hnone st h.1
      · exact fun st h => hsome root (h.2 root rfl) st h.1
    · refine fun _ => .get_bind fun st h => ?_
      refine .bind (Q := Gives P component) (.pure fun st' heq => ?_) fun root => ?_
      · rw [heq]
        exact h.gives component
      · rcases root with - | root
        · exact .pure fun st h => hnone st h.1
        · exact fun st h => hsome root (h.2 root rfl) st h.1

omit hrules hU in
/-- What passes the final check was planned. -/
lemma of_checked {β : Type} {applied : β → List ℕ} {outcome : Except EnumError (Option β)}
    {plan : β} (h : DPhyp.checked env applied outcome = .ok (some plan)) :
    outcome = .ok (some plan) := by
  cases outcome with
  | error e => cases h
  | ok found =>
      cases found with
      | none => cases h
      | some found =>
          unfold DPhyp.checked at h
          split at h
          · cases h
          · cases h
          · split at h
            · cases h
              assumption
            · cases h

omit hrules hU in
lemma holds_initialState (costState : σ) (enumerationBudget : ℤ) :
    Holds P (DPhyp.initialState (F := F) costState enumerationBudget) :=
  fun _ _ hop => absurd hop List.not_mem_nil

/-- **What the rules show of a property holds of the plan returned** for a connected graph. -/
theorem enumerate_holds {costState : σ} {enumerationBudget : ℤ} {root : MemoOp F}
    (h : DPhyp.enumerate env costState enumerationBudget = .ok (some root)) :
    root.cover = env.graph.relationIds ∧ P root :=
  (plan_holds hrules hU _ (holds_initialState costState enumerationBudget) _ _
    (Prod.ext (of_checked h) rfl)).2 root rfl

/-- **What the rules show of a property holds of the plans returned** for the components of a
graph. -/
theorem enumerateComponents_holds {costState : σ} {enumerationBudget : ℤ}
    {components : List RelationSet} {roots : List (MemoOp F)}
    (h : DPhyp.enumerateComponents env costState enumerationBudget components =
      .ok (some roots)) :
    List.Forall₂ (fun component op => op.cover = component ∧ P op) components roots :=
  (planComponents_holds hrules hU _ (holds_initialState costState enumerationBudget) _ _
    (Prod.ext (of_checked h) rfl)).2 roots rfl

end greedy

end rules

end Verax.JoinOrder
