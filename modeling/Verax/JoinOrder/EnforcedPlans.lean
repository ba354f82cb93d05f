import Verax.JoinOrder.Completeness
import Verax.JoinOrder.Enforcement

/-!
# No join condition is lost

Every plan the enumerator records applies, step by step, what crosses between the two sides it
joins, as long as no greedy expansion is across a partition that other edges cross as well
(`UnnestAlone`). The greedy expansion is called without the edges it should carry, where the dynamic
program passes them; a run without such an expansion never fails the final check
(`enumerate_noneLost`); the one of `UnnestBesideJoin.lost_by_expansion` does.

* `Good` is the invariant: if the expansions so far were alone on their partition, each plan
  recorded for a set covers that set and is `Built`.
* `emitCsgCmp_good`, `enumerateCsgRec_good` and `solveComponent_good` carry it through the dynamic
  program, `expandThroughUnnests_good`, `mergeFragments_good` and `greedy_good` through the fallback,
  whose fragments stay disjoint (`Fragments`).
-/

set_option linter.unusedSectionVars false

namespace Verax.JoinOrder

open Verax.Lib.StateExcept Verax.Lib.ConnectedPairs
open Enumerator

/-! ### What the builder guarantees of Unnest edges -/

/-- Each Unnest edge expands one relation, and no two the same.
Source: `HypergraphBuilder.cpp` `addUnnestEdges`. -/
structure UnnestsDistinct (g : JoinHypergraph) : Prop where
  single : ∀ e ∈ g.edges, e.isUnnest = true → ∃ u, e.rightEndpoints = {u}
  distinct : ∀ e ∈ g.edges, ∀ f ∈ g.edges, e.isUnnest = true → f.isUnnest = true →
    e.rightEndpoints = f.rightEndpoints → e = f

/-- Derived edges are no Unnest edges. -/
lemma UnnestsDistinct.addTransitiveInnerEdges {g : JoinHypergraph} (h : UnnestsDistinct g) :
    UnnestsDistinct g.addTransitiveInnerEdges := by
  have hmem : ∀ e ∈ g.addTransitiveInnerEdges.edges, e.isUnnest = true → e ∈ g.edges := by
    intro e he hun
    rcases List.mem_append.mp he with he | he
    · exact he
    · obtain ⟨rs, -, hrs⟩ := List.mem_filterMap.mp he
      obtain ⟨-, -, -, -, -, hfalse, -⟩ := JoinHypergraph.derivedEdge_eq_some hrs
      rw [hfalse] at hun
      cases hun
  constructor
  · intro e he hun
    exact h.single e (hmem e he hun) hun
  · intro e he f hf hue huf
    exact h.distinct e (hmem e he hue) f (hmem f hf huf) hue huf

/-- No edge but the Unnest edge itself crosses between a set and the relation it is expanded by. -/
def UnnestAlone (g : JoinHypergraph) (expansion : RelationSet × ℕ) : Prop :=
  ∀ u, g.edges[expansion.2]? = some u → ∀ i e, g.edges[i]? = some e →
    JoinHypergraph.crosses e expansion.1 u.rightEndpoints = true → i = expansion.2

/-- Two sides are classified if every edge that crosses them splits cleanly. -/
lemma crossingEdges_isSome {g : JoinHypergraph} {A B : RelationSet}
    (h : ∀ e ∈ g.edges, JoinHypergraph.crosses e A B = true →
      (JoinHypergraph.forward e A B || JoinHypergraph.reverse e A B) = true) :
    ∃ c, g.crossingEdges A B = some c := by
  have key : ∀ (l : List (JoinEdge × ℕ)) (acc : CrossingEdges),
      (∀ x ∈ l, JoinHypergraph.crosses x.1 A B = true →
        (JoinHypergraph.forward x.1 A B || JoinHypergraph.reverse x.1 A B) = true) →
      ∃ c, l.foldlM (JoinHypergraph.classifyEdge A B) acc = some c := by
    intro l
    induction l with
    | nil => exact fun acc _ => ⟨acc, rfl⟩
    | cons x l ih =>
      intro acc hl
      have hstep : ∃ r, JoinHypergraph.classifyEdge A B acc x = some r := by
        unfold JoinHypergraph.classifyEdge
        split
        · rename_i hcross
          rw [if_pos (hl x List.mem_cons_self hcross)]
          exact ⟨_, rfl⟩
        · exact ⟨_, rfl⟩
      obtain ⟨r, hr⟩ := hstep
      obtain ⟨c, hc⟩ := ih r fun y hy => hl y (List.mem_cons_of_mem _ hy)
      exact ⟨c, by rw [List.foldlM_cons, hr]; exact hc⟩
  refine key _ _ fun x hx => h x.1 ?_
  obtain ⟨e, i⟩ := x
  exact List.mem_of_getElem? (by simpa [List.mem_zipIdx_iff_getElem?] using hx)

/-- An expansion alone on its partition needs to apply nothing else. -/
lemma UnnestAlone.enforces {g : JoinHypergraph} {A : RelationSet} {i : ℕ} {u : JoinEdge}
    (h : UnnestAlone g (A, i)) (hu : g.edges[i]? = some u) (hun : u.isUnnest = true)
    (hleft : u.leftEligibility ⊆ A) : Enforces g A u.rightEndpoints [i] := by
  have hright : u.rightEligibility = u.rightEndpoints := (u.unnest_shape hun).2.2.2
  have hclean : JoinHypergraph.forward u A u.rightEndpoints = true := by
    simp [JoinHypergraph.forward, hleft, hright]
  have hsome : ∃ c, g.crossingEdges A u.rightEndpoints = some c := by
    apply crossingEdges_isSome
    intro e he hcross
    obtain ⟨j, hj⟩ := List.mem_iff_getElem?.mp he
    obtain rfl := h u hu j e hj hcross
    obtain rfl := Option.some.inj (hj.symm.trans hu)
    rw [hclean, Bool.true_or]
  obtain ⟨c, hc⟩ := hsome
  refine ⟨c, Or.inl hc, fun j hj => ?_, Or.inl fun j hj => ?_⟩
  · obtain ⟨e, he, hcross, -⟩ := (JoinHypergraph.mem_filterEdges hc).mp hj
    exact List.mem_singleton.mpr (h u hu j e he hcross)
  · obtain ⟨e, he, hcross, -⟩ := (JoinHypergraph.mem_joinEdges hc).mp hj
    exact List.mem_singleton.mpr (h u hu j.index e he hcross)

/-! ### The invariant -/

variable {F σ : Type} [Add F] [BEq F] [LT F] [DecidableLT F] {env : Env F σ}

/-- A plan that may stand for a set. -/
def Entry (g : JoinHypergraph) (S : RelationSet) (op : MemoOp F) : Prop :=
  op.cover = S ∧ Built g op

/-- If every greedy expansion so far was alone on its partition, then `X`, and each plan recorded
for a set covers the set and is built. -/
def Good (g : JoinHypergraph) (X : Prop) (st : State F σ) : Prop :=
  (∀ x ∈ st.expansions, UnnestAlone g x) → X ∧ ∀ S, ∀ op ∈ st.memo S, Entry g S op

lemma Good.mono {g : JoinHypergraph} {X Y : Prop} {st : State F σ} (h : Good g X st)
    (hXY : X → Y) : Good g Y st := fun halone => ⟨hXY (h halone).1, (h halone).2⟩

/-- Recording a plan. -/
lemma addPlan_good {X : Prop} {S : RelationSet} {op : MemoOp F} {st : State F σ}
    (hop : X → Entry env.graph S op) (h : Good env.graph X st) :
    Good env.graph X (addPlan env S op st) := by
  intro halone
  obtain ⟨hX, hmemo⟩ := h halone
  refine ⟨hX, fun T op' hop' => ?_⟩
  simp only [addPlan] at hop'
  split at hop'
  · rename_i hTS
    rcases PlanSet.mem_addPlan hop' with hop' | rfl
    · exact hTS ▸ hmemo S op' hop'
    · exact hTS ▸ hop hX
  · exact hmemo T op' hop'

lemma entry_leaf {g : JoinHypergraph} (c : Cost F) (id : ℕ) (p : Partitioning) :
    Entry g {id} (.leaf c id p) := ⟨rfl, trivial⟩

lemma entry_withCost {g : JoinHypergraph} {S : RelationSet} {op : MemoOp F} (c : Cost F)
    (h : Entry g S op) : Entry g S (op.withCost c) := by
  cases op <;> exact h

/-- Two built plans over disjoint sides and the edges a join of them applies. -/
structure Joined (g : JoinHypergraph) (left right : MemoOp F) (combined : RelationSet)
    (applied : List ℕ) : Prop where
  leftBuilt : Built g left
  rightBuilt : Built g right
  disjoint : Disjoint left.cover right.cover
  cover : combined = left.cover ∪ right.cover
  enforces : Enforces g left.cover right.cover applied

lemma Joined.symm {g : JoinHypergraph} {left right : MemoOp F} {combined : RelationSet}
    {applied : List ℕ} (h : Joined g left right combined applied) :
    Joined g right left combined applied :=
  ⟨h.rightBuilt, h.leftBuilt, h.disjoint.symm, by rw [h.cover, Finset.union_comm], h.enforces.symm⟩

/-- Considering a join keeps the invariant. -/
lemma considerCandidate_good {X : Prop} {shape : Shape} {edge : JoinEdge} {left right : MemoOp F}
    {st : State F σ} (hX : X → Joined env.graph left right shape.combined
      (shape.edgeIndex :: shape.keyEdges ++ shape.filterEdges))
    (h : Good env.graph X st) : Good env.graph X (considerCandidate env shape edge left right st) := by
  let Q : RelationSet → MemoOp F → Prop := fun S op =>
    (∀ x ∈ st.expansions, UnnestAlone env.graph x) → Entry env.graph S op
  refine (considerCandidate_step (P := fun s => s.expansions = st.expansions ∧ Good env.graph X s)
    (Q := Q) ?_ ⟨rfl, h⟩).2
  refine ⟨fun halone => ⟨rfl, (hX (h halone).1).leftBuilt⟩, fun halone => ⟨rfl, (hX (h halone).1).rightBuilt⟩,
    ?_, ?_, ?_, ?_, ?_, ?_⟩
  · intro s S op hs hop halone
    exact (hs.2 (hs.1 ▸ halone)).2 S op hop
  · intro S op c p hop
    exact hop
  · intro s hs
    exact hs
  · intro s c hs
    exact hs
  · intro s S c id p hs _ hid
    refine ⟨hs.1, addPlan_good (fun _ => ?_) hs.2⟩
    rw [hid]
    exact entry_leaf c id p
  · intro s l r p c hs hl hr _
    refine ⟨hs.1, ?_⟩
    intro halone
    have halone' : ∀ x ∈ st.expansions, UnnestAlone env.graph x := hs.1 ▸ halone
    refine addPlan_good (fun hX' => ?_) hs.2 halone
    obtain ⟨hlc, hlb⟩ := hl halone'
    obtain ⟨hrc, hrb⟩ := hr halone'
    have hj := hX hX'
    refine entry_withCost c ⟨?_, hlb, hrb, ?_, ?_⟩
    · rw [hj.cover, ← hlc, ← hrc]
      rfl
    · rw [hlc, hrc]
      exact hj.disjoint
    · rw [hlc, hrc]
      exact hj.enforces

/-! ### One pair -/

/-- Both orientations of a join keep the invariant. -/
lemma considerOrientations_good {X : Prop} {leftPlan rightPlan : MemoOp F} {edgeIndex : ℕ}
    {edge : JoinEdge} {leftType : JoinType} {combined : RelationSet} {keyEdges filterEdges : List ℕ}
    (hX : X → Joined env.graph leftPlan rightPlan combined (edgeIndex :: keyEdges ++ filterEdges)) :
    Triple (Good env.graph X) (considerOrientations env leftPlan rightPlan edgeIndex edge leftType
      combined keyEdges filterEdges) fun _ => Good env.graph X := by
  have hleft : ∀ t st, Good env.graph X st → Good env.graph X (considerCandidate env
      ⟨edgeIndex, t, combined, false, keyEdges, filterEdges⟩ edge leftPlan rightPlan st) :=
    fun _ _ => considerCandidate_good hX
  have hright : ∀ t st, Good env.graph X st → Good env.graph X (considerCandidate env
      ⟨edgeIndex, t, combined, false, keyEdges, filterEdges⟩ edge rightPlan leftPlan st) :=
    fun _ _ => considerCandidate_good fun hx => (hX hx).symm
  have hrest : ∀ {m : EnumM F σ PUnit} (c : Bool),
      Triple (Good env.graph X) m (fun _ => Good env.graph X) →
        Triple (Good env.graph X) (if c then m else pure ⟨⟩) fun _ => Good env.graph X :=
    fun _ hm => Triple.ite (fun _ => hm) fun _ => Triple.pure fun _ h => h
  unfold considerOrientations
  simp only []
  cases leftType.swapType with
  | none =>
    apply Triple.ite
    · intro _
      exact Triple.bind (Triple.update (hleft leftType)) fun _ => hrest _ (Triple.throw _)
    · intro _
      exact hrest _ (Triple.throw _)
  | some swapped =>
    apply Triple.ite
    · intro _
      exact Triple.bind (Triple.update (hleft leftType)) fun _ =>
        hrest _ (Triple.update (hright swapped))
    · intro _
      exact hrest _ (Triple.update (hright swapped))

/-- A single edge keeps the invariant. -/
lemma emitSingleEdge_good {X : Prop} {edgeIndex : ℕ} {edge : JoinEdge} {isForward : Bool}
    {leftPlan rightPlan : MemoOp F} {combined : RelationSet} {keyEdges filterEdges : List ℕ}
    (hX : X → Joined env.graph leftPlan rightPlan combined (edgeIndex :: keyEdges ++ filterEdges)) :
    Triple (Good env.graph X) (emitSingleEdge env edgeIndex edge isForward leftPlan rightPlan
      combined keyEdges filterEdges) fun _ => Good env.graph X := by
  unfold emitSingleEdge
  apply Triple.ite
  · intro _
    exact Triple.throw _
  intro hkeys
  apply Triple.ite
  · intro _
    exact Triple.throw _
  intro hfilters
  have hprobe : X → Joined env.graph (if isForward then leftPlan else rightPlan)
      (if isForward then rightPlan else leftPlan) combined
      (edgeIndex :: keyEdges ++ filterEdges) := by
    intro hx
    cases isForward with
    | true => exact hX hx
    | false => exact (hX hx).symm
  apply Triple.ite
  · intro _
    refine Triple.bind (Q := fun _ => Good env.graph X)
      (Triple.update fun st => considerCandidate_good hprobe) fun _ => ?_
    apply Triple.ite
    · intro hanti
      -- A reversed anti join carries no other edge, and an anti join has none to carry.
      have hk : keyEdges = [] := by simpa [hanti.1] using hkeys
      have hf : filterEdges = [] := by
        simpa [hanti.1, JoinType.keepsBothInputs] using hfilters
      subst hk hf
      exact Triple.update fun st => considerCandidate_good fun hx => (hprobe hx).symm
    · intro _
      exact Triple.pure fun _ h => h
  · intro _
    split
    · exact Triple.throw _
    · exact considerOrientations_good hX

/-- Recording a costed candidate keeps the invariant. -/
lemma addCandidate_good {X : Prop} {combined : RelationSet} {op : MemoOp F} {st : State F σ}
    (hX : X → Entry env.graph combined op) (h : Good env.graph X st) :
    Good env.graph X (addCandidate env combined op st) := by
  unfold addCandidate
  simp only []
  split
  · exact h
  · apply addPlan_good
    · intro hx
      exact entry_withCost _ (hX hx)
    · exact h

/-- The plans recorded are built. -/
lemma Good.entry {g : JoinHypergraph} {X : Prop} {st : State F σ} (h : Good g X st)
    {S : RelationSet} {op : MemoOp F} (hop : st.cheapestPlan S = some op) :
    Good g (X ∧ Entry g S op) st := fun halone =>
  ⟨⟨(h halone).1, (h halone).2 S op (PlanSet.cheapest_mem hop)⟩, (h halone).2⟩

/-- What an Unnest needs to be applied to a set. -/
structure Expandable (g : JoinHypergraph) (A : RelationSet) (edge : JoinEdge)
    (applied : List ℕ) : Prop where
  single : ∃ u, edge.rightEndpoints = {u}
  disjoint : Disjoint A edge.rightEndpoints
  enforces : Enforces g A edge.rightEndpoints applied

/-- Expanding a plan by an Unnest keeps the invariant. -/
lemma emitUnnest_good {X : Prop} {A : RelationSet} {edgeIndex : ℕ} {edge : JoinEdge}
    {filterEdges : List ℕ} {st : State F σ}
    (hX : X → Expandable env.graph A edge (edgeIndex :: filterEdges)) (h : Good env.graph X st) :
    Good env.graph X (emitUnnest env A edgeIndex edge (A ∪ edge.rightEndpoints) filterEdges st) := by
  unfold emitUnnest
  split
  · exact h
  · rename_i input hinput
    refine (addCandidate_good ?_ (h.entry hinput)).mono And.left
    rintro ⟨hx, hcover, hbuilt⟩
    obtain ⟨hsingle, hdisj, hstep⟩ := hX hx
    refine ⟨by rw [MemoOp.cover, hcover], hbuilt, hsingle, ?_, ?_⟩
    · rw [hcover]
      exact hdisj
    · rw [hcover]
      exact hstep

/-- The one edge applied to a partition keeps the invariant. -/
lemma applyCrossingEdge_good {X : Prop} {edgeIndex : ℕ} {isForward : Bool} {A B : RelationSet}
    {filterEdges : List ℕ} (hU : UnnestsDistinct env.graph) (hdisj : Disjoint A B)
    (hstep : Enforces env.graph A B (edgeIndex :: filterEdges)) :
    Triple (Good env.graph X) (applyCrossingEdge env edgeIndex isForward A B (A ∪ B) filterEdges)
      fun _ => Good env.graph X := by
  unfold applyCrossingEdge
  rcases he : env.graph.edges[edgeIndex]? with - | edge
  · exact Triple.pure fun _ h => h
  apply Triple.ite
  · intro hun
    have hright := (edge.unnest_shape hun).2.2.2
    apply Triple.ite
    · intro _
      exact Triple.pure fun _ h => h
    · intro hB
      obtain rfl : B = edge.rightEndpoints := by
        rw [← hright]
        exact not_not.mp hB
      have hexp : Expandable env.graph A edge (edgeIndex :: filterEdges) :=
        ⟨hU.single edge (List.mem_of_getElem? he) hun, hdisj, hstep⟩
      exact Triple.update fun st => emitUnnest_good fun _ => hexp
  · intro _
    apply Triple.get_bind
    intro st hst
    split
    · rename_i leftPlan rightPlan hA hB
      have hgood : Good env.graph ((X ∧ Entry env.graph A leftPlan) ∧
          Entry env.graph B rightPlan) st := (hst.entry hA).entry hB
      refine (emitSingleEdge_good ?_).conseq (fun s hs => hs ▸ hgood)
        fun _ s hs => hs.mono fun hx => hx.1.1
      rintro ⟨⟨-, hlc, hlb⟩, hrc, hrb⟩
      exact ⟨hlb, hrb, by rwa [hlc, hrc], by rw [hlc, hrc], by rwa [hlc, hrc]⟩
    · exact Triple.pure fun s hs => hs ▸ hst

/-- Several inner edges applied to a partition keep the invariant. -/
lemma applyInnerEdges_good {X : Prop} {c : CrossingEdges} {A B : RelationSet}
    (hdisj : Disjoint A B) (hc : env.graph.crossingEdges A B = some c)
    (hspecial : specialEdges env.graph c.joinEdges = []) :
    Triple (Good env.graph X) (applyInnerEdges env c.joinEdges A B (A ∪ B) c.filterEdges)
      fun _ => Good env.graph X := by
  unfold applyInnerEdges
  apply Triple.get_bind
  intro st hst
  have hskip : Triple (fun s => s = st) (pure ⟨⟩ : EnumM F σ PUnit) fun _ => Good env.graph X :=
    Triple.pure fun s hs => hs ▸ hst
  split
  · rename_i leftPlan rightPlan hA hB
    split
    · exact hskip
    · rename_i primary keyEdges hcanonical
      split
      · exact hskip
      · have hgood : Good env.graph ((X ∧ Entry env.graph A leftPlan) ∧
            Entry env.graph B rightPlan) st := (hst.entry hA).entry hB
        refine (considerOrientations_good ?_).conseq (fun s hs => hs ▸ hgood)
          fun _ s hs => hs.mono fun hx => hx.1.1
        rintro ⟨⟨-, hlc, hlb⟩, hrc, hrb⟩
        refine ⟨hlb, hrb, by rwa [hlc, hrc], by rw [hlc, hrc], ?_⟩
        rw [hlc, hrc]
        refine ⟨c, Or.inl hc, fun i hi => List.mem_append_right _ hi, Or.inr ⟨hspecial, ?_⟩⟩
        intro i hi
        rw [hcanonical] at hi
        exact List.mem_append_left _ hi
  · exact hskip

/-- What is done with the crossing edges of a partition keeps the invariant. -/
lemma applyCrossing_good {X : Prop} {c : CrossingEdges} {A B : RelationSet}
    (hU : UnnestsDistinct env.graph) (hdisj : Disjoint A B)
    (hc : env.graph.crossingEdges A B = some c) :
    Triple (Good env.graph X) (applyCrossing env A B c) fun _ => Good env.graph X := by
  unfold applyCrossing
  simp only []
  split
  · exact Triple.pure fun _ h => h
  · rename_i only hjoin
    apply Triple.ite
    · intro _
      refine applyCrossingEdge_good hU hdisj ⟨c, Or.inl hc, ?_, Or.inl ?_⟩
      · exact fun i hi => List.mem_cons_of_mem _ hi
      · intro j hj
        rw [hjoin, List.mem_singleton] at hj
        rw [hj]
        exact List.mem_cons_self
    · intro _
      exact Triple.pure fun _ h => h
  · split
    · rename_i special _
      apply Triple.ite
      · intro _
        refine applyCrossingEdge_good hU hdisj ⟨c, Or.inl hc, ?_, Or.inl ?_⟩
        · exact fun i hi => List.mem_cons_of_mem _ (List.mem_append_left _ hi)
        · intro j hj
          by_cases hjs : j = special
          · rw [hjs]
            exact List.mem_cons_self
          · refine List.mem_cons_of_mem _ (List.mem_append_right _ (List.mem_map_of_mem ?_))
            exact List.mem_filter.mpr ⟨hj, by simpa using hjs⟩
      · intro _
        exact Triple.pure fun _ h => h
    · rename_i hspecial
      exact applyInnerEdges_good hdisj hc hspecial
    · exact Triple.throw _

/-- **A pair of disjoint sides keeps the invariant.** -/
lemma emitCsgCmp_good {X : Prop} {A B : RelationSet} (hU : UnnestsDistinct env.graph)
    (hdisj : Disjoint A B) :
    Triple (Good env.graph X) (emitCsgCmp env A B) fun _ => Good env.graph X := by
  unfold emitCsgCmp
  apply Triple.get_bind
  intro st hst
  refine Triple.bind (Q := fun _ => Good env.graph X) (Triple.update ?_) fun _ => ?_
  · intro s hs
    rw [hs]
    exact hst
  · apply Triple.ite
    · intro _
      exact Triple.pure fun _ h => h
    · intro _
      rcases hc : env.graph.crossingEdges A B with - | c
      · exact Triple.pure fun _ h => h
      · exact applyCrossing_good hU hdisj hc

/-! ### The dynamic program -/

/-- Neighborhoods avoid what is forbidden and the set itself. -/
lemma neighborhood_disjoint (g : JoinHypergraph) (A B : RelationSet) :
    Disjoint (neighborhood g A B) B ∧ Disjoint (neighborhood g A B) A := by
  refine ⟨(avoids (enumeration_lawful g)).disjoint A B, Finset.disjoint_left.mpr fun v hv => ?_⟩
  obtain ⟨e, -, far, ⟨-, hfar⟩, -, hleast⟩ := (mem_neighborhood g A B v).mp hv
  exact Finset.disjoint_left.mp hfar hleast.1

/-- The subsets listed are subsets. -/
lemma subset_of_mem_subsetsBySize (g : JoinHypergraph) {A B s : RelationSet}
    (hs : s ∈ RelationSet.subsetsBySize (neighborhood g A B)) : s ⊆ neighborhood g A B :=
  ((RelationSet.listsSubsets_subsetsBySize.mem_iff _
    ((avoids (enumeration_lawful g)).subset A B) s).mp hs).1

section dynamic

variable {X : Prop} (hU : UnnestsDistinct env.graph)
include hU

/-- Growing a complement keeps the invariant: it never reaches into the first side. -/
lemma enumerateCmpRec_good {A : RelationSet} : ∀ {depth : ℕ} {C B : RelationSet}, Disjoint A C →
    A ⊆ B → Triple (Good env.graph X) (enumerateCmpRec env depth A C B) fun _ => Good env.graph X
  | 0, C, B, _, _ => Triple.pure fun _ h => h
  | depth + 1, C, B, hdisj, hsub => by
    have hgrown : ∀ s ∈ RelationSet.subsetsBySize (neighborhood env.graph C B),
        Disjoint A (C ∪ s) := by
      intro s hs
      refine Finset.disjoint_union_right.mpr ⟨hdisj, ?_⟩
      exact ((neighborhood_disjoint env.graph C B).1.symm.mono_left hsub).mono_right
        (subset_of_mem_subsetsBySize env.graph hs)
    rw [enumerateCmpRec]
    apply Triple.read
    intro st
    apply Triple.ite
    · exact fun _ => Triple.pure fun _ h => h
    intro _
    apply Triple.ite
    · exact fun _ => Triple.pure fun _ h => h
    intro _
    refine Triple.bind (Q := fun _ => Good env.graph X) (Triple.forM fun s hs => ?_) fun _ =>
      Triple.forM fun s hs => ?_
    · apply Triple.read
      intro st
      apply Triple.ite
      · exact fun _ => emitCsgCmp_good hU (hgrown s hs)
      · exact fun _ => Triple.pure fun _ h => h
    · exact enumerateCmpRec_good (hgrown s hs) (hsub.trans Finset.subset_union_left)

/-- Emitting the pairs of one set keeps the invariant. -/
lemma emitCsg_good {A : RelationSet} :
    Triple (Good env.graph X) (emitCsg env A) fun _ => Good env.graph X := by
  unfold emitCsg
  apply Triple.read
  intro st
  apply Triple.ite
  · exact fun _ => Triple.pure fun _ h => h
  intro _
  refine Triple.forM fun v hv => ?_
  have hv' : v ∈ neighborhood env.graph A (RelationSet.prefixThrough A.min) :=
    (RelationSet.mem_toAscending ((avoids (enumeration_lawful env.graph)).subset A _)).mp
      (List.mem_reverse.mp hv)
  have hdisj : Disjoint A {v} := Finset.disjoint_singleton_right.mpr fun hvA =>
    Finset.disjoint_left.mp (neighborhood_disjoint env.graph A _).2 hv' hvA
  refine Triple.bind (Q := fun _ => Good env.graph X) (emitCsgCmp_good hU hdisj) fun _ => ?_
  apply enumerateCmpRec_good hU hdisj
  exact Finset.subset_union_right.trans Finset.subset_union_left

/-- Growing a first side keeps the invariant. -/
lemma enumerateCsgRec_good : ∀ {depth : ℕ} {A B : RelationSet},
    Triple (Good env.graph X) (enumerateCsgRec env depth A B) fun _ => Good env.graph X
  | 0, A, B => Triple.pure fun _ h => h
  | depth + 1, A, B => by
    rw [enumerateCsgRec]
    apply Triple.read
    intro st
    apply Triple.ite
    · exact fun _ => Triple.pure fun _ h => h
    intro _
    apply Triple.ite
    · exact fun _ => Triple.pure fun _ h => h
    intro _
    refine Triple.bind (Q := fun _ => Good env.graph X) (Triple.forM fun s _ => ?_) fun _ =>
      Triple.forM fun s _ => enumerateCsgRec_good
    apply Triple.read
    intro st
    apply Triple.ite
    · exact fun _ => emitCsg_good hU
    · exact fun _ => Triple.pure fun _ h => h

omit hU in
/-- Adding a leaf keeps the invariant. -/
lemma initLeaf_good {id : ℕ} {st : State F σ} (h : Good env.graph X st) :
    Good env.graph X (initLeaf env id st) := by
  unfold initLeaf
  split
  · exact h
  · refine addPlan_good (fun _ => entry_withCost _ (entry_leaf ⟨none, none⟩ id _)) ?_
    exact h

omit hU in
lemma initLeaves_good {component : RelationSet} {st : State F σ} (h : Good env.graph X st) :
    Good env.graph X (initLeaves env component st) := by
  have key : ∀ (l : List ℕ) (st : State F σ), Good env.graph X st →
      Good env.graph X (l.foldl (fun st id => initLeaf env id st) st) := by
    intro l
    induction l with
    | nil => exact fun _ h => h
    | cons id l ih => exact fun st h => ih _ (initLeaf_good h)
  exact key _ st h

/-- **The dynamic program keeps the invariant.** -/
theorem solveComponent_good {component : RelationSet} :
    Triple (Good env.graph X) (solveComponent env component) fun _ => Good env.graph X := by
  unfold solveComponent
  refine Triple.bind (Q := fun _ => Good env.graph X) (Triple.update fun st h => ?_) fun _ =>
    Triple.bind (Q := fun _ => Good env.graph X) (Triple.forM fun id _ => ?_) fun _ => ?_
  · exact initLeaves_good h
  · apply Triple.ite
    · exact fun _ => Triple.pure fun _ h => h
    · exact fun _ => Triple.bind (Q := fun _ => Good env.graph X) (emitCsg_good hU) fun _ =>
        enumerateCsgRec_good hU
  · apply Triple.read
    exact fun _ => Triple.pure fun _ h => h

end dynamic

/-! ### Fragments of the greedy fallback -/

/-- A set that holds a relation an Unnest expands holds the Unnest's input. -/
def InputHeld (g : JoinHypergraph) (A : RelationSet) : Prop :=
  ∀ e ∈ g.edges, e.isUnnest = true → ¬ Disjoint e.rightEndpoints A → e.leftEligibility ⊆ A

/-- The fragments are disjoint and hold the inputs of what they expand. -/
structure Fragments (g : JoinHypergraph) (l : List RelationSet) : Prop where
  disjoint : l.Pairwise Disjoint
  held : ∀ A ∈ l, InputHeld g A

/-- A set grown without reaching into a set that holds its inputs. -/
structure Grows (g : JoinHypergraph) (A A' : RelationSet) : Prop where
  apart : ∀ B, InputHeld g B → Disjoint A B → Disjoint A' B
  held : InputHeld g A → InputHeld g A'

lemma Grows.refl (g : JoinHypergraph) (A : RelationSet) : Grows g A A :=
  ⟨fun _ _ h => h, fun h => h⟩

lemma Grows.trans {g : JoinHypergraph} {A B C : RelationSet} (h : Grows g A B)
    (h' : Grows g B C) : Grows g A C :=
  ⟨fun D hD hd => h'.apart D hD (h.apart D hD hd), fun hA => h'.held (h.held hA)⟩

/-- Expanding a set by an Unnest whose input it holds. -/
lemma Grows.expand {g : JoinHypergraph} (hU : UnnestsDistinct g) {A : RelationSet} {e : JoinEdge}
    (he : e ∈ g.edges) (hun : e.isUnnest = true) (hleft : e.leftEligibility ⊆ A) :
    Grows g A (A ∪ e.rightEndpoints) := by
  obtain ⟨u, hu⟩ := hU.single e he hun
  constructor
  · intro B hB hdisj
    refine Finset.disjoint_union_left.mpr ⟨hdisj, ?_⟩
    by_contra hmeet
    obtain ⟨v, hv⟩ := e.leftEligibility_nonempty
    exact Finset.disjoint_left.mp hdisj (hleft hv) (hB e he hun hmeet hv)
  · intro hA f hf hunf hmeet
    by_cases hmeetA : Disjoint f.rightEndpoints A
    · -- The relation expanded is the new one, so the edge is the one applied.
      obtain ⟨w, hw⟩ := hU.single f hf hunf
      have hwu : w = u := by
        have := fun h => hmeet (Finset.disjoint_union_right.mpr ⟨hmeetA, h⟩)
        rw [hw, hu, Finset.disjoint_singleton] at this
        exact not_not.mp this
      obtain rfl := hU.distinct f hf e he hunf hun (by rw [hw, hu, hwu])
      exact hleft.trans Finset.subset_union_left
    · exact (hA f hf hunf hmeetA).trans Finset.subset_union_left

/-- What expanding a fragment of a list does to the list. -/
structure ListGrows (g : JoinHypergraph) (l l' : List RelationSet) : Prop where
  apart : ∀ B, InputHeld g B → (∀ A ∈ l, Disjoint A B) → ∀ A ∈ l', Disjoint A B
  fragments : Fragments g l → Fragments g l'

/-- The first fragment grown. -/
lemma ListGrows.head {g : JoinHypergraph} {A A' : RelationSet} (h : Grows g A A')
    (l : List RelationSet) : ListGrows g (A :: l) (A' :: l) := by
  constructor
  · intro B hB hl C hC
    rcases List.mem_cons.mp hC with rfl | hC
    · exact h.apart B hB (hl A List.mem_cons_self)
    · exact hl C (List.mem_cons_of_mem _ hC)
  · intro hf
    obtain ⟨hA, hl⟩ := List.pairwise_cons.mp hf.disjoint
    refine ⟨List.pairwise_cons.mpr ⟨fun C hC => ?_, hl⟩, fun C hC => ?_⟩
    · exact h.apart C (hf.held C (List.mem_cons_of_mem _ hC)) (hA C hC)
    · rcases List.mem_cons.mp hC with rfl | hC
      · exact h.held (hf.held A List.mem_cons_self)
      · exact hf.held C (List.mem_cons_of_mem _ hC)

/-- A later fragment grown. -/
lemma ListGrows.tail {g : JoinHypergraph} {l l' : List RelationSet} (h : ListGrows g l l')
    (A : RelationSet) : ListGrows g (A :: l) (A :: l') := by
  constructor
  · intro B hB hl C hC
    rcases List.mem_cons.mp hC with rfl | hC
    · exact hl C List.mem_cons_self
    · exact h.apart B hB (fun D hD => hl D (List.mem_cons_of_mem _ hD)) C hC
  · intro hf
    obtain ⟨hA, hl⟩ := List.pairwise_cons.mp hf.disjoint
    have hheld := hf.held A List.mem_cons_self
    have hl' := h.fragments ⟨hl, fun C hC => hf.held C (List.mem_cons_of_mem _ hC)⟩
    refine ⟨List.pairwise_cons.mpr ⟨fun C hC => ?_, hl'.disjoint⟩, fun C hC => ?_⟩
    · exact (h.apart A hheld (fun D hD => (hA D hD).symm) C hC).symm
    · rcases List.mem_cons.mp hC with rfl | hC
      · exact hheld
      · exact hl'.held C hC

/-- Two fragments merged into the place of the first. -/
lemma Fragments.merge {g : JoinHypergraph} {l : List RelationSet} (h : Fragments g l)
    {A B : RelationSet} (hA : A ∈ l) (hB : B ∈ l) :
    Fragments g ((l.map fun f => if f = A then A ∪ B else f).filter (· ≠ B)) := by
  have hne : ∀ C ∈ l, ∀ D ∈ l, C ≠ D → Disjoint C D := fun C hC D hD hCD =>
    h.disjoint.forall hC hD hCD
  constructor
  · rw [List.pairwise_filter, List.pairwise_map]
    refine h.disjoint.imp_of_mem fun {C D} hC hD hdisj hC' hD' => ?_
    simp only [decide_eq_true_eq] at hC' hD'
    by_cases hCA : C = A
    · by_cases hDA : D = A
      · -- A set disjoint from itself is empty, and the union is the filtered set.
        subst hCA hDA
        rw [if_pos rfl, disjoint_self.mp hdisj] at hC'
        exact absurd (Finset.empty_union B) hC'
      · rw [if_neg hDA] at hD' ⊢
        rw [if_pos hCA]
        exact Finset.disjoint_union_left.mpr ⟨hCA ▸ hdisj, hne B hB D hD hD'.symm⟩
    · rw [if_neg hCA] at hC' ⊢
      by_cases hDA : D = A
      · rw [if_pos hDA]
        exact Finset.disjoint_union_right.mpr ⟨hDA ▸ hdisj, hne C hC B hB hC'⟩
      · rw [if_neg hDA]
        exact hdisj
  · intro C hC
    obtain ⟨D, hD, rfl⟩ := List.mem_map.mp (List.mem_of_mem_filter hC)
    split
    · intro e he hun hmeet
      by_cases hmeetA : Disjoint e.rightEndpoints A
      · have hmeetB : ¬ Disjoint e.rightEndpoints B := fun hd =>
          hmeet (Finset.disjoint_union_right.mpr ⟨hmeetA, hd⟩)
        exact (h.held B hB e he hun hmeetB).trans Finset.subset_union_right
      · exact (h.held A hA e he hun hmeetA).trans Finset.subset_union_left
    · exact h.held D hD

/-! ### The greedy fallback -/

section greedy

variable {X : Prop} (hU : UnnestsDistinct env.graph)
include hU

/-- One pass of expansions keeps the invariant. -/
lemma expandPass_good : ∀ {entries : List (JoinEdge × ℕ)} {A : RelationSet} {grown : Bool},
    (∀ x ∈ entries, env.graph.edges[x.2]? = some x.1) →
    Triple (Good env.graph X) (expandPass env entries A grown)
      fun r s => Good env.graph X s ∧ Grows env.graph A r.1
  | [], A, grown, _ => Triple.pure fun _ h => ⟨h, .refl _ _⟩
  | (e, i) :: rest, A, grown, hentries => by
    have he : env.graph.edges[i]? = some e := hentries _ List.mem_cons_self
    have hrest : ∀ x ∈ rest, env.graph.edges[x.2]? = some x.1 :=
      fun x hx => hentries x (List.mem_cons_of_mem _ hx)
    rw [expandPass]
    apply Triple.ite
    · exact fun _ => expandPass_good hrest
    intro hcond
    simp only [Bool.or_eq_true, Bool.not_eq_true', decide_eq_false_iff_not, decide_eq_true_eq,
      not_or, Bool.not_eq_false, not_not] at hcond
    obtain ⟨⟨hun, hleft⟩, hnot⟩ := hcond
    have hright := (e.unnest_shape hun).2.2.2
    obtain ⟨u, hu⟩ := hU.single e (List.mem_of_getElem? he) hun
    have hdisj : Disjoint A e.rightEndpoints := by
      rw [hright, hu, Finset.singleton_subset_iff] at hnot
      rw [hu]
      exact Finset.disjoint_singleton_right.mpr hnot
    have hgrows : Grows env.graph A (A ∪ e.rightEligibility) := by
      rw [hright]
      exact .expand hU (List.mem_of_getElem? he) hun hleft
    refine Triple.bind (Q := fun _ => Good env.graph X) (Triple.update fun st h => ?_) fun _ => ?_
    · have hexpansion : Good env.graph (X ∧ UnnestAlone env.graph (A, i))
          { st with expansions := st.expansions ++ [(A, i)] } := by
        intro halone
        obtain ⟨hx, hmemo⟩ := h fun x hx => halone x (List.mem_append_left _ hx)
        exact ⟨⟨hx, halone _ (List.mem_append_right _ List.mem_cons_self)⟩, hmemo⟩
      rw [hright]
      refine (emitUnnest_good ?_ hexpansion).mono And.left
      rintro ⟨-, halone⟩
      exact ⟨⟨u, hu⟩, hdisj, halone.enforces he hun hleft⟩
    · apply Triple.read
      intro st
      split
      · exact expandPass_good hrest
      · exact (expandPass_good hrest).conseq (fun _ h => h)
          fun r s h => ⟨h.1, hgrows.trans h.2⟩

/-- Expanding a set as far as it goes keeps the invariant. -/
lemma expandThroughUnnests_good : ∀ {bound : ℕ} {A : RelationSet},
    Triple (Good env.graph X) (expandThroughUnnests env bound A)
      fun r s => Good env.graph X s ∧ Grows env.graph A r
  | 0, A => Triple.pure fun _ h => ⟨h, .refl _ _⟩
  | bound + 1, A => by
    rw [expandThroughUnnests]
    refine Triple.bind (expandPass_good hU fun _ => JoinHypergraph.getElem?_of_mem_zipIdx)
      fun r => ?_
    apply Triple.ite
    · intro _ s hs B s' heq
      obtain ⟨hgood, hgrows⟩ := expandThroughUnnests_good s hs.1 B s' heq
      exact ⟨hgood, hs.2.trans hgrows⟩
    · exact fun _ => Triple.pure fun _ h => h

/-- Expanding one fragment keeps the invariant. -/
lemma expandOneFragment_good : ∀ {l : List RelationSet},
    Triple (Good env.graph X) (expandOneFragment env l)
      fun r s => Good env.graph X s ∧ ∀ l', r = some l' → ListGrows env.graph l l'
  | [] => Triple.pure fun _ h => ⟨h, fun l' heq => by cases heq⟩
  | A :: rest => by
    have hlater : Triple (Good env.graph X)
        (do
          let r ← expandOneFragment env rest
          return r.map (A :: ·))
        fun r s => Good env.graph X s ∧ ∀ l', r = some l' → ListGrows env.graph (A :: rest) l' := by
      refine Triple.bind expandOneFragment_good fun r => Triple.pure fun s h => ⟨h.1, ?_⟩
      intro l' heq
      obtain ⟨l'', rfl, rfl⟩ := Option.map_eq_some_iff.mp heq
      exact (h.2 l'' rfl).tail A
    rw [expandOneFragment]
    simp only []
    apply Triple.ite
    · intro _
      refine Triple.bind (expandThroughUnnests_good hU) fun grown => ?_
      apply Triple.ite
      · intro _
        refine Triple.pure fun s h => ⟨h.1, fun l' heq => ?_⟩
        obtain rfl := Option.some.inj heq
        exact ListGrows.head h.2 rest
      · exact fun _ => hlater.conseq (fun _ h => h.1) fun _ _ h => h
    · exact fun _ => hlater

/-- Trying one pair of fragments keeps the invariant. -/
lemma considerPair_good {best : BestPair F} {A B : RelationSet} (hdisj : Disjoint A B) :
    Triple (Good env.graph X) (considerPair env best A B) fun r s => Good env.graph X s ∧
      (r = best ∨ ∃ c, r = some (c, A, B)) := by
  unfold considerPair
  refine Triple.bind (Q := fun _ => Good env.graph X) (emitCsgCmp_good hU hdisj) fun _ => ?_
  apply Triple.read
  intro st
  split
  · exact Triple.pure fun _ h => ⟨h, Or.inl rfl⟩
  · exact Triple.pure fun _ h => ⟨h, Or.inr ⟨_, rfl⟩⟩
  · apply Triple.ite
    · exact fun _ => Triple.pure fun _ h => ⟨h, Or.inr ⟨_, rfl⟩⟩
    · exact fun _ => Triple.pure fun _ h => ⟨h, Or.inl rfl⟩

/-- Trying the pairs keeps the invariant, and the best is one of them. -/
lemma bestPair_good : ∀ {pairs : List (RelationSet × RelationSet)} {best : BestPair F},
    (∀ p ∈ pairs, Disjoint p.1 p.2) →
    Triple (Good env.graph X) (bestPair env pairs best) fun r s => Good env.graph X s ∧
      ∀ c A B, r = some (c, A, B) → best = some (c, A, B) ∨ (A, B) ∈ pairs
  | [], best, _ => Triple.pure fun _ h => ⟨h, fun _ _ _ heq => Or.inl heq⟩
  | (A, B) :: rest, best, hpairs => by
    rw [bestPair]
    refine Triple.bind (considerPair_good hU (hpairs _ List.mem_cons_self)) fun r => ?_
    intro s hs b s' heq
    obtain ⟨hgood, hbest⟩ :=
      bestPair_good (fun p hp => hpairs p (List.mem_cons_of_mem _ hp)) s hs.1 b s' heq
    refine ⟨hgood, fun c C D hb => ?_⟩
    rcases hbest c C D hb with hr | hmem
    · rcases hs.2 with rfl | ⟨c', rfl⟩
      · exact Or.inl hr
      · cases hr
        exact Or.inr List.mem_cons_self
    · exact Or.inr (List.mem_cons_of_mem _ hmem)

/-- Merging the fragments keeps the invariant. -/
lemma mergeFragments_good : ∀ {bound : ℕ} {l : List RelationSet}, Fragments env.graph l →
    Triple (Good env.graph X) (mergeFragments env bound l) fun _ => Good env.graph X
  | 0, l, _ => Triple.pure fun _ h => h
  | bound + 1, [], _ => Triple.pure fun _ h => h
  | bound + 1, [A], _ => Triple.pure fun _ h => h
  | bound + 1, A :: B :: rest, hl => by
    have hpairs : ∀ p ∈ laterPairs (A :: B :: rest), Disjoint p.1 p.2 :=
      fun p hp => rel_of_mem_laterPairs hl.disjoint hp
    rw [mergeFragments]
    · refine Triple.bind (bestPair_good hU hpairs) fun best => ?_
      rcases best with - | ⟨c, C, D⟩
      · refine Triple.bind ((expandOneFragment_good hU).conseq (fun _ h => h.1) fun _ _ h => h)
          fun r => ?_
        rcases r with - | l'
        · exact Triple.pure fun _ h => h.1
        · intro s hs
          exact mergeFragments_good ((hs.2 l' rfl).fragments hl) s hs.1
      · intro s hs
        have hmem := (hs.2 c C D rfl).resolve_left fun h => by cases h
        obtain ⟨hC, hD⟩ := mem_of_mem_laterPairs hmem
        exact mergeFragments_good (hl.merge hC hD) s hs.1
    · intro heq
      cases heq
    · intro A' heq
      cases heq

omit hU in
/-- The relations with a plan of their own are the fragments to start from. -/
lemma fragments_singletons (component : RelationSet) :
    Fragments env.graph (((RelationSet.toAscending component).filter
      (· ∉ env.graph.expandedRelationIds)).map ({·})) := by
  constructor
  · rw [List.pairwise_map]
    refine ((RelationSet.toAscending_nodup component).filter _).imp fun hne => ?_
    exact Finset.disjoint_singleton.mpr hne
  · intro A hA e he hun hmeet
    obtain ⟨v, hv, rfl⟩ := List.mem_map.mp hA
    have hnot : v ∉ env.graph.expandedRelationIds := by simpa using (List.mem_filter.mp hv).2
    rw [Finset.disjoint_singleton_right, not_not] at hmeet
    exact absurd (env.graph.mem_expandedRelationIds.mpr ⟨e, he, hun, hmeet⟩) hnot

/-- What is known of the plan an enumeration returns for a set. -/
def Returned (g : JoinHypergraph) (X : Prop) (S : RelationSet) (r : Option (MemoOp F))
    (st : State F σ) : Prop :=
  Good g X st ∧ ∀ op, r = some op → Good g (X ∧ Entry g S op) st

omit hU in
/-- The cheapest plan recorded for a set. -/
lemma Good.returned {st : State F σ} (h : Good env.graph X st) (S : RelationSet) :
    Returned env.graph X S (st.cheapestPlan S) st := ⟨h, fun _ hop => h.entry hop⟩

omit hU in
/-- Reading the cheapest plan at the end. -/
lemma read_returned (S : RelationSet) : Triple (Good env.graph X)
    (do
      let st ← get
      pure (st.cheapestPlan S) : EnumM F σ (Option (MemoOp F)))
    (Returned env.graph X S) := by
  refine Triple.get_bind fun st hst => Triple.pure fun s hs => ?_
  rw [hs]
  exact hst.returned S

/-- **The greedy fallback keeps the invariant.** -/
theorem greedy_good {component : RelationSet} : Triple (Good env.graph X) (greedy env component)
    (Returned env.graph X component) := by
  have hnone : ∀ s : State F σ, Good env.graph X s → Returned env.graph X component none s :=
    fun s h => ⟨h, fun op heq => by cases heq⟩
  unfold greedy
  refine Triple.bind (Q := fun _ => Good env.graph X) (Triple.update fun st h => ?_) fun _ => ?_
  · exact initLeaves_good h
  · apply Triple.read
    intro st
    apply Triple.ite
    · exact fun _ => Triple.pure hnone
    intro _
    refine Triple.bind (mergeFragments_good hU (fragments_singletons component)) fun merged => ?_
    rcases merged with - | fragment
    · exact Triple.pure hnone
    · refine Triple.bind (expandThroughUnnests_good hU) fun _ => ?_
      exact (read_returned component).conseq (fun _ h => h.1) fun _ _ h => h

/-! ### Whole runs -/

/-- The plan of a connected graph. -/
theorem plan_good : Triple (Good env.graph X) (DPhyp.plan env)
    (Returned env.graph X env.graph.relationIds) := by
  unfold DPhyp.plan
  refine Triple.bind (Q := fun _ => Good env.graph X) (solveComponent_good hU) fun exceeded => ?_
  apply Triple.ite
  · intro _
    refine Triple.bind (Q := fun _ => Good env.graph X) (Triple.update fun st h => ?_) fun _ =>
      greedy_good hU
    intro halone
    refine ⟨(h halone).1, fun S op hop => ?_⟩
    cases hop
  · exact fun _ => read_returned _

/-- The plans of the components, in order. -/
theorem planComponents_good : ∀ {X : Prop} {components : List RelationSet},
    Triple (Good env.graph X) (DPhyp.planComponents env components)
      fun r s => Good env.graph X s ∧ ∀ roots, r = some roots →
        Good env.graph (X ∧ List.Forall₂ (Entry env.graph) components roots) s
  | X, [] => Triple.pure fun s h => ⟨h, fun roots heq => by
      cases heq
      exact h.mono fun hx => ⟨hx, .nil⟩⟩
  | X, component :: rest => by
    have hnone : ∀ s : State F σ, Good env.graph X s → Good env.graph X s ∧ ∀ roots,
        (none : Option (List (MemoOp F))) = some roots → Good env.graph
          (X ∧ List.Forall₂ (Entry env.graph) (component :: rest) roots) s :=
      fun s h => ⟨h, fun roots heq => by cases heq⟩
    -- What is known of this root is carried along the later components.
    have hsome : ∀ root : MemoOp F, Triple (Returned env.graph X component (some root))
        (do
          let roots ← DPhyp.planComponents env rest
          pure (roots.map (root :: ·)) : EnumM F σ (Option (List (MemoOp F))))
        fun r s => Good env.graph X s ∧ ∀ roots, r = some roots → Good env.graph
          (X ∧ List.Forall₂ (Entry env.graph) (component :: rest) roots) s := by
      intro root
      refine Triple.bind (planComponents_good.conseq (fun s h => h.2 root rfl) fun _ _ h => h)
        fun roots => Triple.pure fun s h => ⟨h.1.mono And.left, fun all heq => ?_⟩
      obtain ⟨tail, htail, rfl⟩ := Option.map_eq_some_iff.mp heq
      exact (h.2 tail htail).mono fun hx => ⟨hx.1.1, .cons hx.1.2 hx.2⟩
    rw [DPhyp.planComponents]
    refine Triple.bind (Q := fun _ => Good env.graph X) (solveComponent_good hU) fun exceeded => ?_
    simp only []
    apply Triple.ite
    · refine fun _ => Triple.bind (greedy_good hU) fun root => ?_
      rcases root with - | root
      · exact Triple.pure fun s h => hnone s h.1
      · exact hsome root
    · refine fun _ => Triple.get_bind fun st hst => ?_
      refine Triple.bind (Q := Returned env.graph X component) (Triple.pure fun s hs => ?_)
        fun root => ?_
      · rw [hs]
        exact hst.returned component
      · rcases root with - | root
        · exact Triple.pure fun s h => hnone s h.1
        · exact hsome root

end greedy

/-! ### No edge is lost -/

/-- Every greedy expansion of a run is alone on its partition. -/
def ExpansionsAlone (g : JoinHypergraph) (st : State F σ) : Prop :=
  ∀ x ∈ st.expansions, UnnestAlone g x

/-- The final check does not raise, and what is returned applies or implies every edge. -/
def NoneLost {β : Type} (g : JoinHypergraph) (applied : β → List ℕ)
    (outcome : Except PlanError (Option β)) : Prop :=
  outcome ≠ .error .edgeNotEnforced ∧ ∀ plan, outcome = .ok (some plan) →
    ∀ i e, g.edges[i]? = some e → g.AppliedOrImplied (applied plan) i e

/-- Nothing is lost if what was planned passes the check. -/
lemma noneLost_checked {β : Type} {applied : β → List ℕ} {outcome : Except EnumError (Option β)}
    (h : ∀ plan, outcome = .ok (some plan) →
      env.graph.checkEdgesEnforced (fun i => decide (i ∈ applied plan)) = true) :
    NoneLost env.graph applied (DPhyp.checked env applied outcome) := by
  rcases outcome with e | plan
  · exact ⟨fun heq => (by cases heq), fun plan heq => (by cases heq)⟩
  rcases plan with - | plan
  · exact ⟨fun heq => (by cases heq), fun plan heq => (by cases heq)⟩
  · have hcheck := h plan rfl
    have hok : DPhyp.checked env applied (.ok (some plan)) = .ok (some plan) := by
      rw [DPhyp.checked, if_pos hcheck]
    rw [hok]
    refine ⟨fun heq => (by cases heq), fun plan' heq i e he => ?_⟩
    cases heq
    exact JoinHypergraph.appliedOrImplied_of_check hcheck he

/-- The enumerator starts with an empty memo and no expansion. -/
lemma good_initialState (costState : σ) (enumerationBudget : ℤ) :
    Good env.graph True (DPhyp.initialState (F := F) costState enumerationBudget) := by
  intro _
  refine ⟨trivial, fun S op hop => ?_⟩
  cases hop

/-- Each plan stands for a set of the list, and each set has a plan. -/
lemma exists_of_entries {g : JoinHypergraph} : ∀ {sets : List RelationSet} {ops : List (MemoOp F)},
    List.Forall₂ (Entry g) sets ops →
    (∀ op ∈ ops, ∃ A ∈ sets, Entry g A op) ∧ ∀ A ∈ sets, ∃ op ∈ ops, Entry g A op
  | _, _, .nil => ⟨fun _ h => absurd h List.not_mem_nil, fun _ h => absurd h List.not_mem_nil⟩
  | A :: sets, op :: ops, .cons h hrest => by
    obtain ⟨hops, hsets⟩ := exists_of_entries hrest
    constructor
    · intro op' hop'
      rcases List.mem_cons.mp hop' with rfl | hop'
      · exact ⟨A, List.mem_cons_self, h⟩
      · obtain ⟨B, hB, hentry⟩ := hops op' hop'
        exact ⟨B, List.mem_cons_of_mem _ hB, hentry⟩
    · intro B hB
      rcases List.mem_cons.mp hB with rfl | hB
      · exact ⟨op, List.mem_cons_self, h⟩
      · obtain ⟨op', hop', hentry⟩ := hsets B hB
        exact ⟨op', List.mem_cons_of_mem _ hop', hentry⟩

variable (env) in
/-- **No edge is lost, by either entry point.** -/
theorem enumerate_noneLost {g : JoinHypergraph} (hres : g.KeysResolve) (hU : UnnestsDistinct g)
    (hgraph : env.graph = g.addTransitiveInnerEdges) (costState : σ) (enumerationBudget : ℤ) :
    (ExpansionsAlone env.graph
        (exec (DPhyp.plan env) (DPhyp.initialState costState enumerationBudget)).2 →
      NoneLost env.graph MemoOp.appliedEdges
        (DPhyp.enumerate env costState enumerationBudget)) ∧
    (ExpansionsAlone env.graph
        (exec (DPhyp.planComponents env env.graph.connectedComponents)
          (DPhyp.initialState costState enumerationBudget)).2 →
      NoneLost env.graph (·.flatMap MemoOp.appliedEdges)
        (DPhyp.enumerateComponents env costState enumerationBudget
          env.graph.connectedComponents)) := by
  have hU' : UnnestsDistinct env.graph := hgraph ▸ hU.addTransitiveInnerEdges
  have hres' : env.graph.KeysResolve := hgraph ▸ hres.addTransitiveInnerEdges
  have hcov : env.graph.ClassesCovered :=
    hgraph ▸ JoinHypergraph.classesCovered_addTransitiveInnerEdges hres
  have hinit : Good env.graph True (DPhyp.initialState (F := F) costState enumerationBudget) :=
    good_initialState costState enumerationBudget
  constructor
  · intro halone
    refine noneLost_checked fun op hop => ?_
    obtain ⟨-, hret⟩ := plan_good hU' _ hinit _ _ (Prod.ext hop rfl)
    obtain ⟨⟨-, hcover, hbuilt⟩, -⟩ := hret op rfl halone
    suffices hcheck : env.graph.checkEdgesEnforced
        (fun i => decide (i ∈ [op].flatMap MemoOp.appliedEdges)) = true by simpa using hcheck
    refine checkEdgesEnforced_of_built hres' hcov ?_ ?_ ?_
    · exact fun op' hop' => List.mem_singleton.mp hop' ▸ hbuilt
    · intro op₁ h₁ op₂ h₂
      exact Or.inl (by rw [List.mem_singleton.mp h₁, List.mem_singleton.mp h₂])
    · exact fun e he => ⟨op, List.mem_singleton_self op, hcover ▸ env.graph.edges_known e he⟩
  · intro halone
    refine noneLost_checked fun roots hroots => ?_
    obtain ⟨-, hret⟩ := planComponents_good hU' _ hinit _ _ (Prod.ext hroots rfl)
    obtain ⟨⟨-, hentries⟩, -⟩ := hret roots rfl halone
    obtain ⟨hof, hsets⟩ := exists_of_entries hentries
    refine checkEdgesEnforced_of_built hres' hcov ?_ ?_ ?_
    · intro op hop
      obtain ⟨A, -, -, hbuilt⟩ := hof op hop
      exact hbuilt
    · intro op hop op' hop'
      obtain ⟨A, hA, hcover, -⟩ := hof op hop
      obtain ⟨B, hB, hcover', -⟩ := hof op' hop'
      rw [hcover, hcover']
      exact JoinHypergraph.connectedComponents_disjoint hA hB
    · intro e he
      obtain ⟨A, hA, hsub⟩ := JoinHypergraph.exists_connectedComponent he
      obtain ⟨op, hop, hcover, -⟩ := hsets A hA
      exact ⟨op, hop, hcover ▸ hsub⟩

/-! ### A condition beside an Unnest -/

namespace UnnestBesideJoin

/-- The columns `t.k`, `s.k`, `s.x`, and the element `u.e` unnested from `t`. -/
def tk : Column := ⟨0, "t.k", some 0⟩

/-- See `tk`. -/
def sk : Column := ⟨1, "s.k", some 0⟩

/-- See `tk`. -/
def sx : Column := ⟨2, "s.x", some 1⟩

/-- See `tk`. -/
def ue : Column := ⟨3, "u.e", some 1⟩

/-- The relations `t`, `s` and `u`. -/
def relations : List Relation :=
  [⟨[tk], .unspecified, false⟩, ⟨[sk, sx], .unspecified, false⟩, ⟨[ue], .unspecified, false⟩]

lemma u_nonempty : ({2} : RelationSet).Nonempty := ⟨2, Finset.mem_singleton_self 2⟩

lemma t_u_disjoint : Disjoint ({0} : RelationSet) {2} := by decide

/-- `unnest(t.a) u`. -/
def unnest : JoinEdge := .unnest {0} {2} TwoRelations.t_nonempty u_nonempty t_u_disjoint

/-- `t.k = s.k`. -/
def equalKeys : JoinEdge where
  leftEndpoints := {0}
  rightEndpoints := {1}
  leftEligibility := {0}
  rightEligibility := {1}
  leftKeys := [.column tk]
  rightKeys := [.column sk]
  joinType := .inner
  leftEndpoints_nonempty := TwoRelations.t_nonempty
  rightEndpoints_nonempty := TwoRelations.u_nonempty
  endpoints_disjoint := TwoRelations.t_u_disjoint
  eligibility_disjoint := TwoRelations.t_u_disjoint
  leftEndpoints_subset := TwoRelations.t_subset
  rightEndpoints_subset := TwoRelations.u_subset
  outputs_length := JoinEdge.no_outputs
  inner_filter := JoinEdge.no_filter
  inner_plain := JoinEdge.no_nulls

/-- `u.e = s.x`. -/
def equalElements : JoinEdge where
  leftEndpoints := {2}
  rightEndpoints := {1}
  leftEligibility := {2}
  rightEligibility := {1}
  leftKeys := [.column ue]
  rightKeys := [.column sx]
  joinType := .inner
  leftEndpoints_nonempty := u_nonempty
  rightEndpoints_nonempty := TwoRelations.u_nonempty
  rightEndpoints_subset := TwoRelations.u_subset
  outputs_length := JoinEdge.no_outputs
  inner_filter := JoinEdge.no_filter
  inner_plain := JoinEdge.no_nulls

/-- `t, s, unnest(t.a) u` where `u.e = s.x`. -/
def chain : JoinHypergraph where
  relations := relations
  edges := [unnest, equalElements]

/-- `t, s, unnest(t.a) u` where `t.k = s.k` and `u.e = s.x`. -/
def cycle : JoinHypergraph where
  relations := relations
  edges := [unnest, equalKeys, equalElements]

/-- One worker, the default cost model, all statistics known. -/
def oneWorker (g : JoinHypergraph) : Env ℕ (BySetMap ℕ) :=
  { TwoRelations.oneWorker (some 10) with
    graph := g.addTransitiveInnerEdges
    costModel := DefaultCostModel.default g.addTransitiveInnerEdges
      (TwoRelations.statistics (some 10)) 0 }

lemma resolve_cycle : cycle.KeysResolve := by
  intro e he hplain x y hp
  have he : e = unnest ∨ e = equalKeys ∨ e = equalElements := by simpa [cycle] using he
  rcases he with rfl | rfl | rfl
  · cases hplain
  · obtain ⟨rfl, rfl⟩ : x = tk ∧ y = sk := by simpa [JoinEdge.keyPairs, equalKeys] using hp
    exact ⟨⟨0, by decide⟩, ⟨0, by decide⟩, 1, by decide⟩
  · obtain ⟨rfl, rfl⟩ : x = ue ∧ y = sx := by simpa [JoinEdge.keyPairs, equalElements] using hp
    exact ⟨⟨1, by decide⟩, ⟨2, by decide⟩, 1, by decide⟩

lemma distinct_cycle : UnnestsDistinct cycle := by
  have hone : ∀ e ∈ cycle.edges, e.isUnnest = true → e = unnest := by
    intro e he hun
    have he : e = unnest ∨ e = equalKeys ∨ e = equalElements := by simpa [cycle] using he
    rcases he with rfl | rfl | rfl
    · rfl
    · cases hun
    · cases hun
  constructor
  · intro e he hun
    exact ⟨2, by rw [hone e he hun]; rfl⟩
  · intro e he f hf hue huf _
    rw [hone e he hue, hone f hf huf]

lemma edges_chain_subset : chain.edges ⊆ cycle.edges := by
  intro e he
  rcases List.mem_cons.mp he with rfl | he
  · exact List.mem_cons_self
  · exact List.mem_cons_of_mem _ (List.mem_cons_of_mem _ he)

/-- The budget trips after one pair; the greedy fallback joins `t` and `s`, expands the result, and
loses `u.e = s.x`. -/
theorem lost_by_expansion : cycle.KeysResolve ∧ UnnestsDistinct cycle ∧
    ¬ NoneLost (oneWorker cycle).graph MemoOp.appliedEdges
      (DPhyp.enumerate (oneWorker cycle) (fun _ => none) 1) := by
  refine ⟨resolve_cycle, distinct_cycle, fun h => h.1 ?_⟩
  have hraised : (match DPhyp.enumerate (oneWorker cycle) (fun _ => none) 1 with
      | .error .edgeNotEnforced => true
      | _ => false) = true := by decide +kernel
  split at hraised
  · assumption
  · cases hraised

/-- Without `t.k = s.k` the expansion comes first, alone, and nothing is lost. -/
theorem none_lost_alone : NoneLost (oneWorker chain).graph MemoOp.appliedEdges
    (DPhyp.enumerate (oneWorker chain) (fun _ => none) 1) := by
  have hres : chain.KeysResolve := fun e he => resolve_cycle e (edges_chain_subset he)
  have hU : UnnestsDistinct chain :=
    ⟨fun e he => distinct_cycle.single e (edges_chain_subset he), fun e he f hf =>
      distinct_cycle.distinct e (edges_chain_subset he) f (edges_chain_subset hf)⟩
  refine (enumerate_noneLost (oneWorker chain) hres hU rfl (fun _ => none) 1).1 ?_
  have hexpansions : (exec (DPhyp.plan (oneWorker chain))
      (DPhyp.initialState (fun _ => none) 1)).2.expansions = [({0}, 0)] := by decide +kernel
  intro x hx
  rw [hexpansions, List.mem_singleton] at hx
  subst hx
  intro u hu i e he hcross
  obtain rfl : unnest = u := Option.some.inj hu
  rcases i with - | - | i
  · rfl
  · obtain rfl : equalElements = e := Option.some.inj he
    exact absurd hcross (by decide)
  · cases he

end UnnestBesideJoin

end Verax.JoinOrder
