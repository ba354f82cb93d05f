import Verax.JoinOrder.EnforcedPlans
import Verax.JoinOrder.Liveness

/-!
# The greedy fallback

When the dynamic program runs out of budget, the component is planned greedily: fragments, at first
single relations, are merged two at a time, and expanded by Unnests where no two can be merged.

* `Pieces`: the fragments are apart, none is empty, and an expanded relation comes with what it is
  expanded from.
* `greedy_live`: the fallback keeps the memo live.
* `plan_live`: so does the enumeration of a connected graph, whether or not it falls back, and the
  plan it returns covers the graph and points, at any depth, at owned plans only.
-/

set_option linter.unusedSectionVars false

namespace Verax.JoinOrder

open Verax.Lib.StateExcept
open Enumerator

variable {F σ : Type} [Add F] [BEq F] [LT F] [DecidableLT F] {env : Env F σ}
  {leaves : LeafCosts F σ} {fragments : List RelationSet}

/-! ### Fragments -/

/-- Fragments none of which is empty. -/
structure Pieces (g : JoinHypergraph) (fragments : List RelationSet) : Prop extends
    Fragments g fragments where
  nonempty : ∀ f ∈ fragments, f.Nonempty

/-- The sets that lie in one fragment. -/
def Within (fragments : List RelationSet) (T : RelationSet) : Prop := ∃ f ∈ fragments, T ⊆ f

/-- The fragments after two are merged. Source: `DPhyp.cpp` `greedy`, end of the main loop. -/
def merged (fragments : List RelationSet) (left right : RelationSet) : List RelationSet :=
  (fragments.map fun f => if f = left then left ∪ right else f).filter (· ≠ right)

namespace Pieces

variable {g : JoinHypergraph} {left right : RelationSet}

lemma nodup (h : Pieces g fragments) : fragments.Nodup := by
  refine h.disjoint.imp_of_mem fun {f f'} hf _ hdisj heq => ?_
  obtain ⟨v, hv⟩ := h.nonempty f hf
  exact Finset.disjoint_left.mp hdisj hv (heq ▸ hv)

lemma apart (h : Pieces g fragments) {f f' : RelationSet} (hf : f ∈ fragments)
    (hf' : f' ∈ fragments) (hne : f ≠ f') : Disjoint f f' :=
  h.disjoint.forall hf hf' hne

/-- The two sides of a pair of fragments. -/
lemma of_mem_laterPairs (h : Pieces g fragments) (hp : (left, right) ∈ laterPairs fragments) :
    left ∈ fragments ∧ right ∈ fragments ∧ left ≠ right ∧ Disjoint left right := by
  obtain ⟨hleft, hright⟩ := mem_of_mem_laterPairs hp
  have hne : left ≠ right := rel_of_mem_laterPairs h.nodup hp
  exact ⟨hleft, hright, hne, h.apart hleft hright hne⟩

/-- No fragment holds the union of two. -/
lemma sides (h : Pieces g fragments) (hp : (left, right) ∈ laterPairs fragments) :
    Sides (Within fragments) left right := by
  obtain ⟨hleft, hright, hne, hdisj⟩ := h.of_mem_laterPairs hp
  obtain ⟨v, hv⟩ := h.nonempty left hleft
  obtain ⟨w, hw⟩ := h.nonempty right hright
  refine ⟨⟨left, hleft, subset_rfl⟩, ⟨right, hright, subset_rfl⟩, ?_, fun id hid => ?_⟩
  · rintro ⟨f, hf, hsub⟩
    have hin : ∀ f' ∈ fragments, ∀ v ∈ f', v ∈ f → f' = f := by
      intro f' hf' v hv' hvf
      by_contra hne
      exact Finset.disjoint_left.mp (h.apart hf' hf hne) hv' hvf
    have hleftf := hin left hleft v hv (hsub (Finset.mem_union_left _ hv))
    have hrightf := hin right hright w hw (hsub (Finset.mem_union_right _ hw))
    exact hne (hleftf.trans hrightf.symm)
  · have hone : ∀ v ∈ left ∪ right, v = id := fun v hv => Finset.mem_singleton.mp (hid ▸ hv)
    have hvw : v = w := (hone v (Finset.mem_union_left _ hv)).trans
      (hone w (Finset.mem_union_right _ hw)).symm
    exact Finset.disjoint_left.mp hdisj hv (hvw ▸ hw)

lemma mem_merged (h : Pieces g fragments) (hp : (left, right) ∈ laterPairs fragments)
    {f : RelationSet} :
    f ∈ merged fragments left right ↔ f = left ∪ right ∨ f ∈ fragments ∧ f ≠ left ∧ f ≠ right := by
  obtain ⟨hleft, hright, hne, hdisj⟩ := h.of_mem_laterPairs hp
  obtain ⟨v, hv⟩ := h.nonempty left hleft
  have hunion : left ∪ right ≠ right := fun heq =>
    Finset.disjoint_left.mp hdisj hv (heq ▸ Finset.mem_union_left right hv)
  unfold merged
  simp only [List.mem_filter, List.mem_map, decide_eq_true_eq]
  constructor
  · rintro ⟨⟨f', hf', rfl⟩, hright'⟩
    split_ifs at hright' ⊢ with heq
    · exact .inl rfl
    · exact .inr ⟨hf', heq, hright'⟩
  · rintro (rfl | ⟨hf, hl, hr⟩)
    · exact ⟨⟨left, hleft, if_pos rfl⟩, hunion⟩
    · exact ⟨⟨f, hf, if_neg hl⟩, hr⟩

/-- Merging two fragments leaves fragments. -/
lemma merge (h : Pieces g fragments) (hp : (left, right) ∈ laterPairs fragments) :
    Pieces g (merged fragments left right) := by
  obtain ⟨hleft, hright, -, -⟩ := h.of_mem_laterPairs hp
  refine ⟨h.toFragments.merge hleft hright, fun f hf => ?_⟩
  rcases (h.mem_merged hp).mp hf with rfl | ⟨hf, -, -⟩
  · exact (h.nonempty left hleft).mono Finset.subset_union_left
  · exact h.nonempty f hf

lemma within_merged (h : Pieces g fragments) (hp : (left, right) ∈ laterPairs fragments)
    {T : RelationSet} (hT : Within fragments T) : Within (merged fragments left right) T := by
  obtain ⟨f, hf, hsub⟩ := hT
  by_cases hl : f = left
  · exact ⟨_, (h.mem_merged hp).mpr (.inl rfl), hsub.trans (hl ▸ Finset.subset_union_left)⟩
  · by_cases hr : f = right
    · exact ⟨_, (h.mem_merged hp).mpr (.inl rfl), hsub.trans (hr ▸ Finset.subset_union_right)⟩
    · exact ⟨f, (h.mem_merged hp).mpr (.inr ⟨hf, hl, hr⟩), hsub⟩

variable {pre post : List RelationSet} {set : RelationSet}

/-- A fragment may grow where the others keep apart from what it grows by. -/
lemma grow (h : Pieces g (pre ++ set :: post)) {set' : RelationSet} (hgrows : Grows g set set')
    (hsub : set ⊆ set') : Pieces g (pre ++ set' :: post) := by
  have hlist : ListGrows g (pre ++ set :: post) (pre ++ set' :: post) := by
    clear h
    induction pre with
    | nil => exact .head hgrows post
    | cons f pre ih => exact ih.tail f
  refine ⟨hlist.fragments h.toFragments, fun f hf => ?_⟩
  rcases List.mem_append.mp hf with hf | hf
  · exact h.nonempty f (List.mem_append_left _ hf)
  · rcases List.mem_cons.mp hf with rfl | hf
    · exact (h.nonempty set (by simp)).mono hsub
    · exact h.nonempty f (by simp [hf])

/-- The set that an expansion is recorded under lies in no fragment. -/
lemma fresh_expand (h : Pieces g (pre ++ set :: post))
    {right : RelationSet} (hnew : ¬ right ⊆ set) :
    Fresh (Within (pre ++ set :: post)) (set ∪ right) := by
  have hset : set ∈ pre ++ set :: post := by simp
  obtain ⟨v, hv⟩ := h.nonempty set hset
  obtain ⟨w, hw, hwset⟩ := Finset.not_subset.mp hnew
  refine ⟨?_, fun id hid => ?_⟩
  · rintro ⟨f, hf, hsub⟩
    by_cases hne : f = set
    · exact hwset (hne ▸ hsub (Finset.mem_union_right _ hw))
    · exact Finset.disjoint_left.mp (h.apart hf hset hne)
        (hsub (Finset.mem_union_left _ hv)) hv
  · have hone : ∀ v ∈ set ∪ right, v = id := fun v hv => Finset.mem_singleton.mp (hid ▸ hv)
    have hvw : v = w := (hone v (Finset.mem_union_left _ hv)).trans
      (hone w (Finset.mem_union_right _ hw)).symm
    exact hwset (hvw ▸ hv)

lemma within_middle {set' : RelationSet} (hsub : set ⊆ set') {T : RelationSet}
    (hT : Within (pre ++ set :: post) T) : Within (pre ++ set' :: post) T := by
  obtain ⟨f, hf, hT⟩ := hT
  rcases List.mem_append.mp hf with hf | hf
  · exact ⟨f, List.mem_append_left _ hf, hT⟩
  · rcases List.mem_cons.mp hf with rfl | hf
    · exact ⟨set', by simp, hT.trans hsub⟩
    · exact ⟨f, by simp [hf], hT⟩

end Pieces

/-! ### The fallback -/

section live

variable (hcosts : CostsLeaves env.costModel leaves) (hU : UnnestsDistinct env.graph)
include hcosts hU

lemma considerPair_live {best : BestPair F} {left right : RelationSet}
    (hfragments : Pieces env.graph fragments) (hp : (left, right) ∈ laterPairs fragments) :
    Triple (Live leaves (Within fragments)) (considerPair env best left right) fun best' st =>
      Live leaves (Within fragments) st ∧ (best' = best ∨ ∃ c, best' = some (c, left, right)) := by
  unfold considerPair
  refine .bind (emitCsgCmp_live hcosts (hfragments.sides hp)) fun _ => .read fun st => ?_
  split
  · exact .pure fun _ h => ⟨h, .inl rfl⟩
  · exact .pure fun _ h => ⟨h, .inr ⟨_, rfl⟩⟩
  · exact .ite (fun _ => .pure fun _ h => ⟨h, .inr ⟨_, rfl⟩⟩)
      fun _ => .pure fun _ h => ⟨h, .inl rfl⟩

lemma bestPair_live (hfragments : Pieces env.graph fragments) :
    ∀ {pairs : List (RelationSet × RelationSet)} {best : BestPair F},
      (∀ p ∈ pairs, p ∈ laterPairs fragments) →
      (∀ c l r, best = some (c, l, r) → (l, r) ∈ laterPairs fragments) →
      Triple (Live leaves (Within fragments)) (bestPair env pairs best) fun best' st =>
        Live leaves (Within fragments) st ∧
          ∀ c l r, best' = some (c, l, r) → (l, r) ∈ laterPairs fragments
  | [], best, _, hbest => .pure fun _ h => ⟨h, hbest⟩
  | (left, right) :: rest, best, hpairs, hbest => by
    rw [bestPair]
    refine .bind (considerPair_live hcosts hU hfragments (hpairs _ List.mem_cons_self)) fun r => ?_
    intro st h
    refine bestPair_live hfragments (fun p hp => hpairs p (List.mem_cons_of_mem _ hp)) ?_ st h.1
    rcases h.2 with rfl | ⟨c', rfl⟩
    · exact hbest
    · intro c l r heq
      cases heq
      exact hpairs _ List.mem_cons_self

/-- What an expansion of a fragment leads to. -/
structure Expanded (env : Env F σ) (leaves : LeafCosts F σ) (pre post : List RelationSet)
    (set grown : RelationSet) (st : State F σ) : Prop where
  subset : set ⊆ grown
  pieces : Pieces env.graph (pre ++ grown :: post)
  live : Live leaves (Within (pre ++ grown :: post)) st

lemma expandPass_live {pre post : List RelationSet} :
    ∀ {entries : List (JoinEdge × ℕ)} {set : RelationSet} {grown : Bool},
      (∀ x ∈ entries, env.graph.edges[x.2]? = some x.1) → Pieces env.graph (pre ++ set :: post) →
      Triple (Live leaves (Within (pre ++ set :: post))) (expandPass env entries set grown)
        fun r => Expanded env leaves pre post set r.1
  | [], set, grown, _, hpieces => .pure fun _ h => ⟨subset_rfl, hpieces, h⟩
  | (e, i) :: rest, set, grown, hentries, hpieces => by
    have he : env.graph.edges[i]? = some e := hentries _ List.mem_cons_self
    have hrest : ∀ x ∈ rest, env.graph.edges[x.2]? = some x.1 :=
      fun x hx => hentries x (List.mem_cons_of_mem _ hx)
    rw [expandPass]
    refine .ite (fun _ => expandPass_live hrest hpieces) fun hcond => ?_
    simp only [Bool.or_eq_true, Bool.not_eq_true', decide_eq_false_iff_not, decide_eq_true_eq,
      not_or, Bool.not_eq_false, not_not] at hcond
    obtain ⟨⟨hunnest, hleft⟩, hnot⟩ := hcond
    have hright := (e.unnest_shape hunnest).2.2.2
    have hpieces' : Pieces env.graph (pre ++ (set ∪ e.rightEligibility) :: post) := by
      refine hpieces.grow ?_ Finset.subset_union_left
      rw [hright]
      exact .expand hU (List.mem_of_getElem? he) hunnest hleft
    refine .bind (Q := fun _ => Live leaves (Within (pre ++ set :: post)))
      (.update fun st h => ?_) fun _ => .read fun st => ?_
    · have hst : Live leaves (Within (pre ++ set :: post))
          { st with expansions := st.expansions ++ [(set, i)] } := h.of_memo rfl h.known
      refine (emitUnnest_live hcosts hst ⟨set, by simp, subset_rfl⟩ ?_
        (hpieces.fresh_expand hnot) i []).1
      rw [hright]
    · split
      · exact expandPass_live hrest hpieces
      · refine (expandPass_live hrest hpieces').conseq (fun _ h => ?_) fun _ _ h => ?_
        · exact h.mono fun _ => Pieces.within_middle Finset.subset_union_left
        · exact ⟨Finset.subset_union_left.trans h.subset, h.pieces, h.live⟩

lemma expandThroughUnnests_live (pre post : List RelationSet) :
    ∀ {bound : ℕ} {set : RelationSet}, Pieces env.graph (pre ++ set :: post) →
      Triple (Live leaves (Within (pre ++ set :: post))) (expandThroughUnnests env bound set)
        (Expanded env leaves pre post set)
  | 0, set, hpieces => .pure fun _ h => ⟨subset_rfl, hpieces, h⟩
  | bound + 1, set, hpieces => by
    rw [expandThroughUnnests]
    refine .bind (expandPass_live hcosts hU (fun _ => JoinHypergraph.getElem?_of_mem_zipIdx)
      hpieces) fun r => ?_
    refine .ite (fun _ st h => ?_) fun _ => .pure fun _ h => h
    intro grown st' heq
    have hrest := expandThroughUnnests_live pre post h.pieces st h.live grown st' heq
    exact ⟨h.subset.trans hrest.subset, hrest.pieces, hrest.live⟩

lemma expandOneFragment_live : ∀ (l pre : List RelationSet), Pieces env.graph (pre ++ l) →
    Triple (Live leaves (Within (pre ++ l))) (expandOneFragment env l) fun r st =>
      (r = none → Live leaves (Within (pre ++ l)) st) ∧ ∀ l', r = some l' →
        Pieces env.graph (pre ++ l') ∧ Live leaves (Within (pre ++ l')) st
  | [], pre, _ => .pure fun _ h => ⟨fun _ => h, (fun _ heq => by cases heq)⟩
  | f :: rest, pre, hpieces => by
    have hlater : Triple (Live leaves (Within (pre ++ f :: rest)))
        (do
          let r ← expandOneFragment env rest
          return r.map (f :: ·))
        fun r st => (r = none → Live leaves (Within (pre ++ f :: rest)) st) ∧ ∀ l', r = some l' →
          Pieces env.graph (pre ++ l') ∧ Live leaves (Within (pre ++ l')) st := by
      rw [List.append_cons] at hpieces ⊢
      refine .bind (expandOneFragment_live rest (pre ++ [f]) hpieces) fun r =>
        .pure fun st h => ⟨fun hr => ?_, ?_⟩
      · exact h.1 (Option.map_eq_none_iff.mp hr)
      · intro l' heq
        obtain ⟨l'', hl'', rfl⟩ := Option.map_eq_some_iff.mp heq
        rw [List.append_cons]
        exact h.2 l'' hl''
    rw [expandOneFragment]
    simp only
    refine .ite (fun _ => ?_) fun _ => hlater
    refine .bind (expandThroughUnnests_live hcosts hU pre rest hpieces) fun grown => ?_
    by_cases heq : grown = f
    · rw [if_neg (not_not.mpr heq)]
      exact hlater.conseq (fun _ h => heq ▸ h.live) fun _ _ h => h
    · rw [if_pos heq]
      refine .pure fun st h => ⟨(fun hr => by cases hr), fun l' hl' => ?_⟩
      obtain rfl := Option.some.inj hl'
      exact ⟨h.pieces, h.live⟩

lemma mergeFragments_live : ∀ {bound : ℕ} {l : List RelationSet}, Pieces env.graph l →
    Triple (Live leaves (Within l)) (mergeFragments env bound l) fun r st =>
      (r = none → Live leaves (fun _ => True) st) ∧ ∀ f, r = some f →
        Pieces env.graph [f] ∧ Live leaves (Within [f]) st
  | 0, l, _ => .pure fun _ h => ⟨fun _ => h.mono fun _ _ => trivial, (fun _ heq => by cases heq)⟩
  | bound + 1, [], _ =>
    .pure fun _ h => ⟨fun _ => h.mono fun _ _ => trivial, (fun _ heq => by cases heq)⟩
  | bound + 1, [f], hl => by
    refine .pure fun _ h => ⟨(fun heq => by cases heq), fun f' heq => ?_⟩
    obtain rfl := Option.some.inj heq
    exact ⟨hl, h⟩
  | bound + 1, f :: f' :: rest, hl => by
    rw [mergeFragments]
    · refine .bind (bestPair_live hcosts hU hl (fun _ hp => hp) fun _ _ _ heq => by cases heq)
        fun best => ?_
      cases best with
      | none =>
          refine .bind ((expandOneFragment_live hcosts hU (f :: f' :: rest) [] hl).conseq
            (fun _ h => h.1) fun _ _ h => h) fun r => ?_
          cases r with
          | none =>
              exact .pure fun _ h => ⟨fun _ => (h.1 rfl).mono fun _ _ => trivial,
                (fun _ heq => by cases heq)⟩
          | some l' =>
              intro st h
              exact mergeFragments_live (h.2 l' rfl).1 st (h.2 l' rfl).2
      | some best =>
          obtain ⟨c, left, right⟩ := best
          intro st h
          have hp := h.2 c left right rfl
          exact mergeFragments_live (hl.merge hp) st (h.1.mono fun _ => hl.within_merged hp)
    · intro heq
      cases heq
    · intro f heq
      cases heq

/-- The relations of a component that no Unnest expands. Source: `DPhyp.cpp` `greedy`. -/
def unexpanded (g : JoinHypergraph) (component : RelationSet) : List ℕ :=
  (RelationSet.toAscending component).filter (· ∉ g.expandedRelationIds)

/-- The fragments that the fallback starts from. Source: `DPhyp.cpp` `greedy`, `fragments`. -/
def singles (g : JoinHypergraph) (component : RelationSet) : List RelationSet :=
  (unexpanded g component).map ({·})

omit hcosts hU in
lemma pieces_singles (component : RelationSet) :
    Pieces env.graph (singles env.graph component) := by
  refine ⟨fragments_singletons component, fun f hf => ?_⟩
  obtain ⟨v, -, rfl⟩ := List.mem_map.mp hf
  exact Finset.singleton_nonempty v

/-- The plan returned for a set, over a live memo. -/
def Found (leaves : LeafCosts F σ) (S : RelationSet) (root : Option (MemoOp F))
    (st : State F σ) : Prop :=
  Live leaves (fun _ => True) st ∧ ∀ op, root = some op → op ∈ st.memo S

omit hcosts hU in
lemma Live.found {sides : RelationSet → Prop} {st : State F σ} (h : Live leaves sides st)
    (S : RelationSet) : Found leaves S (st.cheapestPlan S) st :=
  ⟨h.mono fun _ _ => trivial, fun _ hop => PlanSet.cheapest_mem hop⟩

/-- **The greedy fallback keeps the memo live.** -/
lemma greedy_live {component : RelationSet} :
    Triple (Live leaves fun _ => False) (greedy env component) (Found leaves component) := by
  have hnone : ∀ st : State F σ, Live leaves (fun _ => True) st →
      Found leaves component none st := fun st h => ⟨h, (fun _ heq => by cases heq)⟩
  unfold greedy
  refine .bind (Q := fun _ => Live leaves (Within (singles env.graph component)))
    (.update fun st h => ?_) fun _ => .read fun st => ?_
  · have hst : Live leaves (fun _ => False) { st with budget := st.budget.disable } :=
      h.of_memo rfl h.known
    exact (initLeaves_live hcosts hst component).mono fun _ hside => absurd hside not_false
  · refine .ite (fun _ => .pure fun st h => hnone st (h.mono fun _ _ => trivial)) fun _ => ?_
    refine .bind (mergeFragments_live hcosts hU (pieces_singles component)) fun root => ?_
    cases root with
    | none => exact .pure fun st h => hnone st (h.1 rfl)
    | some f =>
        intro st h
        refine Triple.bind (expandThroughUnnests_live hcosts hU [] [] (h.2 f rfl).1) ?_ st
          (h.2 f rfl).2
        intro grown
        refine .get_bind fun st' h' => .pure fun st'' heq => ?_
        rw [heq]
        exact h'.live.found component

/-! ### A whole enumeration -/

/-- **The enumeration of a connected graph keeps the memo live**, whether or not it falls back. -/
lemma plan_keeps_live :
    Triple (fun st => leaves.known st.costState ∧ st.memo = fun _ => []) (DPhyp.plan env)
      (Found leaves env.graph.relationIds) := by
  have hempty : ∀ {st : State F σ}, leaves.known st.costState → (st.memo = fun _ => []) →
      Live leaves (fun _ => False) st := by
    intro st hknown hmemo
    refine ⟨hknown, ?_, ?_, ?_⟩ <;> simp [hmemo]
  have hW : RelationSet.prefixThrough (env.graph.relations.length - 1) ⊆ RelationSet.allIds := by
    intro v hv
    have hcapacity := env.graph.capacity
    have hle : v ≤ env.graph.relations.length - 1 := RelationSet.mem_prefixThrough.mp hv
    rw [RelationSet.mem_allIds]
    unfold RelationSet.kMaxRelations at hcapacity ⊢
    omega
  unfold DPhyp.plan Enumerator.solve
  refine .bind ((solveComponent_live hcosts hW fun _ hside => absurd hside not_false).conseq
    (fun st h => hempty h.1 h.2) fun _ _ h => h) fun exceeded => ?_
  refine .ite (fun _ => ?_) fun _ => ?_
  · refine .bind (Q := fun _ => Live leaves fun _ => False) (.update fun st h => ?_) fun _ =>
      greedy_live hcosts hU
    exact hempty h.known rfl
  · refine .get_bind fun st h => .pure fun st' heq => ?_
    rw [heq]
    exact h.found env.graph.relationIds

end live

/-- The operators reached from an operator. -/
abbrev Reaches (op below : MemoOp F) : Prop :=
  Relation.ReflTransGen (fun parent child => child ∈ MemoOp.children parent) op below

/-- What is reached from an owned plan of a live memo is owned. -/
lemma Live.owned_of_reaches {sides : RelationSet → Prop} {st : State F σ} (h : Live leaves sides st)
    {op below : MemoOp F} (howned : st.Owned op) (hreaches : Reaches op below) :
    st.Owned below := by
  induction hreaches with
  | refl => exact howned
  | tail _ hchild ih =>
      rcases ih with hstored | ⟨c, input, p, rfl, hstored⟩
      · exact (h.children _ _ hstored _ hchild).2
      · obtain rfl := List.mem_singleton.mp hchild
        exact .inl hstored

/-- **Memo liveness.** When the enumeration of a connected graph ends, by the dynamic program or by
the greedy fallback, every plan stored and the plan returned point, at any depth, at plans that are
still owned. -/
theorem plan_live (hcosts : CostsLeaves env.costModel leaves) (hU : UnnestsDistinct env.graph)
    {costState : σ} (hknown : leaves.known costState) {enumerationBudget : ℤ}
    {root : Option (MemoOp F)} {st : State F σ}
    (hrun : exec (DPhyp.plan env) (DPhyp.initialState costState enumerationBudget) =
      (.ok root, st)) :
    (∀ S, ∀ op ∈ st.memo S, op.cover = S ∧ ∀ below, Reaches op below → st.Owned below) ∧
      ∀ op, root = some op →
        op.cover = env.graph.relationIds ∧ ∀ below, Reaches op below → st.Owned below := by
  obtain ⟨hlive, hroot⟩ := plan_keeps_live hcosts hU _ ⟨hknown, rfl⟩ root st hrun
  have hstored : ∀ S, ∀ op ∈ st.memo S, op.cover = S ∧ ∀ below, Reaches op below → st.Owned below :=
    fun S op hop => ⟨hlive.cover S op hop, fun below hreaches =>
      hlive.owned_of_reaches (hlive.offered hop).2 hreaches⟩
  exact ⟨hstored, fun op heq => hstored _ op (hroot op heq)⟩

namespace UnnestBesideJoin

/-- The budget trips and the fallback plans a join of three relations, one of them expanded by an
Unnest; nothing that the plan points at is left behind. -/
theorem cycle_live : ∃ root st, exec (DPhyp.plan (oneWorker cycle))
    (DPhyp.initialState (fun _ => none) 1) = (.ok (some root), st) ∧
      root.cover = {0, 1, 2} ∧ ∀ below, Reaches root below → st.Owned below := by
  have hsome : ((exec (DPhyp.plan (oneWorker cycle))
      (DPhyp.initialState (fun _ => none) 1)).1.toOption.bind id).isSome = true := by decide +kernel
  rcases hrun : exec (DPhyp.plan (oneWorker cycle)) (DPhyp.initialState (fun _ => none) 1)
    with ⟨e | root, st⟩
  · rw [hrun] at hsome
    cases hsome
  rw [hrun] at hsome
  cases root with
  | none => cases hsome
  | some root =>
      have hcosts : CostsLeaves (oneWorker cycle).costModel
          (DefaultCostModel.leafCosts (TwoRelations.statistics (some 10))) :=
        DefaultCostModel.costsLeaves 0 (fun a => lt_irrefl a) fun _ a b _ _ => by omega
      have hU : UnnestsDistinct (oneWorker cycle).graph := distinct_cycle.addTransitiveInnerEdges
      have hknown : (DefaultCostModel.leafCosts (TwoRelations.statistics (some 10))).known
          (fun _ => none) := fun id estimate h => by cases h
      exact ⟨root, st, rfl, (plan_live hcosts hU hknown hrun).2 root rfl⟩

end UnnestBesideJoin

end Verax.JoinOrder
