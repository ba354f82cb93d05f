import Verax.Lib.Loops
import Verax.JoinOrder.Greedy

/-!
# The greedy fallback ends by itself

The greedy fallback runs three loops, one inside the other: fragments are merged until one is left,
a fragment is expanded by Unnests until none applies, and the relations that an expansion would
gain are collected until none is new. None of them counts its rounds.

* `Extends`: what an expansion does to a set. A set that is expanded gains a relation, so at most
  `kMaxRelations` rounds expand it.
* `roundsLeft`: a round of the merging has one fragment less to merge, or gains a relation.
* `greedy_ends`: the loops without a bound end, with what the bounded functions compute, and a
  fragment that the merging ends with holds every relation that no Unnest expands.
-/

set_option linter.unusedSectionVars false

namespace Verax.JoinOrder

open Verax.Lib.StateExcept Verax.Lib.Loops
open Enumerator

variable {F σ : Type} [Add F] [BEq F] [LT F] [DecidableLT F] {env : Env F σ}
  {fragments : List RelationSet}

/-! ### Expansion -/

/-- A set expanded by Unnests: it reaches into no other fragment, and what it gains are
relations. -/
structure Extends (g : JoinHypergraph) (set set' : RelationSet) : Prop where
  subset : set ⊆ set'
  grows : Grows g set set'
  ids : ∀ v ∈ set', v ∉ set → v ∈ RelationSet.allIds

lemma Extends.refl (g : JoinHypergraph) (set : RelationSet) : Extends g set set :=
  ⟨subset_rfl, .refl g set, fun _ hv hnot => absurd hv hnot⟩

lemma Extends.trans {g : JoinHypergraph} {A B C : RelationSet} (h : Extends g A B)
    (h' : Extends g B C) : Extends g A C := by
  refine ⟨h.subset.trans h'.subset, h.grows.trans h'.grows, fun v hv hnot => ?_⟩
  by_cases hB : v ∈ B
  · exact h.ids v hB hnot
  · exact h'.ids v hv hB

/-- The relations of a set that it does not have yet. -/
def missing (set : RelationSet) : ℕ := (RelationSet.allIds \ set).card

lemma missing_le (set : RelationSet) : missing set ≤ RelationSet.kMaxRelations := by
  have h := Finset.card_le_card (Finset.sdiff_subset (s := RelationSet.allIds) (t := set))
  simpa [missing, RelationSet.allIds] using h

lemma missing_lt {set set' : RelationSet} {v : ℕ} (hsub : set ⊆ set') (hv : v ∈ set')
    (hnot : v ∉ set) (hid : v ∈ RelationSet.allIds) : missing set' < missing set := by
  refine Finset.card_lt_card (Finset.ssubset_iff_subset_ne.mpr ⟨?_, fun heq => ?_⟩)
  · exact Finset.sdiff_subset_sdiff subset_rfl hsub
  · have hmem : v ∈ RelationSet.allIds \ set := Finset.mem_sdiff.mpr ⟨hid, hnot⟩
    rw [← heq] at hmem
    exact (Finset.mem_sdiff.mp hmem).2 hv

lemma Extends.missing_lt {g : JoinHypergraph} {set set' : RelationSet} (h : Extends g set set')
    (hne : set' ≠ set) : missing set' < missing set := by
  obtain ⟨v, hv, hnot⟩ := Finset.not_subset.mp fun hsub => hne (hsub.antisymm h.subset)
  exact JoinOrder.missing_lt h.subset hv hnot (h.ids v hv hnot)

section greedy

-- A relation set of the source is a word of `kMaxRelations` bits, so the edges read no other ids.
variable (hU : UnnestsDistinct env.graph)
  (hids : ∀ e ∈ env.graph.edges, e.totalEligibility ⊆ RelationSet.allIds)
include hU hids

/-- A pass expands a set, and says whether it did. -/
lemma expandPass_extends : ∀ {entries : List (JoinEdge × ℕ)} {set : RelationSet} {grown : Bool},
    (∀ x ∈ entries, env.graph.edges[x.2]? = some x.1) →
    Triple (fun _ => True) (expandPass env entries set grown) fun r _ =>
      Extends env.graph set r.1 ∧ (r.2 = true → grown = true ∨ r.1 ≠ set)
  | [], set, grown, _ => .pure fun _ _ => ⟨.refl _ _, .inl⟩
  | (e, i) :: rest, set, grown, hentries => by
    have he : env.graph.edges[i]? = some e := hentries _ List.mem_cons_self
    have hmem := List.mem_of_getElem? he
    have hrest : ∀ x ∈ rest, env.graph.edges[x.2]? = some x.1 :=
      fun x hx => hentries x (List.mem_cons_of_mem _ hx)
    rw [expandPass]
    refine .ite (fun _ => expandPass_extends hrest) fun hcond => ?_
    simp only [Bool.or_eq_true, Bool.not_eq_true', decide_eq_false_iff_not, decide_eq_true_eq,
      not_or, Bool.not_eq_false, not_not] at hcond
    obtain ⟨⟨hunnest, hleft⟩, hnot⟩ := hcond
    have hextends : Extends env.graph set (set ∪ e.rightEligibility) := by
      refine ⟨Finset.subset_union_left, ?_, fun v hv hvset => ?_⟩
      · rw [(e.unnest_shape hunnest).2.2.2]
        exact .expand hU hmem hunnest hleft
      · have hv := (Finset.mem_union.mp hv).resolve_left hvset
        exact hids e hmem (Finset.mem_union_right _ hv)
    refine .bind (Q := fun _ _ => True) (.update fun _ _ => trivial) fun _ => .read fun st => ?_
    split
    · exact expandPass_extends hrest
    · refine (expandPass_extends hrest).conseq (fun _ h => h) fun r _ h =>
        ⟨hextends.trans h.1, fun _ => .inr fun heq => hnot ?_⟩
      rw [← heq]
      exact Finset.subset_union_right.trans h.1.subset

lemma expandThroughUnnests_extends : ∀ {bound : ℕ} {set : RelationSet},
    Triple (fun _ => True) (expandThroughUnnests env bound set) fun r _ =>
      Extends env.graph set r
  | 0, set => .pure fun _ _ => .refl _ _
  | bound + 1, set => by
    rw [expandThroughUnnests]
    refine .bind (expandPass_extends hU hids fun _ => JoinHypergraph.getElem?_of_mem_zipIdx)
      fun r => ?_
    refine .ite (fun _ st h => ?_) fun _ => .pure fun _ h => h.1
    intro grown st' heq
    exact h.1.trans (expandThroughUnnests_extends st trivial grown st' heq)

/-- A round of the expansion. Source: `DPhyp.cpp` `expandThroughUnnests`, body of the loop. -/
def expandRound (env : Env F σ) (set : RelationSet) : EnumM F σ (RelationSet ⊕ RelationSet) := do
  let r ← expandPass env env.graph.edges.zipIdx set false
  pure (if r.2 then .inl r.1 else .inr r.1)

omit hU hids in
lemma expandThroughUnnests_succ (bound : ℕ) (set : RelationSet) :
    expandThroughUnnests env (bound + 1) set =
      expandRound env set >>= Sum.elim (expandThroughUnnests env bound) pure := by
  rw [expandThroughUnnests, expandRound, bind_assoc]
  refine congrArg (expandPass env env.graph.edges.zipIdx set false >>= ·) (funext fun r => ?_)
  rw [pure_bind]
  split <;> rfl

/-- A round that is not the last one gains a relation. -/
lemma expandRound_progress {set : RelationSet} :
    Triple (fun _ => True) (expandRound env set) fun r _ => ∀ set', r = .inl set' →
      True ∧ missing set' < missing set := by
  refine .bind (expandPass_extends hU hids fun _ => JoinHypergraph.getElem?_of_mem_zipIdx)
    fun r => .pure fun st h set' heq => ?_
  split at heq
  · rename_i hr
    obtain rfl := Sum.inl.inj heq
    exact ⟨trivial, h.1.missing_lt ((h.2 hr).resolve_left Bool.false_ne_true)⟩
  · cases heq

/-- **The expansion of a set ends by itself.** -/
lemma expandThroughUnnests_ends {set : RelationSet} {st : State F σ}
    {r : Except EnumError RelationSet × State F σ} :
    LoopRuns (expandRound env) set st r ↔ r = exec (expandThroughUnnests env maxDepth set) st :=
  loopRuns_iff expandThroughUnnests_succ (I := fun _ => True)
    (fun _ _ => expandRound_progress hU hids) trivial (Nat.lt_succ_of_le (missing_le set))

/-- One of the fragments is expanded. -/
lemma expandOneFragment_extends : ∀ {l : List RelationSet},
    Triple (fun _ => True) (expandOneFragment env l) fun r _ => ∀ l', r = some l' →
      ∃ pre f post f', l = pre ++ f :: post ∧ l' = pre ++ f' :: post ∧ f' ≠ f ∧
        Extends env.graph f f'
  | [] => .pure fun _ _ l' heq => by cases heq
  | f :: rest => by
    have hlater : Triple (fun _ => True)
        (do
          let r ← expandOneFragment env rest
          return r.map (f :: ·))
        fun r _ => ∀ l', r = some l' → ∃ pre f₁ post f', f :: rest = pre ++ f₁ :: post ∧
          l' = pre ++ f' :: post ∧ f' ≠ f₁ ∧ Extends env.graph f₁ f' := by
      refine .bind expandOneFragment_extends fun r => .pure fun st h l' heq => ?_
      obtain ⟨l'', hl'', rfl⟩ := Option.map_eq_some_iff.mp heq
      obtain ⟨pre, f₁, post, f', rfl, rfl, hne, hextends⟩ := h l'' hl''
      exact ⟨f :: pre, f₁, post, f', rfl, rfl, hne, hextends⟩
    rw [expandOneFragment]
    simp only
    refine .ite (fun _ => ?_) fun _ => hlater
    refine .bind (expandThroughUnnests_extends hU hids) fun grown => ?_
    by_cases heq : grown = f
    · rw [if_neg (not_not.mpr heq)]
      exact hlater.conseq (fun _ _ => trivial) fun _ _ h => h
    · rw [if_pos heq]
      refine .pure fun st h l' hl' => ?_
      obtain rfl := Option.some.inj hl'
      exact ⟨[], f, rest, grown, rfl, rfl, heq, h⟩

/-! ### Merging -/

omit hU hids in
/-- The best pair is one of those tried. -/
lemma bestPair_mem : ∀ {pairs : List (RelationSet × RelationSet)} {best : BestPair F},
    Triple (fun _ => True) (bestPair env pairs best) fun r _ => ∀ c left right,
      r = some (c, left, right) → best = r ∨ (left, right) ∈ pairs
  | [], best => .pure fun _ _ _ _ _ _ => .inl rfl
  | (left, right) :: rest, best => by
    have hstep : Triple (fun _ => True) (considerPair env best left right) fun r _ =>
        r = best ∨ ∃ c, r = some (c, left, right) := by
      unfold considerPair
      refine .bind (Q := fun _ _ => True) (fun _ _ _ _ _ => trivial) fun _ => .read fun st => ?_
      split
      · exact .pure fun _ _ => .inl rfl
      · exact .pure fun _ _ => .inr ⟨_, rfl⟩
      · exact .ite (fun _ => .pure fun _ _ => .inr ⟨_, rfl⟩) fun _ => .pure fun _ _ => .inl rfl
    rw [bestPair]
    refine .bind hstep fun r st h best' st' hexec c l r' heq => ?_
    rcases bestPair_mem st trivial best' st' hexec c l r' heq with hr | hmem
    · rcases h with rfl | ⟨c', rfl⟩
      · exact .inl hr
      · rw [heq] at hr
        cases hr
        exact .inr List.mem_cons_self
    · exact .inr (List.mem_cons_of_mem _ hmem)

/-- The relations of fragments. -/
def covered (fragments : List RelationSet) : RelationSet := fragments.foldr (· ∪ ·) ∅

omit hU hids in
lemma mem_covered {v : ℕ} : v ∈ covered fragments ↔ ∃ f ∈ fragments, v ∈ f := by
  induction fragments with
  | nil => simp [covered]
  | cons f fragments ih => simpa [covered] using or_congr_right ih

/-- The rounds left at most: each merges two fragments, or gains a relation. -/
def roundsLeft (fragments : List RelationSet) : ℕ := fragments.length + missing (covered fragments)

omit hU hids in
lemma Pieces.covered_merged {g : JoinHypergraph} {left right : RelationSet}
    (h : Pieces g fragments) (hp : (left, right) ∈ laterPairs fragments) :
    covered (merged fragments left right) = covered fragments := by
  obtain ⟨hleft, hright, -, -⟩ := h.of_mem_laterPairs hp
  ext v
  simp only [mem_covered, h.mem_merged hp]
  constructor
  · rintro ⟨f, rfl | ⟨hf, -, -⟩, hv⟩
    · rcases Finset.mem_union.mp hv with hv | hv
      · exact ⟨left, hleft, hv⟩
      · exact ⟨right, hright, hv⟩
    · exact ⟨f, hf, hv⟩
  · rintro ⟨f, hf, hv⟩
    by_cases hl : f = left
    · exact ⟨_, .inl rfl, Finset.mem_union_left _ (hl ▸ hv)⟩
    · by_cases hr : f = right
      · exact ⟨_, .inl rfl, Finset.mem_union_right _ (hr ▸ hv)⟩
      · exact ⟨f, .inr ⟨hf, hl, hr⟩, hv⟩

omit hU hids in
/-- Of two fragments one is left. -/
lemma Pieces.length_merged {g : JoinHypergraph} {left right : RelationSet}
    (h : Pieces g fragments) (hp : (left, right) ∈ laterPairs fragments) :
    (merged fragments left right).length + 1 = fragments.length := by
  obtain ⟨hleft, hright, hne, hdisj⟩ := h.of_mem_laterPairs hp
  obtain ⟨v, hv⟩ := h.nonempty left hleft
  have hunion : left ∪ right ≠ right := fun heq =>
    Finset.disjoint_left.mp hdisj hv (heq ▸ Finset.mem_union_left right hv)
  have hfilter : fragments.filter ((fun f => decide (f ≠ right)) ∘
      fun f => if f = left then left ∪ right else f) = fragments.erase right := by
    rw [h.nodup.erase_eq_filter]
    refine List.filter_congr fun f _ => ?_
    by_cases heq : f = left
    · simp [heq, hunion, hne]
    · simp [heq, bne, beq_eq_decide]
  have hpos := List.length_pos_of_mem hright
  rw [merged, List.filter_map, List.length_map, hfilter, List.length_erase_of_mem hright]
  omega

omit hU hids in
lemma Pieces.roundsLeft_merged {g : JoinHypergraph} {left right : RelationSet}
    (h : Pieces g fragments) (hp : (left, right) ∈ laterPairs fragments) :
    roundsLeft (merged fragments left right) < roundsLeft fragments := by
  have hlength := h.length_merged hp
  rw [roundsLeft, roundsLeft, h.covered_merged hp]
  omega

omit hU hids in
/-- An expanded fragment has relations that no fragment had. -/
lemma Pieces.expanded {g : JoinHypergraph} {pre post : List RelationSet} {f f' : RelationSet}
    (h : Pieces g (pre ++ f :: post)) (hne : f' ≠ f) (hextends : Extends g f f') :
    Pieces g (pre ++ f' :: post) ∧ covered (pre ++ f :: post) ⊆ covered (pre ++ f' :: post) ∧
      roundsLeft (pre ++ f' :: post) < roundsLeft (pre ++ f :: post) := by
  have hpieces := h.grow hextends.grows hextends.subset
  have hsub : covered (pre ++ f :: post) ⊆ covered (pre ++ f' :: post) := by
    intro v hv
    obtain ⟨A, hA, hvA⟩ := mem_covered.mp hv
    rcases List.mem_append.mp hA with hA | hA
    · exact mem_covered.mpr ⟨A, List.mem_append_left _ hA, hvA⟩
    · rcases List.mem_cons.mp hA with rfl | hA
      · exact mem_covered.mpr ⟨f', by simp, hextends.subset hvA⟩
      · exact mem_covered.mpr ⟨A, by simp [hA], hvA⟩
  refine ⟨hpieces, hsub, ?_⟩
  obtain ⟨v, hv, hnot⟩ := Finset.not_subset.mp fun hsub => hne (hsub.antisymm hextends.subset)
  have hnew : v ∉ covered (pre ++ f :: post) := by
    intro hcovered
    obtain ⟨A, hA, hvA⟩ := mem_covered.mp hcovered
    have hdisj := List.pairwise_append.mp hpieces.disjoint
    rcases List.mem_append.mp hA with hA | hA
    · exact Finset.disjoint_left.mp (hdisj.2.2 A hA f' List.mem_cons_self) hvA hv
    · rcases List.mem_cons.mp hA with rfl | hA
      · exact hnot hvA
      · exact Finset.disjoint_left.mp ((List.pairwise_cons.mp hdisj.2.1).1 A hA) hv hvA
  have hmissing := missing_lt hsub (mem_covered.mpr ⟨f', by simp, hv⟩) hnew
    (hextends.ids v hv hnot)
  simp only [roundsLeft, List.length_append, List.length_cons]
  omega

/-- A round of the merging. Source: `DPhyp.cpp` `greedy`, body of the main loop. -/
def mergeRound (env : Env F σ) : List RelationSet →
    EnumM F σ (List RelationSet ⊕ Option RelationSet)
  | [] => pure (.inr none)
  | [fragment] => pure (.inr (some fragment))
  | fragments => do
    let best ← bestPair env (laterPairs fragments) none
    match best with
    | some (_, left, right) => pure (.inl (merged fragments left right))
    | none =>
      let r ← expandOneFragment env fragments
      match r with
      | some fragments => pure (.inl fragments)
      | none => pure (.inr none)

omit hU hids in
lemma mergeFragments_succ (bound : ℕ) : ∀ fragments : List RelationSet,
    mergeFragments env (bound + 1) fragments =
      mergeRound env fragments >>= Sum.elim (mergeFragments env bound) pure
  | [] => rfl
  | [_] => rfl
  | f :: f' :: rest => by
    rw [mergeFragments, mergeRound, bind_assoc]
    · refine congrArg (bestPair env _ none >>= ·) (funext fun best => ?_)
      cases best with
      | some pair => rfl
      | none =>
          rw [bind_assoc]
          exact congrArg (expandOneFragment env _ >>= ·) (funext fun r => by cases r <;> rfl)
    all_goals
      intros
      simp_all

/-- A round that is not the last one has fragments again, which hold what was held, and fewer
rounds are left; the last one ends with the only fragment, or with none. -/
lemma mergeRound_progress : ∀ {l : List RelationSet}, Pieces env.graph l →
    Triple (fun _ => True) (mergeRound env l) fun r _ =>
      (∀ l', r = .inl l' →
        (Pieces env.graph l' ∧ covered l ⊆ covered l') ∧ roundsLeft l' < roundsLeft l) ∧
      ∀ f, r = .inr (some f) → l = [f]
  | [], _ => .pure fun _ _ => ⟨(fun _ heq => by cases heq), (fun _ heq => by cases heq)⟩
  | [f], _ => by
    refine .pure fun _ _ => ⟨(fun _ heq => by cases heq), fun f' heq => ?_⟩
    obtain rfl := Option.some.inj (Sum.inr.inj heq)
    rfl
  | f :: f' :: rest, hpieces => by
    rw [mergeRound]
    · refine .bind bestPair_mem fun best => ?_
      cases best with
      | some pair =>
          obtain ⟨c, left, right⟩ := pair
          refine .pure fun st hbest => ⟨fun l' heq => ?_, (fun _ heq => by cases heq)⟩
          obtain rfl := Sum.inl.inj heq
          have hp := (hbest c left right rfl).resolve_left fun heq => by cases heq
          exact ⟨⟨hpieces.merge hp, (hpieces.covered_merged hp).symm.subset⟩,
            hpieces.roundsLeft_merged hp⟩
      | none =>
          refine .bind ((expandOneFragment_extends hU hids).conseq (fun _ _ => trivial)
            fun _ _ h => h) fun r => ?_
          cases r with
          | none =>
              exact .pure fun _ _ => ⟨(fun _ heq => by cases heq), (fun _ heq => by cases heq)⟩
          | some grown =>
              refine .pure fun st h => ⟨fun l' heq => ?_, (fun _ heq => by cases heq)⟩
              obtain rfl := Sum.inl.inj heq
              obtain ⟨pre, A, post, A', hl, rfl, hne, hextends⟩ := h _ rfl
              rw [hl] at hpieces ⊢
              obtain ⟨hpieces', hsub, hlt⟩ := hpieces.expanded hne hextends
              exact ⟨⟨hpieces', hsub⟩, hlt⟩
    all_goals
      intros
      simp_all

/-- **The merging of fragments ends by itself.** -/
lemma mergeFragments_ends {bound : ℕ} {l : List RelationSet} (hl : Pieces env.graph l)
    (hbound : roundsLeft l < bound) {st : State F σ}
    {r : Except EnumError (Option RelationSet) × State F σ} :
    LoopRuns (mergeRound env) l st r ↔ r = exec (mergeFragments env bound l) st :=
  loopRuns_iff mergeFragments_succ (I := Pieces env.graph) (fun _ hl =>
    (mergeRound_progress hU hids hl).conseq (fun _ h => h) fun _ _ h l' heq =>
      ⟨(h.1 l' heq).1.1, (h.1 l' heq).2⟩) hl hbound

/-- The fragment that the merging ends with holds what the fragments held. -/
lemma mergeFragments_covers {l : List RelationSet} (hl : Pieces env.graph l) {st : State F σ}
    {r : Except EnumError (Option RelationSet) × State F σ}
    (h : LoopRuns (mergeRound env) l st r) {f : RelationSet} (hf : r.1 = .ok (some f)) :
    covered l ⊆ f := by
  refine h.returns (I := fun l' => Pieces env.graph l' ∧ covered l ⊆ covered l')
    (Q := fun b => ∀ f, b = some f → covered l ⊆ f) (fun l₁ hl₁ => ?_) ⟨hl, subset_rfl⟩ _ hf f rfl
  refine (mergeRound_progress hU hids hl₁.1).conseq (fun _ h => h) fun r _ h => ⟨fun l' heq => ?_,
    fun b heq f hb => ?_⟩
  · exact ⟨(h.1 l' heq).1.1, hl₁.2.trans (h.1 l' heq).1.2⟩
  · obtain rfl := h.2 f (hb ▸ heq)
    simpa [covered] using hl₁.2

/-! ### What an expansion would gain -/

omit hU in
/-- A pass over the edges gains relations. -/
lemma expandablePass_extends (set gained : RelationSet) :
    gained ⊆ expandablePass env set gained ∧
      ∀ v ∈ expandablePass env set gained, v ∉ gained → v ∈ RelationSet.allIds := by
  refine List.foldlRecOn (motive := fun gained' => gained ⊆ gained' ∧
    ∀ v ∈ gained', v ∉ gained → v ∈ RelationSet.allIds) _ _
    ⟨subset_rfl, fun _ hv hnot => absurd hv hnot⟩ fun gained' h e he => ?_
  split
  · refine ⟨h.1.trans Finset.subset_union_left, fun v hv hnot => ?_⟩
    rcases Finset.mem_union.mp hv with hv | hv
    · exact h.2 v hv hnot
    · exact hids e he (Finset.mem_union_right _ hv)
  · exact h

omit hU in
/-- **The collecting of what an expansion would gain ends by itself**: nothing is left to gain. -/
lemma expandableRelations_ends (set : RelationSet) :
    expandablePass env set (expandableRelations env set) = expandableRelations env set := by
  have hiterate : ∀ (bound : ℕ) (gained : RelationSet), missing gained < bound →
      expandablePass env set ((expandablePass env set)^[bound] gained) =
        (expandablePass env set)^[bound] gained := by
    intro bound
    induction bound with
    | zero => exact fun gained h => absurd h (Nat.not_lt_zero _)
    | succ bound ih =>
        intro gained h
        rw [Function.iterate_succ_apply]
        by_cases heq : expandablePass env set gained = gained
        · rw [heq, Function.iterate_fixed heq, heq]
        · obtain ⟨hsub, hnew⟩ := expandablePass_extends hids set gained
          obtain ⟨v, hv, hnot⟩ := Finset.not_subset.mp fun hback => heq (hback.antisymm hsub)
          exact ih _ (Nat.lt_of_lt_of_le (missing_lt hsub hv hnot (hnew v hv hnot))
            (Nat.le_of_lt_succ h))
  exact hiterate maxDepth ∅ (Nat.lt_succ_of_le (missing_le ∅))

/-! ### The whole fallback -/

/-- The state that the fallback merges from. Source: `DPhyp.cpp` `greedy`. -/
def greedyStart (env : Env F σ) (component : RelationSet) (st : State F σ) : State F σ :=
  initLeaves env component { st with budget := st.budget.disable }

/-- The runs of the greedy fallback, its loops without any bound. Source: `DPhyp.cpp` `greedy`. -/
inductive GreedyRuns (env : Env F σ) (component : RelationSet) (st : State F σ) :
    Except EnumError (Option (MemoOp F)) × State F σ → Prop
  | unknown :
      allCardinalitiesKnown (unexpanded env.graph component) (greedyStart env component st) =
        false →
      GreedyRuns env component st (.ok none, greedyStart env component st)
  | mergeRaised {e : EnumError} {st₁ : State F σ} :
      allCardinalitiesKnown (unexpanded env.graph component) (greedyStart env component st) = true →
      LoopRuns (mergeRound env) (singles env.graph component) (greedyStart env component st)
        (.error e, st₁) →
      GreedyRuns env component st (.error e, st₁)
  | stuck {st₁ : State F σ} :
      allCardinalitiesKnown (unexpanded env.graph component) (greedyStart env component st) = true →
      LoopRuns (mergeRound env) (singles env.graph component) (greedyStart env component st)
        (.ok none, st₁) →
      GreedyRuns env component st (.ok none, st₁)
  | expandRaised {f : RelationSet} {e : EnumError} {st₁ st₂ : State F σ} :
      allCardinalitiesKnown (unexpanded env.graph component) (greedyStart env component st) = true →
      LoopRuns (mergeRound env) (singles env.graph component) (greedyStart env component st)
        (.ok (some f), st₁) →
      LoopRuns (expandRound env) f st₁ (.error e, st₂) →
      GreedyRuns env component st (.error e, st₂)
  | planned {f set : RelationSet} {st₁ st₂ : State F σ} :
      allCardinalitiesKnown (unexpanded env.graph component) (greedyStart env component st) = true →
      LoopRuns (mergeRound env) (singles env.graph component) (greedyStart env component st)
        (.ok (some f), st₁) →
      LoopRuns (expandRound env) f st₁ (.ok set, st₂) →
      GreedyRuns env component st (.ok (st₂.cheapestPlan component), st₂)

omit hU hids in
lemma mem_covered_singles {g : JoinHypergraph} {component : RelationSet} {v : ℕ} :
    v ∈ covered (singles g component) ↔
      v ∈ RelationSet.toAscending component ∧ v ∉ g.expandedRelationIds := by
  simp [mem_covered, singles, unexpanded, and_comm]

omit hU hids in
lemma roundsLeft_singles (g : JoinHypergraph) (component : RelationSet) :
    roundsLeft (singles g component) < 2 * maxDepth := by
  have hmissing := missing_le (covered (singles g component))
  have hlength : (singles g component).length ≤ RelationSet.kMaxRelations := by
    calc (singles g component).length
        ≤ (RelationSet.toAscending component).length := by
          rw [singles, unexpanded, List.length_map]
          exact List.length_filter_le _ _
      _ ≤ (List.range RelationSet.kMaxRelations).length := List.length_filter_le _ _
      _ = RelationSet.kMaxRelations := List.length_range
  rw [roundsLeft, maxDepth]
  omega

omit hU hids in
lemma exec_greedy_unknown {component : RelationSet} {st : State F σ}
    (h : allCardinalitiesKnown (unexpanded env.graph component)
      (greedyStart env component st) = false) :
    exec (greedy env component) st = (.ok none, greedyStart env component st) := by
  rw [greedy, exec_modify_bind, exec_get_bind, if_pos]
  · rfl
  · simpa [unexpanded, greedyStart] using h

omit hU hids in
lemma exec_greedy_known {component : RelationSet} {st : State F σ}
    (h : allCardinalitiesKnown (unexpanded env.graph component)
      (greedyStart env component st) = true) :
    exec (greedy env component) st =
      exec (mergeFragments env (2 * maxDepth) (singles env.graph component) >>= fun r =>
        Option.elim r (pure none) fun f => expandThroughUnnests env maxDepth f >>= fun _ =>
          get >>= fun st => pure (st.cheapestPlan component)) (greedyStart env component st) := by
  rw [greedy, exec_modify_bind, exec_get_bind, if_neg]
  · refine congrArg (exec · _) (congrArg (_ >>= ·) (funext fun r => ?_))
    cases r <;> rfl
  · simpa [unexpanded, greedyStart] using h

/-- The fallback without a bound is the bounded one. -/
lemma greedyRuns_iff {component : RelationSet} {st : State F σ}
    {r : Except EnumError (Option (MemoOp F)) × State F σ} :
    GreedyRuns env component st r ↔ r = exec (greedy env component) st := by
  have hmerge : ∀ {st r}, LoopRuns (mergeRound env) (singles env.graph component) st r ↔
      r = exec (mergeFragments env (2 * maxDepth) (singles env.graph component)) st :=
    mergeFragments_ends hU hids (pieces_singles component) (roundsLeft_singles env.graph component)
  constructor
  · intro h
    cases h with
    | unknown hunknown => rw [exec_greedy_unknown hunknown]
    | mergeRaised hknown h => rw [exec_greedy_known hknown, exec_bind, ← hmerge.mp h]
    | stuck hknown h => rw [exec_greedy_known hknown, exec_bind_ok (hmerge.mp h).symm]; rfl
    | expandRaised hknown h h' =>
        rw [exec_greedy_known hknown, exec_bind_ok (hmerge.mp h).symm, Option.elim_some, exec_bind,
          ← (expandThroughUnnests_ends hU hids).mp h']
    | planned hknown h h' =>
        rw [exec_greedy_known hknown, exec_bind_ok (hmerge.mp h).symm, Option.elim_some,
          exec_bind_ok ((expandThroughUnnests_ends hU hids).mp h').symm]
        rfl
  · rintro rfl
    rcases hknown : allCardinalitiesKnown (unexpanded env.graph component)
      (greedyStart env component st)
    · rw [exec_greedy_unknown hknown]
      exact .unknown hknown
    · rw [exec_greedy_known hknown]
      rcases hexec : exec (mergeFragments env (2 * maxDepth) (singles env.graph component))
        (greedyStart env component st) with ⟨e | _ | f, st₁⟩
      · rw [exec_bind, hexec]
        exact .mergeRaised hknown (hmerge.mpr hexec.symm)
      · rw [exec_bind_ok hexec]
        exact .stuck hknown (hmerge.mpr hexec.symm)
      · rw [exec_bind_ok hexec, Option.elim_some]
        rcases hexec' : exec (expandThroughUnnests env maxDepth f) st₁ with ⟨e | set, st₂⟩
        · rw [exec_bind, hexec']
          exact .expandRaised hknown (hmerge.mpr hexec.symm)
            ((expandThroughUnnests_ends hU hids).mpr hexec'.symm)
        · rw [exec_bind_ok hexec']
          exact .planned hknown (hmerge.mpr hexec.symm)
            ((expandThroughUnnests_ends hU hids).mpr hexec'.symm)

/-- **The greedy fallback ends by itself.** Whatever the graph, the costs and the memo, the loops of
the fallback end without any bound, and with what the bounded functions compute. The merging of the
fragments of a component ends with none or with one that holds every relation of the component that
no Unnest expands, and a pass over the edges adds nothing to what an expansion would gain. -/
theorem greedy_ends (component : RelationSet) :
    (∀ st r, GreedyRuns env component st r ↔ r = exec (greedy env component) st) ∧
    (∀ st r, LoopRuns (mergeRound env) (singles env.graph component) st r →
      ∀ f, r.1 = .ok (some f) → ∀ v ∈ RelationSet.toAscending component,
        v ∉ env.graph.expandedRelationIds → v ∈ f) ∧
    (∀ set st r, LoopRuns (expandRound env) set st r ↔
      r = exec (expandThroughUnnests env maxDepth set) st) ∧
    ∀ set, expandablePass env set (expandableRelations env set) = expandableRelations env set := by
  refine ⟨fun st r => greedyRuns_iff hU hids, fun st r h f hf v hv hnot => ?_,
    fun set st r => expandThroughUnnests_ends hU hids, expandableRelations_ends hids⟩
  exact mergeFragments_covers hU hids (pieces_singles component) h hf
    (mem_covered_singles.mpr ⟨hv, hnot⟩)

end greedy

namespace UnnestBesideJoin

/-- The fallback plans a join of three relations, one of them expanded by an Unnest, and ends by
itself. -/
theorem cycle_ends : ∃ root st, GreedyRuns (oneWorker cycle) {0, 1, 2}
    (DPhyp.initialState (fun _ => none) 1) (.ok (some root), st) := by
  have hU : UnnestsDistinct (oneWorker cycle).graph := distinct_cycle.addTransitiveInnerEdges
  have hids : ∀ e ∈ (oneWorker cycle).graph.edges,
      e.totalEligibility ⊆ RelationSet.allIds := by decide +kernel
  have hsome : ((exec (greedy (oneWorker cycle) {0, 1, 2})
      (DPhyp.initialState (fun _ => none) 1)).1.toOption.bind id).isSome = true := by decide +kernel
  rcases hrun : exec (greedy (oneWorker cycle) {0, 1, 2}) (DPhyp.initialState (fun _ => none) 1)
    with ⟨e | root, st⟩
  · rw [hrun] at hsome
    cases hsome
  rw [hrun] at hsome
  cases root with
  | none => cases hsome
  | some root => exact ⟨root, st, ((greedy_ends hU hids {0, 1, 2}).1 _ _).mpr hrun.symm⟩

end UnnestBesideJoin

end Verax.JoinOrder
